/-
Handing out slots.

How many slots a function needs can be counted in the tree: one for each of its
parameters, and those that the nodes of its body take.  Here it is said what it means
that they are taken.  `Hands` follows an action through its steps and lists the slots
that are handed out on the way.  That a list is the right one, and that the functions
made meanwhile got theirs, is `Allots`; and an action that also fails for want of slots
only if there are too many is one that allots them as it should.

Slots are given out in turn and never taken back, so the list of one step goes on where
that of the step before has ended.
-/
import Mathlib.Algebra.GroupWithZero.Nat
import QueryCompiler.Proofs.Script.Appending

namespace QueryCompiler

open Workspace

/-! ### Counting -/

namespace Node

/-- The slots that a node takes for itself. -/
def ownSlots : Node → Nat
  | varDecl .. | importAs .. | forEach .. | transform .single .. => 1
  | transform .each .. => 2
  | tryCatch _ binding _ _ => if binding.isSome then 1 else 0
  | _ => 0

/-- The children that belong to the same function. -/
def inside : Node → List Node
  | lambda .. => []
  | node => node.children

theorem mem_children_of_inside {parent node : Node} (h : node ∈ parent.inside) :
    node ∈ parent.children := by
  cases parent with
  | lambda => cases h
  | _ => exact h

/-- **The slots that a node takes,** with all that is below it and not inside a lambda. -/
def slots (node : Node) : Nat :=
  node.ownSlots + (node.inside.attach.map fun child => child.val.slots).sum
termination_by node.size
decreasing_by exact size_lt_of_mem_children (mem_children_of_inside child.property)

theorem slots_eq (node : Node) : node.slots = node.ownSlots + (node.inside.map slots).sum := by
  rw [slots]
  congr 2
  conv_rhs => rw [← List.attach_map_subtype_val node.inside, List.map_map]
  rfl

/-- The parameters and the locals of the function that a node makes itself. -/
def ownTally : Node → List (Nat × Nat)
  | lambda params body _ => [(params.length, params.length + body.slots)]
  | _ => []

/-- **The parameters and the locals of the functions that a node makes,** in order. -/
def tallies (node : Node) : List (Nat × Nat) :=
  node.ownTally ++ node.children.attach.flatMap fun child => child.val.tallies
termination_by node.size
decreasing_by exact size_lt_of_mem_children child.property

theorem tallies_eq (node : Node) :
    node.tallies = node.ownTally ++ node.children.flatMap tallies := by
  rw [tallies]
  congr 1
  conv_rhs => rw [← List.attach_map_subtype_val node.children, List.flatMap_map]

end Node

namespace Errand

/-- The slots that an errand takes in the function at hand. -/
def slots : Errand → Nat
  | part node _ => node.slots
  | slot => 1
  | function .. => 0

/-- The parameters and the locals of the functions that an errand makes. -/
def tallies : Errand → List (Nat × Nat)
  | part node _ => node.tallies
  | slot => []
  | function params body => (params.length, params.length + body.slots) :: body.tallies

/-- Where parts are lowered makes no difference to what they need. -/
theorem map_parts {β : Type} {f : Errand → β} {g : Node → β}
    (h : ∀ node place, f (.part node place) = g node) (nodes : List Node) (places : Nat → Place) :
    (nodes.mapIdx fun i node => Errand.part node (places i)).map f = nodes.map g := by
  induction nodes generalizing places with
  | nil => rfl
  | cons node rest ih =>
      rw [List.mapIdx_cons, List.map_cons, List.map_cons, h, ih fun i => places (i + 1)]

/-- The slots of a function are those of its parameters and of its body. -/
theorem slots_body (params : List Name) (body : Node) (place : Place) :
    (((params.map fun _ => slot) ++ [part body place]).map slots).sum =
      params.length + body.slots := by
  simp [slots]

theorem tallies_body (params : List Name) (body : Node) (place : Place) :
    ((params.map fun _ => slot) ++ [part body place]).flatMap tallies = body.tallies := by
  simp [tallies]

end Errand

namespace Node

/-- What is to be done for a node takes the slots that it is said to take. -/
theorem slots_errands (node : Node) (place : Place) :
    ((node.errands place).map Errand.slots).sum = node.slots := by
  rw [slots_eq]
  cases node with
  | call callee arguments =>
      simp only [errands, List.map_cons, Errand.map_parts (f := Errand.slots) fun _ _ => rfl]
      exact (Nat.zero_add _).symm
  | transform mode =>
      cases mode <;> simp +arith [errands, ownSlots, inside, children, Errand.slots]
  | ifChain arms otherwise =>
      have harms : ((arms.flatMap fun arm => [Errand.part arm.1 place, .part arm.2 place]).map
          Errand.slots) = ((arms.flatMap fun arm => [arm.1, arm.2]).map slots) := by
        simp [List.map_flatMap, Errand.slots]
      simp [errands, ownSlots, inside, children, harms, Errand.slots, Function.comp_def]
  | tryCatch body binding =>
      cases binding <;> simp +arith [errands, ownSlots, inside, children, Errand.slots]
  | _ => simp +arith [errands, ownSlots, inside, children, Errand.slots, Function.comp_def]

/-- And it makes the functions that it is said to make. -/
theorem tallies_errands (node : Node) (place : Place) :
    (node.errands place).flatMap Errand.tallies = node.tallies := by
  rw [tallies_eq]
  cases node with
  | call callee arguments =>
      simp only [errands, children, List.flatMap_def, List.map_cons,
        Errand.map_parts (f := Errand.tallies) fun _ _ => rfl]
      rfl
  | transform mode => cases mode <;> simp [errands, ownTally, children, Errand.tallies]
  | ifChain arms otherwise =>
      simp [errands, ownTally, children, Errand.tallies, List.flatMap_map, List.flatMap_assoc]
  | tryCatch body binding => cases binding <;> simp [errands, ownTally, children, Errand.tallies]
  | _ => simp [errands, ownTally, children, Errand.tallies, List.flatMap_map]

end Node

/-! ### Handing out slots -/

/-- **The action gets done and hands out slots on the way.**  They are listed in order, each with
its function.  A step that hands out none leaves the next slots of the open functions alone and
opens no scope, so that what happens in a function, whose frame is gone in the end, is not lost. -/
inductive Hands : {α : Type} → Action Workspace α → Workspace → List (Nat × UInt16) → α →
    Workspace → Prop
  | still {α : Type} {action : Action Workspace α} {ws ws' : Workspace} {x : α}
      (hdone : action ws = .done x ws') (hserial : ws'.scopes.nextSerial = ws.scopes.nextSerial)
      (hfunctions : Frame.functions ws'.scopes.frames = Frame.functions ws.scopes.frames) :
      Hands action ws [] x ws'
  | takeSlot {span : Span} {ws ws' : Workspace} {f : Nat} {next slot : UInt16}
      {outer : List (Nat × UInt16)} (hdone : Workspace.takeSlot span ws = .done slot ws')
      (hfunctions : Frame.functions ws.scopes.frames = (f, next) :: outer) :
      Hands (Workspace.takeSlot span) ws [(f, slot)] slot ws'
  | bind {α β : Type} {first : Action Workspace α} {next : α → Action Workspace β}
      {ws ws₁ ws' : Workspace} {a b : List (Nat × UInt16)} {x : α} {y : β}
      (hfirst : Hands first ws a x ws₁) (hnext : Hands (next x) ws₁ b y ws') :
      Hands (first >>= next) ws (a ++ b) y ws'
  | attempt {α : Type} {action : Action Workspace α} {ws ws' : Workspace}
      {log : List (Nat × UInt16)} {x : α} (h : Hands action ws log x ws') :
      Hands action.attempt ws log (.ok x) ws'
  | within {α : Type} {state last : FrameState} {body : FrameId → Action Workspace α}
      {ws inside ws' : Workspace} {log : List (Nat × UInt16)} {x : α}
      (hbody : Hands (body ⟨ws.scopes.nextSerial, state.scope⟩) (ws.entered state) log x inside)
      (hdone : Workspace.within state body ws = .done (x, last) ws') :
      Hands (Workspace.within state body) ws log (x, last) ws'

/-- What is handed out is handed out by the action. -/
theorem Hands.done {α : Type} {action : Action Workspace α} {ws ws' : Workspace}
    {log : List (Nat × UInt16)} {x : α} (h : Hands action ws log x ws') :
    action ws = .done x ws' := by
  induction h with
  | still hdone | takeSlot hdone | within _ hdone => exact hdone
  | bind _ _ ihfirst ihnext =>
      rw [Action.bind_apply, ihfirst]
      exact ihnext
  | attempt _ ih => rw [Action.attempt, ih]

/-- The slots of a function among those that were handed out, in order. -/
def issued (function : Nat) (log : List (Nat × UInt16)) : List Nat :=
  (log.filter fun entry => entry.1 = function).map fun entry => entry.2.toNat

theorem issued_append (function : Nat) (a b : List (Nat × UInt16)) :
    issued function (a ++ b) = issued function a ++ issued function b := by
  rw [issued, List.filter_append, List.map_append]
  rfl

/-- The slots that go to a function: so many from a number on to the one at hand, none to the others
there are, and to new ones as many as they have locals. -/
def allotment (f n count size : Nat) (made : List (Nat × Nat)) (function : Nat) : List Nat :=
  if function = f then List.range' n count
  else if function < size then []
  else List.range ((made[function - size]?.map Prod.snd).getD 0)

theorem allotment_append (f n size c d : Nat) (a b : List (Nat × Nat)) (function : Nat) :
    allotment f n c size a function ++ allotment f (n + c) d (size + a.length) b function =
      allotment f n (c + d) size (a ++ b) function := by
  unfold allotment
  by_cases hown : function = f
  · simp only [if_pos hown, List.range'_append_1]
  · simp only [if_neg hown]
    by_cases hold : function < size
    · rw [if_pos hold, if_pos hold, if_pos (by omega)]
      rfl
    · rw [if_neg hold, if_neg hold]
      by_cases hfirst : function < size + a.length
      · rw [if_pos hfirst, List.append_nil, List.getElem?_append_left (by omega)]
      · rw [if_neg hfirst, List.getElem?_append_right (by omega),
          List.getElem?_eq_none (l := a) (by omega), Nat.sub_sub]
        rfl

/-- What comes of a function that is made and closed again. -/
theorem allotment_function {f n size : Nat} (hf : f < size) (params count : Nat)
    (made : List (Nat × Nat)) (function : Nat) :
    allotment size 0 count (size + 1) made function =
      allotment f n 0 size ((params, count) :: made) function := by
  unfold allotment
  by_cases hnew : function = size
  · rw [if_pos hnew, if_neg (by omega), if_neg (by omega), hnew, Nat.sub_self]
    exact List.range_eq_range'.symm
  · rw [if_neg hnew]
    by_cases hown : function = f
    · rw [if_pos hown, if_pos (by omega)]
      rfl
    · rw [if_neg hown]
      by_cases hold : function < size
      · rw [if_pos hold, if_pos (by omega)]
      · obtain ⟨k, rfl⟩ : ∃ k, function = size + 1 + k := ⟨function - (size + 1), by omega⟩
        have hindex : size + 1 + k - size = k + 1 := by omega
        rw [if_neg hold, if_neg (by omega), hindex, List.getElem?_cons_succ,
          Nat.add_sub_cancel_left]

/-- All functions of a program have been given as many slots as they have locals. -/
theorem allotment_main (count : Nat) (made : List (Nat × Nat)) (function : Nat) :
    allotment 0 0 count 1 made function =
      List.range ((((0, count) :: made)[function]?.map Prod.snd).getD 0) := by
  cases function with
  | zero => exact List.range_eq_range'.symm
  | succ g => rfl

/-! ### Accounts of slots -/

/-- The parameters and locals of the functions there are. -/
def Assembly.counts (code : Assembly) : List (Nat × Nat) :=
  code.tallies.map fun tally => (tally.1.toNat, tally.2.toNat)

theorem Assembly.length_counts (code : Assembly) : code.counts.length = code.routines.size := by
  simp [counts, tallies]

theorem Assembly.getElem?_counts (code : Assembly) (g : Nat) :
    code.counts[g]? = code.routines[g]?.map fun routine =>
      (routine.params.toNat, routine.locals.toNat) := by
  rw [counts, tallies, List.map_map, List.getElem?_map, Array.getElem?_toList]
  rfl

theorem Assembly.counts_opened (ws : Workspace) (params : UInt16) :
    (Layout.opened ws params).code.counts = ws.code.counts ++ [(params.toNat, params.toNat)] := by
  simp [counts, tallies, Layout.opened, Routine.start]

/-- The locals of the current function are settled at its end. -/
theorem Assembly.counts_reserveLocals {code : Assembly} {before after : List (Nat × Nat)}
    {params least : Nat} (h : code.counts = before ++ (params, least) :: after)
    (hcurrent : code.currentFunction = before.length) {locals : UInt16}
    (hle : least ≤ locals.toNat) :
    (code.reserveLocals locals).counts = before ++ (params, locals.toNat) :: after := by
  refine List.ext_getElem? fun g => ?_
  have hg : code.counts[g]? = (before ++ (params, least) :: after)[g]? := by rw [h]
  rw [getElem?_counts] at hg ⊢
  simp only [reserveLocals, modifyCurrent, Array.getElem?_modify, hcurrent]
  rcases Nat.lt_trichotomy before.length g with hafter | rfl | hbefore
  · obtain ⟨i, rfl⟩ : ∃ i, g = before.length + (i + 1) := ⟨g - before.length - 1, by omega⟩
    rw [if_neg (by omega), hg, List.getElem?_append_right (by omega),
      List.getElem?_append_right (by omega), Nat.add_sub_cancel_left, List.getElem?_cons_succ,
      List.getElem?_cons_succ]
  · rw [List.getElem?_append_right (Nat.le_refl _), Nat.sub_self] at hg ⊢
    obtain ⟨routine, hroutine, hcounts⟩ := Option.map_eq_some_iff.mp hg
    obtain ⟨hparams, hlocals⟩ := Prod.mk.inj hcounts
    have hmax : max routine.locals locals = locals :=
      if_pos (UInt16.le_iff_toNat_le.mpr (hlocals ▸ hle))
    rw [if_pos rfl, hroutine, Option.map_some, Option.map_some, Routine.reserve, hmax, hparams]
    rfl
  · rw [if_neg (by omega), hg, List.getElem?_append_left hbefore, List.getElem?_append_left hbefore]

/-- The function at hand, its next slot, and the functions around it. -/
structure Workspace.Counts (ws : Workspace) (f n : Nat) (outer : List (Nat × UInt16)) : Prop where
  there : f < ws.code.routines.size
  functions : ∃ next : UInt16, Frame.functions ws.scopes.frames = (f, next) :: outer ∧
    next.toNat = n

/-- The frame of a function tells its next slot, also in the end. -/
theorem Accounts.Ended.lastSlot {base inside : Workspace} {frame : Frame}
    (h : Ended base inside frame) {f : Nat} {next : UInt16} {outer : List (Nat × UInt16)}
    (hfunctions : Frame.functions inside.scopes.frames = (f, next) :: outer) :
    frame.state.nextSlot? = some next ∧
      Frame.functions (inside.left frame).scopes.frames = outer := by
  obtain ⟨rest, hframes, -⟩ := h.frames
  have hscope := h.scope
  rw [hframes] at hfunctions
  simp only [left, hframes, List.tail_cons]
  obtain ⟨serial, bindings, state⟩ := frame
  cases state with
  | function id next' =>
      obtain ⟨hhead, htail⟩ := List.cons.inj hfunctions
      exact ⟨congrArg some (Prod.mk.inj hhead).2, htail⟩
  | loop | transform | branch | handler | block => cases hscope

/-- So many slots of the function at hand were handed out, in order, and functions made that got
theirs. -/
structure Allots (f n : Nat) (outer : List (Nat × UInt16)) (count : Nat) (made : List (Nat × Nat))
    (ws : Workspace) (log : List (Nat × UInt16)) (ws' : Workspace) : Prop where
  counts : ws'.Counts f (n + count) outer
  tallies : ws'.code.counts = ws.code.counts ++ made
  issued : ∀ g, issued g log = allotment f n count ws.code.routines.size made g

namespace Allots

variable {f n c : Nat} {outer : List (Nat × UInt16)} {a : List (Nat × Nat)}
  {ws ws' ws'' : Workspace} {log : List (Nat × UInt16)}

theorem refl (h : ws.Counts f n outer) : Allots f n outer 0 [] ws [] ws :=
  ⟨h, (List.append_nil _).symm, fun g => by simp [QueryCompiler.issued, allotment]⟩

/-- A step that takes no slot. -/
theorem same (h : Allots f n outer c a ws log ws') (hsame : ws'.SameSlots ws'') :
    Allots f n outer c a ws log ws'' := by
  have hcounts : ws''.code.counts = ws'.code.counts := by
    rw [Assembly.counts, hsame.tallies]
    rfl
  refine ⟨⟨?_, hsame.functions ▸ h.counts.functions⟩, hcounts.trans h.tallies, h.issued⟩
  rw [← Assembly.length_counts, hcounts, Assembly.length_counts]
  exact h.counts.there

/-- The next slot of a function in the end is the number of its locals. -/
theorem closed {params : UInt16} {inside : Workspace} {frame : Frame} (hws : ws.Counts f n outer)
    (hparams : params.toNat ≤ c) (hframe : Accounts.Ended (Layout.opened ws params) inside frame)
    (h : Allots ws.code.routines.size 0 (Frame.functions ws.scopes.frames) c a
      (Accounts.inFunction ws params) log inside) :
    ∃ next, frame.state.nextSlot? = some next ∧ Allots f n outer 0 ((params.toNat, c) :: a) ws log
      (Layout.closed (inside.left frame) next ws.code.opened) := by
  obtain ⟨next, hfunctions, hnext⟩ := h.counts.functions
  obtain ⟨hlast, hrest⟩ := hframe.lastSlot hfunctions
  refine ⟨next, hlast, ?_⟩
  have hinside : inside.code.counts = ws.code.counts ++ (params.toNat, params.toNat) :: a := by
    rw [h.tallies, show (Accounts.inFunction ws params).code.counts = _ from
      Assembly.counts_opened ws params, List.append_assoc]
    rfl
  have hcurrent : inside.code.currentFunction = ws.code.counts.length := by
    rw [hframe.pends.currentFunction, Assembly.length_counts]
    rfl
  have hcounts : (Layout.closed (inside.left frame) next ws.code.opened).code.counts =
      ws.code.counts ++ (params.toNat, c) :: a := by
    rw [Nat.zero_add] at hnext
    subst hnext
    exact Assembly.counts_reserveLocals hinside hcurrent hparams
  refine ⟨⟨?_, ?_⟩, hcounts, fun g => ?_⟩
  · rw [← Assembly.length_counts, hcounts, List.length_append, Assembly.length_counts]
    exact Nat.lt_add_right _ hws.there
  · have hback := hws.functions
    rw [← hrest] at hback
    exact hback
  · rw [h.issued, show (Accounts.inFunction ws params).code.routines.size =
      ws.code.routines.size + 1 from Array.size_push _]
    exact allotment_function hws.there _ _ _ _

end Allots

/-- More slots would be taken than there are, in the function at hand or in one that is made. -/
def Exceeds (n count : Nat) (made : List (Nat × Nat)) : Prop :=
  Frame.slotLimit < n + count ∨ ∃ tally ∈ made, Frame.slotLimit < tally.2

/-- **The action takes the slots it is said to take,** and fails for want of them only if they are
too many. -/
def Action.Allots {α : Type} (f n : Nat) (outer : List (Nat × UInt16)) (count : Nat)
    (made : List (Nat × Nat)) (action : Action Workspace α) (ws : Workspace) : Prop :=
  match action ws with
  | .done x ws' => ∃ log, Hands action ws log x ws' ∧
      QueryCompiler.Allots f n outer count made ws log ws'
  | .failed error _ => error.exhaustsSlots = true → Exceeds n count made
  | .fault _ => True

namespace Action.Allots

variable {α β : Type} {f n c d : Nat} {outer : List (Nat × UInt16)} {a b : List (Nat × Nat)}
  {ws : Workspace}

/-- A step that takes no slot. -/
theorem still {action : Action Workspace α} (hws : ws.Counts f n outer)
    (hdone : ∀ x ws', action ws = .done x ws' → ws.SameSlots ws')
    (hfailed : ∀ error ws', action ws = .failed error ws' → error.exhaustsSlots = false) :
    action.Allots f n outer 0 [] ws := by
  unfold Allots
  cases hact : action ws with
  | done x ws' =>
      have hsame := hdone x ws' hact
      exact ⟨[], .still hact hsame.nextSerial hsame.functions,
        (QueryCompiler.Allots.refl hws).same hsame⟩
  | failed error ws' =>
      intro hexhausts
      rw [hfailed error ws' hact] at hexhausts
      cases hexhausts
  | fault fault => trivial

/-- An action that fails for another reason. -/
theorem failed {error : CompileError} (h : error.exhaustsSlots = false) :
    (Action.fail error : Action Workspace α).Allots f n outer c a ws := by
  intro hexhausts
  rw [h] at hexhausts
  cases hexhausts

theorem bind {first : Action Workspace α} {next : α → Action Workspace β}
    (hfirst : first.Allots f n outer c a ws)
    (hnext : ∀ x ws', first ws = .done x ws' → ws'.Counts f (n + c) outer →
      (next x).Allots f (n + c) outer d b ws') :
    (first >>= next).Allots f n outer (c + d) (a ++ b) ws := by
  unfold Allots at hfirst ⊢
  rw [Action.bind_apply]
  cases hact : first ws with
  | done x ws₁ =>
      rw [hact] at hfirst
      obtain ⟨log, hhands, hallots⟩ := hfirst
      have hrest := hnext x ws₁ hact hallots.counts
      unfold Allots at hrest
      dsimp only
      cases hlast : next x ws₁ with
      | done y ws' =>
          rw [hlast] at hrest
          obtain ⟨more, hhands', hallots'⟩ := hrest
          refine ⟨log ++ more, .bind hhands hhands', ?_, ?_, fun g => ?_⟩
          · rw [← Nat.add_assoc]
            exact hallots'.counts
          · rw [hallots'.tallies, hallots.tallies, List.append_assoc]
          · have hsize : ws₁.code.routines.size = ws.code.routines.size + a.length := by
              rw [← Assembly.length_counts, hallots.tallies, List.length_append,
                Assembly.length_counts]
            rw [issued_append, hallots.issued, hallots'.issued, hsize, allotment_append]
      | failed error ws' =>
          rw [hlast] at hrest
          intro hexhausts
          rcases hrest hexhausts with hown | ⟨tally, htally, hmany⟩
          · exact .inl (by omega)
          · exact .inr ⟨tally, List.mem_append_right _ htally, hmany⟩
      | fault fault => trivial
  | failed error ws₁ =>
      rw [hact] at hfirst
      intro hexhausts
      rcases hfirst hexhausts with hown | ⟨tally, htally, hmany⟩
      · exact .inl (by omega)
      · exact .inr ⟨tally, List.mem_append_left _ htally, hmany⟩
  | fault fault => trivial

/-- A step that takes no slot, and then the rest. -/
theorem quietly {first : Action Workspace α} {next : α → Action Workspace β}
    (hfirst : first.Allots f n outer 0 [] ws)
    (hnext : ∀ x ws', first ws = .done x ws' → ws'.Counts f n outer →
      (next x).Allots f n outer d b ws') :
    (first >>= next).Allots f n outer d b ws := by
  have hall := hfirst.bind hnext
  rw [Nat.zero_add] at hall
  exact hall

/-- An attempt is made that is failed for in the end if it has failed, and else no slot is taken any
more. -/
theorem attempted {action : Action Workspace α} {next : Except CompileError α → Action Workspace β}
    (h : action.Allots f n outer c a ws)
    (hfailed : ∀ error ws', ∃ ws'', next (.error error) ws' = .failed error ws'')
    (hnext : ∀ x ws', action ws = .done x ws' → ws'.Counts f (n + c) outer →
      (next (.ok x)).Allots f (n + c) outer 0 [] ws') :
    (action.attempt >>= next).Allots f n outer c a ws := by
  have haction := h
  unfold Allots at haction
  cases hact : action ws with
  | done x ws' =>
      rw [hact] at haction
      obtain ⟨log, hhands, hallots⟩ := haction
      have hattempt : action.attempt ws = .done (.ok x) ws' := by rw [Action.attempt, hact]
      have hfirst : action.attempt.Allots f n outer c a ws := by
        unfold Allots
        rw [hattempt]
        exact ⟨log, .attempt hhands, hallots⟩
      have hall := hfirst.bind (d := 0) (b := []) fun result ws₁ hdone hcounts => by
        obtain ⟨rfl, rfl⟩ := Outcome.done.inj (hattempt.symm.trans hdone)
        exact hnext x ws' hact hcounts
      rw [Nat.add_zero, List.append_nil] at hall
      exact hall
  | failed error ws' =>
      rw [hact] at haction
      obtain ⟨ws'', hlast⟩ := hfailed error ws'
      unfold Allots
      rw [Action.bind_apply, Action.attempt, hact]
      dsimp only
      rw [hlast]
      exact haction
  | fault fault =>
      unfold Allots
      rw [Action.bind_apply, Action.attempt, hact]
      trivial

theorem takeSlot (span : Span) (hws : ws.Counts f n outer) :
    (Workspace.takeSlot span).Allots f n outer 1 [] ws := by
  obtain ⟨next, hfunctions, rfl⟩ := hws.functions
  have hnext : ws.scopes.nextSlot? = some next := by
    rw [ScopeStack.nextSlot?, Frame.nextSlot?_functions, hfunctions]
    rfl
  unfold Allots
  cases hact : Workspace.takeSlot span ws with
  | done slot ws' =>
      obtain ⟨hslot, hroom, rfl⟩ := takeSlot_done hact
      obtain rfl := Option.some.inj (hnext.symm.trans hslot)
      refine ⟨_, .takeSlot hact hfunctions, ⟨hws.there, next + 1,
        Frame.functions_takeSlot hfunctions, ?_⟩, (List.append_nil _).symm, fun g => ?_⟩
      · have hlimit : next.toNat < 65535 := hroom
        rw [UInt16.toNat_add]
        show (next.toNat + 1) % 65536 = next.toNat + 1
        omega
      · by_cases hown : g = f
        · subst hown
          simp [issued, allotment]
        · simp [issued, allotment, hown, Ne.symm hown]
  | failed error ws' =>
      intro _
      simp only [Workspace.takeSlot, onScopes, ScopeStack.takeSlot, hnext] at hact
      by_cases hroom : Frame.slotLimit ≤ next.toNat
      · exact .inl (Nat.lt_succ_of_le hroom)
      · rw [if_neg hroom] at hact
        cases hact
  | fault fault => trivial

/-- A scope has no part in the slots of the function it is opened in. -/
theorem within {state : FrameState} {body : FrameId → Action Workspace α}
    (hscope : state.scope ≠ .function) (hws : ws.Counts f n outer)
    (hframe : ∀ x inside, body ⟨ws.scopes.nextSerial, state.scope⟩ (ws.entered state) =
      .done x inside → ∃ frame rest, inside.scopes.frames = frame :: rest ∧
        frame.serial = ws.scopes.nextSerial ∧ frame.scope = state.scope)
    (hbody : (ws.entered state).Counts f n outer →
      (body ⟨ws.scopes.nextSerial, state.scope⟩).Allots f n outer c a (ws.entered state)) :
    (Workspace.within state body).Allots f n outer c a ws := by
  have hentered : (ws.entered state).Counts f n outer := by
    refine ⟨hws.there, ?_⟩
    show ∃ next, Frame.functions (_ :: ws.scopes.frames) = _ ∧ _
    rw [Frame.functions_cons_of_scope
      (show Frame.scope ⟨ws.scopes.nextSerial, [], state⟩ ≠ .function from hscope)]
    exact hws.functions
  have hbody := hbody hentered
  unfold Allots at hbody ⊢
  cases hact : body ⟨ws.scopes.nextSerial, state.scope⟩ (ws.entered state) with
  | done x inside =>
      rw [hact] at hbody
      obtain ⟨log, hhands, hallots⟩ := hbody
      obtain ⟨frame, rest, hframes, hserial, hsame⟩ := hframe x inside hact
      have hdone := within_of_done hact hframes hserial
      rw [hdone]
      refine ⟨log, .within hhands hdone, ⟨hallots.counts.there, ?_⟩, hallots.tallies,
        hallots.issued⟩
      have hfunctions := hallots.counts.functions
      rw [hframes, Frame.functions_cons_of_scope (hsame ▸ hscope)] at hfunctions
      simp only [left, hframes, List.tail_cons]
      exact hfunctions
  | failed error inside =>
      rw [hact] at hbody
      obtain ⟨after, hfailed, -⟩ := within_of_failed hact
      rw [hfailed]
      exact hbody
  | fault fault =>
      rw [within_eq, hact]
      trivial

/-- **A function has slots of its own,** and in the end it has as many locals. -/
theorem closure {params : UInt16} {body : Action Workspace Unit} (hws : ws.Counts f n outer)
    (hparams : params.toNat ≤ c)
    (hended : ∀ inside, body (Accounts.inFunction ws params) = .done () inside →
      ∃ frame, Accounts.Ended (Layout.opened ws params) inside frame)
    (hbody : (Accounts.inFunction ws params).Counts ws.code.routines.size 0
        (Frame.functions ws.scopes.frames) →
      body.Allots ws.code.routines.size 0 (Frame.functions ws.scopes.frames) c a
        (Accounts.inFunction ws params)) :
    (emitClosure params body).Allots f n outer 0 ((params.toNat, c) :: a) ws := by
  have hopen : onCode (Assembly.openFunction params) ws =
      .done ws.code.routines.size (Layout.opened ws params) := rfl
  have hsize : (Accounts.inFunction ws params).code.routines.size = ws.code.routines.size + 1 :=
    Array.size_push _
  have hbody := hbody ⟨by omega, 0, rfl, rfl⟩
  unfold Allots at hbody ⊢
  rw [emitClosure, Action.bind_apply, hopen]
  dsimp only
  rw [Action.bind_apply]
  cases hact : body (Accounts.inFunction ws params) with
  | done u inside =>
      rw [hact] at hbody
      obtain ⟨log, hhands, hallots⟩ := hbody
      obtain ⟨frame, hframe⟩ := hended inside hact
      obtain ⟨rest, hframes, -⟩ := hframe.frames
      obtain ⟨next, hlast, hclosed⟩ := hallots.closed hws hparams hframe
      have hwithin : Workspace.within (.function ws.code.routines.size 0) (fun _ => body)
          (Layout.opened ws params) = .done (u, frame.state) (inside.left frame) :=
        within_of_done hact hframes hframe.serial
      rw [hwithin]
      dsimp only
      rw [hlast, Option.getD_some, Action.bind_apply]
      cases hclose : onCode (Assembly.closeFunction next) (inside.left frame) with
      | done id closed =>
          have hopened : (inside.left frame).code.opened = _ :: ws.code.opened :=
            hframe.pends.opened
          obtain rfl := Layout.closeFunction_done hopened hclose
          dsimp only
          cases hemit : emitWith .makeLambda (.function id.toUInt32)
              (Layout.closed (inside.left frame) next ws.code.opened) with
          | done u' ws' =>
              obtain ⟨-, rfl⟩ := emitWith_done hemit
              have hend : Hands (onCode (Assembly.closeFunction
                  (frame.state.nextSlot?.getD params))) (inside.left frame) [] id
                  (Layout.closed (inside.left frame) next ws.code.opened) :=
                .still (by rw [hlast]; exact hclose) rfl rfl
              have hall : Hands (emitClosure params body) ws ([] ++ (log ++ ([] ++ []))) u' _ :=
                .bind (.still hopen rfl rfl) (.bind (.within hhands hwithin) (.bind hend
                  (.still hemit rfl rfl)))
              rw [List.nil_append, List.append_nil, List.append_nil] at hall
              exact ⟨log, hall, hclosed.same (Books.wrote_sameSlots ..)⟩
          | failed error ws' => exact absurd hemit emitWith_ne_failed
          | fault fault => trivial
      | failed error closed =>
          obtain ⟨rfl, -⟩ := closeFunction_failed hclose
          rintro ⟨⟩
      | fault fault => trivial
  | failed error inside =>
      rw [hact] at hbody
      have hfailed : ∃ after, Workspace.within (.function ws.code.routines.size 0) (fun _ => body)
          (Layout.opened ws params) = .failed error after ∧ after.code = inside.code :=
        within_of_failed hact
      obtain ⟨after, hfailed, -⟩ := hfailed
      rw [hfailed]
      intro hexhausts
      rcases hbody hexhausts with hown | ⟨tally, htally, hmany⟩
      · exact .inr ⟨_, List.mem_cons_self, by simpa using hown⟩
      · exact .inr ⟨tally, List.mem_cons_of_mem _ htally, hmany⟩
  | fault fault =>
      rw [within_eq, show body ((Layout.opened ws params).entered _) = _ from hact]
      trivial

end Action.Allots

end QueryCompiler
