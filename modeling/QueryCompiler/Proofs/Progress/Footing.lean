/-
What a lowering can rely on, and what it has to hand on.

A workspace is `Ready` if the next operation can be carried out on it: the frames are
those of the functions that are open, every loop and every conditional has noted only
jumps that stand in its function and arrive with the right depth, and the pool holds
nothing but constants of the query, none twice.  `Reaches` says that a course has led
to a ready workspace of a given depth; it is what every rule is shown to hand on, and
it is all that a rule needs to know about the parts it has lowered before.

Two things can run over, the depth of the operand stack and the constant pool.  The pool
does so only if the query has more constants than can be numbered.  That the depth does
not is promised only if the `Terms` ask for it: then it is kept within a budget that pays
for every level the tree can still go down.
-/
import Mathlib.Data.List.Dedup
import Mathlib.Data.List.Perm.Subperm
import Mathlib.Logic.Function.Basic
import QueryCompiler.Proofs.Progress.Blame
import QueryCompiler.Proofs.Progress.Course
import QueryCompiler.Proofs.Progress.Outcomes

namespace QueryCompiler

/-- The pool gets an entry more, unless it had the constant. -/
theorem Pool.add_cases {pool pool' : Pool} {value : Constant} {id : UInt32}
    (h : pool.add value = .ok (id, pool')) :
    pool' = pool ∨ (∀ entry ∈ pool.constants, entry ≠ value) ∧
      pool'.constants = pool.constants.push value := by
  rcases of_add_ok h with ⟨-, -, -, hsame⟩ | ⟨hnew, -, -, hpush⟩
  · exact .inl hsame
  · refine .inr ⟨?_, by rw [hpush]⟩
    rintro entry hentry rfl
    exact hnew hentry

/-! ### Jumps that wait -/

/-- A jump of a function that can be let land. -/
structure Assembly.Awaits (code : Assembly) (function : Nat) (op : Opcode)
    (label : PendingJump) : Prop where
  function : label.position.function = function
  depth_lt : label.depth < wordLimit
  stands : ∃ word, code.instruction? label.position = some ⟨op, .target word⟩

theorem Assembly.Awaits.later {code code' : Assembly} {function : Nat} {op : Opcode}
    {label : PendingJump} (h : code.Awaits function op label) (hjumps : code.KeepsJumps code') :
    code'.Awaits function op label := by
  obtain ⟨hfunction, hdepth, word, hword⟩ := h
  exact ⟨hfunction, hdepth, hjumps _ _ word hword⟩

/-- What a frame of a function has noted can be used: a loop leads back into the function, and its
breaks arrive with the depth it has; the exits of a conditional arrive with a depth of their own. -/
def FrameState.Kept (code : Assembly) (function arrival : Nat) : FrameState → Prop
  | loop target depth breaks => target.function = function ∧
      ∀ label ∈ breaks.toList, label.depth = depth ∧ code.Awaits function .jump label
  | branch _ exits =>
      ∀ label ∈ exits.toList, label.depth = arrival ∧ code.Awaits function .jump label
  | _ => True

namespace Frame

/-- The functions that are open, innermost first. -/
def ids (frames : List Frame) : List Nat :=
  (functions frames).map Prod.fst

/-- All frames are kept.  The exits of a conditional arrive with the depth that `ends` gives for
its frame. -/
def Kept (code : Assembly) (ends : Nat → Nat) : List Frame → Prop
  | [] => True
  | frame :: outer =>
    frame.state.Kept code ((ids outer).headD 0) (ends frame.serial) ∧ Kept code ends outer

variable {code code' : Assembly} {ends ends' : Nat → Nat} {frames frames' : List Frame}

theorem Kept.later (h : Kept code ends frames) (hjumps : code.KeepsJumps code') :
    Kept code' ends frames := by
  induction frames with
  | nil => trivial
  | cons frame outer ih =>
      obtain ⟨hframe, houter⟩ := h
      refine ⟨?_, ih houter⟩
      obtain ⟨serial, bindings, state⟩ := frame
      cases state with
      | loop target depth breaks =>
          obtain ⟨htarget, hbreaks⟩ := hframe
          exact ⟨htarget, fun label hlabel =>
            ⟨(hbreaks label hlabel).1, (hbreaks label hlabel).2.later hjumps⟩⟩
      | branch arm exits =>
          exact fun label hlabel =>
            ⟨(hframe label hlabel).1, (hframe label hlabel).2.later hjumps⟩
      | function | handler | block | transform => trivial

theorem ids_still (frames : List Frame) : ids (frames.map still) = ids frames := by
  induction frames with
  | nil => rfl
  | cons frame outer ih =>
      unfold ids at ih ⊢
      rw [List.map_cons, functions_cons, functions_cons, List.map_append, List.map_append, ih]
      obtain ⟨serial, bindings, state⟩ := frame
      cases state <;> rfl

theorem kept_still : Kept code ends (frames.map still) ↔ Kept code ends frames := by
  induction frames with
  | nil => exact Iff.rfl
  | cons frame outer ih =>
      rw [List.map_cons, Kept, Kept, ih, ids_still]
      refine and_congr_left fun _ => ?_
      obtain ⟨serial, bindings, state⟩ := frame
      cases state <;> exact Iff.rfl

/-- Whether frames are kept can be read off what jumps see of them. -/
theorem Kept.of_still (h : Kept code ends frames)
    (hstill : frames'.map still = frames.map still) : Kept code ends frames' := by
  rw [← kept_still, hstill, kept_still]
  exact h

theorem ids_of_still (hstill : frames'.map still = frames.map still) : ids frames' = ids frames := by
  rw [← ids_still frames', hstill, ids_still]

/-- Only the frames that are there matter. -/
theorem Kept.congr (h : Kept code ends frames)
    (hends : ∀ frame ∈ frames, ends' frame.serial = ends frame.serial) :
    Kept code ends' frames := by
  induction frames with
  | nil => trivial
  | cons frame outer ih =>
      refine ⟨?_, ih h.2 fun other hother => hends other (List.mem_cons_of_mem _ hother)⟩
      rw [hends frame List.mem_cons_self]
      exact h.1

/-- The loop that `break` and `continue` are about is one of the current function. -/
theorem Kept.innermost_loop (h : Kept code ends frames) {frame : Frame}
    (hframe : innermost? .loop frames = some frame) :
    ∃ target depth breaks, frame.state = .loop target depth breaks ∧
      target.function = (ids frames).headD 0 := by
  induction frames with
  | nil => cases hframe
  | cons head outer ih =>
      obtain ⟨serial, bindings, state⟩ := head
      cases state with
      | loop target depth breaks =>
          obtain rfl := Option.some.inj hframe
          exact ⟨target, depth, breaks, rfl, h.1.1⟩
      | handler | branch | block => exact ih h.2 hframe
      | function | transform => cases hframe

/-- A jump that arrives with the depth of the innermost loop can be one of its breaks. -/
theorem Kept.addBreak (h : Kept code ends frames) {frame : Frame} {target : Position} {depth : Nat}
    {breaks : Array PendingJump} {label : PendingJump}
    (hframe : innermost? .loop frames = some frame)
    (hstate : frame.state = .loop target depth breaks) (hdepth : label.depth = depth)
    (hlabel : code.Awaits ((ids frames).headD 0) .jump label) :
    Kept code ends (modifyInnermost .loop (FrameState.addBreak label) frames) ∧
      ids (modifyInnermost .loop (FrameState.addBreak label) frames) = ids frames := by
  induction frames with
  | nil => cases hframe
  | cons head outer ih =>
      obtain ⟨serial, bindings, state⟩ := head
      cases state with
      | loop target' depth' breaks' =>
          obtain rfl := Option.some.inj hframe
          obtain ⟨rfl, rfl, rfl⟩ := FrameState.loop.inj hstate
          obtain ⟨⟨htarget, hbreaks⟩, houter⟩ := h
          refine ⟨⟨⟨htarget, ?_⟩, houter⟩, rfl⟩
          intro other hother
          rw [Array.toList_push, List.mem_append, List.mem_singleton] at hother
          rcases hother with hmem | rfl
          · exact hbreaks other hmem
          · exact ⟨hdepth, hlabel⟩
      | handler | branch | block =>
          obtain ⟨hkept, hids⟩ := ih h.2 hframe hlabel
          refine ⟨⟨?_, hkept⟩, hids⟩
          have hhead := h.1
          rw [← hids] at hhead
          exact hhead
      | function | transform => cases hframe

/-- A frame can be left as long as the functions there are from it outward are few enough, and then
those beyond it are. -/
theorem exists_outward {distance : Nat} {frame : Frame} {outer : List Frame}
    (h : distance + (functions (frame :: outer)).length ≤ slotLimit) :
    ∃ next, outward distance frame = .ok next ∧ next + (functions outer).length ≤ slotLimit := by
  rw [functions_cons, List.length_append] at h
  obtain ⟨serial, bindings, state⟩ := frame
  cases state with
  | function id slot =>
      simp only [FrameState.function?, Option.toList_some, List.length_singleton] at h
      have hlt : distance < slotLimit := by omega
      exact ⟨distance + 1, if_pos hlt, by omega⟩
  | loop | handler | branch | block | transform =>
      exact ⟨distance, rfl, by simpa [FrameState.function?] using h⟩

/-- The way outward is short enough if there are few functions on it. -/
theorem findLocal_ok (name : String) (distance : Nat)
    (h : distance + (functions frames).length ≤ slotLimit) :
    ∃ found, findLocal name distance frames = .ok found := by
  induction frames generalizing distance with
  | nil => exact ⟨none, rfl⟩
  | cons frame outer ih =>
      rw [findLocal]
      cases frame.lookup? name with
      | some slot => exact ⟨_, rfl⟩
      | none =>
          obtain ⟨next, hnext, hfew⟩ := exists_outward h
          simp only [hnext]
          exact ih next hfew

theorem outward_fault {distance : Nat} {frame : Frame} {fault : Fault}
    (h : outward distance frame = .error fault) : fault = .overflow := by
  unfold outward at h
  split at h
  · split at h
    · cases h
    · exact (Except.error.inj h).symm
  · cases h

/-- There is no other fault on the way outward. -/
theorem findLocal_fault {name : String} {distance : Nat} {fault : Fault}
    (h : findLocal name distance frames = .error fault) : fault = .overflow := by
  induction frames generalizing distance with
  | nil => cases h
  | cons frame outer ih =>
      rw [findLocal] at h
      cases hslot : frame.lookup? name with
      | some slot => rw [hslot] at h; cases h
      | none =>
          cases hout : outward distance frame with
          | ok next => simp only [hslot, hout] at h; exact ih h
          | error fault' =>
              simp only [hslot, hout] at h
              cases h
              exact outward_fault hout

theorem findElement_fault {distance : Nat} {fault : Fault}
    (h : findElement distance frames = .error fault) : fault = .overflow := by
  induction frames generalizing distance with
  | nil => cases h
  | cons frame outer ih =>
      rw [findElement] at h
      split at h
      · cases h
      · cases hout : outward distance frame with
        | ok next => rw [hout] at h; exact ih h
        | error fault' =>
            rw [hout] at h
            cases h
            exact outward_fault hout

theorem findElement_ok (distance : Nat)
    (h : distance + (functions frames).length ≤ slotLimit) :
    ∃ found, findElement distance frames = .ok found := by
  induction frames generalizing distance with
  | nil => exact ⟨none, rfl⟩
  | cons frame outer ih =>
      rw [findElement]
      split
      · exact ⟨_, rfl⟩
      · obtain ⟨next, hnext, hfew⟩ := exists_outward h
        simp only [hnext]
        exact ih next hfew

end Frame

namespace Progress

open Workspace

/-! ### Terms -/

/-- What a query is lowered under. -/
structure Terms where
  root : Node
  /-- Whether it is promised that the depth does not run over. -/
  bounded : Prop

/-- The failures that may come up. -/
def Terms.Allowed (T : Terms) : Failure → Prop
  | .error error => error.Expected T.root ∨
      Pool.limit < T.root.constants.dedup.length ∧ ∃ limit, error = .poolFull limit
  | .fault fault => ¬ T.bounded ∧ fault = .overflow

theorem Terms.allowed_overflow {T : Terms} {P : Prop} (hfit : T.bounded → P) (h : ¬ P) :
    T.Allowed (.fault .overflow) :=
  ⟨fun hbounded => h (hfit hbounded), rfl⟩

variable {T : Terms} {ends ends' : Nat → Nat} {ws ws₁ ws₂ ws' inside : Workspace}

/-- The next operation can be carried out. -/
structure Ready (T : Terms) (ends : Nat → Nat) (ws : Workspace) : Prop where
  sound : ws.Sound
  kept : Frame.Kept ws.code ends ws.scopes.frames
  functions : Frame.ids ws.scopes.frames = ws.code.opened
  inside : ws.code.opened ≠ []
  distinct : ws.code.pool.constants.toList.Nodup
  known : ∀ value ∈ ws.code.pool.constants.toList, value ∈ T.root.constants

namespace Ready

theorem depth_lt (h : Ready T ends ws) : ws.code.depth < wordLimit :=
  Nat.lt_of_le_of_lt h.sound.depth_le h.sound.maxDepth_lt

/-- A change of the code that keeps its jumps. -/
theorem recode (h : Ready T ends ws) (hsound : ws'.Sound)
    (hframes : ws'.scopes.frames = ws.scopes.frames) (hopened : ws'.code.opened = ws.code.opened)
    (hpool : ws'.code.pool = ws.code.pool) (hjumps : ws.code.KeepsJumps ws'.code) :
    Ready T ends ws' where
  sound := hsound
  kept := by
    rw [hframes]
    exact h.kept.later hjumps
  functions := by
    rw [hframes, hopened]
    exact h.functions
  inside := by
    rw [hopened]
    exact h.inside
  distinct := by
    rw [hpool]
    exact h.distinct
  known := by
    rw [hpool]
    exact h.known

theorem wrote (h : Ready T ends ws) {instruction : Instruction}
    (hdepth : ws.code.depth - instruction.stackUse.pops + instruction.stackUse.pushes < wordLimit) :
    Ready T ends (ws.wrote instruction) :=
  h.recode (Layout.wrote_sound h.sound hdepth) rfl rfl rfl (Follows.wrote ws instruction).jumps

theorem landed (h : Ready T ends ws) {label : PendingJump} (hdepth : label.depth < wordLimit) :
    Ready T ends (ws.landed label) := by
  refine h.recode ?_ rfl rfl rfl (Follows.landed ws label).jumps
  exact revise_sound h.sound (Nat.le_max_right _ _)
    (Nat.max_lt.mpr ⟨h.sound.maxDepth_lt, hdepth⟩)

theorem reset (h : Ready T ends ws) {depth : Nat} (hdepth : depth < wordLimit) :
    Ready T ends (ws.revise fun routine => routine.setDepth depth) := by
  refine h.recode ?_ rfl rfl rfl (Step.reset depth).follows.jumps
  exact revise_sound h.sound (Nat.le_max_right _ _)
    (Nat.max_lt.mpr ⟨h.sound.maxDepth_lt, hdepth⟩)

theorem atLine (h : Ready T ends ws) (line : Nat) : Ready T ends (ws.atLine line) :=
  h.recode { h.sound with } rfl rfl rfl (Step.line line).follows.jumps

theorem recorded (h : Ready T ends ws) (region : GuardedRegion) :
    Ready T ends (ws.recorded region) :=
  h.recode { h.sound with } rfl rfl rfl fun _ _ word hword => ⟨word, hword⟩

/-- Frames of the same shape do as well. -/
theorem sound_reframe (hs : ws.Sound) {change : List Frame → List Frame}
    (hshape : (change ws.scopes.frames).map Frame.shape = ws.shape) :
    (ws.reframe change).Sound where
  current := hs.current
  depth_le := hs.depth_le
  maxDepth_lt := hs.maxDepth_lt
  pool_le := hs.pool_le
  serials := by
    show (((change ws.scopes.frames).map Frame.shape).map Prod.fst).Pairwise _
    rw [hshape]
    exact hs.serials
  fresh := by
    show ∀ frame ∈ (change ws.scopes.frames).map Frame.shape, _
    rw [hshape]
    exact hs.fresh
  levels := by
    show ∀ frame ∈ (change ws.scopes.frames).map Frame.shape, _
    rw [hshape]
    exact hs.levels

/-- A change of the frames after which they are kept. -/
theorem reframe (h : Ready T ends ws) {change : List Frame → List Frame}
    (hshape : (change ws.scopes.frames).map Frame.shape = ws.shape)
    (hkept : Frame.Kept ws.code ends (change ws.scopes.frames))
    (hids : Frame.ids (change ws.scopes.frames) = Frame.ids ws.scopes.frames) :
    Ready T ends (ws.reframe change) where
  sound := sound_reframe h.sound hshape
  kept := hkept
  functions := hids.trans h.functions
  inside := h.inside
  distinct := h.distinct
  known := h.known

/-- A change of the frames that jumps do not see. -/
theorem reframe_still (h : Ready T ends ws) {change : List Frame → List Frame}
    (hstill : (change ws.scopes.frames).map Frame.still = ws.scopes.frames.map Frame.still) :
    Ready T ends (ws.reframe change) :=
  h.reframe (shape_of_still hstill) (h.kept.of_still hstill) (Frame.ids_of_still hstill)

theorem unguarded (h : Ready T ends ws) : Ready T ends ws.unguarded := by
  refine h.reframe (Frame.shape_unguard _) ?_ ?_
  · have hkept := h.kept
    cases hframes : ws.scopes.frames with
    | nil => trivial
    | cons frame outer =>
        rw [hframes] at hkept
        obtain ⟨serial, bindings, state⟩ := frame
        cases state <;> exact hkept
  · unfold Frame.ids
    rw [Frame.functions_unguard]

theorem pooled (h : Ready T ends ws) {value : Constant} {id : UInt32} {pool : Pool}
    (hadd : ws.code.pool.add value = .ok (id, pool)) (hvalue : value ∈ T.root.constants) :
    Ready T ends (ws.pooled pool) := by
  have hsound : (ws.pooled pool).Sound := (Layout.Run.pooled h.sound hadd).sound
  have hkept : Frame.Kept (ws.pooled pool).code ends ws.scopes.frames :=
    h.kept.later (Step.pool pool).follows.jumps
  rcases Pool.add_cases hadd with rfl | ⟨hnew, hpush⟩
  · exact ⟨hsound, hkept, h.functions, h.inside, h.distinct, h.known⟩
  · refine ⟨hsound, hkept, h.functions, h.inside, ?_, ?_⟩
    · show pool.constants.toList.Nodup
      rw [hpush, Array.toList_push, List.nodup_append]
      refine ⟨h.distinct, List.nodup_singleton _, ?_⟩
      intro entry hentry other hother
      rw [List.mem_singleton] at hother
      rw [hother]
      exact hnew entry (Array.mem_toList_iff.mp hentry)
    · show ∀ entry ∈ pool.constants.toList, _
      intro entry hentry
      rw [hpush, Array.toList_push, List.mem_append, List.mem_singleton] at hentry
      rcases hentry with hmem | rfl
      · exact h.known entry hmem
      · exact hvalue

/-- A query with few constants does not fill the pool. -/
theorem pool_lt (h : Ready T ends ws) {value : Constant} (hvalue : value ∈ T.root.constants)
    (hnew : ∀ entry ∈ ws.code.pool.constants, entry ≠ value)
    (hfew : T.root.constants.dedup.length ≤ Pool.limit) :
    ws.code.pool.size < Pool.limit := by
  have hnodup : (value :: ws.code.pool.constants.toList).Nodup := by
    refine List.nodup_cons.mpr ⟨?_, h.distinct⟩
    intro hmem
    exact hnew value (Array.mem_toList_iff.mp hmem) rfl
  have hsubset : value :: ws.code.pool.constants.toList ⊆ T.root.constants.dedup := by
    intro entry hentry
    rw [List.mem_dedup]
    rcases List.mem_cons.mp hentry with rfl | hmem
    · exact hvalue
    · exact h.known entry hmem
  have hlength := (hnodup.subperm hsubset).length_le
  rw [List.length_cons, Array.length_toList] at hlength
  exact Nat.lt_of_lt_of_le hlength hfew

/-! ### Scopes -/

/-- The depths at which conditionals end, with that of a new one. -/
theorem kept_update (h : Ready T ends ws) (arrival : Nat) :
    Frame.Kept ws.code (Function.update ends ws.scopes.nextSerial arrival) ws.scopes.frames := by
  refine h.kept.congr fun frame hframe => ?_
  have hlt : frame.serial < ws.scopes.nextSerial :=
    h.sound.fresh frame.shape (List.mem_map_of_mem hframe)
  exact Function.update_of_ne (Nat.ne_of_lt hlt) _ _

/-- A scope that is not a function can be opened. -/
theorem entered (h : Ready T ends ws) {state : FrameState} (arrival : Nat)
    (hscope : state.scope ≠ .function)
    (hlevel : ∀ entry, state.loopEntry? = some entry → entry.2 < wordLimit)
    (hstate : state.Kept ws.code ws.code.currentFunction arrival) :
    Ready T (Function.update ends ws.scopes.nextSerial arrival) (ws.entered state) where
  sound := Layout.entered_sound h.sound hlevel
  kept := by
    refine ⟨?_, h.kept_update arrival⟩
    rw [Function.update_self, h.functions]
    exact hstate
  functions := by
    refine Eq.trans ?_ h.functions
    exact congrArg (List.map Prod.fst) (Frame.functions_cons_of_scope hscope)
  inside := h.inside
  distinct := h.distinct
  known := h.known

/-- A function can be opened. -/
theorem openedFunction (h : Ready T ends ws) (params : UInt16) :
    Ready T ends ((Layout.opened ws params).entered (.function ws.code.routines.size 0)) where
  sound := Layout.entered_sound (Layout.opened_sound h.sound params) nofun
  kept := by
    refine ⟨trivial, h.kept.later ?_⟩
    intro position op word hjump
    obtain ⟨routine, hroutine, hcode⟩ := Option.bind_eq_some_iff.mp hjump
    have hlt := (Array.getElem?_eq_some_iff.mp hroutine).1
    refine ⟨word, ?_⟩
    show ((ws.code.routines.push (Routine.start params))[position.function]?.bind _) = _
    rw [Array.getElem?_push, if_neg (Nat.ne_of_lt hlt), hroutine]
    exact hcode
  functions := congrArg (List.cons _) h.functions
  inside := List.cons_ne_nil _ _
  distinct := h.distinct
  known := h.known

/-- The innermost scope can be closed, if it is not a function. -/
theorem left (h : Ready T ends inside) {frame : Frame} {outer : List Frame}
    (hframes : inside.scopes.frames = frame :: outer) (hscope : frame.scope ≠ .function) :
    Ready T ends (inside.left frame) := by
  have houter : (inside.left frame).scopes.frames = outer := by
    simp only [Workspace.left, hframes, List.tail_cons]
  have hkept := h.kept
  have hfunctions := h.functions
  rw [hframes] at hkept hfunctions
  refine ⟨Layout.left_sound h.sound, ?_, ?_, h.inside, h.distinct, h.known⟩
  · rw [houter]
    exact hkept.2
  · rw [houter]
    refine Eq.trans ?_ hfunctions
    exact (congrArg (List.map Prod.fst) (Frame.functions_cons_of_scope hscope)).symm

/-- A function can be closed, and the one around it is as it was. -/
theorem closed (h : Ready T ends ws) (hinside : Ready T ends inside) {params : UInt16}
    (next : UInt16) {frame : Frame} {outer : List Frame}
    (hcourse : Course ((Layout.opened ws params).entered (.function ws.code.routines.size 0)) inside)
    (hframes : inside.scopes.frames = frame :: outer) :
    Ready T ends (Layout.closed (inside.left frame) next ws.code.opened) ∧
      (Layout.closed (inside.left frame) next ws.code.opened).code.current = ws.code.current := by
  have hfollows := hcourse.follows
  have hleft : (inside.left frame).Sound := Layout.left_sound hinside.sound
  have houter : (Layout.closed (inside.left frame) next ws.code.opened).scopes.frames = outer := by
    simp only [Layout.closed, Workspace.left, hframes, List.tail_cons]
  have hcurrent : (Layout.closed (inside.left frame) next ws.code.opened).code.current =
      ws.code.current := by
    show Array.getD _ ws.code.currentFunction _ = Array.getD _ ws.code.currentFunction _
    rw [Array.getD_eq_getD_getElem?, Array.getD_eq_getD_getElem?]
    exact congrArg (Option.getD · _) (hfollows.closed_others h.sound.current)
  have hkept := hinside.kept
  have hfunctions := hinside.functions
  rw [hframes] at hkept hfunctions
  refine ⟨⟨⟨?_, ?_, ?_, hleft.pool_le, hleft.serials, hleft.fresh, hleft.levels⟩, ?_, ?_, h.inside,
    hinside.distinct, hinside.known⟩, hcurrent⟩
  · exact Nat.lt_of_lt_of_le h.sound.current (hfollows.closed next hframes).1.size
  · simpa only [Assembly.depth, Assembly.maxDepth, hcurrent] using h.sound.depth_le
  · simpa only [Assembly.maxDepth, hcurrent] using h.sound.maxDepth_lt
  · rw [houter]
    refine hkept.2.later ?_
    exact (Follows.revise fun routine i op word hword => ⟨word, hword⟩ :
      Follows inside (inside.revise fun routine => routine.reserve next)).jumps
  · obtain ⟨_, hstate, -⟩ := hfollows.function_frame hframes
    rw [houter]
    rw [hfollows.opened, Frame.ids, Frame.functions_cons, hstate] at hfunctions
    exact (List.cons.inj hfunctions).2

/-- What is known of conditionals that are over can be forgotten. -/
theorem forget (h : Ready T ends' ws) (hends : ∀ frame ∈ ws.scopes.frames,
    ends frame.serial = ends' frame.serial) : Ready T ends ws :=
  { h with kept := h.kept.congr hends }

end Ready

/-! ### Sites -/

/-- Where a rule is at work: at a depth of the operand stack, inside some functions, and with room
for some levels of the tree below.  A level costs at most as much depth as a call has operands. -/
structure Site (T : Terms) where
  base : Nat
  opened : List Nat
  room : Nat
  deep : T.bounded → base + 65535 * (room + 1) + 65536 ≤ wordLimit
  nested : T.bounded → opened.length + room ≤ 65536

theorem Site.fits {T : Terms} (S : Site T) {gain : Nat} (hgain : gain ≤ 65536) :
    T.bounded → S.base + gain < wordLimit := by
  intro hbounded
  have hdeep := S.deep hbounded
  omega

/-- A course has led to a ready workspace of the given depth, with some labels yet to land.  If
`opens` is set, a scope was opened on the way. -/
structure Reaches {T : Terms} (S : Site T) (ends : Nat → Nat) (opens : Bool)
    (labels : List (Opcode × PendingJump)) (depth : Nat) (ws ws' : Workspace) : Prop where
  ready : Ready T ends ws'
  course : Course ws ws'
  opened : ws'.code.opened = S.opened
  awaits : ∀ label ∈ labels, ws'.code.Awaits ws'.code.currentFunction label.1 label.2
  depth : ws'.code.depth = depth
  opens : opens = true → ws.scopes.counts.pushes < ws'.scopes.counts.pushes

namespace Reaches

variable {S : Site T} {opens : Bool} {labels : List (Opcode × PendingJump)} {depth depth' : Nat}

/-- Nothing has been done yet. -/
theorem start (h : Ready T ends ws) (hopened : ws.code.opened = S.opened)
    (hdepth : ws.code.depth = depth) : Reaches S ends false [] depth ws ws where
  ready := h
  course := .stay ws
  opened := hopened
  awaits := nofun
  depth := hdepth
  opens := nofun

/-- The way to a place that follows. -/
theorem onward (h : Reaches S ends opens labels depth ws ws₁) (hready : Ready T ends ws₂)
    (hfollows : Follows ws₁ ws₂) (hcourse : Course ws ws₂) (hdepth : ws₂.code.depth = depth') :
    Reaches S ends opens labels depth' ws ws₂ where
  ready := hready
  course := hcourse
  opened := hfollows.opened.trans h.opened
  awaits label hlabel := by
    rw [hfollows.currentFunction]
    exact (h.awaits label hlabel).later hfollows.jumps
  depth := hdepth
  opens hopens := Nat.lt_of_lt_of_le (h.opens hopens) hfollows.pushes

/-- **One more stretch of the way.** -/
theorem next (h : Reaches S ends opens labels depth ws ws₁) (hready : Ready T ends ws₂)
    (hcourse : Course ws₁ ws₂) (hdepth : ws₂.code.depth = depth') :
    Reaches S ends opens labels depth' ws ws₂ :=
  h.onward hready hcourse.follows (h.course.trans hcourse) hdepth

/-- A place that follows can be taken as a new start. -/
theorem anew (h : Reaches S ends opens labels depth ws ws₁) (hready : Ready T ends ws₂)
    (hfollows : Follows ws₁ ws₂) (hdepth : ws₂.code.depth = depth') :
    Reaches S ends false labels depth' ws₂ ws₂ where
  ready := hready
  course := .stay ws₂
  opened := hfollows.opened.trans h.opened
  awaits label hlabel := by
    rw [hfollows.currentFunction]
    exact (h.awaits label hlabel).later hfollows.jumps
  depth := hdepth
  opens := nofun

/-- What was reached can be taken as a new start. -/
theorem again (h : Reaches S ends opens labels depth ws ws₁) :
    Reaches S ends false labels depth ws₁ ws₁ :=
  h.anew h.ready (Follows.refl ws₁) h.depth

theorem trans {opens' : Bool} {labels' : List (Opcode × PendingJump)}
    (h : Reaches S ends opens labels depth ws ws₁)
    (h' : Reaches S ends opens' labels' depth' ws₁ ws₂) :
    Reaches S ends (opens || opens') labels' depth' ws ws₂ :=
  { h' with
    course := h.course.trans h'.course
    opens := by
      intro hopens
      rcases Bool.or_eq_true_iff.mp hopens with hfirst | hsecond
      · exact Nat.lt_of_lt_of_le (h.opens hfirst) h'.course.follows.pushes
      · exact Nat.lt_of_le_of_lt h.course.follows.pushes (h'.opens hsecond) }

/-- One more label. -/
theorem await (h : Reaches S ends opens labels depth ws ws') {op : Opcode} {label : PendingJump}
    (hlabel : ws'.code.Awaits ws'.code.currentFunction op label) :
    Reaches S ends opens ((op, label) :: labels) depth ws ws' :=
  { h with
    awaits := by
      intro other hother
      rcases List.mem_cons.mp hother with rfl | hmem
      · exact hlabel
      · exact h.awaits other hmem }

/-- A label that has landed can be left out. -/
theorem drop {label : Opcode × PendingJump}
    (h : Reaches S ends opens (label :: labels) depth ws ws') :
    Reaches S ends opens labels depth ws ws' :=
  { h with awaits := fun other hother => h.awaits other (List.mem_cons_of_mem _ hother) }

/-- Labels that have landed can all be left out. -/
theorem forget (h : Reaches S ends opens labels depth ws ws') :
    Reaches S ends opens [] depth ws ws' :=
  { h with awaits := nofun }

/-- Into a scope.  What was reached before is the start there. -/
theorem enter (h : Reaches S ends opens labels depth ws ws₁) {state : FrameState} (arrival : Nat)
    (hscope : state.scope ≠ .function)
    (hlevel : ∀ entry, state.loopEntry? = some entry → entry.2 < wordLimit)
    (hstate : state.Kept ws₁.code ws₁.code.currentFunction arrival) :
    Reaches S (Function.update ends ws₁.scopes.nextSerial arrival) false labels depth
      (ws₁.entered state) (ws₁.entered state) where
  ready := h.ready.entered arrival hscope hlevel hstate
  course := .stay _
  opened := h.opened
  awaits := h.awaits
  depth := h.depth
  opens := nofun

/-- **Out of a scope again.** -/
theorem leave (h : Reaches S ends opens labels depth ws ws₁) {state : FrameState} {arrival : Nat}
    {flag : Bool} {labels' : List (Opcode × PendingJump)} {frame : Frame} {outer : List Frame}
    (hstate : state.Opens ws₁.scopes.frames)
    (hinside : Reaches S (Function.update ends ws₁.scopes.nextSerial arrival) flag labels' depth'
      (ws₁.entered state) inside)
    (hframes : inside.scopes.frames = frame :: outer) :
    Reaches S ends true labels' depth' ws (inside.left frame) := by
  have hscope : state.scope ≠ .function := by
    cases state with
    | function => exact hstate.elim
    | loop | handler | branch | block | transform => exact nofun
  have hshape := hinside.course.follows.shape
  rw [Workspace.shape, hframes] at hshape
  obtain ⟨hframe, houter⟩ := List.cons.inj hshape
  have hframe' : frame.scope ≠ .function := by
    rw [show frame.scope = state.scope from congrArg (fun shape => shape.2.1) hframe]
    exact hscope
  have hcourse : Course ws₁ (inside.left frame) := .scope hstate hinside.course hframes
  refine ⟨(hinside.ready.left hframes hframe').forget ?_, h.course.trans hcourse, hinside.opened,
    hinside.awaits, hinside.depth, fun _ => ?_⟩
  · intro other hother
    have hmem : other.shape ∈ ws₁.shape := by
      have hmem : other.shape ∈ (inside.left frame).shape := List.mem_map_of_mem hother
      rwa [hcourse.follows.shape] at hmem
    have hlt : other.serial < ws₁.scopes.nextSerial := h.ready.sound.fresh _ hmem
    exact (Function.update_of_ne (Nat.ne_of_lt hlt) _ _).symm
  · exact Nat.lt_of_le_of_lt h.course.follows.pushes
      (hinside.course.follows.leave hscope hframes).2

end Reaches

end Progress

end QueryCompiler
