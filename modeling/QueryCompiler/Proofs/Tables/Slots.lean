/-
What loads and stores are about.

A load or a store says how many functions to leave and which slot to use of the function
that is reached then.  While a program is being written these are the functions that are
open, and whatever can be found in the frames has been given a slot by one of them.  In
the finished program they are the ancestors of the function with the instruction: each
is made by the next.

The two are brought together by looking ahead.  What the finished program has to be like
so that it can come out of a workspace is `Becomes`; it is carried backwards along a
trail, so that at the time when a load or a store is written everything about the
finished program is known that its slot depends on.
-/
import QueryCompiler.Proofs.Tables.Family

namespace QueryCompiler

/-! ### Ancestors -/

namespace Program

/-- The instruction at a position makes a function. -/
def MakesAt (program : Program) (position : Position) (child : Nat) : Prop :=
  ∃ function id, program.functions[position.function]? = some function ∧
    function.code[position.index]? = some ⟨.makeLambda, .function id⟩ ∧ id.toNat = child

/-- The ancestor of a function at a distance: the function itself, or an ancestor of its
parent, which is the function that makes it. -/
inductive Ancestor (program : Program) : Nat → Nat → Nat → Prop
  | self (g : Nat) : Ancestor program g 0 g
  | parent {position : Position} {child distance ancestor : Nat}
      (hmakes : program.MakesAt position child)
      (h : Ancestor program position.function distance ancestor) :
      Ancestor program child (distance + 1) ancestor

/-- An operand of a function is about a local of the ancestor it names. -/
def Resolves (program : Program) (g : Nat) : Operand → Prop
  | .slot ref => ∃ ancestor owner, program.Ancestor g ref.depth.toNat ancestor ∧
      program.functions[ancestor]? = some owner ∧ ref.slot < owner.locals
  | _ => False

/-- Functions of which each is made by the next are ancestors of the first. -/
theorem ancestor_of_chain {program : Program} {f d a : Nat} {outer : List Nat}
    (h : (f :: outer).IsChain fun child parent => ∃ index, program.MakesAt ⟨parent, index⟩ child)
    (ha : (f :: outer)[d]? = some a) : program.Ancestor f d a := by
  induction d generalizing f outer with
  | zero =>
      obtain rfl : f = a := Option.some.inj ha
      exact .self f
  | succ d ih =>
      cases outer with
      | nil => cases ha
      | cons parent outer =>
          obtain ⟨⟨index, hmakes⟩, hchain⟩ := List.isChain_cons_cons.mp h
          exact .parent hmakes (ih hchain ha)

end Program

/-! ### Frames -/

namespace Frame

theorem Grown.getElem? {functions functions' : List (Nat × UInt16)} (h : Grown functions functions')
    {i id : Nat} {next : UInt16} (hat : functions[i]? = some (id, next)) :
    ∃ next', functions'[i]? = some (id, next') ∧ next ≤ next' := by
  induction h generalizing i with
  | nil => cases hat
  | @cons _ head _ _ hhead _ ih =>
      cases i with
      | zero =>
          obtain rfl := Option.some.inj hat
          exact ⟨head.2, congrArg some (Prod.ext hhead.1 rfl), hhead.2⟩
      | succ i => exact ih hat

theorem Grown.ids {functions functions' : List (Nat × UInt16)} (h : Grown functions functions') :
    functions'.map Prod.fst = functions.map Prod.fst := by
  induction h with
  | nil => rfl
  | cons hhead _ ih => rw [List.map_cons, List.map_cons, hhead.1, ih]

theorem leaves_eq (frame : Frame) : frame.leaves = frame.state.function?.toList.length := by
  obtain ⟨serial, bindings, state⟩ := frame
  cases state <;> rfl

/-- Leaving a frame changes the distance to what is outside. -/
theorem functions_beyond (frame : Frame) (outer : List Frame) (distance : Nat) :
    (functions (frame :: outer))[frame.leaves + distance]? = (functions outer)[distance]? := by
  rw [functions_cons, leaves_eq, List.getElem?_append_right (Nat.le_add_right _ _),
    Nat.add_sub_cancel_left]

theorem slots_add (k distance : Nat) (frames : List Frame) :
    slots (k + distance) frames =
      (slots distance frames).map fun entry => (k + entry.1, entry.2) := by
  induction frames generalizing distance with
  | nil => rfl
  | cons frame outer ih =>
      simp only [slots, List.map_append, List.map_map, Nat.add_assoc, ih]
      rfl

theorem slots_from (k : Nat) (frames : List Frame) :
    slots k frames = (slots 0 frames).map fun entry => (k + entry.1, entry.2) :=
  slots_add k 0 frames

/-- Whatever can be found has been given its slot by an open function. -/
def Declared (frames : List Frame) : Prop :=
  ∀ entry ∈ slots 0 frames, ∃ id next,
    (functions frames)[entry.1]? = some (id, next) ∧ entry.2 < next

theorem Owns.declared {frames : List Frame} {slot : UInt16} (h : Owns frames slot) :
    ∃ id next, (functions frames)[0]? = some (id, next) ∧ slot < next := by
  obtain ⟨id, next, outer, hfunctions, hlt⟩ := h
  exact ⟨id, next, by rw [hfunctions]; rfl, hlt⟩

namespace Declared

variable {frames frames' outer : List Frame}

theorem grown (h : Declared frames) (hslots : slots 0 frames' = slots 0 frames)
    (hgrown : Grown (functions frames) (functions frames')) : Declared frames' := by
  intro entry hentry
  rw [hslots] at hentry
  obtain ⟨id, next, hat, hlt⟩ := h entry hentry
  obtain ⟨next', hat', hle⟩ := hgrown.getElem? hat
  exact ⟨id, next', hat', UInt16.lt_of_lt_of_le hlt hle⟩

theorem bindName (h : Declared frames) (name : String) {slot : UInt16} (hslot : Owns frames slot) :
    Declared (bindName name slot frames) := by
  intro entry hentry
  rw [functions_bindName]
  cases frames with
  | nil => cases hentry
  | cons frame outer =>
      rw [slots_bindName] at hentry
      rcases List.mem_cons.mp hentry with rfl | hmem
      · exact hslot.declared
      · exact h entry hmem

/-- Inside a new scope. -/
theorem enter (h : Declared outer) {state : FrameState} (serial : Nat)
    (helement : ∀ element ∈ state.element?, Owns outer element) :
    Declared (⟨serial, [], state⟩ :: outer) := by
  intro entry hentry
  rcases List.mem_append.mp hentry with hown | houter
  · cases state with
    | transform element =>
        obtain rfl := List.mem_singleton.mp hown
        exact (helement element rfl).declared
    | function | loop | handler | branch | block => cases hown
  · rw [Nat.zero_add, slots_from] at houter
    obtain ⟨inner, hinner, rfl⟩ := List.mem_map.mp houter
    rw [functions_beyond]
    exact h inner hinner

/-- Inside a new function. -/
theorem enterFunction (h : Declared outer) (serial id : Nat) (next : UInt16) :
    Declared (⟨serial, [], .function id next⟩ :: outer) := by
  refine h.enter serial fun element helement => ?_
  cases helement

/-- Outside a scope. -/
theorem leave {frame : Frame} (h : Declared (frame :: outer)) : Declared outer := by
  intro entry hentry
  have hmem : (frame.leaves + entry.1, entry.2) ∈ slots 0 (frame :: outer) := by
    refine List.mem_append_right _ ?_
    rw [Nat.zero_add, slots_from]
    exact List.mem_map_of_mem hentry
  obtain ⟨id, next, hat, hlt⟩ := h _ hmem
  rw [functions_beyond] at hat
  exact ⟨id, next, hat, hlt⟩

end Declared

/-- The distance outside a frame, which still fits. -/
theorem outward_ok {distance outside : Nat} {frame : Frame}
    (h : outward distance frame = .ok outside) (hdistance : distance ≤ slotLimit) :
    outside = distance + frame.leaves ∧ outside ≤ slotLimit := by
  unfold outward at h
  unfold leaves
  split at h
  · split at h
    · obtain rfl := Except.ok.inj h
      rw [if_pos ‹_›]
      omega
    · cases h
  · obtain rfl := Except.ok.inj h
    rw [if_neg ‹_›]
    exact ⟨rfl, hdistance⟩

theorem toNat_toUInt16 {distance : Nat} (h : distance ≤ slotLimit) :
    distance.toUInt16.toNat = distance :=
  Nat.mod_eq_of_lt (Nat.lt_succ_of_le h)

/-- What is found for a name is one of the slots that can be found. -/
theorem slots_of_findLocal {name : String} {distance : Nat} {frames : List Frame} {ref : SlotRef}
    (h : findLocal name distance frames = .ok (some ref)) (hdistance : distance ≤ slotLimit) :
    (ref.depth.toNat, ref.slot) ∈ slots distance frames := by
  induction frames generalizing distance with
  | nil => cases h
  | cons frame outer ih =>
      simp only [findLocal] at h
      cases hlookup : frame.lookup? name with
      | some slot =>
          rw [hlookup] at h
          obtain rfl := Option.some.inj (Except.ok.inj h)
          have hmem : slot ∈ frame.bindings.map Prod.snd := by
            obtain ⟨front, back, hbindings, -⟩ := List.lookup_eq_some_iff.mp hlookup
            simp [hbindings]
          refine List.mem_append_left _ (List.mem_map.mpr ⟨slot, List.mem_append_left _ hmem, ?_⟩)
          exact Prod.ext (toNat_toUInt16 hdistance).symm rfl
      | none =>
          rw [hlookup] at h
          cases hout : outward distance frame with
          | error fault => rw [hout] at h; cases h
          | ok outside =>
              rw [hout] at h
              obtain ⟨rfl, hfits⟩ := outward_ok hout hdistance
              exact List.mem_append_right _ (ih h hfits)

/-- What is found for the current element is one of the slots that can be found. -/
theorem slots_of_findElement {distance : Nat} {frames : List Frame} {ref : SlotRef}
    (h : findElement distance frames = .ok (some ref)) (hdistance : distance ≤ slotLimit) :
    (ref.depth.toNat, ref.slot) ∈ slots distance frames := by
  induction frames generalizing distance with
  | nil => cases h
  | cons frame outer ih =>
      simp only [findElement] at h
      split at h
      · rename_i slot hstate
        obtain rfl := Option.some.inj (Except.ok.inj h)
        have hmem : slot ∈ frame.state.element?.toList := by
          rw [hstate]
          exact List.mem_singleton_self slot
        refine List.mem_append_left _ (List.mem_map.mpr ⟨slot, List.mem_append_right _ hmem, ?_⟩)
        exact Prod.ext (toNat_toUInt16 hdistance).symm rfl
      · cases hout : outward distance frame with
        | error fault => rw [hout] at h; cases h
        | ok outside =>
            rw [hout] at h
            obtain ⟨rfl, hfits⟩ := outward_ok hout hdistance
            exact List.mem_append_right _ (ih h hfits)

/-- **What a load or a store can be about is a slot of an open function.** -/
theorem Addresses.declared {frames : List Frame} {ref : SlotRef} (h : Addresses frames ref)
    (hdeclared : Declared frames) : ∃ id next,
      (functions frames)[ref.depth.toNat]? = some (id, next) ∧ ref.slot < next := by
  cases h with
  | name h => exact hdeclared _ (slots_of_findLocal h (Nat.zero_le _))
  | element h => exact hdeclared _ (slots_of_findElement h (Nat.zero_le _))
  | own h => exact h.declared

end Frame

namespace Progress

open Workspace Instruction

variable {ws ws₁ ws' inside : Workspace} {program : Program}

theorem Trail.declared (h : Trail ws ws') (hdeclared : Frame.Declared ws.scopes.frames) :
    Frame.Declared ws'.scopes.frames := by
  induction h with
  | idle h => exact hdeclared.grown h.slots h.functions
  | trans _ _ ih ih' => exact ih' (ih hdeclared)
  | bind ws name hslot => exact hdeclared.bindName name hslot
  | slot _ _ _ ih => exact ih hdeclared
  | scope _ helement _ hframes ih =>
      have hinside := ih (hdeclared.enter _ helement)
      rw [hframes] at hinside
      simp only [left, hframes, List.tail_cons]
      exact hinside.leave
  | lambda _ hframes _ ih =>
      have hinside := ih (hdeclared.enterFunction _ _ _)
      rw [hframes] at hinside
      refine Eq.mp ?_ hinside.leave
      simp only [Layout.closed, wrote, revise, left, hframes, List.tail_cons]

/-! ### Looking ahead -/

/-- The program can come out of the workspace: the open functions will be made one by the other,
every function will have the references and the locals it has now, and room for the slots that
are taken. -/
structure Becomes (ws : Workspace) (program : Program) : Prop where
  ids : (Frame.functions ws.scopes.frames).map Prod.fst = ws.code.opened
  chain : ws.code.opened.IsChain fun child parent => ∃ index, program.MakesAt ⟨parent, index⟩ child
  kept : ∀ g sketch, ws.code.sketch? g = some sketch → ∃ function,
    program.functions[g]? = some function ∧ sketch.locals ≤ function.locals ∧
      ∀ instruction ∈ sketch.references, instruction ∈ function.code
  room : ∀ entry ∈ Frame.functions ws.scopes.frames, ∃ function,
    program.functions[entry.1]? = some function ∧ entry.2 ≤ function.locals

namespace Becomes

/-- What comes out of a later workspace can come out of an earlier one. -/
theorem before {children : List (Nat × Nat)} (h : Becomes ws' program) (hfollows : Follows ws ws')
    (hfamily : Family ws.code ws'.code children) : Becomes ws program := by
  refine ⟨?_, hfollows.opened ▸ h.chain, ?_, ?_⟩
  · rw [← hfollows.opened, ← h.ids]
    exact hfollows.functions.ids.symm
  · intro g sketch hsketch
    obtain ⟨written, hwritten, -⟩ := hfamily.kept g sketch hsketch
    obtain ⟨function, hfunction, hlocals, hcode⟩ := h.kept g _ hwritten
    exact ⟨function, hfunction, hlocals, fun instruction hmem =>
      hcode instruction (List.mem_append_left _ hmem)⟩
  · intro entry hentry
    obtain ⟨i, hi⟩ := List.getElem?_of_mem hentry
    obtain ⟨next, hnext, hle⟩ := hfollows.functions.getElem? hi
    obtain ⟨function, hfunction, hroom⟩ := h.room _ (List.mem_of_getElem? hnext)
    exact ⟨function, hfunction, UInt16.le_trans hle hroom⟩

/-- Nothing about functions changes on leaving another scope. -/
theorem inScope {state : FrameState} {frame : Frame} {outer : List Frame}
    (h : Becomes (inside.left frame) program) (hscope : state.scope ≠ .function)
    (hfollows : Follows (ws.entered state) inside)
    (hframes : inside.scopes.frames = frame :: outer) : Becomes inside program := by
  have hfunctions : Frame.functions (inside.left frame).scopes.frames =
      Frame.functions inside.scopes.frames := by
    simp only [left, hframes, List.tail_cons]
    exact (Frame.functions_cons_of_scope (by rw [(hfollows.scopes hframes).1]; exact hscope)).symm
  exact ⟨hfunctions ▸ h.ids, h.chain, h.kept, hfunctions ▸ h.room⟩

section Lambda

variable {params next : UInt16} {frame : Frame} {outer : List Frame}

/-- The functions that are open inside a lambda are its own and those around it. -/
theorem lambda_functions (hfollows : Follows ((Layout.opened ws params).entered
      (.function ws.code.routines.size 0)) inside)
    (hframes : inside.scopes.frames = frame :: outer)
    (hnext : frame.state.nextSlot? = some next) :
    Frame.functions inside.scopes.frames = (ws.code.routines.size, next) :: Frame.functions
      ((Layout.closed (inside.left frame) next ws.code.opened).wrote
        (making ws.code.routines.size)).scopes.frames := by
  obtain ⟨next', hstate, -⟩ := hfollows.function_frame hframes
  rw [hstate] at hnext
  obtain rfl : next' = next := Option.some.inj hnext
  simp only [Layout.closed, wrote, revise, left, hframes, List.tail_cons, Frame.functions_cons,
    hstate]
  rfl

/-- What is said of the function of a lambda and of the one around it when the lambda is done. -/
theorem of_lambda (h : Becomes ((Layout.closed (inside.left frame) next ws.code.opened).wrote
      (making ws.code.routines.size)) program)
    (hcurrent : ws.code.currentFunction < ws.code.routines.size)
    (hfollows : Follows ((Layout.opened ws params).entered
      (.function ws.code.routines.size 0)) inside) {g : Nat} {sketch : Sketch}
    (hat : inside.code.sketch? g = some sketch) : ∃ function,
      program.functions[g]? = some function ∧ sketch.locals ≤ function.locals ∧
        (∀ instruction ∈ sketch.references, instruction ∈ function.code) ∧
        (g = ws.code.routines.size → next ≤ function.locals) ∧
        (g = ws.code.currentFunction → making ws.code.routines.size ∈ function.code) := by
  have hlater := lambda_sketch next frame hcurrent hfollows g
  rw [hat] at hlater
  by_cases hf : g = ws.code.currentFunction
  · rw [if_pos hf] at hlater
    obtain ⟨function, hfunction, hlocals, hcode⟩ := h.kept _ _ hlater
    refine ⟨function, hfunction, hlocals, ?_, fun hown => absurd hown (by omega), fun _ => ?_⟩
    · exact fun instruction hmem => hcode instruction (List.mem_append_left _ hmem)
    · exact hcode _ (List.mem_append_right _ (List.mem_singleton_self _))
  · rw [if_neg hf] at hlater
    by_cases hown : g = ws.code.routines.size
    · rw [if_pos hown] at hlater
      obtain ⟨function, hfunction, hlocals, hcode⟩ := h.kept _ _ hlater
      exact ⟨function, hfunction, UInt16.le_trans (sketch.locals_le_reserve next) hlocals, hcode,
        fun _ => UInt16.le_trans (sketch.le_reserve next) hlocals, fun hsame => absurd hsame hf⟩
    · rw [if_neg hown] at hlater
      obtain ⟨function, hfunction, hlocals, hcode⟩ := h.kept _ _ hlater
      exact ⟨function, hfunction, hlocals, hcode, fun hsame => absurd hsame hown,
        fun hsame => absurd hsame hf⟩

/-- **The function of a lambda will be made by the function around it.** -/
theorem inLambda (h : Becomes ((Layout.closed (inside.left frame) next ws.code.opened).wrote
      (making ws.code.routines.size)) program)
    (hwords : program.functions.size ≤ wordLimit)
    (hcurrent : ws.code.currentFunction < ws.code.routines.size)
    (hfollows : Follows ((Layout.opened ws params).entered
      (.function ws.code.routines.size 0)) inside)
    (hframes : inside.scopes.frames = frame :: outer)
    (hnext : frame.state.nextSlot? = some next) : Becomes inside program := by
  have hfunctions := lambda_functions hfollows hframes hnext
  have hopened : inside.code.opened = ws.code.routines.size :: ws.code.opened := hfollows.opened
  have hthere : ∀ g ≤ ws.code.routines.size, ∃ sketch, inside.code.sketch? g = some sketch := by
    intro g hg
    refine Option.isSome_iff_exists.mp (Assembly.sketch?_isSome_iff.mpr ?_)
    have hsize := hfollows.size
    rw [opened_size] at hsize
    omega
  obtain ⟨_, hown⟩ := hthere _ (Nat.le_refl _)
  obtain ⟨made, hmade, -, -, hroom, -⟩ := h.of_lambda hcurrent hfollows hown
  have hmakes : ∃ index,
      program.MakesAt ⟨ws.code.currentFunction, index⟩ ws.code.routines.size := by
    obtain ⟨_, haround⟩ := hthere _ (Nat.le_of_lt hcurrent)
    obtain ⟨function, hfunction, -, -, -, hmaking⟩ := h.of_lambda hcurrent hfollows haround
    obtain ⟨index, hindex⟩ := Array.getElem?_of_mem (hmaking rfl)
    have hlt := (Array.getElem?_eq_some_iff.mp hmade).1
    exact ⟨index, function, _, hfunction, hindex, toNat_toUInt32 (by omega)⟩
  refine ⟨?_, ?_, ?_, ?_⟩
  · rw [hfunctions, List.map_cons, h.ids, hopened]
    rfl
  · have hchain : ws.code.opened.IsChain fun child parent =>
        ∃ index, program.MakesAt ⟨parent, index⟩ child := h.chain
    rw [hopened]
    unfold Assembly.currentFunction at hmakes
    cases hcode : ws.code.opened with
    | nil => exact .singleton _
    | cons f rest =>
        rw [hcode] at hmakes hchain
        exact List.isChain_cons_cons.mpr ⟨hmakes, hchain⟩
  · intro g sketch hat
    obtain ⟨function, hfunction, hlocals, hcode, -⟩ := h.of_lambda hcurrent hfollows hat
    exact ⟨function, hfunction, hlocals, hcode⟩
  · rw [hfunctions]
    exact List.forall_mem_cons.mpr ⟨⟨made, hmade, hroom rfl⟩, h.room⟩

end Lambda

/-- **What a load or a store can be about will be a local of an ancestor.** -/
theorem resolves (h : Becomes ws program) (hdeclared : Frame.Declared ws.scopes.frames)
    {ref : SlotRef} (href : Frame.Addresses ws.scopes.frames ref) :
    program.Resolves ws.code.currentFunction (.slot ref) := by
  obtain ⟨id, next, hat, hlt⟩ := href.declared hdeclared
  obtain ⟨owner, howner, hroom⟩ := h.room _ (List.mem_of_getElem? hat)
  refine ⟨id, owner, ?_, howner, UInt16.lt_of_lt_of_le hlt hroom⟩
  have hopened : ws.code.opened[ref.depth.toNat]? = some id := by
    rw [← h.ids, List.getElem?_map, hat]
    rfl
  have hchain := h.chain
  unfold Assembly.currentFunction
  cases hcode : ws.code.opened with
  | nil => rw [hcode] at hopened; cases hopened
  | cons f rest =>
      rw [hcode] at hopened hchain
      exact Program.ancestor_of_chain hchain hopened

end Becomes

/-! ### References -/

/-- A function of the program under construction has a reference. -/
def Refers (code : Assembly) (g : Nat) (instruction : Instruction) : Prop :=
  ∃ sketch, code.sketch? g = some sketch ∧ instruction ∈ sketch.references

theorem Refers.of_wrote {written instruction : Instruction} {g : Nat}
    (hwritten : written.op.isReference = true) (h : Refers (ws.wrote written).code g instruction) :
    Refers ws.code g instruction ∨ g = ws.code.currentFunction ∧ instruction = written := by
  obtain ⟨sketch, hsketch, hmem⟩ := h
  rw [wrote_sketch hwritten] at hsketch
  split at hsketch
  · obtain ⟨sketch, hbefore, rfl⟩ := Option.map_eq_some_iff.mp hsketch
    rcases List.mem_append.mp hmem with hold | hnew
    · exact .inl ⟨sketch, hbefore, hold⟩
    · exact .inr ⟨‹_›, List.mem_singleton.mp hnew⟩
  · exact .inl ⟨sketch, hsketch, hmem⟩

/-- A lambda adds to the references of others nothing but the instruction that makes it. -/
theorem Refers.of_lambda {params next : UInt16} {frame : Frame} {instruction : Instruction}
    {g : Nat}
    (hcurrent : ws.code.currentFunction < ws.code.routines.size)
    (hfollows : Follows ((Layout.opened ws params).entered
      (.function ws.code.routines.size 0)) inside)
    (h : Refers ((Layout.closed (inside.left frame) next ws.code.opened).wrote
      (making ws.code.routines.size)).code g instruction) :
    Refers inside.code g instruction ∨ instruction = making ws.code.routines.size := by
  obtain ⟨sketch, hsketch, hmem⟩ := h
  rw [lambda_sketch next frame hcurrent hfollows] at hsketch
  split at hsketch
  · obtain ⟨sketch, hbefore, rfl⟩ := Option.map_eq_some_iff.mp hsketch
    rcases List.mem_append.mp hmem with hold | hnew
    · exact .inl ⟨sketch, hbefore, hold⟩
    · exact .inr (List.mem_singleton.mp hnew)
  · split at hsketch
    · obtain ⟨sketch, hbefore, rfl⟩ := Option.map_eq_some_iff.mp hsketch
      exact .inl ⟨sketch, hbefore, hmem⟩
    · exact .inl ⟨sketch, hsketch, hmem⟩

/-- A function that has just been opened has no references. -/
theorem Refers.of_opened {params : UInt16} {instruction : Instruction} {g : Nat}
    (h : Refers (Layout.opened ws params).code g instruction) : Refers ws.code g instruction := by
  obtain ⟨sketch, hsketch, hmem⟩ := h
  rw [opened_sketch] at hsketch
  split at hsketch
  · obtain rfl := Option.some.inj hsketch
    cases hmem
  · exact ⟨sketch, hsketch, hmem⟩

/-- **The loads and stores that a trail writes are about locals of ancestors.** -/
theorem Trail.resolves (h : Trail ws ws')
    (hcurrent : ws.code.currentFunction < ws.code.routines.size)
    (hdeclared : Frame.Declared ws.scopes.frames) (hprogram : Becomes ws' program)
    (hwords : program.functions.size ≤ wordLimit) {g : Nat} {instruction : Instruction}
    (hop : instruction.op = .load ∨ instruction.op = .store)
    (hrefers : Refers ws'.code g instruction) :
    Refers ws.code g instruction ∨ program.Resolves g instruction.operand := by
  induction h with
  | idle h =>
      obtain ⟨sketch, hsketch, hmem⟩ := hrefers
      exact .inl ⟨sketch, (h.sketches g).symm.trans hsketch, hmem⟩
  | trans h h' ih ih' =>
      have hcurrent₁ := h.follows.current_lt hcurrent
      obtain ⟨children, hfamily⟩ := h'.family hcurrent₁
      rcases ih' hcurrent₁ (h.declared hdeclared) hprogram hrefers with hbefore | hresolves
      · exact ih hcurrent hdeclared (hprogram.before h'.follows hfamily) hbefore
      · exact .inr hresolves
  | bind => exact .inl hrefers
  | @slot ws ws₁ op ref href h hop' ih =>
      have hreference : op.isReference = true := by rcases hop' with rfl | rfl <;> rfl
      obtain ⟨children, hfamily⟩ := h.family hcurrent
      have hprogram₁ := hprogram.before (Follows.wrote ws₁ _) (Family.slot hop')
      rcases hrefers.of_wrote hreference with hbefore | ⟨rfl, rfl⟩
      · exact ih hcurrent hdeclared hprogram₁ hbefore
      · rw [h.follows.currentFunction]
        exact .inr ((hprogram₁.before h.follows hfamily).resolves hdeclared href)
  | scope hscope helement h hframes ih =>
      exact ih hcurrent (hdeclared.enter _ helement)
        (hprogram.inScope hscope h.follows hframes) hrefers
  | lambda h hframes hnext ih =>
      rcases hrefers.of_lambda hcurrent h.follows with hinside | rfl
      · have hprogram := hprogram.inLambda hwords hcurrent h.follows hframes hnext
        exact (ih (opened_current_lt _ _ _) (hdeclared.enterFunction _ _ _) hprogram
          hinside).imp_left Refers.of_opened
      · rcases hop with hop | hop <;> cases hop

end Progress

end QueryCompiler
