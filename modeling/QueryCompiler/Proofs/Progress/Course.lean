/-
The steps a lowering takes.

Whatever the rules do comes down to a few steps: an instruction is written, a jump
lands, a slot is taken, a frame makes a note.  A `Course` is a sequence of such steps
in which scopes are opened and closed around whole courses.  Two constructs are kept
together because their parts belong together: a handler, with the region it records,
and a lambda, with the function it makes.

What holds of every lowering can be shown by induction on the course it takes, without
another look at the rules.  The first such fact is `Course.follows`: which functions
are open and how the frames are stacked is the same before and after, jumps stay where
they stand, and slots are only ever taken.
-/
import Mathlib.Data.List.Forall2
import QueryCompiler.Proofs.Layout.Program

namespace QueryCompiler

/-! ### What steps look at -/

/-- The function a frame is of, with its next free slot. -/
def FrameState.function? : FrameState → Option (Nat × UInt16)
  | function id nextSlot => some (id, nextSlot)
  | _ => none

/-- What a frame remembers besides its notes: the jumps it collects and the arm it is at. -/
def FrameState.quiet : FrameState → FrameState
  | loop target depth _ => loop target depth #[]
  | branch .. => branch 0 #[]
  | state => state

namespace Frame

/-- The frame without its notes. -/
def quiet (frame : Frame) : Frame :=
  { frame with state := frame.state.quiet }

/-- The open functions with their next free slots, innermost first. -/
def functions (frames : List Frame) : List (Nat × UInt16) :=
  frames.filterMap fun frame => frame.state.function?

/-- The frames with the handler of the innermost one guarding nothing more. -/
def unguard : List Frame → List Frame
  | [] => []
  | frame :: outer => frame.modify (FrameState.setGuarded false) :: outer

/-- The slot has been taken in the current function. -/
def Owns (frames : List Frame) (slot : UInt16) : Prop :=
  ∃ id next outer, functions frames = (id, next) :: outer ∧ slot < next

/-- What a load or a store can be about: a name, the current element, or a slot of the current
function. -/
inductive Addresses (frames : List Frame) : SlotRef → Prop
  | name {name : String} {ref : SlotRef} (h : findLocal name 0 frames = .ok (some ref)) :
      Addresses frames ref
  | element {ref : SlotRef} (h : findElement 0 frames = .ok (some ref)) : Addresses frames ref
  | own {slot : UInt16} (h : Owns frames slot) : Addresses frames ⟨0, slot⟩

end Frame

/-- Whether an instruction means the same wherever it is written.  The others speak of slots, make
functions or have to do with handlers. -/
def Opcode.isPlain : Opcode → Bool
  | load | store | makeLambda | tryBegin | throw => false
  | _ => true

/-- The state can be that of a scope that is neither a function nor a handler. -/
def FrameState.Opens (frames : List Frame) : FrameState → Prop
  | function .. | handler .. => False
  | transform element => Frame.Owns frames element
  | loop .. | branch .. | block => True

namespace Workspace

/-- The workspace with one more guarded region. -/
def recorded (ws : Workspace) (region : GuardedRegion) : Workspace :=
  { ws with code := ws.code.addRegion region }

/-- The workspace with the handler of the innermost frame guarding nothing more. -/
def unguarded (ws : Workspace) : Workspace :=
  ws.reframe Frame.unguard

end Workspace

namespace Progress

open Workspace

/-! ### Steps -/

/-- One step of a lowering that concerns neither slots that are in use nor handlers nor the making
of functions. -/
inductive Step (ws : Workspace) : Workspace → Prop
  | write {instruction : Instruction} (hplain : instruction.op.isPlain = true) :
      Step ws (ws.wrote instruction)
  | pool (pool : Pool) : Step ws (ws.pooled pool)
  | land {label : PendingJump} {op : Opcode} {word : UInt32}
      (hfunction : label.position.function = ws.code.currentFunction)
      (hjump : ws.code.instruction? label.position = some ⟨op, .target word⟩)
      (hplain : op.isPlain = true) : Step ws (ws.landed label)
  | reset (depth : Nat) : Step ws (ws.revise fun routine => routine.setDepth depth)
  | line (line : Nat) : Step ws (ws.atLine line)
  | takeSlot {slot : UInt16} (hnext : ws.scopes.nextSlot? = some slot)
      (hroom : slot.toNat < Frame.slotLimit) :
      Step ws (ws.reframe (Frame.modifyInnermost .function FrameState.takeSlot))
  | bind (name : String) {slot : UInt16} (hslot : Frame.Owns ws.scopes.frames slot) :
      Step ws (ws.reframe (Frame.bindName name slot))
  | note {change : List Frame → List Frame}
      (hquiet : (change ws.scopes.frames).map Frame.quiet = ws.scopes.frames.map Frame.quiet) :
      Step ws (ws.reframe change)

/-- The way over a catch path, taken by a guarded body that comes to its end. -/
inductive Escape (ws : Workspace) : Option PendingJump → Workspace → Prop
  | none : Escape ws none ws
  | jump {label : PendingJump} (hlabel : label.position = (ws.wrote ⟨.tryEnd, .none⟩).code.position) :
      Escape ws (some label) ((ws.wrote ⟨.tryEnd, .none⟩).wrote ⟨.jump, .unaimed⟩)

/-- The start of a catch path: the error is dropped or stored. -/
inductive Catch : Instruction → Prop
  | drop : Catch ⟨.pop, .none⟩
  | store (slot : UInt16) : Catch ⟨.store, .slot ⟨0, slot⟩⟩

/-- Some steps of a lowering, in order. -/
inductive Course : Workspace → Workspace → Prop
  | stay (ws : Workspace) : Course ws ws
  | step {ws ws' : Workspace} (h : Step ws ws') : Course ws ws'
  | trans {ws ws₁ ws₂ : Workspace} (h : Course ws ws₁) (h' : Course ws₁ ws₂) : Course ws ws₂
  /-- A load or a store, of a slot that may have been found some time before. -/
  | slot {ws ws₁ : Workspace} {op : Opcode} {ref : SlotRef}
      (href : Frame.Addresses ws.scopes.frames ref) (h : Course ws ws₁)
      (hop : op = .load ∨ op = .store) : Course ws (ws₁.wrote ⟨op, .slot ref⟩)
  /-- A scope. -/
  | scope {ws inside : Workspace} {state : FrameState} {frame : Frame} {outer : List Frame}
      (hstate : state.Opens ws.scopes.frames) (hinside : Course (ws.entered state) inside)
      (hframes : inside.scopes.frames = frame :: outer) : Course ws (inside.left frame)
  /-- A `throw`, counted on the handler that guards it. -/
  | throw (ws : Workspace) : Course ws ((ws.reframe Frame.countThrow).wrote ⟨.throw, .none⟩)
  /-- A handler: its body, the way over the catch path, and the catch path, which starts by storing
  or dropping the error.  Then the region is recorded. -/
  | handler {ws body escaped named inside last : Workspace} {install : PendingJump}
      {exit : Option PendingJump} {caught : Instruction} {frame : Frame} {outer : List Frame}
      (hinstall : install.position = ws.code.position)
      (hbody : Course ((ws.wrote ⟨.tryBegin, .unaimed⟩).entered
        (.handler install.position true 0)) body)
      (hescape : Escape body exit escaped)
      (hnamed : Course (escaped.unguarded.landed install) named)
      (hcode : named.code = (escaped.unguarded.landed install).code)
      (hcatch : Catch caught) (hcaught : Course named (named.wrote caught))
      (hhandler : Course (named.wrote caught) inside)
      (hframes : inside.scopes.frames = frame :: outer)
      (hlast : last = exit.elim (inside.left frame) (inside.left frame).landed) :
      Course ws (last.recorded
        { function := install.position.function.toUInt32
          start := install.position.index.toUInt32
          stop := body.code.length.toUInt32
          catchAt := escaped.code.length.toUInt32
          throws := frame.state.throws.toUInt32 })
  /-- A lambda: its function, and the instruction that makes the closure. -/
  | lambda {ws inside : Workspace} {params next : UInt16} {frame : Frame} {outer : List Frame}
      (hinside : Course ((Layout.opened ws params).entered
        (.function ws.code.routines.size 0)) inside)
      (hframes : inside.scopes.frames = frame :: outer)
      (hnext : frame.state.nextSlot? = some next) :
      Course ws ((Layout.closed (inside.left frame) next ws.code.opened).wrote
        ⟨.makeLambda, .function ws.code.routines.size.toUInt32⟩)

end Progress

/-! ### What stays the same -/

/-- Every jump of the first program stands in the second, maybe with another target. -/
def Assembly.KeepsJumps (code code' : Assembly) : Prop :=
  ∀ (position : Position) (op : Opcode) (word : UInt32),
    code.instruction? position = some ⟨op, .target word⟩ →
    ∃ word', code'.instruction? position = some ⟨op, .target word'⟩

namespace Frame

/-- Functions that have taken some more slots. -/
def Grown (functions functions' : List (Nat × UInt16)) : Prop :=
  List.Forall₂ (fun f f' => f'.1 = f.1 ∧ f.2 ≤ f'.2) functions functions'

theorem Grown.refl (functions : List (Nat × UInt16)) : Grown functions functions :=
  List.forall₂_same.mpr fun _ _ => ⟨rfl, UInt16.le_refl _⟩

theorem Grown.trans {a b c : List (Nat × UInt16)} (h : Grown a b) (h' : Grown b c) :
    Grown a c := by
  induction h generalizing c with
  | nil => exact h'
  | cons hhead htail ih =>
      cases h' with
      | cons hhead' htail' =>
          exact .cons ⟨hhead'.1.trans hhead.1, UInt16.le_trans hhead.2 hhead'.2⟩ (ih htail')

theorem functions_cons (frame : Frame) (outer : List Frame) :
    functions (frame :: outer) = frame.state.function?.toList ++ functions outer := by
  simp only [functions, List.filterMap_cons]
  cases frame.state.function? <;> rfl

/-- A frame that is not that of a function says nothing about functions. -/
theorem functions_cons_of_scope {frame : Frame} {outer : List Frame}
    (h : frame.scope ≠ .function) : functions (frame :: outer) = functions outer := by
  obtain ⟨serial, bindings, state⟩ := frame
  cases state with
  | function => exact absurd rfl h
  | loop | handler | branch | block | transform => rfl

theorem functions_bindName (name : String) (slot : UInt16) (frames : List Frame) :
    functions (bindName name slot frames) = functions frames := by
  cases frames with
  | nil => rfl
  | cons frame outer => simp only [bindName, functions_cons]; rfl

theorem functions_countThrow (frames : List Frame) :
    functions (countThrow frames) = functions frames :=
  filterMap_of_map (map_countThrow_of_eq (fun ⟨_, _, state⟩ => by cases state <;> rfl) frames)

theorem functions_quiet (frames : List Frame) :
    functions (frames.map quiet) = functions frames := by
  induction frames with
  | nil => rfl
  | cons frame outer ih =>
      rw [List.map_cons, functions_cons, functions_cons, ih]
      obtain ⟨serial, bindings, state⟩ := frame
      cases state <;> rfl

/-- The next free slot is that of the innermost function. -/
theorem nextSlot?_functions (frames : List Frame) :
    (innermost? .function frames).bind (fun frame => frame.state.nextSlot?) =
      (functions frames).head?.map Prod.snd := by
  induction frames with
  | nil => rfl
  | cons frame outer ih =>
      obtain ⟨serial, bindings, state⟩ := frame
      cases state with
      | function => rfl
      | loop | handler | branch | block | transform => exact ih

/-- Taking a slot is seen in the innermost function alone. -/
theorem functions_takeSlot {frames : List Frame} {id : Nat} {next : UInt16}
    {outer : List (Nat × UInt16)} (h : functions frames = (id, next) :: outer) :
    functions (modifyInnermost .function FrameState.takeSlot frames) = (id, next + 1) :: outer := by
  induction frames with
  | nil => cases h
  | cons frame rest ih =>
      obtain ⟨serial, bindings, state⟩ := frame
      cases state with
      | function id' next' =>
          obtain ⟨hhead, htail⟩ := List.cons.inj h
          obtain ⟨rfl, rfl⟩ := Prod.mk.inj hhead
          exact congrArg _ htail
      | loop | handler | branch | block | transform => exact ih h

theorem functions_unguard (frames : List Frame) :
    functions (unguard frames) = functions frames := by
  cases frames with
  | nil => rfl
  | cons frame outer =>
      obtain ⟨serial, bindings, state⟩ := frame
      cases state <;> rfl

theorem shape_unguard (frames : List Frame) : (unguard frames).map shape = frames.map shape := by
  cases frames with
  | nil => rfl
  | cons frame outer =>
      obtain ⟨serial, bindings, state⟩ := frame
      cases state <;> rfl

theorem shape_quiet (frame : Frame) : frame.quiet.shape = frame.shape := by
  obtain ⟨serial, bindings, state⟩ := frame
  cases state <;> rfl

/-- A `break` is a note that its loop makes. -/
theorem quiet_addBreak (label : PendingJump) (frames : List Frame) :
    (modifyInnermost .loop (FrameState.addBreak label) frames).map quiet = frames.map quiet :=
  map_modifyInnermost_of_eq (fun ⟨_, _, state⟩ _ => by cases state <;> rfl) frames

end Frame

namespace Progress

open Workspace

/-- What a course leaves alone. -/
structure Follows (ws ws' : Workspace) : Prop where
  opened : ws'.code.opened = ws.code.opened
  size : ws.code.routines.size ≤ ws'.code.routines.size
  /-- No function but the current one has changed. -/
  others : ∀ g < ws.code.routines.size, g ≠ ws.code.currentFunction →
    ws'.code.routines[g]? = ws.code.routines[g]?
  jumps : ws.code.KeepsJumps ws'.code
  shape : ws'.shape = ws.shape
  pushes : ws.scopes.counts.pushes ≤ ws'.scopes.counts.pushes
  functions : Frame.Grown (Frame.functions ws.scopes.frames) (Frame.functions ws'.scopes.frames)

variable {ws ws₁ ws₂ ws' inside : Workspace}

theorem Follows.refl (ws : Workspace) : Follows ws ws where
  opened := rfl
  size := Nat.le_refl _
  others _ _ _ := rfl
  jumps _ _ word h := ⟨word, h⟩
  shape := rfl
  pushes := Nat.le_refl _
  functions := .refl _

theorem Follows.currentFunction (h : Follows ws ws') :
    ws'.code.currentFunction = ws.code.currentFunction := by
  unfold Assembly.currentFunction
  rw [h.opened]

theorem Follows.trans (h : Follows ws ws₁) (h' : Follows ws₁ ws₂) : Follows ws ws₂ where
  opened := h'.opened.trans h.opened
  size := Nat.le_trans h.size h'.size
  others g hg hne := by
    rw [h'.others g (Nat.lt_of_lt_of_le hg h.size) (by rw [h.currentFunction]; exact hne)]
    exact h.others g hg hne
  jumps position op word hjump := by
    obtain ⟨word₁, hjump₁⟩ := h.jumps position op word hjump
    exact h'.jumps position op word₁ hjump₁
  shape := h'.shape.trans h.shape
  pushes := Nat.le_trans h.pushes h'.pushes
  functions := h.functions.trans h'.functions

/-- A change of the current routine that keeps its jumps. -/
theorem Follows.revise {change : Routine → Routine}
    (hjumps : ∀ (routine : Routine) (i : Nat) (op : Opcode) (word : UInt32),
      routine.code[i]? = some ⟨op, .target word⟩ →
      ∃ word', (change routine).code[i]? = some ⟨op, .target word'⟩) :
    Follows ws (ws.revise change) where
  opened := rfl
  size := by simp [Workspace.revise, Assembly.modifyCurrent]
  others g _ hne := by
    simp only [Workspace.revise, Assembly.modifyCurrent, Array.getElem?_modify]
    rw [if_neg (Ne.symm hne)]
  jumps position op word h := by
    obtain ⟨routine, hroutine, hcode⟩ := Option.bind_eq_some_iff.mp h
    simp only [Assembly.instruction?, Workspace.revise, Assembly.modifyCurrent,
      Array.getElem?_modify]
    by_cases hcurrent : ws.code.currentFunction = position.function
    · rw [if_pos hcurrent, hroutine]
      exact hjumps routine position.index op word hcode
    · rw [if_neg hcurrent, hroutine]
      exact ⟨word, hcode⟩
  shape := rfl
  pushes := Nat.le_refl _
  functions := .refl _

theorem Follows.wrote (ws : Workspace) (instruction : Instruction) :
    Follows ws (ws.wrote instruction) := by
  refine Follows.revise fun routine i op word h => ⟨word, ?_⟩
  have hlt : i < routine.code.size := (Array.getElem?_eq_some_iff.mp h).1
  simp only [Routine.append, Array.getElem?_push, if_neg (Nat.ne_of_lt hlt)]
  exact h

theorem Follows.landed (ws : Workspace) (label : PendingJump) : Follows ws (ws.landed label) := by
  refine Follows.revise fun routine i op word h => ?_
  simp only [Routine.land, Routine.setDepth, Routine.aim, Array.getElem?_modify, h]
  split
  · exact ⟨_, rfl⟩
  · exact ⟨word, rfl⟩

/-- A change of the frames that leaves their shape alone. -/
theorem Follows.reframe {change : List Frame → List Frame}
    (hshape : (change ws.scopes.frames).map Frame.shape = ws.scopes.frames.map Frame.shape)
    (hfunctions : Frame.Grown (Frame.functions ws.scopes.frames)
      (Frame.functions (change ws.scopes.frames))) : Follows ws (ws.reframe change) where
  opened := rfl
  size := Nat.le_refl _
  others _ _ _ := rfl
  jumps _ _ word h := ⟨word, h⟩
  shape := hshape
  pushes := Nat.le_refl _
  functions := hfunctions

/-- What is seen by jumps determines the shape. -/
theorem shape_of_still {frames frames' : List Frame}
    (h : frames'.map Frame.still = frames.map Frame.still) :
    frames'.map Frame.shape = frames.map Frame.shape := by
  have hstill : ∀ frame : Frame, frame.still.shape = frame.shape := by
    intro frame
    obtain ⟨serial, bindings, state⟩ := frame
    cases state <;> rfl
  have hmap : ∀ frames : List Frame, (frames.map Frame.still).map Frame.shape =
      frames.map Frame.shape := by
    intro frames
    rw [List.map_map]
    exact List.map_congr_left fun frame _ => hstill frame
  rw [← hmap frames', h, hmap]

theorem Follows.countThrow (ws : Workspace) : Follows ws (ws.reframe Frame.countThrow) := by
  refine Follows.reframe (shape_of_still Frame.countThrow_still) ?_
  rw [Frame.functions_countThrow]
  exact .refl _

theorem Follows.unguarded (ws : Workspace) : Follows ws ws.unguarded := by
  refine Follows.reframe (Frame.shape_unguard _) ?_
  rw [Frame.functions_unguard]
  exact .refl _

theorem Step.follows (h : Step ws ws') : Follows ws ws' := by
  cases h with
  | write => exact Follows.wrote ws _
  | pool pool => exact { Follows.refl ws with }
  | land => exact Follows.landed ws _
  | reset depth => exact Follows.revise fun routine i op word h => ⟨word, h⟩
  | line line => exact { Follows.refl ws with }
  | @takeSlot slot hnext hroom =>
      refine Follows.reframe (shape_of_still Frame.takeSlot_still) ?_
      unfold ScopeStack.nextSlot? at hnext
      rw [Frame.nextSlot?_functions] at hnext
      cases hfunctions : Frame.functions ws.scopes.frames with
      | nil => rw [hfunctions] at hnext; cases hnext
      | cons head outer =>
          obtain ⟨id, next⟩ := head
          rw [hfunctions] at hnext
          obtain rfl : next = slot := Option.some.inj hnext
          rw [Frame.functions_takeSlot hfunctions]
          refine List.Forall₂.cons ⟨rfl, ?_⟩ (Frame.Grown.refl _)
          -- A slot below the limit has a next one.
          have hsucc : (next + 1).toNat = next.toNat + 1 := by
            rw [UInt16.toNat_add]
            exact Nat.mod_eq_of_lt (by unfold Frame.slotLimit at hroom; simp; omega)
          rw [UInt16.le_iff_toNat_le, hsucc]
          exact Nat.le_succ _
  | bind name hslot =>
      refine Follows.reframe (shape_of_still (Frame.bindName_still name _)) ?_
      rw [Frame.functions_bindName]
      exact .refl _
  | @note change hquiet =>
      refine Follows.reframe ?_ ?_
      · have hshape := congrArg (List.map Frame.shape) hquiet
        simpa only [List.map_map, Function.comp_def, Frame.shape_quiet] using hshape
      · rw [← Frame.functions_quiet (change ws.scopes.frames), hquiet, Frame.functions_quiet]
        exact .refl _

/-- A handler is no function. -/
theorem handler_scope (start : Position) (guarded : Bool) (throws : Nat) :
    (FrameState.handler start guarded throws).scope ≠ .function := by
  intro hscope
  cases hscope

/-- The frame of a scope is the innermost one at the end of a course inside. -/
theorem Follows.innermost {state : FrameState} (h : Follows (ws.entered state) inside) :
    ∃ frame outer, inside.scopes.frames = frame :: outer ∧
      frame.shape = Frame.shape ⟨ws.scopes.nextSerial, [], state⟩ ∧
      outer.map Frame.shape = ws.shape :=
  List.map_eq_cons_iff.mp h.shape

/-- A scope stays what it was opened as, and so do those around it. -/
theorem Follows.scopes {state : FrameState} {frame : Frame} {outer : List Frame}
    (h : Follows (ws.entered state) inside) (hframes : inside.scopes.frames = frame :: outer) :
    frame.scope = state.scope ∧ outer.map Frame.shape = ws.shape := by
  have hshape := h.shape
  rw [Workspace.shape, hframes] at hshape
  obtain ⟨hframe, houter⟩ := List.cons.inj hshape
  exact ⟨congrArg (fun shape => shape.2.1) hframe, houter⟩

/-- **What was done inside a scope has been done, and a scope more was opened.** -/
theorem Follows.leave {state : FrameState} {frame : Frame} {outer : List Frame}
    (h : Follows (ws.entered state) inside) (hstate : state.scope ≠ .function)
    (hframes : inside.scopes.frames = frame :: outer) :
    Follows ws (inside.left frame) ∧
      ws.scopes.counts.pushes < (inside.left frame).scopes.counts.pushes := by
  obtain ⟨hscope, houter⟩ := h.scopes hframes
  have houter' : (inside.left frame).scopes.frames = outer := by
    simp only [left, hframes, List.tail_cons]
  refine ⟨⟨h.opened, h.size, h.others, h.jumps, ?_, ?_, ?_⟩, h.pushes⟩
  · rw [Workspace.shape, houter']
    exact houter
  · exact Nat.le_trans (Nat.le_succ _) h.pushes
  · have hfunctions := h.functions
    rw [hframes, Frame.functions_cons_of_scope (by rw [hscope]; exact hstate)] at hfunctions
    rw [houter']
    refine Eq.mp ?_ hfunctions
    exact congrArg (Frame.Grown · _) (Frame.functions_cons_of_scope hstate)

/-- The functions there were before one was opened are as they were when it is closed. -/
theorem Follows.closed_others {params next : UInt16} {frame : Frame}
    (h : Follows ((Layout.opened ws params).entered (.function ws.code.routines.size 0)) inside)
    {g : Nat} (hg : g < ws.code.routines.size) :
    (Layout.closed (inside.left frame) next ws.code.opened).code.routines[g]? =
      ws.code.routines[g]? := by
  have hcurrent : inside.code.currentFunction = ws.code.routines.size := h.currentFunction
  show (inside.code.routines.modify inside.code.currentFunction _)[g]? = _
  rw [Array.getElem?_modify, hcurrent, if_neg (Nat.ne_of_gt hg), h.others g]
  · simp only [Layout.opened, entered, Array.getElem?_push, if_neg (Nat.ne_of_lt hg)]
  · simp only [Layout.opened, entered, Array.size_push]
    omega
  · exact Nat.ne_of_lt hg

/-- The frame that is innermost at the end of a function is its own. -/
theorem Follows.function_frame {id : Nat} {frame : Frame} {outer : List Frame}
    (h : Follows (ws.entered (.function id 0)) inside)
    (hframes : inside.scopes.frames = frame :: outer) :
    ∃ next, frame.state = .function id next ∧
      Frame.Grown (Frame.functions ws.scopes.frames) (Frame.functions outer) := by
  have hscope : frame.scope = .function := (h.scopes hframes).1
  have hfunctions := h.functions
  rw [hframes, Frame.functions_cons, show Frame.functions _ =
    (id, 0) :: Frame.functions ws.scopes.frames from rfl] at hfunctions
  obtain ⟨serial, bindings, state⟩ := frame
  cases state with
  | function id' next =>
      cases hfunctions with
      | cons hhead htail => exact ⟨next, congrArg (FrameState.function · next) hhead.1, htail⟩
  | loop | handler | branch | block | transform => cases hscope

/-- What was done inside a function leaves the functions around it alone. -/
theorem Follows.closed {params : UInt16} (next : UInt16) {frame : Frame} {outer : List Frame}
    (h : Follows ((Layout.opened ws params).entered (.function ws.code.routines.size 0)) inside)
    (hframes : inside.scopes.frames = frame :: outer) :
    Follows ws (Layout.closed (inside.left frame) next ws.code.opened) ∧
      ws.scopes.counts.pushes <
        (Layout.closed (inside.left frame) next ws.code.opened).scopes.counts.pushes := by
  have houter : (Layout.closed (inside.left frame) next ws.code.opened).scopes.frames = outer := by
    simp only [Layout.closed, left, hframes, List.tail_cons]
  refine ⟨⟨rfl, ?_, fun g hg _ => h.closed_others hg, ?_, ?_, ?_, ?_⟩, h.pushes⟩
  · have hsize : ws.code.routines.size + 1 ≤ inside.code.routines.size := by
      simpa [Layout.opened, entered] using h.size
    show _ ≤ (inside.code.routines.modify inside.code.currentFunction _).size
    rw [Array.size_modify]
    omega
  · intro position op word hjump
    obtain ⟨routine, hroutine, hcode⟩ := Option.bind_eq_some_iff.mp hjump
    have hlt : position.function < ws.code.routines.size :=
      (Array.getElem?_eq_some_iff.mp hroutine).1
    refine ⟨word, ?_⟩
    rw [Assembly.instruction?, h.closed_others hlt, hroutine]
    exact hcode
  · rw [Workspace.shape, houter]
    exact (h.scopes hframes).2
  · exact Nat.le_trans (Nat.le_succ _) h.pushes
  · obtain ⟨_, -, hgrown⟩ := h.function_frame hframes
    rw [houter]
    exact hgrown

theorem Escape.follows {body escaped : Workspace} {exit : Option PendingJump}
    (h : Escape body exit escaped) : Follows body escaped := by
  cases h with
  | none => exact Follows.refl _
  | jump => exact (Follows.wrote _ _).trans (Follows.wrote _ _)

/-- **A course leaves the open functions, the frames and the jumps in their places.** -/
theorem Course.follows (h : Course ws ws') : Follows ws ws' := by
  induction h with
  | stay ws => exact Follows.refl ws
  | step h => exact h.follows
  | trans _ _ ih ih' => exact ih.trans ih'
  | slot _ _ _ ih => exact ih.trans (Follows.wrote _ _)
  | @scope ws inside state frame outer hstate _ hframes ih =>
      refine (ih.leave ?_ hframes).1
      intro hscope
      cases state with
      | function => exact hstate
      | loop | handler | branch | block | transform => cases hscope
  | throw ws => exact (Follows.countThrow ws).trans (Follows.wrote _ _)
  | @handler ws body escaped named inside last install exit caught frame outer hinstall _ hescape _
      hcode hcatch _ _ hframes hlast ihbody ihnamed ihcaught ihhandler =>
      have hinside := ((ihbody.trans hescape.follows).trans
        ((Follows.unguarded escaped).trans (Follows.landed _ install))).trans
        ((ihnamed.trans ihcaught).trans ihhandler)
      have hleft := (Follows.wrote ws _).trans (hinside.leave (handler_scope _ _ _) hframes).1
      have hexit : Follows ws last := by
        subst hlast
        cases exit with
        | none => exact hleft
        | some label => exact hleft.trans (Follows.landed _ label)
      exact { hexit with }
  | lambda _ hframes _ ih => exact (ih.closed _ hframes).1.trans (Follows.wrote _ _)

end Progress

end QueryCompiler
