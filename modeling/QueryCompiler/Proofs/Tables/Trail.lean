/-
Courses seen by functions and slots.

Which function makes which, and what a load or a store is about, has nothing to do with
jumps and handlers.  Of a function it takes its parameters, its locals and its
references to slots and functions, which are its `Sketch`; of the frames it takes the
slots that names and elements stand for.  A `Trail` is a course of which only so much is
left: names are bound, slots are used, scopes are opened and closed, functions are made,
and whatever else happens is idle.
-/
import QueryCompiler.Proofs.Tables.Text

namespace QueryCompiler

/-! ### Sketches -/

/-- Whether an instruction refers to a slot or to a function. -/
def Opcode.isReference : Opcode → Bool
  | load | store | makeLambda => true
  | _ => false

theorem Opcode.isReference_of_isPlain {op : Opcode} (h : op.isPlain = true) :
    op.isReference = false := by
  cases op <;> first | rfl | cases h

/-- What a function has to do with others. -/
structure Sketch where
  params : UInt16
  locals : UInt16
  /-- The instructions that refer to a slot or to a function, in order. -/
  references : List Instruction

namespace Sketch

/-- The sketch with one more reference. -/
def write (sketch : Sketch) (instruction : Instruction) : Sketch :=
  { sketch with references := sketch.references ++ [instruction] }

/-- The sketch with at least so many locals. -/
def reserve (sketch : Sketch) (locals : UInt16) : Sketch :=
  { sketch with locals := max sketch.locals locals }

theorem locals_le_reserve (sketch : Sketch) (locals : UInt16) :
    sketch.locals ≤ (sketch.reserve locals).locals := by
  show _ ≤ if sketch.locals ≤ locals then locals else sketch.locals
  split
  · assumption
  · exact UInt16.le_refl _

theorem le_reserve (sketch : Sketch) (locals : UInt16) :
    locals ≤ (sketch.reserve locals).locals := by
  show _ ≤ if sketch.locals ≤ locals then locals else sketch.locals
  split
  · exact UInt16.le_refl _
  · rename_i h
    exact UInt16.le_of_lt (UInt16.not_le.mp h)

end Sketch

namespace Routine

def sketch (routine : Routine) : Sketch where
  params := routine.params
  locals := routine.locals
  references := routine.code.toList.filter fun instruction => instruction.op.isReference

theorem sketch_append_reference {instruction : Instruction} (h : instruction.op.isReference = true)
    (routine : Routine) (line? : Option Nat) (depth : Nat) :
    (routine.append instruction line? depth).sketch = routine.sketch.write instruction := by
  simp only [sketch, append, Sketch.write, Array.toList_push, List.filter_append, List.filter_cons,
    h, List.filter_nil, if_true]

theorem sketch_append_idle {instruction : Instruction} (h : instruction.op.isReference = false)
    (routine : Routine) (line? : Option Nat) (depth : Nat) :
    (routine.append instruction line? depth).sketch = routine.sketch := by
  simp only [sketch, append, Array.toList_push, List.filter_append, List.filter_cons, h,
    List.filter_nil, Bool.false_eq_true, if_false, List.append_nil]

/-- Aiming an instruction that does not matter does not matter. -/
theorem filter_aim {keep : Instruction → Bool} {routine : Routine} {i : Nat} {word : UInt32}
    {instruction : Instruction} (h : routine.code[i]? = some instruction)
    (hbefore : keep instruction = false) (hafter : keep (instruction.aimedAt word) = false) :
    (routine.aim i word).code.toList.filter keep = routine.code.toList.filter keep := by
  have hat : routine.code.toList[i]? = some instruction := by
    rw [Array.getElem?_toList]
    exact h
  obtain ⟨hlt, hget⟩ := List.getElem?_eq_some_iff.mp hat
  have hsplit : routine.code.toList.take i ++ instruction :: routine.code.toList.drop (i + 1) =
      routine.code.toList := by
    rw [← hget, List.getElem_cons_drop, List.take_append_drop]
  simp only [aim, Array.toList_modify, List.modify_eq_take_cons_drop hlt, hget]
  conv => rhs; rw [← hsplit]
  simp only [List.filter_append, List.filter_cons, hafter, hbefore, Bool.false_eq_true, if_false]

/-- Aiming a jump changes no reference. -/
theorem sketch_aim {routine : Routine} {i : Nat} {instruction : Instruction}
    (h : routine.code[i]? = some instruction) (hop : instruction.op.isReference = false)
    (word : UInt32) : (routine.aim i word).sketch = routine.sketch :=
  congrArg (Sketch.mk _ _) (filter_aim h hop hop)

end Routine

namespace Assembly

/-- The sketch of a function. -/
def sketch? (code : Assembly) (function : Nat) : Option Sketch :=
  code.routines[function]?.map Routine.sketch

theorem lt_of_sketch? {code : Assembly} {g : Nat} {sketch : Sketch}
    (h : code.sketch? g = some sketch) : g < code.routines.size := by
  obtain ⟨_, hroutine, -⟩ := Option.map_eq_some_iff.mp h
  exact (Array.getElem?_eq_some_iff.mp hroutine).1

theorem sketch?_modifyCurrent_of_ne {code : Assembly} {change : Routine → Routine} {g : Nat}
    (h : g ≠ code.currentFunction) : (code.modifyCurrent change).sketch? g = code.sketch? g := by
  simp only [sketch?, modifyCurrent, Array.getElem?_modify, if_neg (Ne.symm h)]

/-- What is done to the current routine is done to its sketch. -/
theorem sketch?_modifyCurrent {code : Assembly} {change : Routine → Routine}
    {change' : Sketch → Sketch} (h : ∀ routine, code.routines[code.currentFunction]? = some routine →
      (change routine).sketch = change' routine.sketch) :
    (code.modifyCurrent change).sketch? code.currentFunction =
      (code.sketch? code.currentFunction).map change' := by
  simp only [sketch?, modifyCurrent, Array.getElem?_modify, if_true]
  cases hroutine : code.routines[code.currentFunction]? with
  | none => rfl
  | some routine => exact congrArg some (h routine hroutine)

theorem sketch?_reserveLocals (code : Assembly) (locals : UInt16) :
    (code.reserveLocals locals).sketch? code.currentFunction =
      (code.sketch? code.currentFunction).map (Sketch.reserve · locals) :=
  sketch?_modifyCurrent fun _ _ => rfl

end Assembly

/-! ### Slots that can be found -/

/-- The slot of the current element, in a frame that has one. -/
def FrameState.element? : FrameState → Option UInt16
  | transform element => some element
  | _ => none

namespace Frame

/-- How many functions are left on leaving the frame. -/
def leaves (frame : Frame) : Nat :=
  if frame.scope = .function then 1 else 0

/-- The slots that names and elements stand for, each with the number of functions to leave. -/
def slots (distance : Nat) : List Frame → List (Nat × UInt16)
  | [] => []
  | frame :: outer =>
    (frame.bindings.map Prod.snd ++ frame.state.element?.toList).map (distance, ·) ++
      slots (distance + frame.leaves) outer

theorem slots_bare (distance : Nat) (frames : List Frame) :
    slots distance (frames.map bare) = slots distance frames := by
  induction frames generalizing distance with
  | nil => rfl
  | cons frame outer ih =>
      obtain ⟨serial, bindings, state⟩ := frame
      cases state <;> exact congrArg (List.append _) (ih _)

theorem slots_of_bare {frames frames' : List Frame} (h : frames'.map bare = frames.map bare)
    (distance : Nat) : slots distance frames' = slots distance frames := by
  rw [← slots_bare, h, slots_bare]

theorem slots_takeSlot (distance : Nat) (frames : List Frame) :
    slots distance (modifyInnermost .function FrameState.takeSlot frames) =
      slots distance frames := by
  induction frames generalizing distance with
  | nil => rfl
  | cons frame outer ih =>
      obtain ⟨serial, bindings, state⟩ := frame
      cases state with
      | function => rfl
      | loop | handler | branch | block | transform => exact congrArg (List.append _) (ih _)

theorem slots_bindName (name : String) (slot : UInt16) (frame : Frame) (outer : List Frame) :
    slots 0 (bindName name slot (frame :: outer)) = (0, slot) :: slots 0 (frame :: outer) := rfl

theorem bare_quiet (frame : Frame) : frame.quiet.bare = frame.bare := by
  obtain ⟨serial, bindings, state⟩ := frame
  cases state <;> rfl

theorem bare_unguard (frames : List Frame) : (unguard frames).map bare = frames.map bare := by
  cases frames with
  | nil => rfl
  | cons frame outer =>
      obtain ⟨serial, bindings, state⟩ := frame
      cases state <;> rfl

end Frame

namespace Progress

open Workspace

variable {ws ws₁ ws₂ ws' inside : Workspace}

/-! ### Idle steps -/

/-- Neither the sketches nor the slots that can be found are different after the steps. -/
structure Idle (ws ws' : Workspace) : Prop extends Follows ws ws' where
  sketches : ∀ g, ws'.code.sketch? g = ws.code.sketch? g
  slots : Frame.slots 0 ws'.scopes.frames = Frame.slots 0 ws.scopes.frames

namespace Idle

theorem refl (ws : Workspace) : Idle ws ws :=
  ⟨.refl ws, fun _ => rfl, rfl⟩

theorem trans (h : Idle ws ws₁) (h' : Idle ws₁ ws₂) : Idle ws ws₂ where
  toFollows := h.toFollows.trans h'.toFollows
  sketches g := (h'.sketches g).trans (h.sketches g)
  slots := h'.slots.trans h.slots

theorem revise {change : Routine → Routine} (hfollows : Follows ws (ws.revise change))
    (h : ∀ routine, ws.code.routines[ws.code.currentFunction]? = some routine →
      (change routine).sketch = routine.sketch) : Idle ws (ws.revise change) where
  toFollows := hfollows
  sketches g := by
    by_cases hg : g = ws.code.currentFunction
    · subst hg
      exact (Assembly.sketch?_modifyCurrent h).trans (congrFun Option.map_id _)
    · exact Assembly.sketch?_modifyCurrent_of_ne hg
  slots := rfl

theorem wrote {instruction : Instruction} (h : instruction.op.isReference = false) :
    Idle ws (ws.wrote instruction) :=
  revise (.wrote ws instruction) fun routine _ => routine.sketch_append_idle h _ _

theorem landed {label : PendingJump} {op : Opcode} {word : UInt32}
    (hfunction : label.position.function = ws.code.currentFunction)
    (hjump : ws.code.instruction? label.position = some ⟨op, .target word⟩)
    (hop : op.isReference = false) : Idle ws (ws.landed label) := by
  refine revise (.landed ws label) fun routine hroutine => ?_
  rw [Assembly.instruction?, hfunction, hroutine] at hjump
  exact Routine.sketch_aim hjump hop _

theorem reframe {change : List Frame → List Frame} (hfollows : Follows ws (ws.reframe change))
    (hslots : Frame.slots 0 (change ws.scopes.frames) = Frame.slots 0 ws.scopes.frames) :
    Idle ws (ws.reframe change) :=
  ⟨hfollows, fun _ => rfl, hslots⟩

end Idle

theorem Escape.idle {body escaped : Workspace} {exit : Option PendingJump}
    (h : Escape body exit escaped) : Idle body escaped := by
  cases h with
  | none => exact .refl _
  | jump => exact (Idle.wrote rfl).trans (.wrote rfl)

/-! ### Trails -/

/-- A course, without what functions and slots have nothing to do with. -/
inductive Trail : Workspace → Workspace → Prop
  | idle {ws ws' : Workspace} (h : Idle ws ws') : Trail ws ws'
  | trans {ws ws₁ ws₂ : Workspace} (h : Trail ws ws₁) (h' : Trail ws₁ ws₂) : Trail ws ws₂
  | bind (ws : Workspace) (name : String) {slot : UInt16}
      (hslot : Frame.Owns ws.scopes.frames slot) :
      Trail ws (ws.reframe (Frame.bindName name slot))
  | slot {ws ws₁ : Workspace} {op : Opcode} {ref : SlotRef}
      (href : Frame.Addresses ws.scopes.frames ref) (h : Trail ws ws₁)
      (hop : op = .load ∨ op = .store) : Trail ws (ws₁.wrote ⟨op, .slot ref⟩)
  | scope {ws inside : Workspace} {state : FrameState} {frame : Frame} {outer : List Frame}
      (hscope : state.scope ≠ .function)
      (helement : ∀ element ∈ state.element?, Frame.Owns ws.scopes.frames element)
      (hinside : Trail (ws.entered state) inside)
      (hframes : inside.scopes.frames = frame :: outer) : Trail ws (inside.left frame)
  | lambda {ws inside : Workspace} {params next : UInt16} {frame : Frame} {outer : List Frame}
      (hinside : Trail ((Layout.opened ws params).entered
        (.function ws.code.routines.size 0)) inside)
      (hframes : inside.scopes.frames = frame :: outer)
      (hnext : frame.state.nextSlot? = some next) :
      Trail ws ((Layout.closed (inside.left frame) next ws.code.opened).wrote
        ⟨.makeLambda, .function ws.code.routines.size.toUInt32⟩)

theorem Trail.follows (h : Trail ws ws') : Follows ws ws' := by
  induction h with
  | idle h => exact h.toFollows
  | trans _ _ ih ih' => exact ih.trans ih'
  | bind ws name hslot => exact (Step.bind name hslot).follows
  | slot _ _ _ ih => exact ih.trans (Follows.wrote _ _)
  | scope hscope _ _ hframes ih => exact (ih.leave hscope hframes).1
  | lambda _ hframes _ ih => exact (ih.closed _ hframes).1.trans (Follows.wrote _ _)

theorem Step.trail (h : Step ws ws') : Trail ws ws' := by
  have hfollows := h.follows
  cases h with
  | write hplain => exact .idle (.wrote (Opcode.isReference_of_isPlain hplain))
  | pool | line => exact .idle ⟨hfollows, fun _ => rfl, rfl⟩
  | land hfunction hjump hplain =>
      exact .idle (.landed hfunction hjump (Opcode.isReference_of_isPlain hplain))
  | reset depth => exact .idle (.revise hfollows fun _ _ => rfl)
  | takeSlot => exact .idle (.reframe hfollows (Frame.slots_takeSlot 0 _))
  | bind name hslot => exact .bind ws name hslot
  | @note change hquiet =>
      refine .idle (.reframe hfollows (Frame.slots_of_bare ?_ 0))
      have hbare := congrArg (List.map Frame.bare) hquiet
      simpa only [List.map_map, Function.comp_def, Frame.bare_quiet] using hbare

/-- What opens a scope is no function, and its element has a slot. -/
theorem opens_scope {frames : List Frame} {state : FrameState} (h : state.Opens frames) :
    state.scope ≠ .function ∧ ∀ element ∈ state.element?, Frame.Owns frames element := by
  cases state with
  | function | handler => exact h.elim
  | loop | branch | block => exact ⟨nofun, nofun⟩
  | transform element =>
      refine ⟨nofun, fun slot hslot => ?_⟩
      obtain rfl : element = slot := Option.some.inj hslot
      exact h

/-- A handler is a scope between two jumps. -/
theorem Trail.handler {body escaped named last : Workspace} {install : PendingJump}
    {exit : Option PendingJump} {caught : Instruction} {frame : Frame} {outer : List Frame}
    (hcurrent : ws.code.currentFunction < ws.code.routines.size)
    (hinstall : install.position = ws.code.position)
    (hbody : Trail ((ws.wrote ⟨.tryBegin, .unaimed⟩).entered
      (.handler install.position true 0)) body)
    (hescape : Escape body exit escaped)
    (hnamed : Trail (escaped.unguarded.landed install) named)
    (hcaught : Trail named (named.wrote caught)) (hhandler : Trail (named.wrote caught) inside)
    (hframes : inside.scopes.frames = frame :: outer)
    (hlast : last = exit.elim (inside.left frame) (inside.left frame).landed) :
    Trail ws last := by
  have hwrote : Idle ws (ws.wrote ⟨.tryBegin, .unaimed⟩) := .wrote rfl
  have hunguard : Idle escaped escaped.unguarded :=
    .reframe (.unguarded escaped) (Frame.slots_of_bare (Frame.bare_unguard _) 0)
  have hescaped := hbody.follows.trans (hescape.follows.trans (.unguarded escaped))
  have hland : Idle escaped.unguarded (escaped.unguarded.landed install) := by
    have hstands := wrote_instruction? hcurrent ⟨.tryBegin, .unaimed⟩
    rw [← hinstall] at hstands
    obtain ⟨word, hjump⟩ := hescaped.jumps _ _ _ hstands
    refine .landed ?_ hjump rfl
    rw [hescaped.currentFunction, hinstall]
    rfl
  have hpaths := ((hbody.trans (.idle hescape.idle)).trans
    (.idle (hunguard.trans hland))).trans ((hnamed.trans hcaught).trans hhandler)
  have hleft : Trail ws (inside.left frame) := by
    refine (Trail.idle hwrote).trans (.scope (handler_scope _ _ _) ?_ hpaths hframes)
    intro element helement
    cases helement
  subst hlast
  cases hescape with
  | none => exact hleft
  | @jump label hlabel =>
      refine hleft.trans (.idle ?_)
      have hbodyCurrent := hbody.follows.current_lt (hwrote.current_lt hcurrent)
      have hleaves := (Follows.wrote body ⟨.tryEnd, .none⟩).current_lt hbodyCurrent
      have hstands := wrote_instruction? hleaves ⟨.jump, .unaimed⟩
      rw [← hlabel] at hstands
      have hrest := (hunguard.toFollows.trans hland.toFollows).trans
        ((hnamed.trans hcaught).trans hhandler).follows
      obtain ⟨word, hjump⟩ := hrest.jumps _ _ _ hstands
      refine .landed ?_ hjump rfl
      show _ = inside.code.currentFunction
      rw [hrest.currentFunction, hlabel]
      rfl

/-- **Every course is a trail.** -/
theorem Course.trail (h : Course ws ws')
    (hcurrent : ws.code.currentFunction < ws.code.routines.size) : Trail ws ws' := by
  induction h with
  | stay ws => exact .idle (.refl ws)
  | step h => exact h.trail
  | trans h _ ih ih' => exact (ih hcurrent).trans (ih' (h.follows.current_lt hcurrent))
  | slot href _ hop ih => exact .slot href (ih hcurrent) hop
  | scope hstate _ hframes ih =>
      obtain ⟨hscope, helement⟩ := opens_scope hstate
      exact .scope hscope helement (ih hcurrent) hframes
  | throw ws =>
      have hcounted : Idle ws (ws.reframe Frame.countThrow) :=
        .reframe (.countThrow ws) (Frame.slots_of_bare Frame.countThrow_bare 0)
      exact .idle (hcounted.trans (.wrote rfl))
  | handler hinstall hbody hescape _ hcode _ _ _ hframes hlast ihbody ihnamed ihcaught ihhandler =>
      have hcatch := (catch_current hcurrent hbody.follows hescape hcode).2
      have hall := Trail.handler hcurrent hinstall
        (ihbody ((Follows.wrote _ _).current_lt hcurrent)) hescape
        (ihnamed (by rw [← hcode]; exact hcatch)) (ihcaught hcatch)
        (ihhandler ((Follows.wrote _ _).current_lt hcatch)) hframes hlast
      exact hall.trans (.idle ⟨{ Follows.refl _ with }, fun _ => rfl, rfl⟩)
  | lambda _ hframes hnext ih => exact .lambda (ih (opened_current_lt _ _ _)) hframes hnext

end Progress

end QueryCompiler
