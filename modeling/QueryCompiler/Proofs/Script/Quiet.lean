/-
Operations that neither write code nor concern jumps or slots.

A rule looks things up, asks for numbers of constants, gives names to slots and makes
notes in frames.  None of that changes a function, or what the frames remember about
jumps that wait and about slots that are taken: the workspace `Rests`.
-/
import QueryCompiler.Proofs.Script.Growth

namespace QueryCompiler

open Workspace

/-! ### Frames seen by jumps that wait -/

/-- What a frame remembers about jumps: where they lead back to, and which of them wait. -/
def FrameState.noted : FrameState → FrameState
  | function .. => function 0 0
  | loop target depth breaks => loop target depth breaks
  | handler .. => handler ⟨0, 0⟩ false 0
  | branch _ exits => branch 0 exits
  | block => block
  | transform _ => transform 0

def Frame.noted (frame : Frame) : Frame :=
  ⟨frame.serial, [], frame.state.noted⟩

theorem FrameState.noted_still (state : FrameState) : state.still.noted = state.noted := by
  cases state <;> rfl

theorem Frame.map_noted_of_still {frames frames' : List Frame}
    (h : frames'.map still = frames.map still) : frames'.map noted = frames.map noted := by
  have hstill : ∀ frames : List Frame, frames.map noted = (frames.map still).map noted := by
    intro frames
    rw [List.map_map]
    refine List.map_congr_left fun frame _ => ?_
    simp only [Function.comp_apply, noted, still, FrameState.noted_still]
  rw [hstill frames', h, ← hstill]

/-! ### Quiet operations -/

/-- Whether the error is that a function has no slot left. -/
def CompileError.exhaustsSlots : CompileError → Bool
  | slotsExhausted .. => true
  | _ => false

/-- Neither the functions have changed nor what the frames remember about jumps and slots. -/
structure Workspace.Rests (ws ws' : Workspace) : Prop where
  routines : ws'.code.routines = ws.code.routines
  opened : ws'.code.opened = ws.code.opened
  constants : ws.code.pool.constants.toList <+: ws'.code.pool.constants.toList
  regions : ws.code.regions.toList <+: ws'.code.regions.toList
  noted : ws'.scopes.frames.map Frame.noted = ws.scopes.frames.map Frame.noted
  functions : Frame.functions ws'.scopes.frames = Frame.functions ws.scopes.frames
  nextSerial : ws'.scopes.nextSerial = ws.scopes.nextSerial

theorem Workspace.Rests.refl (ws : Workspace) : ws.Rests ws :=
  ⟨rfl, rfl, List.prefix_refl _, List.prefix_refl _, rfl, rfl, rfl⟩

/-- The action leaves the workspace at rest, has a value with the property if it gets done, and does
not fail for want of a slot. -/
def Quiet {α : Type} (value : α → Prop) (action : Action Workspace α) : Prop :=
  ∀ ws, match action ws with
    | .done x ws' => value x ∧ ws.Rests ws'
    | .failed error ws' => error.exhaustsSlots = false ∧ ws.Rests ws'
    | .fault _ => True

namespace Quiet

variable {α : Type}

theorem pure (x : α) : Quiet (· = x) (Pure.pure x : Action Workspace α) :=
  fun ws => ⟨rfl, .refl ws⟩

theorem ofWord (result : Except Fault α) :
    Quiet (fun x => result = .ok x) (Action.ofWord result : Action Workspace α) := by
  intro ws
  cases result with
  | ok x => exact ⟨rfl, .refl ws⟩
  | error fault => trivial

theorem readCode (view : Assembly → α) :
    Quiet (fun _ => True) (onCode (Action.read view)) :=
  fun ws => ⟨trivial, .refl ws⟩

theorem readScopes (view : ScopeStack → α) :
    Quiet (fun _ => True) (onScopes (Action.read view)) :=
  fun ws => ⟨trivial, .refl ws⟩

theorem reachable : Quiet (fun _ => True) reachable := readCode _

theorem guardsWithin (scope : Scope) : Quiet (fun _ => True) (guardsWithin scope) := readScopes _

theorem constant (value : Constant) :
    Quiet (fun _ => True) (onCode (Assembly.constant value)) := by
  intro ⟨code, scopes, underway⟩
  simp only [onCode, Assembly.constant]
  cases hadd : code.pool.add value with
  | ok result =>
      obtain ⟨id, pool⟩ := result
      refine ⟨trivial, rfl, rfl, ?_, List.prefix_refl _, rfl, rfl, rfl⟩
      rcases Pool.add_cases hadd with rfl | ⟨-, hpush⟩
      · exact List.prefix_refl _
      · show _ <+: pool.constants.toList
        rw [hpush, Array.toList_push]
        exact List.prefix_append ..
  | error error =>
      refine ⟨?_, .refl _⟩
      obtain ⟨-, -, rfl⟩ := Pool.of_add_error hadd
      rfl

theorem addRegion (region : GuardedRegion) :
    Quiet (fun _ => True) (onCode (Action.modify fun code => code.addRegion region)) := by
  intro ws
  refine ⟨trivial, rfl, rfl, List.prefix_refl _, ?_, rfl, rfl, rfl⟩
  show _ <+: (ws.code.regions.push region).toList
  rw [Array.toList_push]
  exact List.prefix_append ..

theorem findLocal (name : String) : Quiet (fun _ => True) (findLocal name) := by
  intro ws
  simp only [Workspace.findLocal, onScopes, ScopeStack.findLocal]
  cases Frame.findLocal name 0 ws.scopes.frames with
  | ok found => exact ⟨trivial, .refl _⟩
  | error fault => trivial

theorem findElement (span : Span) : Quiet (fun _ => True) (findElement span) := by
  intro ws
  simp only [Workspace.findElement, onScopes, ScopeStack.findElement]
  cases Frame.findElement 0 ws.scopes.frames with
  | ok found =>
      cases found with
      | some ref => exact ⟨trivial, .refl _⟩
      | none => exact ⟨rfl, .refl _⟩
  | error fault => trivial

/-- A change of the frames that concerns neither jumps nor slots. -/
theorem reframe {change : ScopeStack → ScopeStack} (frames : List Frame → List Frame)
    (hchange : ∀ scopes, change scopes = { scopes with frames := frames scopes.frames })
    (hnoted : ∀ old, (frames old).map Frame.noted = old.map Frame.noted)
    (hfunctions : ∀ old, Frame.functions (frames old) = Frame.functions old) :
    Quiet (fun _ => True) (onScopes (Action.modify change)) := by
  intro ws
  simp only [onScopes, Action.modify, hchange]
  exact ⟨trivial, rfl, rfl, List.prefix_refl _, List.prefix_refl _, hnoted _, hfunctions _, rfl⟩

theorem countThrow : Quiet (fun _ => True) (onScopes (Action.modify ScopeStack.countThrow)) :=
  reframe Frame.countThrow (fun _ => rfl)
    (fun _ => Frame.map_noted_of_still Frame.countThrow_still)
    (fun _ => Frame.functions_countThrow ..)

theorem bindName (name : String) (slot : UInt16) :
    Quiet (fun _ => True) (onScopes (Action.modify (ScopeStack.bindName name slot))) := by
  refine reframe (Frame.bindName name slot) (fun scopes => ?_)
    (fun _ => Frame.map_noted_of_still (Frame.bindName_still ..))
    fun _ => Frame.functions_bindName ..
  rw [ScopeStack.bindName]
  cases hframes : scopes.frames with
  | nil => simp [Frame.bindName, ← hframes]
  | cons frame outer => rfl

/-- A note in a frame that concerns neither jumps nor slots. -/
theorem note (id : FrameId) {change : FrameState → FrameState}
    (hnoted : ∀ state, (change state).noted = state.noted)
    (hfunction : ∀ state, (change state).function? = state.function?) :
    Quiet (fun _ => True) (update id change) := by
  intro ws
  simp only [update, onScopes, ScopeStack.update]
  cases ws.scopes.frame? id with
  | none => exact ⟨rfl, .refl _⟩
  | some frame =>
      refine ⟨trivial, rfl, rfl, List.prefix_refl _, List.prefix_refl _, ?_, ?_, rfl⟩
      · refine Layout.Passes.map_update Frame.noted change (fun frame => ?_) id.serial
          ws.scopes.frames
        simp only [Frame.noted, Frame.modify, hnoted]
      · show List.filterMap _ (List.map _ _) = _
        rw [List.filterMap_map]
        refine List.filterMap_congr fun frame _ => ?_
        simp only [Function.comp_apply]
        split
        · exact hfunction frame.state
        · rfl

theorem setArm (id : FrameId) (arm : Nat) :
    Quiet (fun _ => True) (update id (FrameState.setArm arm)) := by
  refine note id (fun state => ?_) fun state => ?_ <;> cases state <;> rfl

theorem setGuarded (id : FrameId) (guarded : Bool) :
    Quiet (fun _ => True) (update id (FrameState.setGuarded guarded)) := by
  refine note id (fun state => ?_) fun state => ?_ <;> cases state <;> rfl

end Quiet

end QueryCompiler
