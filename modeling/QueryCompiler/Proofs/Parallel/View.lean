/-
One lowering seen from another.

A `View` says what of a workspace can be recognised in the workspace of a lowering of an
altered query.  Names of variables are other names there, and source lines and the
history of scopes may be missing; all else is the same.  Names are told apart as before,
so a search for a name finds the same slot.

What an operation does to a workspace, the same operation on the altered query does to
the view of it.  The second `Shows` the first, and chains of such operations do too.
-/
import QueryCompiler.Proofs.Order.Rules
import QueryCompiler.Proofs.Parallel.Relining
import QueryCompiler.Proofs.Parallel.Rules
import QueryCompiler.Proofs.Scopes.Views

namespace QueryCompiler

/-- How the workspace of a lowering is seen from that of another. -/
structure View extends Alteration where
  injective : Function.Injective rename
  /-- Whether source lines and the history of scopes are seen. -/
  lines : Bool
  placed : lines = true → place = id

namespace View

variable {v : View} {α β : Type}

def error (v : View) : CompileError → CompileError :=
  CompileError.alter v.toAlteration

def line (v : View) (line : Nat) : Nat :=
  if v.lines then line else 0

def routine (v : View) (routine : Routine) : Routine :=
  { routine with lines := if v.lines then routine.lines else #[] }

def code (v : View) (code : Assembly) : Assembly :=
  { code with
    routines := code.routines.map v.routine
    keepLines := code.keepLines && v.lines
    line := v.line code.line }

def frame (v : View) (frame : Frame) : Frame :=
  { frame with bindings := frame.bindings.map fun binding => (v.rename binding.1, binding.2) }

def scopes (v : View) (scopes : ScopeStack) : ScopeStack :=
  { scopes with
    frames := scopes.frames.map v.frame
    events := if v.lines then scopes.events else none }

def workspace (v : View) (ws : Workspace) : Workspace :=
  { ws with code := v.code ws.code, scopes := v.scopes ws.scopes }

/-! ### Code -/

/-- What is seen of source lines. -/
def relining (v : View) : Relining where
  lines noted := if v.lines then noted else #[]
  line := v.line
  keepLines keep := keep && v.lines
  lines_empty := ite_self _
  lines_noted noted next keep := by
    unfold View.line
    cases v.lines <;> cases keep <;> rfl

/-- As for code, a view is about source lines alone. -/
theorem code_relined (code : Assembly) : v.code code = v.relining.code code := rfl

/-! ### Scopes -/

theorem frame_scope (frame : Frame) : (v.frame frame).scope = frame.scope := rfl

theorem frame_passesThrow (frame : Frame) : (v.frame frame).passesThrow = frame.passesThrow := rfl

theorem innermost_seen (wanted : Scope) (frames : List Frame) :
    Frame.innermost? wanted (frames.map v.frame) =
      (Frame.innermost? wanted frames).map v.frame :=
  Frame.innermost?_map v.frame_scope wanted frames

theorem modifyInnermost_seen (wanted : Scope) (change : FrameState → FrameState)
    (frames : List Frame) :
    Frame.modifyInnermost wanted change (frames.map v.frame) =
      (Frame.modifyInnermost wanted change frames).map v.frame :=
  (Frame.map_modifyInnermost v.frame_scope (fun _ _ => rfl) frames).symm

theorem countThrow_seen (frames : List Frame) :
    Frame.countThrow (frames.map v.frame) = (Frame.countThrow frames).map v.frame :=
  (Frame.map_countThrow v.frame_passesThrow (fun _ _ => rfl) frames).symm

theorem guardsWithin_seen (wanted : Scope) (frames : List Frame) :
    Frame.guardsWithin wanted (frames.map v.frame) = Frame.guardsWithin wanted frames := by
  simp only [Frame.guardsWithin, List.takeWhile_map, List.countP_map]
  rfl

theorem lookup_seen (frame : Frame) (name : String) :
    (v.frame frame).lookup? (v.rename name) = frame.lookup? name := by
  show (frame.bindings.map fun binding => (v.rename binding.1, binding.2)).lookup (v.rename name) =
    frame.bindings.lookup name
  induction frame.bindings with
  | nil => rfl
  | cons binding rest ih =>
      obtain ⟨other, slot⟩ := binding
      have hsame : (v.rename name == v.rename other) = (name == other) := by
        rw [Bool.eq_iff_iff, beq_iff_eq, beq_iff_eq, v.injective.eq_iff]
      simp only [List.map_cons, List.lookup_cons, hsame, ih]

/-- **A search for a name finds what a search for the other name finds.** -/
theorem findLocal_seen (name : String) (distance : Nat) (frames : List Frame) :
    Frame.findLocal (v.rename name) distance (frames.map v.frame) =
      Frame.findLocal name distance frames := by
  induction frames generalizing distance with
  | nil => rfl
  | cons frame outer ih =>
      have houtward : Frame.outward distance (v.frame frame) = Frame.outward distance frame := rfl
      simp only [List.map_cons, Frame.findLocal, lookup_seen, houtward, ih]

theorem findElement_seen (distance : Nat) (frames : List Frame) :
    Frame.findElement distance (frames.map v.frame) = Frame.findElement distance frames := by
  induction frames generalizing distance with
  | nil => rfl
  | cons frame outer ih =>
      have houtward : Frame.outward distance (v.frame frame) = Frame.outward distance frame := rfl
      have hstate : (v.frame frame).state = frame.state := rfl
      simp only [List.map_cons, Frame.findElement, hstate, houtward, ih]

theorem nextSlot_seen (stack : ScopeStack) : (v.scopes stack).nextSlot? = stack.nextSlot? := by
  unfold ScopeStack.nextSlot?
  show (Frame.innermost? .function (stack.frames.map v.frame)).bind _ = _
  rw [innermost_seen]
  cases Frame.innermost? .function stack.frames <;> rfl

theorem modifyEnclosing_seen (scope : Scope) (change : FrameState → FrameState)
    (stack : ScopeStack) :
    (v.scopes stack).modifyEnclosing scope change = v.scopes (stack.modifyEnclosing scope change) :=
  congrArg (fun frames => ScopeStack.mk frames _ _ _)
    (modifyInnermost_seen scope change stack.frames)

theorem record_seen (stack : ScopeStack) (event : ScopeEvent) :
    (v.scopes stack).record event = v.scopes (stack.record event) := by
  unfold ScopeStack.record View.scopes
  cases v.lines <;> rfl

/-! ### Operations on the scopes -/

/-- The second action does to the view of the scopes what the first does to the scopes. -/
abbrev ShowsScopes (v : View) (first second : Action ScopeStack α) : Prop :=
  Action.Shows v.scopes v.error first second

namespace ShowsScopes

theorem takeSlot (span : Span) :
    v.ShowsScopes (ScopeStack.takeSlot span) (ScopeStack.takeSlot (v.place span)) := by
  intro stack
  simp only [ScopeStack.takeSlot, nextSlot_seen]
  cases stack.nextSlot? with
  | none => rfl
  | some slot =>
      dsimp only
      split
      · rfl
      · exact congrArg (Outcome.done slot) (modifyEnclosing_seen _ _ stack)

theorem declare (name : Name) : v.ShowsScopes (ScopeStack.declare name.text name.span)
    (ScopeStack.declare (v.name name).text (v.name name).span) := by
  refine .bind (takeSlot name.span) fun slot => .bind (.modify fun stack => ?_) fun _ => .pure slot
  obtain ⟨frames, nextSerial, counts, events⟩ := stack
  cases frames <;> rfl

theorem findLocal (name : String) :
    v.ShowsScopes (ScopeStack.findLocal name) (ScopeStack.findLocal (v.rename name)) := by
  intro stack
  have hfound : Frame.findLocal (v.rename name) 0 (v.scopes stack).frames =
      Frame.findLocal name 0 stack.frames := findLocal_seen name 0 stack.frames
  simp only [ScopeStack.findLocal, hfound]
  cases Frame.findLocal name 0 stack.frames <;> rfl

theorem findElement (span : Span) :
    v.ShowsScopes (ScopeStack.findElement span) (ScopeStack.findElement (v.place span)) := by
  intro stack
  have hfound : Frame.findElement 0 (v.scopes stack).frames = Frame.findElement 0 stack.frames :=
    findElement_seen 0 stack.frames
  simp only [ScopeStack.findElement, hfound]
  cases Frame.findElement 0 stack.frames with
  | error fault => rfl
  | ok found => cases found <;> rfl

theorem update (id : FrameId) (change : FrameState → FrameState) :
    v.ShowsScopes (ScopeStack.update id change) (ScopeStack.update id change) := by
  intro stack
  have hframe : (v.scopes stack).frame? id = (stack.frame? id).map v.frame := by
    unfold ScopeStack.frame?
    show List.find? _ (stack.frames.map v.frame) = _
    rw [List.find?_map]
    rfl
  have hframes : ((v.scopes stack).frames.map fun frame =>
        if frame.serial = id.serial then frame.modify change else frame) =
      (stack.frames.map fun frame =>
        if frame.serial = id.serial then frame.modify change else frame).map v.frame := by
    simp only [View.scopes, List.map_map]
    refine List.map_congr_left fun frame _ => ?_
    simp only [Function.comp_apply]
    show (if frame.serial = id.serial then _ else _) = _
    split <;> rfl
  simp only [ScopeStack.update, hframe, hframes]
  cases stack.frame? id <;> rfl

end ShowsScopes

/-! ### Operations on the workspace -/

/-- The second action does to the view of a workspace what the first does to the workspace. -/
abbrev Clear (v : View) (first second : Action Workspace α) : Prop :=
  Action.Shows v.workspace v.error first second

namespace Clear

theorem onCode {action : Action Assembly α} (h : Assembly.Blind action) :
    v.Clear (Workspace.onCode action) (Workspace.onCode action) := by
  intro ws
  simp only [Workspace.onCode, View.workspace, code_relined, h v.relining v.toAlteration ws.code]
  cases action ws.code <;> rfl

theorem onScopes {first second : Action ScopeStack α} (h : v.ShowsScopes first second) :
    v.Clear (Workspace.onScopes first) (Workspace.onScopes second) := by
  intro ws
  simp only [Workspace.onScopes, View.workspace, h ws.scopes]
  cases first ws.scopes <;> rfl

theorem depth : v.Clear Workspace.depth Workspace.depth :=
  onCode .depth

theorem emitWith (op : Opcode) (operand : Operand) :
    v.Clear (Workspace.emitWith op operand) (Workspace.emitWith op operand) :=
  .bind (onCode (.emit op operand)) fun _ => .pure ()

theorem constant (value : Constant) : v.Clear (Workspace.onCode (Assembly.constant value))
    (Workspace.onCode (Assembly.constant value)) :=
  onCode (.constant value)

theorem emitName (op : Opcode) (text : String) :
    v.Clear (Workspace.emitName op text) (Workspace.emitName op text) :=
  .bind (constant (.string text)) fun _ => emitWith op _

theorem resetDepth (depth : Nat) :
    v.Clear (Workspace.resetDepth depth) (Workspace.resetDepth depth) :=
  onCode (.resetDepth depth)

theorem declare (name : Name) :
    v.Clear (Workspace.declare name) (Workspace.declare (v.name name)) :=
  onScopes (ShowsScopes.declare name)

theorem pushConstant (value : Constant) :
    v.Clear (Workspace.pushConstant value) (Workspace.pushConstant value) :=
  .bind (onCode (.pushConstant value)) fun _ => .pure ()

theorem emitHint (name : String) (value : Constant) :
    v.Clear (Workspace.emitHint name value) (Workspace.emitHint name value) :=
  .bind (constant _) fun _ => .bind (constant value) fun _ => emitWith _ _

theorem emitImport (op : Opcode) (path : String) (binding : Name) :
    v.Clear (Workspace.emitImport op path binding)
      (Workspace.emitImport op path (v.name binding)) :=
  .bind (constant _) fun _ => .bind (declare binding) fun slot =>
    .bind (emitWith op _) fun _ => .pure slot

theorem enclosingLoop (span : Span) :
    v.Clear (Rule.enclosingLoop span) (Rule.enclosingLoop (v.place span)) := by
  intro ws
  have hfound : Frame.innermost? .loop (v.workspace ws).scopes.frames =
      (Frame.innermost? .loop ws.scopes.frames).map v.frame := innermost_seen ..
  simp only [Rule.enclosingLoop, Action.bind_apply, Workspace.onScopes, ScopeStack.enclosing,
    hfound]
  cases Frame.innermost? .loop ws.scopes.frames with
  | none => rfl
  | some frame =>
      have hstate : (v.frame frame).state = frame.state := rfl
      simp only [Option.map_some, hstate]
      cases frame.state.loopEntry? <;> rfl

end Clear

/-! ### Opening and closing scopes -/

theorem entered_seen (ws : Workspace) (state : FrameState) :
    (v.workspace ws).entered state = v.workspace (ws.entered state) := by
  unfold Workspace.entered View.workspace View.scopes ScopeStack.height
  simp only [List.length_map]
  cases v.lines <;> rfl

/-- The frame that is closed is seen like the others. -/
theorem pop_seen (id : FrameId) (stack : ScopeStack) :
    ScopeStack.pop id (v.scopes stack) =
      match ScopeStack.pop id stack with
      | .done frame after => .done (v.frame frame) (v.scopes after)
      | .failed error after => .failed (v.error error) (v.scopes after)
      | .fault fault => .fault fault := by
  obtain ⟨frames, nextSerial, counts, events⟩ := stack
  cases frames with
  | nil => rfl
  | cons frame outer =>
      have hserial : (v.frame frame).serial = frame.serial := rfl
      simp only [ScopeStack.pop, View.scopes, List.map_cons, hserial]
      split
      · exact congrArg (Outcome.done (v.frame frame)) (record_seen ⟨outer, nextSerial, _, events⟩ _)
      · rfl

/-- Closing a scope after it was of use. -/
theorem Clear.close (id : FrameId) (x : α) :
    v.Clear (Workspace.onScopes (ScopeStack.pop id) >>= fun frame => pure (x, frame.state))
      (Workspace.onScopes (ScopeStack.pop id) >>= fun frame => pure (x, frame.state)) := by
  intro ws
  simp only [Action.bind_apply, Workspace.onScopes, View.workspace, pop_seen]
  cases ScopeStack.pop id ws.scopes <;> rfl

/-- Closing a scope after an error. -/
theorem Clear.abandon (id : FrameId) (cause : CompileError) :
    v.Clear ((Workspace.onScopes (ScopeStack.pop id)).attempt >>= fun _ =>
        (Action.fail cause : Action Workspace α))
      ((Workspace.onScopes (ScopeStack.pop id)).attempt >>= fun _ =>
        Action.fail (v.error cause)) := by
  intro ws
  simp only [Action.bind_apply, Action.attempt, Workspace.onScopes, View.workspace, pop_seen]
  cases ScopeStack.pop id ws.scopes <;> rfl

end View

end QueryCompiler
