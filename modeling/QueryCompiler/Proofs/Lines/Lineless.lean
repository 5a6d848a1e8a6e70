/-
What a lowering does with source lines.

Rules have nothing to do with lines; a line is set when a node is reached, and put back
when it is left.  An action is `Lineless` if that can be told from outside, whatever it is
that lowers the parts: all it does to the code are steps, and to code with other lines it
does the same.  What goes for lines goes for the count of the nodes that are being lowered,
which no rule has a way to look at either.

From the steps it follows that a program has a line for every instruction, or none at all
if lines are not kept.
-/
import QueryCompiler.Proofs.Parallel.Parts
import QueryCompiler.Proofs.Sessions.Upkeep

namespace QueryCompiler

open Workspace

variable {α β : Type}

/-- Nothing but lines of the code and the count of nodes becomes another. -/
def Relining.workspace (r : Relining) (count : Nat → Nat) (ws : Workspace) : Workspace :=
  { ws with code := r.code ws.code, underway := count ws.underway }

/-- The second action does to a relined workspace what the first does to the workspace. -/
abbrev Relining.Shows (r : Relining) (count : Nat → Nat) (first second : Action Workspace α) :
    Prop :=
  Action.Shows (r.workspace count) id first second

/-- What has become of an assembly by some steps is gone on with in steps. -/
abbrev Workspace.Stepwise (base : Assembly) (action : Action Workspace α) : Prop :=
  Action.Keeps (fun ws => Assembly.Steps base ws.code) action

/-- The action has nothing to do with lines, if what lowers the parts has not. -/
structure Lineless (act : Lower → Action Workspace α) : Prop where
  relines : ∀ (r : Relining) (count : Nat → Nat) {lower lower' : Lower},
    (∀ node, r.Shows count (lower node) (lower' node)) → r.Shows count (act lower) (act lower')
  steps : ∀ (base : Assembly) {lower : Lower},
    (∀ node, Stepwise base (lower node)) → Stepwise base (act lower)

namespace Lineless

/-- An action that asks for no part has nothing to do with lines, whatever lowers parts. -/
theorem shows {action : Action Workspace α} (h : Lineless fun _ => action) (r : Relining)
    (count : Nat → Nat) : r.Shows count action action :=
  h.relines r count fun _ => Action.Shows.pure ()

theorem stepwise {action : Action Workspace α} (h : Lineless fun _ => action) (base : Assembly) :
    Stepwise base action :=
  h.steps base fun _ => Action.Keeps.pure ()

/-! ### Chains, calls and scopes -/

theorem pure (x : α) : Lineless fun _ => Pure.pure x where
  relines _ _ _ _ _ := .pure x
  steps _ _ _ := .pure x

theorem bind {first : Lower → Action Workspace α} {next : α → Lower → Action Workspace β}
    (hfirst : Lineless first) (hnext : ∀ x, Lineless (next x)) :
    Lineless fun lower => first lower >>= fun x => next x lower where
  relines r count _ _ hlower :=
    .bind (hfirst.relines r count hlower) fun x => (hnext x).relines r count hlower
  steps base _ hlower := .bind (hfirst.steps base hlower) fun x => (hnext x).steps base hlower

theorem part (node : Node) : Lineless fun lower => lower node where
  relines _ _ _ _ hlower := hlower node
  steps _ _ hlower := hlower node

theorem fail (error : CompileError) :
    Lineless fun _ => (Action.fail error : Action Workspace α) where
  relines _ _ _ _ _ := .fail error
  steps _ _ _ := fun _ hsteps => hsteps

theorem raise (fault : Fault) : Lineless fun _ => (Action.raise fault : Action Workspace α) where
  relines _ _ _ _ _ := .raise fault
  steps _ _ _ := fun _ _ => trivial

theorem ofWord (result : Except Fault α) : Lineless fun _ => Action.ofWord result := by
  cases result with
  | ok x => exact .pure x
  | error fault => exact .raise fault

theorem ofResult (result : Except CompileError α) : Lineless fun _ => Action.ofResult result := by
  cases result with
  | ok x => exact .pure x
  | error error => exact .fail error

theorem attempt {act : Lower → Action Workspace α} (h : Lineless act) :
    Lineless fun lower => (act lower).attempt where
  relines r count lower lower' hlower := by
    intro ws
    simp only [Action.attempt, h.relines r count hlower ws]
    cases act lower ws <;> rfl
  steps base lower hlower := by
    intro ws hsteps
    have hkept := h.steps base hlower ws hsteps
    unfold Action.attempt
    cases hact : act lower ws <;> rw [hact] at hkept <;> exact hkept

theorem ite {p : Prop} [Decidable p] {first second : Lower → Action Workspace α}
    (hfirst : Lineless first) (hsecond : Lineless second) :
    Lineless fun lower => if p then first lower else second lower := by
  by_cases hp : p
  · simp only [if_pos hp]
    exact hfirst
  · simp only [if_neg hp]
    exact hsecond

theorem onScopes (action : Action ScopeStack α) :
    Lineless fun _ => Workspace.onScopes action where
  relines r _ _ _ _ := by
    intro ws
    simp only [Workspace.onScopes, Relining.workspace]
    cases action ws.scopes <;> rfl
  steps base _ _ := by
    intro ws hsteps
    unfold Workspace.onScopes
    cases action ws.scopes with
    | done x scopes => exact hsteps
    | failed error scopes => exact hsteps
    | fault fault => trivial

theorem within (state : FrameState) {body : FrameId → Lower → Action Workspace α}
    (h : ∀ id, Lineless (body id)) :
    Lineless fun lower => Workspace.within state fun id => body id lower :=
  .bind (.onScopes _) fun id => .bind (h id).attempt fun _ => .bind (onScopes _).attempt fun _ =>
    .bind (.ofResult _) fun _ => .bind (.ofResult _) fun _ => .pure _

/-! ### Code -/

theorem onCode {action : Action Assembly α} (hblind : Assembly.Blind action)
    (hsteps : ∀ base, Action.Keeps (Assembly.Steps base) action) :
    Lineless fun _ => Workspace.onCode action where
  relines r _ _ _ _ := by
    intro ws
    have hshows := hblind r .keep ws.code
    rw [show CompileError.alter .keep = id from funext CompileError.alter_keep] at hshows
    simp only [Workspace.onCode, Relining.workspace, hshows]
    cases action ws.code <;> rfl
  steps base _ _ := by
    intro ws h
    have hkept := hsteps base ws.code h
    unfold Workspace.onCode
    cases haction : action ws.code <;> rw [haction] at hkept <;> exact hkept

theorem read {view : Assembly → α} (hblind : Assembly.Blind (Action.read view)) :
    Lineless fun _ => Workspace.onCode (Action.read view) :=
  .onCode hblind fun _ _ h => h

theorem emitWith (op : Opcode) (operand : Operand) :
    Lineless fun _ => Workspace.emitWith op operand :=
  .bind (.onCode (.emit op operand) fun _ => Assembly.emit_steps op operand) fun _ => .pure ()

theorem constant (value : Constant) :
    Lineless fun _ => Workspace.onCode (Assembly.constant value) :=
  .onCode (.constant value) fun _ => Assembly.constant_steps value

theorem emitName (op : Opcode) (text : String) : Lineless fun _ => Workspace.emitName op text :=
  .bind (constant _) fun _ => emitWith op _

theorem resetDepth (depth : Nat) : Lineless fun _ => Workspace.resetDepth depth :=
  .onCode (.resetDepth depth) fun _ => .modify fun _ h => h.tail (.revise fun _ => .setDepth depth)

theorem emitClosure (arity : UInt16) {body : Lower → Action Workspace Unit} (h : Lineless body) :
    Lineless fun lower => Workspace.emitClosure arity (body lower) := by
  have hopen : ∀ base, Action.Keeps (Assembly.Steps base) (Assembly.openFunction arity) :=
    fun _ _ h => h.tail (.openFunction arity)
  exact .bind (.onCode (.openFunction arity) hopen) fun function =>
    .bind (.within _ fun _ => h) fun _ =>
      .bind (.onCode (.closeFunction _) fun _ => Assembly.closeFunction_steps _) fun _ =>
        emitWith _ _

end Lineless

/-- **What has a match has nothing to do with lines.** -/
theorem Matched.lineless {a : Alteration} {act act' : Lower → Action Workspace α}
    (h : Matched a act act') : Lineless act := by
  induction h with
  | pure x => exact .pure x
  | bind _ _ ihfirst ihnext => exact .bind ihfirst ihnext
  | part node => exact .part node
  | fail error => exact .fail error
  | ofWord result => exact .ofWord result
  | within state _ ih => exact .within state ih
  | depth => exact .read .depth
  | position => exact .read .position
  | reachable => exact .read .reachable
  | guardsWithin | findLocal | findElement | takeSlot | declare | update | addBreak | countThrow =>
      exact .onScopes _
  | enclosingLoop span =>
      refine .bind (.onScopes _) fun frame => ?_
      cases frame.state.loopEntry? with
      | some entry => exact .pure entry
      | none => exact .fail _
  | emitWith op _ => exact .emitWith op _
  | pushConstant _ =>
      exact .bind (.onCode (.pushConstant _) fun _ => Assembly.pushConstant_steps _) fun _ =>
        .pure ()
  | emitName text _ => exact .emitName _ text
  | emitIdent name =>
      refine .bind (.onScopes _) fun found => ?_
      cases found with
      | some ref => exact .emitWith _ _
      | none => exact .emitName _ name
  | emitHint name value =>
      exact .bind (.constant _) fun _ => .bind (.constant value) fun _ => .emitWith _ _
  | emitImport path binding _ =>
      exact .bind (.constant _) fun _ => .bind (.onScopes _) fun slot =>
        .bind (.emitWith _ _) fun _ => .pure slot
  | emitClosure arity _ ih => exact .emitClosure arity ih
  | jump op => exact .onCode (.jump op) fun _ => Assembly.jump_steps op
  | jumpBack target depth =>
      exact .bind (.onCode (.jumpBack target depth) fun _ => Assembly.jumpBack_steps target depth)
        fun _ => .pure ()
  | land label => exact .onCode (.land label) fun _ => Assembly.land_steps label
  | resetDepth depth => exact .resetDepth depth
  | addRegion region =>
      exact .onCode (.addRegion region) fun _ => .modify fun code h =>
        h.tail (.note code.pool (code.regions.push region) code.line)

/-- **Rules have nothing to do with lines.** -/
theorem Rule.standard_lineless (node : Node) :
    Lineless fun lower => standard node.construct lower node :=
  (standard_carries (a := .keep) node).lineless

/-! ### Supervision -/

namespace Contract

theorem check_lineless (settings : Settings) (node : Node) (height pushes start : Nat) :
    Lineless fun _ => check settings node height pushes start := by
  have hscopes : Lineless fun _ => checkScopes node.construct height pushes := by
    refine .bind (.onScopes _) fun heightNow => .bind (.onScopes _) fun pushesNow => ?_
    cases node.construct.scope? with
    | some scope =>
        have hopened : Lineless fun _ => if pushesNow ≤ pushes then
            Action.raise (.scopeNotOpened node.construct scope) else Pure.pure () :=
          .ite (.raise _) (.pure ())
        exact .ite (.bind (.raise _) fun _ => hopened) hopened
    | none => exact .ite (.bind (.raise _) fun _ => .pure ()) (.pure ())
  have hdepth : ∀ expected, Lineless fun _ => checkDepth settings node expected :=
    fun expected => .bind (.read .depth) fun _ => .ite (.fail _) (.pure ())
  refine .bind hscopes fun _ => ?_
  unfold checkBalance
  cases node.construct.balance with
  | diverges => exact .resetDepth start
  | value => exact .bind (.ofWord _) fun _ => hdepth _
  | effect => exact hdepth start

/-- Setting the line and putting it back are steps. -/
theorem supervise_stepwise (settings : Settings) (node : Node) {lowering : Action Workspace Unit}
    {base : Assembly} (h : Stepwise base lowering) :
    Stepwise base (supervise settings node lowering) := by
  have hmove : ∀ (line : Nat) {code : Assembly}, Assembly.Steps base code →
      Assembly.Steps base (code.moveToLine line) :=
    fun line code hsteps => hsteps.tail (.note code.pool code.regions line)
  intro ws hsteps
  rw [supervise_apply]
  have hlowered := h (ws.atLine (startLine settings node ws.code.line))
    (hmove _ hsteps)
  cases hdone : lowering (ws.atLine (startLine settings node ws.code.line)) with
  | done u inside =>
      rw [hdone] at hlowered
      exact (check_lineless settings node _ _ _).stepwise base _ (hmove _ hlowered)
  | failed error inside =>
      rw [hdone] at hlowered
      exact hmove _ hlowered
  | fault fault => trivial

/-- What goes on at another line is seen as before, if the line of the node becomes another too. -/
theorem supervise_relined {r : Relining} {count : Nat → Nat} {settings : Settings} {node : Node}
    (hline : ∀ line, startLine settings node (r.line line) = r.line (startLine settings node line))
    {lowering lowering' : Action Workspace Unit} (h : r.Shows count lowering lowering') :
    r.Shows count (supervise settings node lowering) (supervise settings node lowering') := by
  intro ws
  have hdepth : (r.workspace count ws).code.depth = ws.code.depth := Relining.code_depth ws.code
  have hmoved : (r.workspace count ws).atLine
      (startLine settings node (r.workspace count ws).code.line) =
        r.workspace count (ws.atLine (startLine settings node ws.code.line)) :=
    congrArg (r.workspace count ws).atLine (hline ws.code.line)
  rw [supervise_apply, supervise_apply, hdepth, hmoved, h]
  cases lowering (ws.atLine (startLine settings node ws.code.line)) with
  | done u inside =>
      exact (check_lineless settings node _ _ _).shows r count (inside.atLine ws.code.line)
  | failed error inside => rfl
  | fault fault => rfl

end Contract

/-! ### A line for every instruction, or none -/

theorem lowerWithin_stepwise (settings : Settings) (base : Assembly) (room : Nat) (node : Node) :
    Stepwise base (lowerWithin .standard settings room node) := by
  induction room generalizing node with
  | zero =>
      intro ws hsteps
      exact hsteps
  | succ room ih =>
      exact Contract.supervise_stepwise settings node ((Rule.standard_lineless node).steps base ih)

theorem Lower.main_lineless (root : Node) : Lineless fun lower => lower.main root := by
  have hbody : Lineless fun lower => lower.body root := (Matched.body (a := .keep) root).lineless
  have hreserve : ∀ locals : UInt16, Lineless fun _ =>
      onCode (Action.modify fun code => code.reserveLocals locals) :=
    fun locals => .onCode (.reserveLocals locals) fun _ =>
      .modify (Assembly.reserveLocals_steps locals)
  exact .bind (.within _ fun _ => hbody) fun result => .bind (.onScopes _) fun height =>
    .ite (.bind (.fail _) fun _ => hreserve _) (hreserve _)

namespace Compiler

/-- **A program has a line for every instruction, or none at all if lines are not kept.** -/
theorem lines_size {settings : Settings} {root : Node} {program : Program}
    (h : compile ⟨.standard, settings⟩ root = .ok program) {function : CompiledFunction}
    (hfunction : function ∈ program.functions) :
    function.lines.size = if settings.lineInfo then function.code.size else 0 := by
  obtain ⟨ws, hlower, rfl⟩ := Layout.compile_done h
  have hsteps := (Lower.main_lineless root).steps (Assembly.start settings.lineInfo)
    (lowerWithin_stepwise settings _ settings.maxDepth)
    (start ⟨.standard, settings⟩ false) (.refl _)
  rw [show (lowerWithin .standard settings settings.maxDepth).main root _ = _ from hlower] at hsteps
  have hkept : ws.code.Kept settings.lineInfo := hsteps.kept (Assembly.start_kept _)
  obtain ⟨g, hg⟩ := Array.getElem?_of_mem hfunction
  rw [Assembly.toProgram, Array.getElem?_mapIdx, Option.map_eq_some_iff] at hg
  obtain ⟨routine, hroutine, rfl⟩ := hg
  exact (hkept.functions routine (Array.mem_of_getElem? hroutine)).lines

end Compiler

end QueryCompiler
