/-
Lowering an altered query.

Two lowerings that go on side by side end alike: what one leaves behind is the view of
what the other leaves behind.  There is one proviso.  A name that stands for no local is
written into the code as it is, so a lowering can only be recognised in the other as long
as the names it has written are not changed; and one that did not get done may have been
about to write any name.  Such outcomes are the ones a view `Admits`.

Side by side, chains of matched operations stay together, and the parts of a node are
lowered at the next level.  So the lowering of a tree, and the compilation of a query,
are seen in those of the altered one.
-/
import QueryCompiler.Proofs.Parallel.View
import QueryCompiler.Proofs.Tables.Constants

namespace QueryCompiler

/-! ### Names that are written -/

/-- Some function loads the value of a name that stands for no local. -/
def Assembly.Loads (code : Assembly) (name : String) : Prop :=
  ∃ g mentions id, code.mentions? g = some mentions ∧
    ⟨.loadGlobal, .const id⟩ ∈ mentions ∧ code.pool.get? id = some (.string name)

/-- Whenever the action gets done, the names that were written are still there. -/
def Recalls {α : Type} (action : Action Workspace α) : Prop :=
  ∀ ⦃ws : Workspace⦄ ⦃x : α⦄ ⦃ws' : Workspace⦄, action ws = .done x ws' →
    ∀ name, ws.code.Loads name → ws'.code.Loads name

namespace Recalls

variable {α β : Type}

theorem bind {first : Action Workspace α} {next : α → Action Workspace β} (hfirst : Recalls first)
    (hnext : ∀ x, Recalls (next x)) : Recalls (first >>= next) := by
  intro ws y ws' h name hloads
  obtain ⟨x, ws₁, hdone, hdone'⟩ := Action.bind_done.mp h
  exact hnext x hdone' name (hfirst hdone name hloads)

end Recalls

theorem Assembly.Adds.loads {code code' : Assembly} (h : code.Adds code') {name : String}
    (hloads : code.Loads name) : code'.Loads name := by
  obtain ⟨g, mentions, id, hmentions, hmem, hget⟩ := hloads
  have hget' : code'.pool.get? id = some (.string name) := Pool.get?_of_prefix h.pool hget
  by_cases hcurrent : g = code.currentFunction
  · subst hcurrent
    obtain ⟨written, hwritten, -⟩ := h.written
    exact ⟨_, _, id, hwritten mentions hmentions, List.mem_append_left _ hmem, hget'⟩
  · obtain ⟨_, hroutine, -⟩ := Option.map_eq_some_iff.mp hmentions
    refine ⟨g, mentions, id, ?_, hmem, hget'⟩
    rw [h.others g (Array.getElem?_eq_some_iff.mp hroutine).1 hcurrent, hmentions]

theorem Adding.recalls {α : Type} {action : Action Workspace α} (h : Adding action) :
    Recalls action :=
  fun _ _ _ hdone _ hloads => (h hdone).loads hloads

theorem Recalls.closeFunction (locals : UInt16) :
    Recalls (Workspace.onCode (Assembly.closeFunction locals)) := by
  intro ws id ws' h name hloads
  obtain ⟨code, hclose, rfl⟩ := Workspace.onCode_done.mp h
  unfold Assembly.closeFunction at hclose
  split at hclose
  · simp only [Outcome.done.injEq] at hclose
    obtain ⟨-, rfl⟩ := hclose
    obtain ⟨g, mentions, id, hmentions, hrest⟩ := hloads
    exact ⟨g, mentions, id, (Progress.closed_mentions ws locals _ g).trans hmentions, hrest⟩
  · cases hclose

theorem Recalls.emitWith (op : Opcode) (operand : Operand) :
    Recalls (Workspace.emitWith op operand) := by
  intro ws u ws' h name hloads
  obtain ⟨-, rfl⟩ := Workspace.emitWith_done h
  obtain ⟨g, mentions, id, hmentions, hmem, hget⟩ := hloads
  by_cases hcurrent : g = ws.code.currentFunction
  · subst hcurrent
    obtain ⟨routine, hroutine, rfl⟩ := Option.map_eq_some_iff.mp hmentions
    refine ⟨_, _, id, (Assembly.mentions?_modifyCurrent _ _).trans (by rw [hroutine]; rfl), ?_,
      hget⟩
    exact List.mem_filter.mpr ⟨by simp [Routine.append, (List.mem_filter.mp hmem).1], rfl⟩
  · have hkept : (ws.wrote ⟨op, operand⟩).code.mentions? g = ws.code.mentions? g :=
      ws.code.mentions?_modifyCurrent_of_ne _ hcurrent
    exact ⟨g, mentions, id, hkept.trans hmentions, hmem, hget⟩

namespace View

open Workspace

variable {v : View} {α β : Type} {ws : Workspace}

/-! ### Outcomes that can be recognised -/

/-- The names that were written are not changed. -/
def Fixes (v : View) (code : Assembly) : Prop :=
  ∀ name, code.Loads name → v.rename name = name

/-- The outcome can be recognised in that of the altered query. -/
def Admits (v : View) : Outcome Workspace α → Prop
  | .done _ ws => v.Fixes ws.code
  | .failed _ _ | .fault _ => ∀ name, v.rename name = name

/-- A name that is written in the end is not changed. -/
theorem Admits.fixes {action : Action Workspace α} (h : v.Admits (action ws)) {name : String}
    (hloads : ∀ x ws', action ws = .done x ws' → ws'.code.Loads name) : v.rename name = name := by
  cases hdone : action ws with
  | done x ws' =>
      rw [hdone] at h
      exact h name (hloads x ws' hdone)
  | failed error ws' =>
      rw [hdone] at h
      exact h name
  | fault fault =>
      rw [hdone] at h
      exact h name

/-- What can be recognised in the end could be recognised before. -/
theorem Admits.before {action : Action Workspace α} (h : v.Admits (action ws))
    (hrecalls : Recalls action) : v.Fixes ws.code :=
  fun name hloads => h.fixes fun _ _ hdone => hrecalls hdone name hloads

/-- From a workspace, the second action shows what the first does, if that can be recognised. -/
def MirrorsAt (v : View) (ws : Workspace) (first second : Action Workspace α) : Prop :=
  v.Admits (first ws) → second (v.workspace ws) = (first ws).seen v.workspace v.error

namespace MirrorsAt

theorem ofClear {first second : Action Workspace α} (h : v.Clear first second) :
    v.MirrorsAt ws first second :=
  fun _ => h ws

/-- **Chains stay together as long as their links do.** -/
theorem bind {first first' : Action Workspace α} {next next' : α → Action Workspace β}
    (hfirst : v.MirrorsAt ws first first')
    (hnext : ∀ x ws₁, first ws = .done x ws₁ → v.MirrorsAt ws₁ (next x) (next' x))
    (hrecalls : ∀ x, Recalls (next x)) :
    v.MirrorsAt ws (first >>= next) (first' >>= next') := by
  intro hadmits
  simp only [Action.bind_apply] at hadmits ⊢
  rw [MirrorsAt] at hfirst
  cases hdone : first ws with
  | done x ws₁ =>
      rw [hdone] at hadmits hfirst
      rw [hfirst (Admits.before hadmits (hrecalls x))]
      exact hnext x ws₁ hdone hadmits
  | failed error ws₁ =>
      rw [hdone] at hadmits hfirst
      rw [hfirst hadmits]
      rfl
  | fault fault =>
      rw [hdone] at hadmits hfirst
      rw [hfirst hadmits]
      rfl

theorem within {state : FrameState} {body body' : FrameId → Action Workspace α}
    (h : ∀ id, v.MirrorsAt (ws.entered state) (body id) (body' id)) :
    v.MirrorsAt ws (Workspace.within state body) (Workspace.within state body') := by
  intro hadmits
  have hbody := h ⟨ws.scopes.nextSerial, state.scope⟩
  rw [MirrorsAt] at hbody
  rw [within_eq] at hadmits ⊢
  rw [within_eq, entered_seen]
  show (match body' ⟨ws.scopes.nextSerial, state.scope⟩ (v.workspace (ws.entered state)) with
    | .done x inside => _
    | .failed error inside => _
    | .fault fault => _) = _
  cases hdone : body ⟨ws.scopes.nextSerial, state.scope⟩ (ws.entered state) with
  | done x inside =>
      rw [hdone] at hadmits hbody
      have hclose : Recalls (onScopes (ScopeStack.pop ⟨ws.scopes.nextSerial, state.scope⟩) >>=
          fun frame => pure (x, frame.state)) :=
        (Adding.bind (.onScopes _) fun _ => .pure _).recalls
      rw [hbody (Admits.before hadmits hclose)]
      exact Clear.close _ x inside
  | failed error inside =>
      rw [hdone] at hadmits hbody
      obtain ⟨closed, after, hpop⟩ := pop_attempt ⟨ws.scopes.nextSerial, state.scope⟩ inside
      simp only [Action.bind_apply, hpop] at hadmits
      rw [hbody hadmits]
      exact Clear.abandon _ error inside
  | fault fault =>
      rw [hdone] at hadmits hbody
      rw [hbody hadmits]
      rfl

end MirrorsAt

/-- From wherever numbers mean something, the second action shows what the first does, if that can
be recognised. -/
def Mirrors (v : View) (first second : Action Workspace α) : Prop :=
  ∀ ws : Workspace, ws.code.Tidy → v.MirrorsAt ws first second

namespace Mirrors

theorem ofClear {first second : Action Workspace α} (h : v.Clear first second) :
    v.Mirrors first second :=
  fun _ _ => .ofClear h

theorem bind {first first' : Action Workspace α} {next next' : α → Action Workspace β}
    (hfirst : v.Mirrors first first') (hadds : Adding first)
    (hnext : ∀ x, v.Mirrors (next x) (next' x)) (hadds' : ∀ x, Adding (next x)) :
    v.Mirrors (first >>= next) (first' >>= next') :=
  fun ws htidy => .bind (hfirst ws htidy)
    (fun x ws₁ hdone => hnext x ws₁ ((hadds hdone).tidy htidy)) fun x => (hadds' x).recalls

/-- A name that was written is there. -/
theorem loads_of_emitName {name : String} {ws ws' : Workspace} {u : Unit} (htidy : ws.code.Tidy)
    (h : Workspace.emitName .loadGlobal name ws = .done u ws') : ws'.code.Loads name := by
  obtain ⟨id, pool, hadd, hemit⟩ := emitName_done h
  obtain ⟨-, rfl⟩ := emitWith_done hemit
  obtain ⟨routine, hroutine⟩ : ∃ routine,
      ws.code.routines[ws.code.currentFunction]? = some routine :=
    ⟨_, Array.getElem?_eq_getElem htidy.current⟩
  have hmentions : ((ws.pooled pool).wrote ⟨.loadGlobal, .const id⟩).code.mentions?
      ws.code.currentFunction = some (routine.mentions ++ [⟨.loadGlobal, .const id⟩]) := by
    refine (Assembly.mentions?_modifyCurrent _ _).trans ?_
    show Option.map _ ws.code.routines[ws.code.currentFunction]? = _
    rw [hroutine, Option.map_some, Routine.mentions_append rfl]
  exact ⟨_, _, id, hmentions, List.mem_append_right _ List.mem_cons_self,
    Pool.add_get? hadd htidy.few⟩

/-- A name that is written as it is had better not be changed. -/
theorem emitGlobal (name : String) :
    v.Mirrors (Workspace.emitName .loadGlobal name)
      (Workspace.emitName .loadGlobal (v.rename name)) := by
  intro ws htidy hadmits
  have hname : v.rename name = name :=
    hadmits.fixes fun _ _ hdone => loads_of_emitName htidy hdone
  rw [hname]
  exact Clear.emitName _ name ws

/-- **A name stands for the same local as the other name, or it is written as it is.** -/
theorem emitIdent (name : String) :
    v.Mirrors (Workspace.emitIdent name) (Workspace.emitIdent (v.rename name)) := by
  refine .bind (.ofClear (Clear.onScopes (ShowsScopes.findLocal name))) (.onScopes _)
    (fun found => ?_) fun found => ?_
  · cases found with
    | some ref => exact .ofClear (Clear.emitWith _ _)
    | none => exact emitGlobal name
  · cases found with
    | some ref => exact .emitWith _ rfl
    | none => exact .emitName name (by decide)

theorem emitClosure (arity : UInt16) {body body' : Action Workspace Unit}
    (h : v.Mirrors body body') (hadds : Adding body) :
    v.Mirrors (Workspace.emitClosure arity body) (Workspace.emitClosure arity body') := by
  intro ws htidy
  have hclose : ∀ result : Unit × FrameState, Recalls (do
      let id ← onCode (Assembly.closeFunction (result.2.nextSlot?.getD arity))
      Workspace.emitWith .makeLambda (.function id.toUInt32)) :=
    fun _ => .bind (.closeFunction _) fun _ => .emitWith _ _
  refine .bind (.ofClear (Clear.onCode (.openFunction arity))) ?_ ?_
  · intro function ws₁ hopen
    obtain ⟨code, hcode, rfl⟩ := onCode_done.mp hopen
    simp only [Assembly.openFunction, Outcome.done.injEq] at hcode
    obtain ⟨rfl, rfl⟩ := hcode
    have htidy' := Progress.opened_tidy htidy arity
    refine .bind (.within fun _ => h _ htidy') (fun result ws₂ _ => .ofClear ?_) hclose
    exact .bind (Clear.onCode (.closeFunction _)) fun _ => Clear.emitWith _ _
  · exact fun function => .bind (Adding.within _ fun _ => hadds).recalls hclose

end Mirrors

end View

/-! ### Lowering -/

variable {v : View} {α : Type}

open View Workspace

/-- **Matched actions stay together if the lowerings of the parts do.** -/
theorem Matched.mirrors {action action' : Lower → Action Workspace α}
    (h : Matched v.toAlteration action action') {lower lower' : Lower}
    (hadds : ∀ node, Adding (lower node))
    (hlower : ∀ node, v.Mirrors (lower node) (lower' (node.alter v.toAlteration))) :
    v.Mirrors (action lower) (action' lower') := by
  induction h with
  | pure x => exact .ofClear (.pure x)
  | bind hfirst hnext ihfirst ihnext =>
      exact .bind ihfirst (hfirst.adding hadds) ihnext fun x => (hnext x).adding hadds
  | part node => exact hlower node
  | fail error => exact .ofClear (.fail error)
  | ofWord result => exact .ofClear (.ofWord result)
  | within state _ ih => exact fun ws htidy => .within fun id => ih id _ htidy
  | depth => exact .ofClear Clear.depth
  | position => exact .ofClear (Clear.onCode .position)
  | reachable => exact .ofClear (Clear.onCode .reachable)
  | guardsWithin scope =>
      exact .ofClear (Clear.onScopes (.read fun stack => guardsWithin_seen scope stack.frames))
  | findLocal name => exact .ofClear (Clear.onScopes (ShowsScopes.findLocal name))
  | findElement span => exact .ofClear (Clear.onScopes (ShowsScopes.findElement span))
  | enclosingLoop span => exact .ofClear (Clear.enclosingLoop span)
  | emitWith op _ => exact .ofClear (Clear.emitWith op _)
  | pushConstant _ => exact .ofClear (Clear.pushConstant _)
  | emitName text _ => exact .ofClear (Clear.emitName _ text)
  | emitIdent name => exact .emitIdent name
  | emitHint name value => exact .ofClear (Clear.emitHint name value)
  | emitImport path binding _ => exact .ofClear (Clear.emitImport _ path binding)
  | emitClosure arity hbody ih => exact .emitClosure arity ih (hbody.adding hadds)
  | jump op => exact .ofClear (Clear.onCode (.jump op))
  | jumpBack target depth =>
      exact .ofClear (.bind (Clear.onCode (.jumpBack target depth)) fun _ => .pure ())
  | land label => exact .ofClear (Clear.onCode (.land label))
  | resetDepth depth => exact .ofClear (Clear.resetDepth depth)
  | addRegion region => exact .ofClear (Clear.onCode (.addRegion region))
  | takeSlot span => exact .ofClear (Clear.onScopes (ShowsScopes.takeSlot span))
  | declare name => exact .ofClear (Clear.declare name)
  | update id change => exact .ofClear (Clear.onScopes (ShowsScopes.update id change))
  | addBreak label =>
      exact .ofClear (Clear.onScopes (.modify fun stack => modifyEnclosing_seen _ _ stack))
  | countThrow =>
      refine .ofClear (Clear.onScopes (.modify fun stack => ?_))
      exact congrArg (fun frames => ScopeStack.mk frames _ _ _) (countThrow_seen stack.frames)

namespace View

/-- The settings, without lines unless they are seen. -/
def settings (v : View) (settings : Settings) : Settings :=
  { settings with lineInfo := settings.lineInfo && v.lines }

theorem startLine_seen (settings : Settings) (node : Node) (line : Nat) :
    Contract.startLine (v.settings settings) (node.alter v.toAlteration) (v.line line) =
      v.line (Contract.startLine settings node line) := by
  unfold Contract.startLine View.settings View.line
  cases hlines : v.lines with
  | true =>
      rw [Node.span_alter, v.placed hlines]
      simp
  | false => simp

theorem Clear.check (settings : Settings) (node : Node) (height pushes start : Nat) :
    v.Clear (Contract.check settings node height pushes start)
      (Contract.check (v.settings settings) (node.alter v.toAlteration) height pushes start) := by
  have hscopes : v.Clear (Contract.checkScopes node.construct height pushes)
      (Contract.checkScopes node.construct height pushes) := by
    refine .bind (onScopes (.read fun stack => List.length_map _)) fun heightNow =>
      .bind (onScopes (.read fun stack => rfl)) fun pushesNow => ?_
    cases node.construct.scope? with
    | some scope =>
        have hopened : v.Clear
            (if pushesNow ≤ pushes then Action.raise (.scopeNotOpened node.construct scope)
              else pure ())
            (if pushesNow ≤ pushes then Action.raise (.scopeNotOpened node.construct scope)
              else pure ()) := .ite (.raise _) (.pure ())
        exact .ite (.bind (.raise _) fun _ => hopened) hopened
    | none => exact .ite (.bind (.raise _) fun _ => .pure ()) (.pure ())
  have hdepth : ∀ expected, v.Clear (Contract.checkDepth settings node expected)
      (Contract.checkDepth (v.settings settings) (node.alter v.toAlteration) expected) := by
    intro expected
    unfold Contract.checkDepth
    simp only [Node.construct_alter, Node.span_alter]
    exact .bind depth fun _ => .ite (.fail _) (.pure ())
  unfold Contract.check Contract.checkBalance
  rw [Node.construct_alter]
  refine .bind hscopes fun _ => ?_
  cases node.construct.balance with
  | diverges => exact resetDepth start
  | value => exact .bind (.ofWord _) fun _ => hdepth _
  | effect => exact hdepth _

/-- **Supervision keeps lowerings together.** -/
theorem Mirrors.supervise (settings : Settings) (node : Node)
    {lowering lowering' : Action Workspace Unit} (h : v.Mirrors lowering lowering') :
    v.Mirrors (Contract.supervise settings node lowering)
      (Contract.supervise (v.settings settings) (node.alter v.toAlteration) lowering') := by
  intro ws htidy hadmits
  let ws₁ : Workspace := ws.atLine (Contract.startLine settings node ws.code.line)
  have hstart : (v.workspace ws).atLine (Contract.startLine (v.settings settings)
      (node.alter v.toAlteration) (v.workspace ws).code.line) = v.workspace ws₁ := by
    rw [show (v.workspace ws).code.line = v.line ws.code.line from rfl, startLine_seen]
    rfl
  have hheight : (v.workspace ws).scopes.height = ws.scopes.height := List.length_map _
  have hpushes : (v.workspace ws).scopes.counts = ws.scopes.counts := rfl
  have hdepth : (v.workspace ws).code.depth = ws.code.depth := v.relining.code_depth ws.code
  have hrule := h ws₁ ((Assembly.Adds.moveToLine ..).tidy htidy)
  rw [MirrorsAt] at hrule
  rw [Contract.supervise_apply] at hadmits ⊢
  rw [Contract.supervise_apply, hstart, hheight, hpushes, hdepth]
  cases hdone : lowering ws₁ with
  | done u inside =>
      rw [hdone] at hadmits hrule
      let back : Workspace := inside.atLine ws.code.line
      have hchecked : v.Admits (Contract.check settings node ws.scopes.height
          ws.scopes.counts.pushes ws.code.depth back) := hadmits
      have hfixes : v.Fixes back.code := hchecked.before (Adding.check ..).recalls
      rw [hrule hfixes]
      exact Clear.check settings node _ _ _ back
  | failed error inside =>
      rw [hdone] at hadmits hrule
      rw [hrule hadmits]
      rfl
  | fault fault =>
      rw [hdone] at hadmits hrule
      rw [hrule hadmits]
      rfl

/-- **Lowering an altered tree mirrors lowering the tree, however deep it may be.** -/
theorem lowerWithin_mirrors (settings : Settings) (room : Nat) (node : Node) :
    v.Mirrors (lowerWithin .standard settings room node)
      (lowerWithin .standard (v.settings settings) room (node.alter v.toAlteration)) := by
  induction room generalizing node with
  | zero =>
      refine .ofClear fun ws => ?_
      simp only [lowerWithin, Node.construct_alter, Node.span_alter]
      rfl
  | succ room ih =>
      have hrule := (Rule.standard_carries node).mirrors (lowerWithin_adding settings room) ih
      have hlower := Mirrors.supervise settings node hrule
      simp only [lowerWithin, Node.construct_alter]
      exact hlower

end View

/-! ### Compiling -/

/-- The altered tree has the altered nodes, in the same order. -/
theorem Node.preorder_alter (a : Alteration) (node : Node) (depth : Nat) :
    (node.alter a).preorder depth =
      (node.preorder depth).map fun entry => (entry.1.alter a, entry.2) := by
  rw [preorder_eq, preorder_eq, children_alter, List.map_cons, List.flatMap_map, List.map_flatMap]
  congr 1
  exact List.flatMap_congr fun child hchild => preorder_alter a child (depth + 1)
termination_by node.size
decreasing_by exact size_lt_of_mem_children hchild

/-- Walks over a tree and over the altered tree find the same, if every node answers alike. -/
theorem Node.Walk.findSome?_alter {a : Alteration} {answer answer' : Node → Nat → Option α}
    {change : α → α}
    (h : ∀ node depth, answer' (node.alter a) depth = (answer node depth).map change)
    (root : Node) :
    (start (root.alter a)).findSome? answer' = ((start root).findSome? answer).map change := by
  rw [findSome?_start, findSome?_start, preorder_alter, List.findSome?_map, List.map_findSome?]
  refine congrArg (List.findSome? · (root.preorder 1)) (funext fun entry => ?_)
  exact h entry.1 entry.2

/-- The names whose values the program loads because they stand for no local. -/
def Program.globals (program : Program) : List String :=
  program.functions.toList.flatMap fun function =>
    function.code.toList.filterMap fun
      | ⟨.loadGlobal, .const id⟩ =>
        match program.constant? id with
        | some (.string name) => some name
        | _ => none
      | _ => none

theorem Assembly.Loads.mem_globals {code : Assembly} {name : String} (h : code.Loads name) :
    name ∈ code.toProgram.globals := by
  obtain ⟨g, mentions, id, hmentions, hmem, hget⟩ := h
  obtain ⟨routine, hroutine, rfl⟩ := Option.map_eq_some_iff.mp hmentions
  have hfunction : finish g routine ∈ code.toProgram.functions := by
    refine Array.mem_of_getElem? (i := g) ?_
    simp [toProgram, hroutine]
  have hconstant : code.toProgram.constant? id = some (.string name) := hget
  refine List.mem_flatMap.mpr ⟨_, Array.mem_toList_iff.mpr hfunction, List.mem_filterMap.mpr
    ⟨_, (List.mem_filter.mp hmem).1, ?_⟩⟩
  simp only [hconstant]

namespace View

def program (v : View) (program : Program) : Program :=
  { program with
    functions := program.functions.map fun function =>
      { function with lines := if v.lines then function.lines else #[] } }

theorem toProgram_seen (code : Assembly) : (v.code code).toProgram = v.program code.toProgram :=
  v.relining.toProgram_relined code

def compiler (v : View) (compiler : Compiler) : Compiler :=
  { compiler with settings := v.settings compiler.settings }

/-- The result of a compilation, as it is seen from that of the altered query. -/
def result (v : View) :
    Except Failure (Program × ScopeStack) → Except Failure (Program × ScopeStack)
  | .ok (program, stack) => .ok (v.program program, v.scopes stack)
  | .error (.error cause) => .error (.error (v.error cause))
  | .error (.fault fault) => .error (.fault fault)

/-- The result can be recognised in that of the altered query. -/
def Recognises (v : View) : Except Failure (Program × ScopeStack) → Prop
  | .ok (program, _) => ∀ name ∈ program.globals, v.rename name = name
  | .error _ => ∀ name, v.rename name = name

variable {compiler : Compiler} {root : Node} {traced : Bool}

theorem firstObjection_seen :
    (v.compiler compiler).firstObjection? (root.alter v.toAlteration) =
      (compiler.firstObjection? root).map v.error := by
  refine Node.Walk.findSome?_alter (fun node depth => ?_) root
  have hregistry : (v.compiler compiler).registry = compiler.registry := rfl
  have hdepth : (v.compiler compiler).settings.maxDepth = compiler.settings.maxDepth := rfl
  simp only [Compiler.objection?, Registry.ruleFor, Node.construct_alter, Node.span_alter,
    hregistry, hdepth]
  cases compiler.registry.rule? node.construct with
  | none => rfl
  | some rule =>
      dsimp only
      split <;> rfl

theorem start_seen :
    (v.compiler compiler).start (traced && v.lines) = v.workspace (compiler.start traced) := by
  unfold Compiler.start Assembly.start ScopeStack.start View.workspace View.code View.scopes
  cases hlines : v.lines <;> cases traced <;>
    simp [View.compiler, View.settings, View.line, View.routine, Routine.start, hlines]

theorem lowerMain_mirrors (hregistry : compiler.registry = .standard) :
    v.MirrorsAt (compiler.start traced) (compiler.lowerMain root)
      ((v.compiler compiler).lowerMain (root.alter v.toAlteration)) := by
  have hbody := (Matched.body root).mirrors
    (lowerWithin_adding compiler.settings compiler.settings.maxDepth)
    (lowerWithin_mirrors (v := v) compiler.settings compiler.settings.maxDepth)
  unfold Compiler.lowerMain lower
  rw [show (v.compiler compiler).registry = compiler.registry from rfl, hregistry]
  refine .bind (.within fun _ => hbody _ (Assembly.start_tidy _))
    (fun result ws₁ _ => .ofClear ?_) ?_
  · exact .bind (Clear.onScopes (.read fun stack => List.length_map _)) fun height =>
      .ite (.bind (.fail _) fun _ => Clear.onCode (.reserveLocals _))
        (Clear.onCode (.reserveLocals _))
  · exact fun result => (Adding.bind (.onScopes _) fun height =>
      .ite (.bind (.fail _) fun _ => Adding.reserveLocals _) (Adding.reserveLocals _)).recalls

/-- **Compiling an altered query shows the compilation of the query,** if it can be recognised. -/
theorem run_seen (v : View) (hregistry : compiler.registry = .standard) (traced : Bool)
    (root : Node) (h : v.Recognises (compiler.run traced root)) :
    (v.compiler compiler).run (traced && v.lines) (root.alter v.toAlteration) =
      v.result (compiler.run traced root) := by
  have hmain : v.MirrorsAt (compiler.start traced) (compiler.lowerMain root)
      ((v.compiler compiler).lowerMain (root.alter v.toAlteration)) := lowerMain_mirrors hregistry
  rw [MirrorsAt, ← start_seen] at hmain
  unfold Compiler.run at h ⊢
  rw [firstObjection_seen]
  cases hobjection : compiler.firstObjection? root with
  | some error => rfl
  | none =>
      rw [hobjection] at h
      cases hlower : compiler.lowerMain root (compiler.start traced) with
      | done u ws =>
          rw [hlower] at h hmain
          rw [show (v.compiler compiler).lowerMain _ _ = _ from
            hmain fun name hloads => h name hloads.mem_globals]
          exact congrArg (fun program => Except.ok (program, v.scopes ws.scopes))
            (toProgram_seen ws.code)
      | failed error ws =>
          rw [hlower] at h hmain
          rw [show (v.compiler compiler).lowerMain _ _ = _ from hmain h]
          rfl
      | fault fault =>
          rw [hlower] at h hmain
          rw [show (v.compiler compiler).lowerMain _ _ = _ from hmain h]
          rfl

end View

end QueryCompiler
