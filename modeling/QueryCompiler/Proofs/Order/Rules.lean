/-
Every rule follows the plan of its node.

There is one description for each rule, in the order in which the rule proceeds.  The
descriptions only say which steps are the rule's own and which part is lowered where;
that an own step tends to the workspace is looked up in `Order/Plan`.  The rule for
lambdas is the one that does not stay in the current function.
-/
import QueryCompiler.Compiler
import QueryCompiler.Proofs.Order.Plan

namespace QueryCompiler

/-! ### Notes a rule makes in its frame -/

theorem FrameState.setArm_scope (arm : Nat) (state : FrameState) :
    (state.setArm arm).scope = state.scope := by
  cases state <;> rfl

theorem FrameState.addExit_scope (label : PendingJump) (state : FrameState) :
    (state.addExit label).scope = state.scope := by
  cases state <;> rfl

theorem FrameState.setGuarded_scope (guarded : Bool) (state : FrameState) :
    (state.setGuarded guarded).scope = state.scope := by
  cases state <;> rfl

namespace Rule

open Workspace Assembly

variable {own : Option FrameId} {span : Span}

/-! ### Expressions -/

theorem literal_orderly (value : Constant) :
    Orderly Continues own (Node.literal value span).plan
      fun lower => literal lower (.literal value span) := by
  refine .own ?_
  split
  · exact .emit _
  · exact .emit _
  · exact .emit _
  · exact .pushConstant _
  · exact .fail rfl

theorem list_orderly (items : List Node) :
    Orderly Continues own (Node.list items span).plan
      fun lower => list lower (.list items span) := by
  refine .andThen (.emit _) fun _ => .as (.forM (fun item => [item]) ?_ items) ?_
  · exact fun item => .bind (.value item) fun _ => .own (.emit _)
  · rw [List.flatMap_singleton']
    rfl

theorem object_orderly (fields : List (String × Node)) :
    Orderly Continues own (Node.object fields span).plan
      fun lower => object lower (.object fields span) := by
  refine .andThen (.emit _) fun _ => .as (.forM (fun field => [field.2]) ?_ fields) ?_
  · exact fun field => .bind (.value field.2) fun _ => .own (.emitName _ _)
  · rw [← List.map_eq_flatMap]
    rfl

theorem ident_orderly (name : String) :
    Orderly Continues own (Node.ident name span).plan
      fun lower => ident lower (.ident name span) := by
  refine .own ((Tends.findLocal name).bind fun found => ?_)
  cases found with
  | some ref => exact .emitWith _ _
  | none => exact .emitName _ _

theorem param_orderly (name : String) :
    Orderly Continues own (Node.param name span).plan
      fun lower => param lower (.param name span) :=
  .own (.emitName _ _)

theorem current_orderly :
    Orderly Continues own (Node.current span).plan fun lower => current lower (.current span) :=
  .own ((Tends.findElement span).bind fun _ => .emitWith _ _)

theorem member_orderly (owner : Node) (name : String) :
    Orderly Continues own (Node.member owner name span).plan
      fun lower => member lower (.member owner name span) :=
  .bind (.value owner) fun _ => .own (.emitName _ _)

theorem index_orderly (owner subscript : Node) :
    Orderly Continues own (Node.index owner subscript span).plan
      fun lower => index lower (.index owner subscript span) :=
  .bind (.value owner) fun _ => .bind (.value subscript) fun _ => .own (.emit _)

theorem call_orderly (callee : Node) (arguments : List Node) :
    Orderly Continues own (Node.call callee arguments span).plan
      fun lower => call lower (.call callee arguments span) := by
  have hrest : Orderly Continues own (.part callee (.parts arguments)) fun lower =>
      lower.value callee >>= fun _ => lower.values arguments >>= fun _ =>
        emitWith .call (.count arguments.length.toUInt16) :=
    .as (.bind (.value callee) fun _ => .bind (.values arguments) fun _ =>
      .own (.emitWith _ _)) (by simp)
  exact .ite (.andThen (.fail rfl) fun _ => hrest) hrest

theorem unary_orderly (op : UnaryOperator) (operand : Node) :
    Orderly Continues own (Node.unary op operand span).plan
      fun lower => unary lower (.unary op operand span) :=
  .bind (.value operand) fun _ => .own (.emit _)

theorem binary_orderly (op : BinaryOperator) (left right : Node) :
    Orderly Continues own (Node.binary op left right span).plan
      fun lower => binary lower (.binary op left right span) :=
  .bind (.value left) fun _ => .bind (.value right) fun _ => .own (.emit _)

theorem logical_orderly (op : LogicalOperator) (left right : Node) :
    Orderly Continues own (Node.logical op left right span).plan
      fun lower => logical lower (.logical op left right span) :=
  .bind (.value left) fun _ => .andThen (.emit _) fun _ => .andThen (.jump _) fun _ =>
    .andThen (.emit _) fun _ => .bind (.value right) fun _ => .own (.land _)

theorem group_orderly (inner : Node) :
    Orderly Continues own (Node.group inner span).plan
      fun lower => group lower (.group inner span) :=
  .value inner

/-! ### Transforms -/

theorem shapeWith_orderly (element : UInt16) (shape : Node) :
    Orderly Continues own (.scope .transform (.parts [shape]) .nothing)
      fun lower => shapeWith lower element shape :=
  .bind (.within (.transform element) fun _ => .value shape) fun _ => .own (.pure _)

theorem transform_orderly (mode : Shaping) (source shape : Node) :
    Orderly Continues own (Node.transform mode source shape span).plan
      fun lower => transform lower (.transform mode source shape span) := by
  cases mode with
  | each =>
      exact .andThen (.takeSlot _) fun _ => .andThen (.takeSlot _) fun _ =>
        .andThen (.emit _) fun _ => .andThen (.emitSlot _ _) fun _ =>
        .bind (.value source) fun _ => .andThen (.emit _) fun _ => .andThen .position fun _ =>
        .andThen .depth fun _ => .andThen (.jump _) fun _ => .andThen (.emitSlot _ _) fun _ =>
        .andThen (.emitSlot _ _) fun _ => .bind (shapeWith_orderly _ shape) fun _ =>
        .andThen (.emit _) fun _ => .andThen (.emit _) fun _ => .andThen (.jumpBack _ _) fun _ =>
        .andThen (.land _) fun _ => .andThen (.emit _) fun _ => .own (.emitSlot _ _)
  | single =>
      exact .andThen (.takeSlot _) fun _ => .bind (.value source) fun _ =>
        .andThen (.emitSlot _ _) fun _ => shapeWith_orderly _ shape

/-! ### Statements that run straight through -/

theorem block_orderly (statements : List Node) :
    Orderly Continues own (Node.block statements span).plan
      fun lower => block lower (.block statements span) :=
  .bind (.within .block fun _ => .statements statements) fun _ => .own (.pure _)

theorem varDecl_orderly (name : Name) (init : Node) :
    Orderly Continues own (Node.varDecl name init span).plan
      fun lower => varDecl lower (.varDecl name init span) :=
  .bind (.value init) fun _ => .andThen (.declare _) fun _ => .own (.emitSlot _ _)

theorem assign_orderly (name : Name) (value : Node) :
    Orderly Continues own (Node.assign name value span).plan
      fun lower => assign lower (.assign name value span) := by
  refine .andThen (.findLocal _) fun found => ?_
  cases found with
  | some ref => exact .bind (.value value) fun _ => .own (.emitWith _ _)
  | none => exact .fail rfl

theorem run_orderly (inner : Node) :
    Orderly Continues own (Node.run inner span).plan
      fun lower => run lower (.run inner span) :=
  .statement inner

theorem hint_orderly (name : String) (value : Constant) :
    Orderly Continues own (Node.hint name value span).plan
      fun lower => hint lower (.hint name value span) :=
  .own ((Tends.constant _).bind fun _ => (Tends.constant _).bind fun _ => .emitWith _ _)

theorem importAs_orderly (source : ImportSource) (path : String) (binding : Name) :
    Orderly Continues own (Node.importAs source path binding span).plan
      fun lower => importAs lower (.importAs source path binding span) :=
  .own ((Tends.constant _).bind fun _ => (Tends.declare _).bind fun _ =>
    (Tends.emitWith _ _).bind fun _ => .emitSlot _ _)

/-! ### Conditionals -/

theorem ternary_orderly (condition whenTrue whenFalse : Node) :
    Orderly Continues own (Node.ternary condition whenTrue whenFalse span).plan
      fun lower => ternary lower (.ternary condition whenTrue whenFalse span) := by
  refine .bind (.within (.branch 0 #[]) fun id => ?_) fun _ => .own (.landAll _)
  refine .bind (p := .part condition .nothing) (.value condition) fun _ =>
    .andThen (.jump _) fun otherwise => .bind (p := .part whenTrue .nothing) (.value whenTrue)
    fun _ => .andThen .reachable fun _ => ?_
  have hrest : Orderly Continues (some id) (.parts [whenFalse]) fun lower =>
      land otherwise >>= fun _ => update id (FrameState.setArm 1) >>= fun _ =>
        lower.value whenFalse :=
    .andThen (.land _) fun _ => .andThen (.update id (FrameState.setArm_scope 1)) fun _ =>
      .value whenFalse
  exact .ite (.andThen (.jump _) fun exit =>
    .andThen (.update id (FrameState.addExit_scope exit)) fun _ => hrest) hrest

theorem ifArms_orderly (id : FrameId) (moreFollows : Bool) (arm : Nat)
    (arms : List (Node × Node)) :
    Orderly Continues (some id)
      (.parts (arms.flatMap fun (condition, body) => [condition, body]))
      fun lower => ifArms lower id moreFollows arm arms := by
  induction arms generalizing arm with
  | nil => exact .own (.pure ())
  | cons head rest ih =>
      obtain ⟨condition, body⟩ := head
      refine .andThen (.update id (FrameState.setArm_scope arm)) fun _ =>
        .bind (p := .part condition .nothing) (.value condition) fun _ =>
        .andThen (.jump _) fun next => .bind (p := .part body .nothing) (.statement body)
        fun _ => .andThen .reachable fun fallsOut => ?_
      have hrest : Orderly Continues (some id)
          (.parts (rest.flatMap fun (condition, body) => [condition, body])) fun lower =>
          land next >>= fun _ => ifArms lower id moreFollows (arm + 1) rest :=
        .andThen (.land _) fun _ => ih (arm + 1)
      exact .ite (.andThen (.jump _) fun exit =>
        .andThen (.update id (FrameState.addExit_scope exit)) fun _ => hrest) hrest

theorem ifChain_orderly (arms : List (Node × Node)) (otherwise : Option Node) :
    Orderly Continues own (Node.ifChain arms otherwise span).plan
      fun lower => ifChain lower (.ifChain arms otherwise span) := by
  refine .bind (.within (.branch 0 #[]) fun id => ?_) fun _ => .own (.landAll _)
  refine .as (.bind (ifArms_orderly id otherwise.isSome 0 arms)
    (q := .parts otherwise.toList) fun _ => ?_) (Plan.parts_append ..).symm
  cases otherwise with
  | some body =>
      exact .andThen (.update id (FrameState.setArm_scope _)) fun _ => .statement body
  | none => exact .own (.pure ())

/-! ### Loops -/

theorem whileLoop_orderly (condition body : Node) :
    Orderly Continues own (Node.whileLoop condition body span).plan
      fun lower => whileLoop lower (.whileLoop condition body span) :=
  .andThen .position fun start => .andThen .depth fun level =>
    .bind (.within (.loop start level #[]) fun _ => .bind (.value condition) fun _ =>
      .andThen (.jump _) fun _ => .bind (.statement body) fun _ =>
      .andThen (.jumpBack _ _) fun _ => .own (.land _)) fun _ => .own (.landAll _)

theorem forEach_orderly (binding : Name) (iterable body : Node) :
    Orderly Continues own (Node.forEach binding iterable body span).plan
      fun lower => forEach lower (.forEach binding iterable body span) :=
  .bind (.value iterable) fun _ => .andThen (.emit _) fun _ => .andThen .position fun next =>
    .andThen .depth fun level => .bind (.within (.loop next level #[]) fun _ =>
      .andThen (.jump _) fun _ => .andThen (.declare _) fun _ => .andThen (.emitSlot _ _) fun _ =>
      .bind (.statement body) fun _ => .andThen (.jumpBack _ _) fun _ => .own (.land _))
    fun _ => .andThen (.landAll _) fun _ => .own (.emit _)

theorem enclosingLoop_tends (span : Span) : Tends Continues own (enclosingLoop span) := by
  refine (Tends.enclosing _ _).bind fun frame => ?_
  cases frame.state.loopEntry? with
  | some entry => exact .pure entry
  | none => exact .fail rfl

theorem leaveForLoop_tends (construct : Construct) (span : Span) :
    Tends Continues own (leaveForLoop construct span) := by
  refine (enclosingLoop_tends span).bind fun entry => Tends.depth.bind fun found =>
    Tends.reachable.bind fun falls => ?_
  have hrest : Tends Continues own (resetDepth entry.2 >>= fun _ => leaveHandlers .loop) :=
    (Tends.resetDepth _).bind fun _ => .leaveHandlers _
  exact .ite ((Tends.fail rfl).bind fun _ => hrest) hrest

theorem breakLoop_orderly :
    Orderly Continues own (Node.breakLoop span).plan
      fun lower => breakLoop lower (.breakLoop span) :=
  .own ((leaveForLoop_tends _ span).bind fun _ => (Tends.jump _).bind fun label =>
    .addBreak label)

theorem continueLoop_orderly :
    Orderly Continues own (Node.continueLoop span).plan
      fun lower => continueLoop lower (.continueLoop span) :=
  .own ((leaveForLoop_tends _ span).bind fun _ => (enclosingLoop_tends span).bind fun _ =>
    .jumpBack _ _)

/-! ### Handlers -/

theorem tryPaths_orderly (install : PendingJump) (id : FrameId) (body : Node)
    (binding : Option Name) (handler : Node) :
    Orderly Continues (some id) (.parts [body, handler])
      fun lower => tryPaths lower install id body binding handler := by
  refine .bind (p := .part body .nothing) (.statement body) fun _ =>
    .andThen .position fun stop => .andThen .reachable fun falls => ?_
  -- What follows is the same whether the body falls out or not, but for the way over it.
  have hpaths : ∀ {next : Option PendingJump → Position → Lower →
      Action Workspace (Nat × Nat × Option PendingJump)},
      (∀ exit catchAt, Orderly Continues (some id) (.parts [handler]) (next exit catchAt)) →
      ∀ exit, Orderly Continues (some id) (.parts [handler]) fun lower =>
        update id (FrameState.setGuarded false) >>= fun _ => position >>= fun catchAt =>
          land install >>= fun _ => next exit catchAt lower :=
    fun hnext exit => .andThen (.update id (FrameState.setGuarded_scope false)) fun _ =>
      .andThen .position fun catchAt => .andThen (.land _) fun _ => hnext exit catchAt
  have hhandler : ∀ (exit : Option PendingJump) (catchAt : Position),
      Orderly Continues (some id) (.parts [handler]) fun lower =>
        lower.statement handler >>= fun _ => pure (stop.index, catchAt.index, exit) :=
    fun _ _ => .bind (.statement handler) fun _ => .own (.pure _)
  cases binding with
  | some name =>
      have hcatch := hpaths fun exit catchAt => .andThen (.declare name) fun slot =>
        .andThen (.emitSlot .store slot) fun _ => hhandler exit catchAt
      exact .ite (.andThen (.emit _) fun _ => .andThen (.jump _) fun exit =>
        .andThen (.pure (some exit)) fun _ => hcatch _) (.andThen (.pure none) fun _ => hcatch _)
  | none =>
      have hcatch := hpaths fun exit catchAt =>
        .andThen (.emit .pop) fun _ => hhandler exit catchAt
      exact .ite (.andThen (.emit _) fun _ => .andThen (.jump _) fun exit =>
        .andThen (.pure (some exit)) fun _ => hcatch _) (.andThen (.pure none) fun _ => hcatch _)

theorem tryCatch_orderly (body : Node) (binding : Option Name) (handler : Node) :
    Orderly Continues own (Node.tryCatch body binding handler span).plan
      fun lower => tryCatch lower (.tryCatch body binding handler span) := by
  refine .andThen (.jump _) fun install =>
    .bind (.within (.handler install.position true 0) fun id =>
      tryPaths_orderly install id body binding handler) fun result => ?_
  obtain ⟨⟨stop, catchAt, exit⟩, frame⟩ := result
  cases exit with
  | some exit => exact .andThen (.land _) fun _ => .own (.addRegion _)
  | none => exact .andThen (.pure ()) fun _ => .own (.addRegion _)

theorem result_orderly (code : Int64) (data : Option Node) :
    Orderly Continues own (.parts data.toList) fun lower => result lower code data := by
  refine .andThen (.pushConstant _) fun _ => ?_
  cases data with
  | some data => exact .value data
  | none => exact .own (.emit _)

theorem returnWith_orderly (code : Int64) (data : Option Node) :
    Orderly Continues own (Node.returnWith code data span).plan
      fun lower => returnWith lower (.returnWith code data span) :=
  .as (.bind (result_orderly code data) fun _ => .andThen (.leaveHandlers _) fun _ =>
    .own (.emit _)) (Plan.append_nothing _)

theorem exitWith_orderly (code : Int64) (data : Option Node) :
    Orderly Continues own (Node.exitWith code data span).plan
      fun lower => exitWith lower (.exitWith code data span) :=
  .as (.bind (result_orderly code data) fun _ => .own (.emit _)) (Plan.append_nothing _)

theorem throwWith_orderly (code : Int64) (data : Node) :
    Orderly Continues own (Node.throwWith code data span).plan
      fun lower => throwWith lower (.throwWith code data span) :=
  .andThen (.pushConstant _) fun _ => .bind (.value data) fun _ => .andThen .countThrow fun _ =>
    .own (.emit _)

/-- **Every rule but the one for lambdas follows its plan in the current function.** -/
theorem standard_continues {node : Node} (hnode : node.construct ≠ .lambda) :
    Orderly Continues own node.plan fun lower => standard node.construct lower node := by
  cases node with
  | literal value => exact literal_orderly value
  | list items => exact list_orderly items
  | object fields => exact object_orderly fields
  | ident name => exact ident_orderly name
  | param name => exact param_orderly name
  | current => exact current_orderly
  | member owner name => exact member_orderly owner name
  | index owner subscript => exact index_orderly owner subscript
  | call callee arguments => exact call_orderly callee arguments
  | unary op operand => exact unary_orderly op operand
  | binary op left right => exact binary_orderly op left right
  | logical op left right => exact logical_orderly op left right
  | ternary condition whenTrue whenFalse =>
      exact ternary_orderly condition whenTrue whenFalse
  | group inner => exact group_orderly inner
  | lambda => exact absurd rfl hnode
  | transform mode source shape => exact transform_orderly mode source shape
  | block statements => exact block_orderly statements
  | varDecl name init => exact varDecl_orderly name init
  | assign name value => exact assign_orderly name value
  | run inner => exact run_orderly inner
  | hint name value => exact hint_orderly name value
  | importAs source path binding => exact importAs_orderly source path binding
  | ifChain arms otherwise => exact ifChain_orderly arms otherwise
  | whileLoop condition body => exact whileLoop_orderly condition body
  | forEach binding iterable body => exact forEach_orderly binding iterable body
  | breakLoop => exact breakLoop_orderly
  | continueLoop => exact continueLoop_orderly
  | tryCatch body binding handler => exact tryCatch_orderly body binding handler
  | returnWith code data => exact returnWith_orderly code data
  | exitWith code data => exact exitWith_orderly code data
  | throwWith code data => exact throwWith_orderly code data

/-! ### Lambdas -/

theorem lambda_orderly (params : List Name) (body : Node) :
    Orderly KeepsLine own (Node.lambda params body span).plan
      fun lower => lambda lower (.lambda params body span) := by
  have hrest : Orderly KeepsLine own (Node.lambda params body span).plan fun lower => (do
      let arity := params.length.toUInt16
      let function ← onCode (Assembly.openFunction arity)
      let result ← within (.function function 0) fun _ => do
        params.forM fun param => do
          let _ ← declare param
        lower.body body
      let id ← onCode (Assembly.closeFunction (result.2.nextSlot?.getD arity))
      emitWith .makeLambda (.function id.toUInt32)) := by
    refine .andThen (.onCode fun _ => rfl) fun function =>
      .bind (.within (.function function 0) fun id => ?_) fun result =>
      .andThen (.onCode fun code => ?_) fun _ => .own (Tends.emitWith _ _).keepsLine
    · have hparams : Tends Continues (some id) (params.forM fun param => do
          let _ ← declare param) :=
        .forM (fun param => (Tends.declare param).bind fun _ => .pure _) params
      exact .andThen hparams.keepsLine fun _ => (Orderly.body body).keepsLine
    · unfold closeFunction
      split
      · exact rfl
      · exact ⟨rfl, rfl⟩
  exact .ite (.andThen (Tends.fail rfl).keepsLine fun _ => hrest) hrest

/-- **Every rule follows the plan of its node.** -/
theorem standard_orderly (node : Node) :
    Orderly KeepsLine own node.plan fun lower => standard node.construct lower node := by
  by_cases hnode : node.construct = .lambda
  · cases node with
    | lambda params body => exact lambda_orderly params body
    | _ => cases hnode
  · exact (standard_continues hnode).keepsLine

end Rule

/-! ### The contract -/

namespace Contract

open Workspace Assembly

variable {own : Option FrameId}

/-- What is checked once a rule is done. -/
def check (settings : Settings) (node : Node) (height pushes start : Nat) :
    Action Workspace Unit := do
  checkScopes node.construct height pushes
  checkBalance settings node start

theorem checkScopes_tends (construct : Construct) (height pushes : Nat) :
    Tends Continues own (checkScopes construct height pushes) := by
  refine (Tends.readScopes _).bind fun heightNow => (Tends.readScopes _).bind fun pushesNow => ?_
  have hraise : ∀ fault, Tends Continues own (Action.raise fault : Action Workspace Unit) :=
    fun _ _ => trivial
  cases construct.scope? with
  | some scope =>
      have hopened := Tends.ite (p := pushesNow ≤ pushes)
        (hraise (.scopeNotOpened construct scope)) (.pure ())
      exact .ite ((hraise _).bind fun _ => hopened) hopened
  | none => exact .ite ((hraise _).bind fun _ => .pure ()) (.pure ())

theorem checkDepth_tends (settings : Settings) (node : Node) (expected : Nat) :
    Tends Continues own (checkDepth settings node expected) :=
  Tends.depth.bind fun _ => .ite (.fail rfl) (.pure _)

theorem checkBalance_tends (settings : Settings) (node : Node) (start : Nat) :
    Tends Continues own (checkBalance settings node start) := by
  unfold checkBalance
  cases node.construct.balance with
  | diverges => exact .resetDepth start
  | value => exact (Tends.ofWord _).bind fun _ => checkDepth_tends settings node _
  | effect => exact checkDepth_tends settings node start

theorem check_tends (settings : Settings) (node : Node) (height pushes start : Nat) :
    Tends Continues own (check settings node height pushes start) :=
  (checkScopes_tends _ _ _).bind fun _ => checkBalance_tends settings node start

/-- The source line at which a node is lowered, if it was reached at another. -/
def startLine (settings : Settings) (node : Node) (line : Nat) : Nat :=
  if settings.lineInfo && !node.span.isSynthetic then node.span.line else line

/-- **What supervision adds to a lowering:** it is carried out at the line of the node, the line is
put back however it ends, and if it gets done the contract is checked. -/
theorem supervise_apply (settings : Settings) (node : Node) (lowering : Action Workspace Unit)
    (ws : Workspace) :
    supervise settings node lowering ws =
      match lowering (ws.atLine (startLine settings node ws.code.line)) with
      | .done () inside =>
        check settings node ws.scopes.height ws.scopes.counts.pushes ws.code.depth
          (inside.atLine ws.code.line)
      | .failed error inside => .failed error (inside.atLine ws.code.line)
      | .fault fault => .fault fault := by
  have hrest : ∀ line, ((do
        let start ← depth
        let height ← onScopes (Action.read fun scopes => scopes.height)
        let pushes ← onScopes (Action.read fun scopes => scopes.counts.pushes)
        let result ← lowering.attempt
        moveToLine ws.code.line
        Action.ofResult result
        checkScopes node.construct height pushes
        checkBalance settings node start : Action Workspace Unit) (ws.atLine line)) =
        match lowering (ws.atLine line) with
        | .done () inside => check settings node ws.scopes.height ws.scopes.counts.pushes
            ws.code.depth (inside.atLine ws.code.line)
        | .failed error inside => .failed error (inside.atLine ws.code.line)
        | .fault fault => .fault fault := by
    intro line
    show (lowering.attempt >>= _) _ = _
    rw [Action.bind_apply, Action.attempt]
    cases lowering (ws.atLine line) <;> rfl
  unfold supervise startLine
  by_cases hline : (settings.lineInfo && !node.span.isSynthetic) = true
  · simp only [if_pos hline]
    exact hrest node.span.line
  · simp only [if_neg hline]
    exact hrest ws.code.line

theorem supervise_eq (settings : Settings) (node : Node) (lowering : Action Workspace Unit)
    (ws : Workspace) :
    ∃ line height pushes start,
      supervise settings node lowering ws =
        match lowering (ws.atLine line) with
        | .done () inside => check settings node height pushes start (inside.atLine ws.code.line)
        | .failed error inside => .failed error (inside.atLine ws.code.line)
        | .fault fault => .fault fault :=
  ⟨_, _, _, _, supervise_apply settings node lowering ws⟩

end Contract

end QueryCompiler
