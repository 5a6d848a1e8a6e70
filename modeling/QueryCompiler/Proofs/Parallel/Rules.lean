/-
What rules are made of.

A rule is a chain of operations on the workspace and of calls that have parts lowered.
Two chains are `Matched` if they take the same operations in the same order, the second
about an altered query: errors point to other places, and names of variables are other
names.  The relation also keeps together what belongs together: a constant is added to
the pool for the sake of the instruction that follows, and a function is opened, written
and closed for the sake of the instruction that makes it.

Every rule of the standard table is matched with itself on the altered node.  That is
shown once, rule by rule; what two lowerings have in common, and what a single one does
to the pool, are then inductions on the match.
-/
import QueryCompiler.Compiler
import QueryCompiler.Proofs.Parallel.Alteration
import QueryCompiler.Proofs.Progress.Outcomes

namespace QueryCompiler

/-- Whether an operand is about neither a constant nor a function. -/
def Operand.isOwn : Operand → Bool
  | const _ | hint _ _ | function _ => false
  | none | target _ | slot _ | count _ => true

/-- Whether a literal goes through the pool.  Null and the truth values have instructions of their
own. -/
def Constant.isPooled : Constant → Bool
  | null | bool _ => false
  | int _ | float _ | string _ => true

namespace Workspace

/-- Add an instruction on a constant, a name that is declared in between. -/
def emitImport (op : Opcode) (path : String) (binding : Name) : Action Workspace UInt16 := do
  let id ← onCode (Assembly.name path)
  let slot ← declare binding
  emitWith op (.const id)
  return slot

/-- Add an instruction on two constants. -/
def emitHint (name : String) (value : Constant) : Action Workspace Unit := do
  let key ← onCode (Assembly.name name)
  let id ← onCode (Assembly.constant value)
  emitWith .hint (.hint key id)

/-- Add an instruction that pushes what a name stands for. -/
def emitIdent (name : String) : Action Workspace Unit := do
  match ← findLocal name with
  | some ref => emitWith .load (.slot ref)
  | none => emitName .loadGlobal name

/-- Write a function and add the instruction that makes it. -/
def emitClosure (arity : UInt16) (body : Action Workspace Unit) : Action Workspace Unit := do
  let function ← onCode (Assembly.openFunction arity)
  let ((), frame) ← within (.function function 0) fun _ => body
  let id ← onCode (Assembly.closeFunction (frame.nextSlot?.getD arity))
  emitWith .makeLambda (.function id.toUInt32)

/-- Note a jump of a `break` in the loop it leaves. -/
def addBreak (label : PendingJump) : Action Workspace Unit :=
  onScopes (Action.modify (ScopeStack.modifyEnclosing .loop (FrameState.addBreak label)))

/-- Count a `throw` on the handler that guards the current position. -/
def countThrow : Action Workspace Unit :=
  onScopes (Action.modify ScopeStack.countThrow)

/-- Record a guarded region. -/
def addRegion (region : GuardedRegion) : Action Workspace Unit :=
  onCode (Action.modify fun code => code.addRegion region)

end Workspace

open Workspace

/-- The second action takes the operations of the first on an altered query, whatever it is that
lowers the parts. -/
inductive Matched (a : Alteration) :
    {α : Type} → (Lower → Action Workspace α) → (Lower → Action Workspace α) → Prop
  -- Chains, calls and scopes.
  | pure {α : Type} (x : α) : Matched a (fun _ => Pure.pure x) fun _ => Pure.pure x
  | bind {α β : Type} {first first' : Lower → Action Workspace α}
      {next next' : α → Lower → Action Workspace β} (hfirst : Matched a first first')
      (hnext : ∀ x, Matched a (next x) (next' x)) :
      Matched a (fun lower => first lower >>= fun x => next x lower)
        fun lower => first' lower >>= fun x => next' x lower
  | part (node : Node) : Matched a (fun lower => lower node) fun lower => lower (node.alter a)
  | fail {α : Type} (error : CompileError) :
      Matched a (α := α) (fun _ => Action.fail error) fun _ => Action.fail (error.alter a)
  | ofWord {α : Type} (result : Except Fault α) :
      Matched a (fun _ => Action.ofWord result) fun _ => Action.ofWord result
  | within {α : Type} (state : FrameState) {body body' : FrameId → Lower → Action Workspace α}
      (h : ∀ id, Matched a (body id) (body' id)) :
      Matched a (fun lower => Workspace.within state fun id => body id lower)
        fun lower => Workspace.within state fun id => body' id lower
  -- Looking at the workspace.
  | depth : Matched a (fun _ => Workspace.depth) fun _ => Workspace.depth
  | position : Matched a (fun _ => Workspace.position) fun _ => Workspace.position
  | reachable : Matched a (fun _ => Workspace.reachable) fun _ => Workspace.reachable
  | guardsWithin (scope : Scope) :
      Matched a (fun _ => Workspace.guardsWithin scope) fun _ => Workspace.guardsWithin scope
  | findLocal (name : String) :
      Matched a (fun _ => Workspace.findLocal name) fun _ => Workspace.findLocal (a.rename name)
  | findElement (span : Span) :
      Matched a (fun _ => Workspace.findElement span) fun _ => Workspace.findElement (a.place span)
  | enclosingLoop (span : Span) :
      Matched a (fun _ => Rule.enclosingLoop span) fun _ => Rule.enclosingLoop (a.place span)
  -- Code.
  | emitWith (op : Opcode) {operand : Operand} (h : operand.isOwn = true) :
      Matched a (fun _ => Workspace.emitWith op operand) fun _ => Workspace.emitWith op operand
  | pushConstant {value : Constant} (h : value.isPooled = true) :
      Matched a (fun _ => Workspace.pushConstant value) fun _ => Workspace.pushConstant value
  | emitName {op : Opcode} (text : String) (h : op ≠ .loadConst) :
      Matched a (fun _ => Workspace.emitName op text) fun _ => Workspace.emitName op text
  | emitIdent (name : String) :
      Matched a (fun _ => Workspace.emitIdent name) fun _ => Workspace.emitIdent (a.rename name)
  | emitHint (name : String) (value : Constant) :
      Matched a (fun _ => Workspace.emitHint name value) fun _ => Workspace.emitHint name value
  | emitImport {op : Opcode} (path : String) (binding : Name) (h : op ≠ .loadConst) :
      Matched a (fun _ => Workspace.emitImport op path binding)
        fun _ => Workspace.emitImport op path (a.name binding)
  | emitClosure (arity : UInt16) {body body' : Lower → Action Workspace Unit}
      (h : Matched a body body') :
      Matched a (fun lower => Workspace.emitClosure arity (body lower))
        fun lower => Workspace.emitClosure arity (body' lower)
  | jump (op : Opcode) : Matched a (fun _ => Workspace.jump op) fun _ => Workspace.jump op
  | jumpBack (target : Position) (depth : Nat) :
      Matched a (fun _ => Workspace.jumpBack target depth)
        fun _ => Workspace.jumpBack target depth
  | land (label : PendingJump) :
      Matched a (fun _ => Workspace.land label) fun _ => Workspace.land label
  | resetDepth (depth : Nat) :
      Matched a (fun _ => Workspace.resetDepth depth) fun _ => Workspace.resetDepth depth
  | addRegion (region : GuardedRegion) :
      Matched a (fun _ => Workspace.addRegion region) fun _ => Workspace.addRegion region
  -- Scopes.
  | takeSlot (span : Span) :
      Matched a (fun _ => Workspace.takeSlot span) fun _ => Workspace.takeSlot (a.place span)
  | declare (name : Name) :
      Matched a (fun _ => Workspace.declare name) fun _ => Workspace.declare (a.name name)
  | update (id : FrameId) (change : FrameState → FrameState) :
      Matched a (fun _ => Workspace.update id change) fun _ => Workspace.update id change
  | addBreak (label : PendingJump) :
      Matched a (fun _ => Workspace.addBreak label) fun _ => Workspace.addBreak label
  | countThrow : Matched a (fun _ => Workspace.countThrow) fun _ => Workspace.countThrow

namespace Matched

variable {a : Alteration} {α β γ : Type}

theorem ite {c : Prop} [Decidable c] {f f' g g' : Lower → Action Workspace α}
    (hf : Matched a f f') (hg : Matched a g g') :
    Matched a (fun lower => if c then f lower else g lower)
      fun lower => if c then f' lower else g' lower := by
  by_cases hc : c
  · simp only [if_pos hc]
    exact hf
  · simp only [if_neg hc]
    exact hg

/-- A round for every item, and for every altered item. -/
theorem forM {each : β → Lower → Action Workspace Unit} {each' : γ → Lower → Action Workspace Unit}
    (change : β → γ) (heach : ∀ x, Matched a (each x) (each' (change x))) (items : List β) :
    Matched a (fun lower => items.forM fun x => each x lower)
      fun lower => (items.map change).forM fun x => each' x lower := by
  induction items with
  | nil => exact .pure ()
  | cons x rest ih => exact .bind (heach x) fun _ => ih

/-- A round for every item, where the items have nothing to do with the query. -/
theorem each {each : β → Lower → Action Workspace Unit} (heach : ∀ x, Matched a (each x) (each x))
    (items : List β) : Matched a (fun lower => items.forM fun x => each x lower)
      fun lower => items.forM fun x => each x lower := by
  have h := forM id heach items
  rw [List.map_id] at h
  exact h

theorem emit (op : Opcode) :
    Matched a (fun _ => Workspace.emit op) fun _ => Workspace.emit op :=
  .emitWith op rfl

theorem emitSlot (op : Opcode) (slot : UInt16) :
    Matched a (fun _ => Workspace.emitSlot op slot) fun _ => Workspace.emitSlot op slot :=
  .emitWith op rfl

theorem landAll (labels : List PendingJump) :
    Matched a (fun _ => Workspace.landAll labels) fun _ => Workspace.landAll labels := by
  have hrounds : Workspace.landAll labels = labels.forM Workspace.land := by
    unfold Workspace.landAll Assembly.landAll
    induction labels with
    | nil => rfl
    | cons label rest ih =>
        rw [List.forM_eq_forM, List.forM_cons, onCode_bind, ← List.forM_eq_forM, ih]
        rfl
  rw [hrounds]
  exact .each .land labels

theorem leaveHandlers (scope : Scope) :
    Matched a (fun _ => Workspace.leaveHandlers scope) fun _ => Workspace.leaveHandlers scope :=
  .bind (.guardsWithin scope) fun _ => .each .emit _

/-! ### The ways to ask for parts -/

theorem value (node : Node) :
    Matched a (fun lower => lower.value node) fun lower => lower.value (node.alter a) := by
  unfold Lower.value
  simp only [Node.construct_alter, Node.span_alter]
  cases node.construct.balance with
  | value => exact .bind .depth fun _ => .part node
  | diverges =>
      exact .bind .depth fun _ => .bind (.part node) fun _ => .bind (.ofWord _) fun _ =>
        .resetDepth _
  | effect => exact .bind .depth fun _ => .bind (.ofWord _) fun _ => .fail _

theorem statement (node : Node) :
    Matched a (fun lower => lower.statement node) fun lower => lower.statement (node.alter a) := by
  unfold Lower.statement
  simp only [Node.construct_alter]
  exact .bind (.part node) fun _ => .ite (.emit _) (.pure _)

theorem values (nodes : List Node) :
    Matched a (fun lower => lower.values nodes)
      fun lower => lower.values (nodes.map (Node.alter a)) :=
  .forM (Node.alter a) .value nodes

theorem statements (nodes : List Node) :
    Matched a (fun lower => lower.statements nodes)
      fun lower => lower.statements (nodes.map (Node.alter a)) :=
  .forM (Node.alter a) .statement nodes

theorem body (node : Node) :
    Matched a (fun lower => lower.body node) fun lower => lower.body (node.alter a) := by
  unfold Lower.body
  simp only [Node.construct_alter]
  cases node.construct.balance with
  | value => exact .bind (.pushConstant rfl) fun _ => .bind (.value node) fun _ => .emit _
  | effect =>
      exact .bind (.part node) fun _ => .bind .reachable fun _ =>
        .ite (.bind (.pushConstant rfl) fun _ => .bind (.emit _) fun _ => .emit _) (.pure _)
  | diverges => exact .part node

end Matched

/-! ### Rules -/

namespace Rule

variable {a : Alteration}

/-- The rule does with an altered node what it does with the node. -/
def Carries (a : Alteration) (rule : Rule) (node : Node) : Prop :=
  Matched a (fun lower => rule lower node) fun lower => rule lower (node.alter a)

variable {span : Span}

theorem literal_carries (value : Constant) : Carries a literal (.literal value span) := by
  cases value with
  | null => exact .emit _
  | bool truth => cases truth <;> exact .emit _
  | int | float | string => exact .pushConstant rfl

theorem list_carries (items : List Node) : Carries a list (.list items span) := by
  unfold Carries
  rw [Node.alter, Node.alterList_eq]
  exact .bind (.emit _) fun _ =>
    .forM (Node.alter a) (fun item => .bind (.value item) fun _ => .emit _) items

theorem object_carries (fields : List (String × Node)) :
    Carries a object (.object fields span) := by
  unfold Carries
  rw [Node.alter, Node.alterFields_eq]
  refine .bind (.emit _) fun _ => .forM (fun field => (field.1, field.2.alter a)) ?_ fields
  exact fun (key, value) => .bind (.value value) fun _ => .emitName key nofun

theorem ident_carries (name : String) : Carries a ident (.ident name span) :=
  .emitIdent name

theorem param_carries (name : String) : Carries a param (.param name span) :=
  .emitName _ nofun

theorem current_carries : Carries a current (.current span) :=
  .bind (.findElement span) fun _ => .emitWith _ rfl

theorem member_carries (owner : Node) (name : String) :
    Carries a member (.member owner name span) :=
  .bind (.value owner) fun _ => .emitName _ nofun

theorem index_carries (owner subscript : Node) :
    Carries a index (.index owner subscript span) :=
  .bind (.value owner) fun _ => .bind (.value subscript) fun _ => .emit _

theorem call_carries (callee : Node) (arguments : List Node) :
    Carries a call (.call callee arguments span) := by
  unfold Carries
  rw [Node.alter, Node.alterList_eq]
  simp only [call, List.length_map]
  have hrest : Matched a (fun lower => do
        lower.value callee
        lower.values arguments
        emitWith .call (.count arguments.length.toUInt16)) (fun lower => do
        lower.value (callee.alter a)
        lower.values (arguments.map (Node.alter a))
        emitWith .call (.count arguments.length.toUInt16)) :=
    .bind (.value callee) fun _ => .bind (.values arguments) fun _ => .emitWith _ rfl
  exact .ite (.bind (.fail _) fun _ => hrest) hrest

theorem unary_carries (op : UnaryOperator) (operand : Node) :
    Carries a unary (.unary op operand span) :=
  .bind (.value operand) fun _ => .emit _

theorem binary_carries (op : BinaryOperator) (left right : Node) :
    Carries a binary (.binary op left right span) :=
  .bind (.value left) fun _ => .bind (.value right) fun _ => .emit _

theorem logical_carries (op : LogicalOperator) (left right : Node) :
    Carries a logical (.logical op left right span) :=
  .bind (.value left) fun _ => .bind (.emit _) fun _ => .bind (.jump _) fun _ =>
    .bind (.emit _) fun _ => .bind (.value right) fun _ => .land _

theorem ternary_carries (condition whenTrue whenFalse : Node) :
    Carries a ternary (.ternary condition whenTrue whenFalse span) := by
  refine .bind (.within (.branch 0 #[]) fun id => ?_) fun _ => .landAll _
  refine .bind (.value condition) fun _ => .bind (.jump _) fun otherwise =>
    .bind (.value whenTrue) fun _ => .bind .reachable fun _ => ?_
  have hrest : Matched a (fun lower => do
        land otherwise
        update id (FrameState.setArm 1)
        lower.value whenFalse) (fun lower => do
        land otherwise
        update id (FrameState.setArm 1)
        lower.value (whenFalse.alter a)) :=
    .bind (.land _) fun _ => .bind (.update _ _) fun _ => .value whenFalse
  exact .ite (.bind (.jump _) fun _ => .bind (.update _ _) fun _ => hrest) hrest

theorem group_carries (inner : Node) : Carries a group (.group inner span) :=
  .value inner

theorem lambda_carries (params : List Name) (body : Node) :
    Carries a lambda (.lambda params body span) := by
  unfold Carries
  rw [Node.alter]
  simp only [lambda, List.length_map]
  have hrest : Matched a (fun lower => emitClosure params.length.toUInt16 (do
        params.forM fun param => do
          let _ ← declare param
        lower.body body)) fun lower => emitClosure params.length.toUInt16 (do
        (params.map a.name).forM fun param => do
          let _ ← declare param
        lower.body (body.alter a)) :=
    .emitClosure _ (.bind (.forM a.name (fun param => .bind (.declare param) fun _ => .pure _)
      params) fun _ => .body body)
  exact .ite (.bind (.fail _) fun _ => hrest) hrest

theorem shapeWith_carries (element : UInt16) (shape : Node) :
    Matched a (fun lower => shapeWith lower element shape)
      fun lower => shapeWith lower element (shape.alter a) :=
  .bind (.within (.transform element) fun _ => .value shape) fun _ => .pure _

theorem transform_carries (mode : Shaping) (source shape : Node) :
    Carries a transform (.transform mode source shape span) := by
  cases mode with
  | each =>
      exact .bind (.takeSlot span) fun _ => .bind (.takeSlot span) fun element =>
        .bind (.emit _) fun _ => .bind (.emitSlot _ _) fun _ => .bind (.value source) fun _ =>
        .bind (.emit _) fun _ => .bind .position fun _ => .bind .depth fun _ =>
        .bind (.jump _) fun _ => .bind (.emitSlot _ _) fun _ => .bind (.emitSlot _ _) fun _ =>
        .bind (shapeWith_carries element shape) fun _ => .bind (.emit _) fun _ =>
        .bind (.emit _) fun _ => .bind (.jumpBack _ _) fun _ => .bind (.land _) fun _ =>
        .bind (.emit _) fun _ => .emitSlot _ _
  | single =>
      exact .bind (.takeSlot span) fun element => .bind (.value source) fun _ =>
        .bind (.emitSlot _ _) fun _ => shapeWith_carries element shape

theorem block_carries (statements : List Node) : Carries a block (.block statements span) := by
  unfold Carries
  rw [Node.alter, Node.alterList_eq]
  exact .bind (.within .block fun _ => .statements statements) fun _ => .pure _

theorem varDecl_carries (name : Name) (init : Node) :
    Carries a varDecl (.varDecl name init span) :=
  .bind (.value init) fun _ => .bind (.declare name) fun _ => .emitSlot _ _

theorem assign_carries (name : Name) (value : Node) :
    Carries a assign (.assign name value span) := by
  refine .bind (.findLocal name.text) fun found => ?_
  cases found with
  | some ref => exact .bind (.value value) fun _ => .emitWith _ rfl
  | none => exact .fail _

theorem run_carries (inner : Node) : Carries a run (.run inner span) :=
  .statement inner

theorem hint_carries (name : String) (value : Constant) :
    Carries a hint (.hint name value span) :=
  .emitHint name value

theorem importAs_carries (source : ImportSource) (path : String) (binding : Name) :
    Carries a importAs (.importAs source path binding span) := by
  have hop : source.opcode ≠ .loadConst := by cases source <;> nofun
  have hstore : ∀ (lower : Lower) (binding : Name) (span : Span),
      importAs lower (.importAs source path binding span) =
        emitImport source.opcode path binding >>= emitSlot .store := by
    intro lower binding span
    simp only [importAs, emitImport, bind_assoc, pure_bind]
  unfold Carries
  simp only [Node.alter, hstore]
  exact .bind (.emitImport path binding hop) fun _ => .emitSlot _ _

theorem ifArms_carries (id : FrameId) (moreFollows : Bool) (arm : Nat)
    (arms : List (Node × Node)) :
    Matched a (fun lower => ifArms lower id moreFollows arm arms) fun lower =>
      ifArms lower id moreFollows arm (arms.map fun arm => (arm.1.alter a, arm.2.alter a)) := by
  induction arms generalizing arm with
  | nil => exact .pure ()
  | cons head rest ih =>
      obtain ⟨condition, body⟩ := head
      simp only [List.map_cons, ifArms, List.isEmpty_map]
      refine .bind (.update _ _) fun _ => .bind (.value condition) fun _ => .bind (.jump _)
        fun next => .bind (.statement body) fun _ => .bind .reachable fun _ => ?_
      have hrest : Matched a (fun lower => land next >>= fun _ =>
            ifArms lower id moreFollows (arm + 1) rest) fun lower => land next >>= fun _ =>
            ifArms lower id moreFollows (arm + 1)
              (rest.map fun arm => (arm.1.alter a, arm.2.alter a)) :=
        .bind (.land _) fun _ => ih (arm + 1)
      exact .ite (.bind (.jump _) fun _ => .bind (.update _ _) fun _ => hrest) hrest

theorem ifChain_carries (arms : List (Node × Node)) (otherwise : Option Node) :
    Carries a ifChain (.ifChain arms otherwise span) := by
  unfold Carries
  rw [Node.alter, Node.alterArms_eq, Node.alterOption_eq]
  simp only [ifChain, Option.isSome_map, List.length_map]
  refine .bind (.within (.branch 0 #[]) fun id => ?_) fun _ => .landAll _
  refine .bind (ifArms_carries id _ 0 arms) fun _ => ?_
  cases otherwise with
  | some body => exact .bind (.update _ _) fun _ => .statement body
  | none => exact .pure ()

theorem whileLoop_carries (condition body : Node) :
    Carries a whileLoop (.whileLoop condition body span) :=
  .bind .position fun start => .bind .depth fun level =>
    .bind (.within (.loop start level #[]) fun _ => .bind (.value condition) fun _ =>
      .bind (.jump _) fun _ => .bind (.statement body) fun _ => .bind (.jumpBack _ _) fun _ =>
      .land _) fun _ => .landAll _

theorem forEach_carries (binding : Name) (iterable body : Node) :
    Carries a forEach (.forEach binding iterable body span) :=
  .bind (.value iterable) fun _ => .bind (.emit _) fun _ => .bind .position fun next =>
    .bind .depth fun level => .bind (.within (.loop next level #[]) fun _ =>
      .bind (.jump _) fun _ => .bind (.declare binding) fun _ => .bind (.emitSlot _ _) fun _ =>
      .bind (.statement body) fun _ => .bind (.jumpBack _ _) fun _ => .land _)
    fun _ => .bind (.landAll _) fun _ => .emit _

theorem leaveForLoop_carries (construct : Construct) (span : Span) :
    Matched a (fun _ => leaveForLoop construct span)
      fun _ => leaveForLoop construct (a.place span) := by
  refine .bind (.enclosingLoop span) fun entry => .bind .depth fun _ => .bind .reachable fun _ => ?_
  have hrest : Matched a (fun _ => resetDepth entry.2 >>= fun _ => leaveHandlers .loop)
      fun _ => resetDepth entry.2 >>= fun _ => leaveHandlers .loop :=
    .bind (.resetDepth _) fun _ => .leaveHandlers _
  exact .ite (.bind (.fail _) fun _ => hrest) hrest

theorem breakLoop_carries : Carries a breakLoop (.breakLoop span) :=
  .bind (leaveForLoop_carries _ span) fun _ => .bind (.jump _) fun label => .addBreak label

theorem continueLoop_carries : Carries a continueLoop (.continueLoop span) :=
  .bind (leaveForLoop_carries _ span) fun _ => .bind (.enclosingLoop span) fun _ =>
    .jumpBack _ _

theorem tryPaths_carries (install : PendingJump) (id : FrameId) (body : Node)
    (binding : Option Name) (handler : Node) :
    Matched a (fun lower => tryPaths lower install id body binding handler) fun lower =>
      tryPaths lower install id (body.alter a) (binding.map a.name) (handler.alter a) := by
  refine .bind (.statement body) fun _ => .bind .position fun stop => .bind .reachable fun _ => ?_
  -- What follows is the same whether the body falls out or not, but for the way over it.
  have hpaths : ∀ {next next' : Option PendingJump → Position → Lower →
      Action Workspace (Nat × Nat × Option PendingJump)},
      (∀ exit catchAt, Matched a (next exit catchAt) (next' exit catchAt)) →
      ∀ exit, Matched a (fun lower => update id (FrameState.setGuarded false) >>= fun _ =>
          position >>= fun catchAt => land install >>= fun _ => next exit catchAt lower)
        fun lower => update id (FrameState.setGuarded false) >>= fun _ =>
          position >>= fun catchAt => land install >>= fun _ => next' exit catchAt lower :=
    fun hnext exit => .bind (.update _ _) fun _ => .bind .position fun catchAt =>
      .bind (.land _) fun _ => hnext exit catchAt
  have hhandler : ∀ (exit : Option PendingJump) (catchAt : Position),
      Matched a (fun lower => lower.statement handler >>= fun _ =>
          pure (stop.index, catchAt.index, exit))
        fun lower => lower.statement (handler.alter a) >>= fun _ =>
          pure (stop.index, catchAt.index, exit) :=
    fun _ _ => .bind (.statement handler) fun _ => .pure _
  cases binding with
  | some name =>
      have hcatch := hpaths fun exit catchAt => .bind (.declare name) fun slot =>
        .bind (.emitSlot .store slot) fun _ => hhandler exit catchAt
      exact .ite (.bind (.emit _) fun _ => .bind (.jump _) fun exit =>
        .bind (.pure (some exit)) fun _ => hcatch _) (.bind (.pure none) fun _ => hcatch _)
  | none =>
      have hcatch := hpaths fun exit catchAt => .bind (.emit .pop) fun _ => hhandler exit catchAt
      exact .ite (.bind (.emit _) fun _ => .bind (.jump _) fun exit =>
        .bind (.pure (some exit)) fun _ => hcatch _) (.bind (.pure none) fun _ => hcatch _)

theorem tryCatch_carries (body : Node) (binding : Option Name) (handler : Node) :
    Carries a tryCatch (.tryCatch body binding handler span) := by
  refine .bind (.jump _) fun install => .bind (.within (.handler install.position true 0)
    fun id => tryPaths_carries install id body binding handler) fun result => ?_
  obtain ⟨⟨stop, catchAt, exit⟩, frame⟩ := result
  cases exit with
  | some exit => exact .bind (.land _) fun _ => .addRegion _
  | none => exact .bind (.pure ()) fun _ => .addRegion _

theorem result_carries (code : Int64) (data : Option Node) :
    Matched a (fun lower => result lower code data)
      fun lower => result lower code (data.map (Node.alter a)) := by
  refine .bind (.pushConstant rfl) fun _ => ?_
  cases data with
  | some data => exact .value data
  | none => exact .emit _

theorem returnWith_carries (code : Int64) (data : Option Node) :
    Carries a returnWith (.returnWith code data span) := by
  unfold Carries
  rw [Node.alter, Node.alterOption_eq]
  exact .bind (result_carries code data) fun _ => .bind (.leaveHandlers _) fun _ => .emit _

theorem exitWith_carries (code : Int64) (data : Option Node) :
    Carries a exitWith (.exitWith code data span) := by
  unfold Carries
  rw [Node.alter, Node.alterOption_eq]
  exact .bind (result_carries code data) fun _ => .emit _

theorem throwWith_carries (code : Int64) (data : Node) :
    Carries a throwWith (.throwWith code data span) :=
  .bind (.pushConstant rfl) fun _ => .bind (.value data) fun _ => .bind .countThrow fun _ =>
    .emit _

/-- **Every rule does with an altered node what it does with the node.** -/
theorem standard_carries (node : Node) : Carries a (standard node.construct) node := by
  cases node with
  | literal value => exact literal_carries value
  | list items => exact list_carries items
  | object fields => exact object_carries fields
  | ident name => exact ident_carries name
  | param name => exact param_carries name
  | current => exact current_carries
  | member owner name => exact member_carries owner name
  | index owner subscript => exact index_carries owner subscript
  | call callee arguments => exact call_carries callee arguments
  | unary op operand => exact unary_carries op operand
  | binary op left right => exact binary_carries op left right
  | logical op left right => exact logical_carries op left right
  | ternary condition whenTrue whenFalse => exact ternary_carries condition whenTrue whenFalse
  | group inner => exact group_carries inner
  | lambda params body => exact lambda_carries params body
  | transform mode source shape => exact transform_carries mode source shape
  | block statements => exact block_carries statements
  | varDecl name init => exact varDecl_carries name init
  | assign name value => exact assign_carries name value
  | run inner => exact run_carries inner
  | hint name value => exact hint_carries name value
  | importAs source path binding => exact importAs_carries source path binding
  | ifChain arms otherwise => exact ifChain_carries arms otherwise
  | whileLoop condition body => exact whileLoop_carries condition body
  | forEach binding iterable body => exact forEach_carries binding iterable body
  | breakLoop => exact breakLoop_carries
  | continueLoop => exact continueLoop_carries
  | tryCatch body binding handler => exact tryCatch_carries body binding handler
  | returnWith code data => exact returnWith_carries code data
  | exitWith code data => exact exitWith_carries code data
  | throwWith code data => exact throwWith_carries code data

end Rule

end QueryCompiler
