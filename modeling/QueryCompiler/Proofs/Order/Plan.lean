/-
What rules do besides writing code.

A rule has every part of its node lowered once, in the order of the text, some of them
inside the scope of the construct.  That is its `Plan`.  All else it does is its own
business: it writes code in the current function, takes slots, makes notes in the
frame it has opened.  Such a step `Tends` to the workspace: no scope comes or goes, and
an error it may fail with is no objection to the tree.

`Orderly` describes an action as a chain of such steps and of calls, whatever it is that
lowers the parts.  What the calls have in common then carries over to the action, by
induction on the description.  One description of each rule, in `Order/Rules`, thus
serves for everything that is said about the order in which nodes are lowered.
-/
import QueryCompiler.Lowering.Rule
import QueryCompiler.Proofs.Order.Nesting

namespace QueryCompiler

/-- Whether the error is an objection to the tree as such: a node has no rule, or is too deep. -/
def CompileError.isObjection : CompileError → Bool
  | unsupported .. | tooDeep .. => true
  | _ => false

/-- However it ends, unless in a fault, a state with a property is left behind; and an error is no
objection. -/
def Outcome.Ends {σ α : Type} (post : σ → Prop) : Outcome σ α → Prop
  | .done _ s => post s
  | .failed error s => error.isObjection = false ∧ post s
  | .fault _ => True

namespace Outcome.Ends

variable {σ α β : Type} {post other : σ → Prop} {s : σ}

theorem mono {outcome : Outcome σ α} (h : outcome.Ends post) (himp : ∀ t, post t → other t) :
    outcome.Ends other := by
  cases outcome with
  | done x t => exact himp t h
  | failed error t => exact ⟨h.1, himp t h.2⟩
  | fault fault => trivial

theorem bind {first : Action σ α} {next : α → Action σ β} (hfirst : (first s).Ends other)
    (hother : ∀ t, other t → post t) (hnext : ∀ x t, other t → (next x t).Ends post) :
    ((first >>= next) s).Ends post := by
  rw [Action.bind_apply]
  cases hdone : first s with
  | done x t =>
      rw [hdone] at hfirst
      exact hnext x t hfirst
  | failed error t =>
      rw [hdone] at hfirst
      exact ⟨hfirst.1, hother t hfirst.2⟩
  | fault fault => trivial

/-- What a chain of rounds preserves. -/
theorem forM {R : σ → σ → Prop} (hrefl : ∀ s, R s s) (htrans : ∀ {s t u}, R s t → R t u → R s u)
    {each : β → Action σ Unit} (heach : ∀ x s, (each x s).Ends (R s)) (items : List β) (s : σ) :
    (items.forM each s).Ends (R s) := by
  induction items generalizing s with
  | nil => exact hrefl s
  | cons x rest ih =>
      exact (heach x s).bind (fun _ h => h) fun _ t ht => (ih t).mono fun _ hu => htrans ht hu

end Outcome.Ends

/-! ### Code -/

namespace Assembly

/-- The second program continues the first: only the function that is being written has changed,
no function has other parameters, and the constants that had a number keep it. -/
structure Continues (code code' : Assembly) : Prop where
  line : code'.line = code.line
  opened : code'.opened = code.opened
  size : code'.routines.size = code.routines.size
  params : ∀ g : Nat, code'.routines[g]?.map Routine.params = code.routines[g]?.map Routine.params
  others : ∀ g, g ≠ code.currentFunction → code'.routines[g]? = code.routines[g]?
  pool : ∀ (i : Nat) (c : Constant), code.pool.constants[i]? = some c →
    code'.pool.constants[i]? = some c

theorem Continues.refl (code : Assembly) : Continues code code :=
  ⟨rfl, rfl, rfl, fun _ => rfl, fun _ _ => rfl, fun _ _ h => h⟩

theorem Continues.trans {code code₁ code₂ : Assembly} (h : Continues code code₁)
    (h' : Continues code₁ code₂) : Continues code code₂ where
  line := h'.line.trans h.line
  opened := h'.opened.trans h.opened
  size := h'.size.trans h.size
  params g := (h'.params g).trans (h.params g)
  others g hg := by
    have hcurrent : code₁.currentFunction = code.currentFunction := by
      rw [currentFunction, currentFunction, h.opened]
    rw [h'.others g (by rw [hcurrent]; exact hg), h.others g hg]
  pool i c hc := h'.pool i c (h.pool i c hc)

variable {code : Assembly}

theorem modifyCurrent_continues (code : Assembly) {change : Routine → Routine}
    (hparams : ∀ routine, (change routine).params = routine.params) :
    Continues code (code.modifyCurrent change) where
  line := rfl
  opened := rfl
  size := by simp [modifyCurrent]
  params g := by
    simp only [modifyCurrent, Array.getElem?_modify]
    split
    · rw [Option.map_map]
      exact Option.map_congr fun routine _ => hparams routine
    · rfl
  others g hg := by
    simp only [modifyCurrent, Array.getElem?_modify]
    rw [if_neg (Ne.symm hg)]
  pool _ _ h := h

theorem emit_ends (op : Opcode) (operand : Operand) :
    (emit op operand code).Ends (Continues code) := by
  unfold emit
  dsimp only
  split
  · trivial
  · split
    · trivial
    · split
      · trivial
      · exact modifyCurrent_continues code fun _ => rfl

theorem constant_ends (value : Constant) : (constant value code).Ends (Continues code) := by
  unfold constant
  split
  · rename_i id pool hadd
    exact ⟨rfl, rfl, rfl, fun _ => rfl, fun _ _ => rfl, fun _ _ hc => Pool.add_keeps hadd hc⟩
  · rename_i error hadd
    obtain ⟨-, -, rfl⟩ := Pool.of_add_error hadd
    exact ⟨rfl, .refl code⟩

theorem pushConstant_ends (value : Constant) :
    (pushConstant value code).Ends (Continues code) :=
  (constant_ends value).bind (fun _ h => h) fun _ _ h =>
    (emit_ends ..).mono fun _ h' => h.trans h'

theorem jump_ends (op : Opcode) : (jump op code).Ends (Continues code) := by
  unfold jump
  split
  · trivial
  · split
    · trivial
    · have hemit : (emit op .unaimed code).Ends (Continues code) := emit_ends op .unaimed
      cases hdone : emit op .unaimed code <;> rw [hdone] at hemit <;> exact hemit

theorem jumpBack_ends (target : Position) (depth : Nat) :
    (jumpBack target depth code).Ends (Continues code) := by
  unfold jumpBack
  split
  · exact ⟨rfl, .refl code⟩
  · split
    · exact ⟨rfl, .refl code⟩
    · exact emit_ends ..

theorem land_ends (label : PendingJump) : (land label code).Ends (Continues code) := by
  unfold land
  dsimp only
  split
  · exact ⟨rfl, .refl code⟩
  · rename_i hfunction
    have hfunction : label.position.function = code.currentFunction := not_not.mp hfunction
    have haim : (aim label.position code.position.index.toUInt32 code).Ends (Continues code) := by
      unfold aim
      split
      · exact ⟨rfl, .refl code⟩
      · split
        · exact ⟨rfl, .refl code⟩
        · rw [hfunction]
          exact modifyCurrent_continues code fun _ => rfl
    refine haim.bind (fun _ h => h) ?_
    intro _ aimed haimed
    unfold join
    split
    · exact ⟨rfl, haimed⟩
    · exact haimed.trans (modifyCurrent_continues aimed fun _ => rfl)

theorem landAll_ends (labels : List PendingJump) :
    (landAll labels code).Ends (Continues code) :=
  Outcome.Ends.forM Continues.refl Continues.trans (fun label _ => land_ends label) labels code

/-- The source line of the next instruction is the same. -/
def KeepsLine (code code' : Assembly) : Prop := code'.line = code.line

end Assembly

/-! ### Steps of a rule's own -/

/-- The action opens and closes no scope, changes no frame beyond what may change unless it is
`own`, and does to the code what `K` allows. -/
def Tends {α : Type} (K : Assembly → Assembly → Prop) (own : Option FrameId)
    (action : Action Workspace α) : Prop :=
  ∀ ws, (action ws).Ends fun ws' => K ws.code ws'.code ∧
    (ws.scopes.Fit own → ws.scopes.Passed own .flat ws'.scopes)

namespace Tends

open Workspace Assembly

variable {α β : Type} {own : Option FrameId} {K K' : Assembly → Assembly → Prop}

theorem mono {action : Action Workspace α} (h : Tends K own action)
    (hK : ∀ code code', K code code' → K' code code') : Tends K' own action :=
  fun ws => (h ws).mono fun _ h' => ⟨hK _ _ h'.1, h'.2⟩

theorem keepsLine {action : Action Workspace α} (h : Tends Continues own action) :
    Tends KeepsLine own action :=
  h.mono fun _ _ hcode => hcode.line

theorem pure (x : α) : Tends Continues own (Pure.pure x : Action Workspace α) :=
  fun _ => ⟨.refl _, fun _ => .refl ..⟩

theorem bind {first : Action Workspace α} {next : α → Action Workspace β}
    (hfirst : Tends Continues own first) (hnext : ∀ x, Tends Continues own (next x)) :
    Tends Continues own (first >>= next) := by
  intro ws
  refine (hfirst ws).bind (fun _ h => h) fun x ws₁ h => (hnext x ws₁).mono fun ws₂ h' => ?_
  refine ⟨h.1.trans h'.1, fun hfit => ?_⟩
  exact (h.2 hfit).trans (h'.2 ((h.2 hfit).fit hfit))

theorem forM {each : β → Action Workspace Unit} (heach : ∀ x, Tends Continues own (each x))
    (items : List β) : Tends Continues own (items.forM each) := by
  induction items with
  | nil => exact .pure ()
  | cons x rest ih => exact (heach x).bind fun _ => ih

theorem fail {error : CompileError} (h : error.isObjection = false) :
    Tends Continues own (Action.fail error : Action Workspace α) :=
  fun _ => ⟨h, .refl _, fun _ => .refl ..⟩

theorem ofWord (result : Except Fault α) :
    Tends Continues own (Action.ofWord result : Action Workspace α) := by
  cases result with
  | ok value => exact .pure value
  | error fault => exact fun _ => trivial

theorem ite {p : Prop} [Decidable p] {a b : Action Workspace α} (ha : Tends K own a)
    (hb : Tends K own b) : Tends K own (if p then a else b) := by
  split
  · exact ha
  · exact hb

/-! ### Writing code -/

theorem onCode {action : Action Assembly α} (h : ∀ code, (action code).Ends (K code)) :
    Tends K own (onCode action) := by
  intro ⟨code, scopes, underway⟩
  have hcode := h code
  simp only [Workspace.onCode]
  cases haction : action code with
  | done x code' =>
      rw [haction] at hcode
      exact ⟨hcode, fun _ => .refl ..⟩
  | failed error code' =>
      rw [haction] at hcode
      exact ⟨hcode.1, hcode.2, fun _ => .refl ..⟩
  | fault fault => trivial

theorem emitWith (op : Opcode) (operand : Operand) :
    Tends Continues own (emitWith op operand) :=
  (onCode fun _ => emit_ends op operand).bind fun _ => .pure ()

theorem emit (op : Opcode) : Tends Continues own (emit op) := emitWith op .none

theorem emitSlot (op : Opcode) (slot : UInt16) : Tends Continues own (emitSlot op slot) :=
  emitWith op _

theorem constant (value : Constant) :
    Tends Continues own (Workspace.onCode (Assembly.constant value)) :=
  onCode fun _ => constant_ends value

theorem pushConstant (value : Constant) : Tends Continues own (pushConstant value) :=
  (onCode fun _ => pushConstant_ends value).bind fun _ => .pure ()

theorem emitName (op : Opcode) (text : String) : Tends Continues own (emitName op text) :=
  (constant _).bind fun _ => emitWith op _

theorem jump (op : Opcode) : Tends Continues own (jump op) := onCode fun _ => jump_ends op

theorem jumpBack (target : Position) (depth : Nat) :
    Tends Continues own (jumpBack target depth) :=
  (onCode fun _ => jumpBack_ends target depth).bind fun _ => .pure ()

theorem land (label : PendingJump) : Tends Continues own (land label) :=
  onCode fun _ => land_ends label

theorem landAll (labels : List PendingJump) : Tends Continues own (landAll labels) :=
  onCode fun _ => landAll_ends labels

theorem readCode (view : Assembly → α) :
    Tends Continues own (Workspace.onCode (Action.read view)) :=
  onCode fun code => .refl code

theorem depth : Tends Continues own depth := readCode _

theorem position : Tends Continues own position := readCode _

theorem reachable : Tends Continues own reachable := readCode _

theorem resetDepth (depth : Nat) : Tends Continues own (resetDepth depth) :=
  onCode fun code => modifyCurrent_continues code fun _ => rfl

theorem addRegion (region : GuardedRegion) :
    Tends Continues own (Workspace.onCode (Action.modify fun code => code.addRegion region)) :=
  onCode fun _ => ⟨rfl, rfl, rfl, fun _ => rfl, fun _ _ => rfl, fun _ _ h => h⟩

/-! ### Taking slots and making notes -/

theorem onScopes {action : Action ScopeStack α}
    (h : ∀ scopes, (action scopes).Ends fun scopes' =>
      scopes.Fit own → scopes.Passed own .flat scopes') :
    Tends Continues own (onScopes action) := by
  intro ⟨code, scopes, underway⟩
  have hscopes := h scopes
  simp only [Workspace.onScopes]
  cases haction : action scopes with
  | done x scopes' =>
      rw [haction] at hscopes
      exact ⟨.refl code, hscopes⟩
  | failed error scopes' =>
      rw [haction] at hscopes
      exact ⟨hscopes.1, .refl code, hscopes.2⟩
  | fault fault => trivial

theorem readScopes (view : ScopeStack → α) :
    Tends Continues own (Workspace.onScopes (Action.read view)) :=
  onScopes fun _ _ => .refl ..

theorem takeSlot (span : Span) : Tends Continues own (takeSlot span) := by
  refine onScopes fun scopes => ?_
  unfold ScopeStack.takeSlot
  split
  · exact ⟨rfl, fun _ => .refl ..⟩
  · split
    · exact ⟨rfl, fun _ => .refl ..⟩
    · exact fun _ => .reframe (Frame.lastingFor_of_lasting Frame.fixed_takeSlot)

theorem declare (name : Name) : Tends Continues own (declare name) := by
  have hdeclare : Workspace.declare name = do
      let slot ← Workspace.takeSlot name.span
      Workspace.onScopes (Action.modify (ScopeStack.bindName name.text slot))
      return slot := by
    funext ⟨code, scopes, underway⟩
    simp only [Workspace.declare, ScopeStack.declare, Workspace.takeSlot, Workspace.onScopes,
      Action.bind_apply]
    cases ScopeStack.takeSlot name.span scopes <;> rfl
  rw [hdeclare]
  refine (takeSlot name.span).bind fun slot => (onScopes fun scopes => ?_).bind fun _ => .pure slot
  intro _
  have hbind : scopes.bindName name.text slot =
      { scopes with frames := Frame.bindName name.text slot scopes.frames } := by
    rw [ScopeStack.bindName]
    cases hframes : scopes.frames with
    | nil => simp [Frame.bindName, ← hframes]
    | cons frame outer => rfl
  rw [hbind]
  exact .reframe (Frame.lastingFor_of_lasting (Frame.fixed_bindName ..))

theorem findLocal (name : String) : Tends Continues own (findLocal name) := by
  refine onScopes fun scopes => ?_
  unfold ScopeStack.findLocal
  split
  · exact fun _ => .refl ..
  · trivial

theorem findElement (span : Span) : Tends Continues own (findElement span) := by
  refine onScopes fun scopes => ?_
  unfold ScopeStack.findElement
  split
  · exact fun _ => .refl ..
  · exact ⟨rfl, fun _ => .refl ..⟩
  · trivial

theorem enclosing (scope : Scope) (span : Span) :
    Tends Continues own (Workspace.onScopes (ScopeStack.enclosing scope span)) := by
  refine onScopes fun scopes => ?_
  unfold ScopeStack.enclosing
  split
  · exact fun _ => .refl ..
  · exact ⟨rfl, fun _ => .refl ..⟩

theorem addBreak (label : PendingJump) :
    Tends Continues own (Workspace.onScopes
      (Action.modify (ScopeStack.modifyEnclosing .loop (FrameState.addBreak label)))) :=
  onScopes fun _ _ => .reframe (Frame.lastingFor_of_lasting (Frame.fixed_addBreak label))

theorem countThrow :
    Tends Continues own (Workspace.onScopes (Action.modify ScopeStack.countThrow)) :=
  onScopes fun _ _ => .reframe (Frame.lastingFor_of_lasting Frame.fixed_countThrow)

theorem leaveHandlers (scope : Scope) : Tends Continues own (leaveHandlers scope) :=
  (readScopes _).bind fun _ => forM emit _

/-- A frame of one's own can be changed, as long as it stays one of its scope. -/
theorem update (id : FrameId) {change : FrameState → FrameState}
    (hchange : ∀ state, (change state).scope = state.scope) :
    Tends Continues (some id) (update id change) := by
  refine onScopes fun scopes => ?_
  unfold ScopeStack.update
  split
  · intro hfit
    refine .reframe ?_
    obtain ⟨serials, hserials, hfresh⟩ := hfit.owned id rfl
    obtain ⟨frame, outer, hframes, hhead, rfl⟩ := List.map_eq_cons_iff.mp hserials
    have houter : outer.map (fun frame =>
        if frame.serial = id.serial then frame.modify change else frame) = outer := by
      conv_rhs => rw [← List.map_id outer]
      refine List.map_congr_left fun other hother => if_neg fun hsame => hfresh ?_
      rw [← hsame]
      exact List.mem_map_of_mem hother
    rw [hframes, List.map_cons, houter, if_pos hhead]
    have hscope : (frame.modify change).scope = frame.scope := hchange frame.state
    simp only [Frame.lastingFor, Frame.passesSlots, Frame.passesBreak, hscope]
    rw [show (frame.modify change).state = change frame.state from rfl,
      FrameState.blank_of_scope (hchange frame.state)]
    rfl
  · exact ⟨rfl, fun _ => .refl ..⟩

end Tends

/-! ### Scopes -/

namespace Workspace

variable {α : Type}

/-- **What a scope adds to an action:** it is carried out in the scope, and the scope is closed
however it ends; a failure inside counts before one in closing. -/
theorem within_eq (state : FrameState) (body : FrameId → Action Workspace α) (ws : Workspace) :
    within state body ws =
      match body ⟨ws.scopes.nextSerial, state.scope⟩ (ws.entered state) with
      | .done x inside =>
        (onScopes (ScopeStack.pop ⟨ws.scopes.nextSerial, state.scope⟩) >>= fun frame =>
          pure (x, frame.state)) inside
      | .failed error inside =>
        ((onScopes (ScopeStack.pop ⟨ws.scopes.nextSerial, state.scope⟩)).attempt >>= fun _ =>
          Action.fail error) inside
      | .fault fault => .fault fault := by
  have hpush : onScopes (ScopeStack.push state) ws =
      .done ⟨ws.scopes.nextSerial, state.scope⟩ (ws.entered state) := rfl
  rw [within, Action.bind_apply, hpush]
  simp only [Action.bind_apply, Action.attempt]
  cases body ⟨ws.scopes.nextSerial, state.scope⟩ (ws.entered state) with
  | done x inside =>
      dsimp only
      cases onScopes (ScopeStack.pop ⟨ws.scopes.nextSerial, state.scope⟩) inside <;> rfl
  | failed error inside =>
      dsimp only
      cases onScopes (ScopeStack.pop ⟨ws.scopes.nextSerial, state.scope⟩) inside <;> rfl
  | fault fault => rfl

end Workspace

/-! ### Plans -/

/-- The parts that are to be lowered and the scopes around them, in order. -/
inductive Plan where
  | nothing
  | part (node : Node) (rest : Plan)
  | scope (scope : Scope) (inside rest : Plan)

namespace Plan

/-- One plan after another. -/
def append : Plan → Plan → Plan
  | nothing, after => after
  | part node rest, after => part node (rest.append after)
  | scope kind inside rest, after => scope kind inside (rest.append after)

instance : Append Plan := ⟨append⟩

@[simp] theorem nothing_append (p : Plan) : nothing ++ p = p := rfl

@[simp] theorem part_append (node : Node) (rest p : Plan) :
    part node rest ++ p = part node (rest ++ p) := rfl

@[simp] theorem scope_append (kind : Scope) (inside rest p : Plan) :
    scope kind inside rest ++ p = scope kind inside (rest ++ p) := rfl

@[simp] theorem append_nothing (p : Plan) : p ++ nothing = p := by
  induction p with
  | nothing => rfl
  | part node rest ih => exact congrArg (part node) ih
  | scope kind inside rest _ ih => exact congrArg (scope kind inside) ih

/-- Some parts, in order. -/
def parts (nodes : List Node) : Plan :=
  nodes.foldr part nothing

@[simp] theorem parts_append (a b : List Node) : parts (a ++ b) = parts a ++ parts b := by
  induction a with
  | nil => rfl
  | cons node rest ih => exact congrArg (part node) ih

/-- The parts of a plan, inside of scopes or not. -/
def nodes : Plan → List Node
  | nothing => []
  | part node rest => node :: rest.nodes
  | scope _ inside rest => inside.nodes ++ rest.nodes

@[simp] theorem nodes_append (p q : Plan) : (p ++ q).nodes = p.nodes ++ q.nodes := by
  induction p with
  | nothing => rfl
  | part node rest ih => exact congrArg (List.cons node) ih
  | scope kind inside rest _ ih => simp [nodes, ih]

@[simp] theorem nodes_parts (nodes : List Node) : (parts nodes).nodes = nodes := by
  induction nodes with
  | nil => rfl
  | cons node rest ih => exact congrArg (List.cons node) ih

end Plan

/-- What has to be done about the parts of a node: all of them are lowered, in the scope of the
construct if it has one.  What a loop runs over and what a transform shapes is lowered before. -/
def Node.plan : Node → Plan
  | .forEach _ iterable body _ => .part iterable (.scope .loop (.parts [body]) .nothing)
  | .transform _ source shape _ => .part source (.scope .transform (.parts [shape]) .nothing)
  | node =>
    match node.construct.scope? with
    | some scope => .scope scope (.parts node.children) .nothing
    | none => .parts node.children

/-- A plan leaves no part out, and has none twice. -/
theorem Node.nodes_plan (node : Node) : node.plan.nodes = node.children := by
  have hscope : ∀ (scope : Scope) (nodes : List Node),
      (Plan.scope scope (.parts nodes) .nothing).nodes = nodes := by
    intro scope nodes
    simp [Plan.nodes]
  cases node with
  | forEach | transform => rfl
  | ternary | lambda | block | ifChain | whileLoop | tryCatch => exact hscope _ _
  | _ => exact Plan.nodes_parts _

/-! ### Orderly actions -/

/-- The action follows a plan, whatever lowers the parts: it is a chain of steps of its own and of
calls, in the order of the plan.  An action that only fails may give up on any plan. -/
inductive Orderly (K : Assembly → Assembly → Prop) :
    Option FrameId → Plan → {α : Type} → (Lower → Action Workspace α) → Prop
  | own {own : Option FrameId} {α : Type} {action : Action Workspace α} (h : Tends K own action) :
      Orderly K own .nothing fun _ => action
  | part {own : Option FrameId} (node : Node) :
      Orderly K own (.part node .nothing) fun lower => lower node
  | bind {own : Option FrameId} {α β : Type} {p q : Plan} {first : Lower → Action Workspace α}
      {next : α → Lower → Action Workspace β} (hfirst : Orderly K own p first)
      (hnext : ∀ x, Orderly K own q (next x)) :
      Orderly K own (p ++ q) fun lower => first lower >>= fun x => next x lower
  | fail {own : Option FrameId} {plan : Plan} {α : Type} {error : CompileError}
      (h : error.isObjection = false) :
      Orderly K own plan fun _ => (Action.fail error : Action Workspace α)
  | within {own : Option FrameId} {α : Type} {plan : Plan} (state : FrameState)
      {body : FrameId → Lower → Action Workspace α}
      (h : ∀ id, Orderly K (some id) plan (body id)) :
      Orderly K own (.scope state.scope plan .nothing)
        fun lower => Workspace.within state fun id => body id lower

namespace Orderly

open Workspace Assembly

variable {α β : Type} {own : Option FrameId} {K K' : Assembly → Assembly → Prop} {p q : Plan}

/-- The same plan in another form. -/
theorem as {act : Lower → Action Workspace α} (h : Orderly K own p act) (hplan : p = q) :
    Orderly K own q act := hplan ▸ h

theorem mono {act : Lower → Action Workspace α} (h : Orderly K own p act)
    (hK : ∀ code code', K code code' → K' code code') : Orderly K' own p act := by
  induction h with
  | own h => exact .own (h.mono hK)
  | part node => exact .part node
  | bind _ _ ihfirst ihnext => exact .bind ihfirst ihnext
  | fail h => exact .fail h
  | within state _ ih => exact .within state ih

theorem keepsLine {act : Lower → Action Workspace α} (h : Orderly Continues own p act) :
    Orderly KeepsLine own p act :=
  h.mono fun _ _ hcode => hcode.line

/-- A step of the rule's own, and then the rest. -/
theorem andThen {first : Action Workspace α} {next : α → Lower → Action Workspace β}
    (hfirst : Tends K own first) (hnext : ∀ x, Orderly K own p (next x)) :
    Orderly K own p fun lower => first >>= fun x => next x lower :=
  .bind (.own hfirst) hnext

theorem ite {c : Prop} [Decidable c] {a b : Lower → Action Workspace α} (ha : Orderly K own p a)
    (hb : Orderly K own p b) : Orderly K own p fun lower => if c then a lower else b lower := by
  by_cases hc : c
  · simp only [if_pos hc]
    exact ha
  · simp only [if_neg hc]
    exact hb

theorem forM {each : β → Lower → Action Workspace Unit} (nodes : β → List Node)
    (heach : ∀ x, Orderly Continues own (.parts (nodes x)) (each x)) (items : List β) :
    Orderly Continues own (.parts (items.flatMap nodes))
      fun lower => items.forM fun x => each x lower := by
  induction items with
  | nil => exact .own (.pure ())
  | cons x rest ih => exact .as (.bind (heach x) fun _ => ih) (by simp)

/-! ### The ways to ask for parts -/

theorem value (node : Node) :
    Orderly Continues own (.part node .nothing) fun lower => lower.value node := by
  unfold Lower.value
  cases node.construct.balance with
  | value => exact .andThen .depth fun _ => .part node
  | diverges =>
      exact .andThen .depth fun _ => .bind (.part node) fun _ =>
        .own ((Tends.ofWord _).bind fun _ => .resetDepth _)
  | effect => exact .andThen .depth fun _ => .andThen (.ofWord _) fun _ => .fail rfl

theorem statement (node : Node) :
    Orderly Continues own (.part node .nothing) fun lower => lower.statement node := by
  unfold Lower.statement
  exact .bind (.part node) fun _ => .own (.ite (.emit _) (.pure _))

theorem values (nodes : List Node) :
    Orderly Continues own (.parts nodes) fun lower => lower.values nodes :=
  .as (.forM (fun node => [node]) (fun node => .value node) nodes) (by simp)

theorem statements (nodes : List Node) :
    Orderly Continues own (.parts nodes) fun lower => lower.statements nodes :=
  .as (.forM (fun node => [node]) (fun node => .statement node) nodes) (by simp)

theorem body (node : Node) :
    Orderly Continues own (.part node .nothing) fun lower => lower.body node := by
  unfold Lower.body
  cases node.construct.balance with
  | value =>
      exact .andThen (.pushConstant _) fun _ => .bind (.value node) fun _ => .own (.emit _)
  | effect =>
      refine .bind (.part node) fun _ => .own (Tends.reachable.bind fun _ => .ite ?_ (.pure _))
      exact (Tends.pushConstant _).bind fun _ => (Tends.emit _).bind fun _ => .emit _
  | diverges => exact .part node

end Orderly

end QueryCompiler
