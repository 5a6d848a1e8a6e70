/-
Scopes come and go as the tree nests.

Because every rule follows its plan, the scopes that are opened and closed while a tree
is lowered depend on the tree alone: `Node.nesting` says which.  If the lowering fails
on the way, some of them have come and gone, and those that were open at the time have
been closed again.  So the history of the scopes of a query that compiles is that of its
nesting (`compileTraced_history`).
-/
import QueryCompiler.Proofs.Encoding.Sessions
import QueryCompiler.Proofs.Order.Preflight

namespace QueryCompiler

/-! ### The nesting of a tree -/

/-- The scopes of a tree.  A construct with a scope has those of its parts inside, except that what
a loop runs over and what a transform shapes stand before the scope. -/
def Node.nesting (node : Node) : Nesting :=
  match node with
  | .forEach _ iterable body _ => iterable.nesting ++ .scope .loop body.nesting .flat
  | .transform _ source shape _ => source.nesting ++ .scope .transform shape.nesting .flat
  | node =>
    let inside := node.children.attach.foldr (fun child rest => child.val.nesting ++ rest) .flat
    match node.construct.scope? with
    | some scope => .scope scope inside .flat
    | none => inside
termination_by node.size
decreasing_by
  all_goals
    apply Node.size_lt_of_mem_children
    first | exact child.property | simp [Node.children]

/-- The scopes of a plan, given those of the nodes in it. -/
def Plan.nesting (ofNode : Node → Nesting) : Plan → Nesting
  | nothing => .flat
  | part node rest => ofNode node ++ rest.nesting ofNode
  | scope kind inside rest => .scope kind (inside.nesting ofNode) (rest.nesting ofNode)

theorem Plan.nesting_append (ofNode : Node → Nesting) (p q : Plan) :
    (p ++ q).nesting ofNode = p.nesting ofNode ++ q.nesting ofNode := by
  induction p with
  | nothing => rfl
  | part node rest ih =>
      rw [part_append, nesting, nesting, ih, Nesting.append_assoc]
  | scope kind inside rest _ ih =>
      rw [scope_append, nesting, nesting, ih, Nesting.scope_append]

/-- The scopes of a tree are those of the plan for its root. -/
theorem Node.nesting_eq (node : Node) : node.nesting = node.plan.nesting Node.nesting := by
  have hparts : ∀ nodes : List Node,
      nodes.attach.foldr (fun child rest => child.val.nesting ++ rest) .flat =
        (Plan.parts nodes).nesting Node.nesting := by
    intro nodes
    rw [List.foldr_attach (f := fun (child : Node) rest => child.nesting ++ rest)]
    induction nodes with
    | nil => rfl
    | cons node rest ih => exact congrArg (node.nesting ++ ·) ih
  cases node with
  | forEach | transform =>
      rw [nesting]
      simp [plan, Plan.nesting, Plan.parts]
  | ternary | lambda | block | ifChain | whileLoop | tryCatch =>
      rw [nesting]
      · exact congrArg (Nesting.scope _ · .flat) (hparts _)
      · intros
        contradiction
      · intros
        contradiction
  | _ =>
      rw [nesting]
      · exact hparts _
      · intros
        contradiction
      · intros
        contradiction

/-! ### Counting scopes -/

/-- How many scopes a plan has of its own. -/
def Plan.scopes : Plan → Nat
  | nothing => 0
  | part _ rest => rest.scopes
  | scope _ inside rest => 1 + inside.scopes + rest.scopes

/-- Scopes are counted part by part. -/
theorem Plan.count_nesting {α : Type} {ofNode : Node → Nesting} {below : Node → List α}
    {counted : α → Bool} {p : Plan}
    (h : ∀ node ∈ p.nodes, (ofNode node).count = (below node).countP counted) :
    (p.nesting ofNode).count = p.scopes + (p.nodes.flatMap below).countP counted := by
  induction p with
  | nothing => rfl
  | part node rest ih =>
      have hnode := h node List.mem_cons_self
      have hrest := ih fun other hother => h other (List.mem_cons_of_mem _ hother)
      simp only [nesting, Nesting.count_append, hnode, hrest, scopes, nodes, List.flatMap_cons,
        List.countP_append]
      omega
  | scope kind inside rest ihinside ihrest =>
      have hinside := ihinside fun node hnode => h node (List.mem_append_left _ hnode)
      have hrest := ihrest fun node hnode => h node (List.mem_append_right _ hnode)
      simp only [nesting, Nesting.count, hinside, hrest, scopes, nodes, List.flatMap_append,
        List.countP_append]
      omega

/-- A rule opens one scope if its construct has one. -/
theorem Node.scopes_plan (node : Node) :
    node.plan.scopes = if node.construct.scope?.isSome then 1 else 0 := by
  have hparts : ∀ nodes : List Node, (Plan.parts nodes).scopes = 0 := by
    intro nodes
    induction nodes with
    | nil => rfl
    | cons node rest ih => exact ih
  have hscope : ∀ (scope : Scope) (nodes : List Node),
      (Plan.scope scope (.parts nodes) .nothing).scopes = 1 := by
    intro scope nodes
    simp [Plan.scopes, hparts]
  cases node with
  | forEach | transform => rfl
  | ternary | lambda | block | ifChain | whileLoop | tryCatch => exact hscope _ _
  | _ => exact hparts _

/-- **A tree has as many scopes as it has nodes with a scope.** -/
theorem Node.count_nesting (node : Node) (depth : Nat) :
    node.nesting.count =
      (node.preorder depth).countP fun entry => entry.1.construct.scope?.isSome := by
  have hparts : ∀ child ∈ node.plan.nodes, child.nesting.count =
      (child.preorder (depth + 1)).countP fun entry => entry.1.construct.scope?.isSome := by
    intro child hmem
    have hchild : child ∈ node.children := by
      rw [← nodes_plan]
      exact hmem
    exact count_nesting child (depth + 1)
  rw [nesting_eq, Plan.count_nesting hparts, nodes_plan, scopes_plan, preorder_eq,
    List.countP_cons]
  exact Nat.add_comm _ _
termination_by node.size
decreasing_by exact size_lt_of_mem_children hchild

/-! ### Orderly actions -/

/-- However the action ends, scopes came and went, and the line is the same; if it got done, it is
known which scopes. -/
def Outcome.Nests {α : Type} (own : Option FrameId) (n : Nesting) (ws : Workspace) :
    Outcome Workspace α → Prop
  | .done _ ws' => ws.scopes.Passed own n ws'.scopes ∧ ws'.code.line = ws.code.line
  | .failed _ ws' => ∃ m, ws.scopes.Passed own m ws'.scopes ∧ ws'.code.line = ws.code.line
  | .fault _ => True

/-- A node is lowered with the scopes it has, on every stack. -/
def Lower.Nests (lower : Lower) (node : Node) : Prop :=
  ∀ ws : Workspace, ws.scopes.Fit none → (lower node ws).Nests none node.nesting ws

namespace Outcome.Nests

open Workspace

variable {α β : Type} {own : Option FrameId} {n m : Nesting} {ws : Workspace}

theorem forOwner {outcome : Outcome Workspace α} (h : outcome.Nests none n ws)
    (own : Option FrameId) : outcome.Nests own n ws := by
  cases outcome with
  | done x ws' => exact ⟨h.1.forOwner own, h.2⟩
  | failed error ws' =>
      obtain ⟨m, hpassed, hline⟩ := h
      exact ⟨m, hpassed.forOwner own, hline⟩
  | fault fault => trivial

theorem of_tends {action : Action Workspace α} (h : Tends Assembly.KeepsLine own action)
    (hfit : ws.scopes.Fit own) : (action ws).Nests own .flat ws := by
  have hends := h ws
  cases hdone : action ws with
  | done x ws' =>
      rw [hdone] at hends
      exact ⟨hends.2 hfit, hends.1⟩
  | failed error ws' =>
      rw [hdone] at hends
      exact ⟨.flat, hends.2.2 hfit, hends.2.1⟩
  | fault fault => trivial

/-- What comes before an action adds its scopes. -/
theorem after {outcome : Outcome Workspace α} {ws₁ : Workspace} (h : outcome.Nests own m ws₁)
    (hpassed : ws.scopes.Passed own n ws₁.scopes) (hline : ws₁.code.line = ws.code.line) :
    outcome.Nests own (n ++ m) ws := by
  cases outcome with
  | done x ws₂ => exact ⟨hpassed.trans h.1, h.2.trans hline⟩
  | failed error ws₂ =>
      obtain ⟨k, hpassed', hline'⟩ := h
      exact ⟨n ++ k, hpassed.trans hpassed', hline'.trans hline⟩
  | fault fault => trivial

theorem bind {first : Action Workspace α} {next : α → Action Workspace β}
    (hfirst : (first ws).Nests own n ws) (hfit : ws.scopes.Fit own)
    (hnext : ∀ x ws', ws'.scopes.Fit own → (next x ws').Nests own m ws') :
    ((first >>= next) ws).Nests own (n ++ m) ws := by
  rw [Action.bind_apply]
  cases hdone : first ws with
  | done x ws₁ =>
      rw [hdone] at hfirst
      obtain ⟨hpassed, hline⟩ := hfirst
      exact (hnext x ws₁ (hpassed.fit hfit)).after hpassed hline
  | failed error ws₁ =>
      rw [hdone] at hfirst
      exact hfirst
  | fault fault => trivial

/-- A scope is closed again however the action inside it ends. -/
theorem within {state : FrameState} {body : FrameId → Action Workspace α}
    (hbody : ∀ id ws', ws'.scopes.Fit (some id) → (body id ws').Nests (some id) n ws')
    (hfit : ws.scopes.Fit none) :
    (within state body ws).Nests none (.scope state.scope n .flat) ws := by
  have hinside := hbody ⟨ws.scopes.nextSerial, state.scope⟩ (ws.entered state)
    (entered_fit hfit state)
  rw [within_eq]
  cases hdone : body ⟨ws.scopes.nextSerial, state.scope⟩ (ws.entered state) with
  | done x inside =>
      rw [hdone] at hinside
      obtain ⟨hpassed, hline⟩ := hinside
      obtain ⟨frame, outer, hframes, hserial, hleft⟩ := left_passed hpassed
      have hpop := pop_innermost ⟨ws.scopes.nextSerial, state.scope⟩ hframes hserial
      simp only [Action.bind_apply, hpop]
      exact ⟨hleft, hline⟩
  | failed error inside =>
      rw [hdone] at hinside
      obtain ⟨m, hpassed, hline⟩ := hinside
      obtain ⟨frame, outer, hframes, hserial, hleft⟩ := left_passed hpassed
      have hpop := Action.attempt_ok.mpr
        (pop_innermost ⟨ws.scopes.nextSerial, state.scope⟩ hframes hserial)
      simp only [Action.bind_apply, hpop]
      exact ⟨_, hleft, hline⟩
  | fault fault => trivial

end Outcome.Nests

/-- **An orderly action has the scopes of its plan,** if its parts are lowered with theirs. -/
theorem Orderly.nests {α : Type} {own : Option FrameId} {plan : Plan}
    {act : Lower → Action Workspace α} {lower : Lower}
    (h : Orderly Assembly.KeepsLine own plan act) (hl : ∀ node ∈ plan.nodes, lower.Nests node)
    {ws : Workspace} (hfit : ws.scopes.Fit own) :
    (act lower ws).Nests own (plan.nesting Node.nesting) ws := by
  induction h generalizing ws with
  | own h => exact .of_tends h hfit
  | @part own node =>
      have hnode := hl node List.mem_cons_self ws hfit.none
      rw [Plan.nesting, Plan.nesting, Nesting.append_flat]
      exact hnode.forOwner own
  | bind _ _ ihfirst ihnext =>
      simp only [Plan.nodes_append, List.mem_append] at hl
      rw [Plan.nesting_append]
      exact (ihfirst (fun node hnode => hl node (.inl hnode)) hfit).bind hfit fun x ws' hfit' =>
        ihnext x (fun node hnode => hl node (.inr hnode)) hfit'
  | fail h => exact ⟨.flat, .refl .., rfl⟩
  | @within own _ _ state _ _ ih =>
      simp only [Plan.nodes, List.append_nil] at hl
      exact (Outcome.Nests.within (fun id ws' hfit' => ih id hl hfit') hfit.none).forOwner own

/-- **With the standard rules every node is lowered with the scopes it has.** -/
theorem lowerWithin_nests (settings : Settings) (room : Nat) (node : Node) :
    (lowerWithin .standard settings room).Nests node := by
  induction room generalizing node with
  | zero => exact fun ws _ => ⟨.flat, .refl .., rfl⟩
  | succ room ih =>
      intro ws hfit
      show (Contract.supervise settings node
        (Rule.standard node.construct (lowerWithin .standard settings room) node) ws).Nests ..
      obtain ⟨line, height, pushes, start, heq⟩ := Contract.supervise_eq settings node
        (Rule.standard node.construct (lowerWithin .standard settings room) node) ws
      have horderly : Orderly Assembly.KeepsLine none node.plan
          fun lower => Rule.standard node.construct lower node := Rule.standard_orderly node
      have hrule : (Rule.standard node.construct (lowerWithin .standard settings room) node
          (ws.atLine line)).Nests none (node.plan.nesting Node.nesting) (ws.atLine line) :=
        horderly.nests (fun child _ => ih child) hfit
      rw [← Node.nesting_eq] at hrule
      rw [heq]
      cases hdone : Rule.standard node.construct (lowerWithin .standard settings room) node
          (ws.atLine line) with
      | done u inside =>
          rw [hdone] at hrule
          obtain ⟨hpassed, -⟩ := hrule
          have hcheck : (Contract.check settings node height pushes start
              (inside.atLine ws.code.line)).Nests none .flat (inside.atLine ws.code.line) :=
            .of_tends (Contract.check_tends settings node height pushes start).keepsLine
              (hpassed.fit hfit)
          rw [← Nesting.append_flat node.nesting]
          exact hcheck.after hpassed rfl
      | failed error inside =>
          rw [hdone] at hrule
          obtain ⟨m, hpassed, -⟩ := hrule
          exact ⟨m, hpassed, rfl⟩
      | fault fault => trivial

/-! ### Stacks that can come about -/

namespace ScopeStack

/-- The stacks that can come about: frames are opened and closed, and what the open ones remember
is changed. -/
inductive Reached : ScopeStack → Prop
  | start (traced : Bool) : Reached (ScopeStack.start traced)
  | push {stack after : ScopeStack} {state : FrameState} {id : FrameId} (h : Reached stack)
      (hpush : ScopeStack.push state stack = .done id after) : Reached after
  | pop {stack after : ScopeStack} {id : FrameId} {frame : Frame} (h : Reached stack)
      (hpop : ScopeStack.pop id stack = .done frame after) : Reached after
  | change {stack : ScopeStack} {frames : List Frame} (h : Reached stack)
      (hsame : frames.map Frame.serial = stack.frames.map Frame.serial) :
      Reached { stack with frames }

/-- The numbers of the open frames have been given out. -/
theorem Reached.fit {stack : ScopeStack} (h : Reached stack) : Fit none stack := by
  refine ⟨?_, nofun⟩
  induction h with
  | start traced => exact nofun
  | push _ hpush ih =>
      simp only [ScopeStack.push, Outcome.done.injEq] at hpush
      obtain ⟨-, rfl⟩ := hpush
      intro frame hframe
      rcases List.mem_cons.mp hframe with rfl | hold
      · exact Nat.lt_succ_self _
      · exact Nat.lt_succ_of_lt (ih frame hold)
  | @pop stack _ _ _ _ hpop ih =>
      unfold ScopeStack.pop at hpop
      split at hpop
      · cases hpop
      · rename_i top outer hframes
        split at hpop
        · simp only [Outcome.done.injEq] at hpop
          obtain ⟨-, rfl⟩ := hpop
          intro frame hframe
          exact ih frame (by rw [hframes]; exact List.mem_cons_of_mem _ hframe)
        · cases hpop
  | @change stack frames _ hsame ih =>
      intro frame hframe
      have hserial : frame.serial ∈ stack.frames.map Frame.serial := by
        rw [← hsame]
        exact List.mem_map_of_mem hframe
      obtain ⟨old, hold, heq⟩ := List.mem_map.mp hserial
      rw [← heq]
      exact ih old hold

end ScopeStack

/-! ### The history of a query -/

namespace Compiler

variable {compiler : Compiler} {root : Node}

/-- Lowering a query opens the scope of the main function, with those of the query inside. -/
theorem lowerMain_passed {traced : Bool} {u : Unit} {ws : Workspace}
    (hregistry : compiler.registry = .standard)
    (h : compiler.lowerMain root (compiler.start traced) = .done u ws) :
    (ScopeStack.start traced).Passed none (.scope .function root.nesting .flat) ws.scopes := by
  obtain ⟨act, hact, horderly⟩ := lowerMain_orderly compiler root
  have hl : ∀ node, (lower compiler.registry compiler.settings).Nests node := by
    rw [hregistry]
    exact lowerWithin_nests compiler.settings compiler.settings.maxDepth
  have hfit : (compiler.start traced).scopes.Fit none := ⟨nofun, nofun⟩
  have hnests := horderly.keepsLine.nests (fun node _ => hl node) hfit
  rw [← hact, h] at hnests
  have hnesting : (Plan.scope .function (.parts [root]) .nothing).nesting Node.nesting =
      .scope .function root.nesting .flat := by
    simp [Plan.nesting, Plan.parts]
  rw [hnesting] at hnests
  exact hnests.1

/-- **The history of the scopes is a function of the tree.**  It holds the events of the main
function with the nesting of the query inside, numbered in the order of opening; there is one scope
for the main function and one for each node with a scope, all of them closed; and the greatest
height on record is the one that was kept. -/
theorem compileTraced_history {program : Program} {scopes : ScopeStack}
    (hregistry : compiler.registry = .standard)
    (h : compiler.compileTraced root = .ok (program, scopes)) :
    scopes.history = (Nesting.scope .function root.nesting .flat).events 0 0 ∧
      scopes.history.filterMap ScopeEvent.opened? = List.range scopes.counts.pushes ∧
      scopes.counts.pushes =
        1 + (root.preorder 1).countP (fun entry => entry.1.construct.scope?.isSome) ∧
      scopes.counts.pops = scopes.counts.pushes ∧
      (scopes.history.filterMap ScopeEvent.height?).max? = some scopes.counts.maxHeight := by
  unfold compileTraced run at h
  split at h
  · cases h
  · split at h
    · rename_i ws hlower
      obtain ⟨rfl, rfl⟩ := Prod.mk.inj (Except.ok.inj h)
      have hpassed := lowerMain_passed hregistry hlower
      have hhistory : ws.scopes.history =
          (Nesting.scope .function root.nesting .flat).events 0 0 := by
        unfold ScopeStack.history
        rw [hpassed.events]
        show (#[] ++ List.toArray _).toList = _
        rw [Array.toList_append]
        exact List.nil_append _
      have hpushes : ws.scopes.counts.pushes =
          (Nesting.scope .function root.nesting .flat).count :=
        hpassed.pushes.trans (Nat.zero_add _)
      refine ⟨hhistory, ?_, ?_, ?_, ?_⟩
      · rw [hhistory, Nesting.opened_events, hpushes, List.range_eq_range']
      · rw [hpushes, ← Node.count_nesting, Nesting.count, Nesting.count]
        rfl
      · rw [hpassed.pops, hpassed.pushes]
        rfl
      · rw [hhistory, hpassed.maxHeight]
        exact List.max?_cons'
    · cases h
    · cases h

/-- A loop over a list that holds a lambda, with a conditional inside. -/
def nestedScopes : Node :=
  .forEach ⟨"x", {}⟩ (.list [.lambda [] (.param "p" {}) {}] {})
    (.ifChain [(.param "q" {}, .block [] {})] none {}) {}

/-- The lambda is opened and closed before the loop is opened. -/
theorem nestedScopes_history :
    ∃ program scopes, compileTraced {} nestedScopes = .ok (program, scopes) ∧
      scopes.history = [.entered 0 .function 1, .entered 1 .function 2, .left 1 .function,
        .entered 2 .loop 2, .entered 3 .branch 3, .entered 4 .block 4, .left 4 .block,
        .left 3 .branch, .left 2 .loop, .left 0 .function] ∧
      scopes.counts.pushes = 5 ∧ scopes.counts.maxHeight = 4 := by
  have hcompiles : ((compileTraced {} nestedScopes).toOption.map fun result =>
      (result.2.counts.pushes, result.2.counts.maxHeight)) = some (5, 4) := by decide +kernel
  cases hcompile : compileTraced {} nestedScopes with
  | error failure =>
      rw [hcompile] at hcompiles
      cases hcompiles
  | ok result =>
      obtain ⟨program, scopes⟩ := result
      rw [hcompile] at hcompiles
      obtain ⟨hpushes, hheight⟩ := Prod.mk.inj (Option.some.inj hcompiles)
      obtain ⟨hhistory, -⟩ := compileTraced_history rfl hcompile
      refine ⟨program, scopes, rfl, hhistory.trans ?_, hpushes, hheight⟩
      decide +kernel

end Compiler

end QueryCompiler
