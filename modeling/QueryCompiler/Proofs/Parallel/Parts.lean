/-
What a rule can tell of its parts.

A rule has parts of its node lowered, and nothing else.  It cannot tell two lowerings
apart that do the same with these parts, wherever it has them lowered; and where that is
can be said a little more closely, since all a rule does in between keeps some things as
they are, the source line among them.  A rule that is given a node of another construct
asks for no part at all and fails.

The same goes for supervision.  It looks at the construct and the place of a node, carries
out its lowering whatever that is, and puts the line back.
-/
import QueryCompiler.Proofs.Encoding.Sessions
import QueryCompiler.Proofs.Parallel.Settings

namespace QueryCompiler

open Workspace

/-- **An orderly action cannot tell two lowerings apart that agree on its parts.**  They have to
agree only where the code has a property that holds at the start, that steps of the action's own
keep, and that parts keep which get done. -/
theorem Orderly.congr {α : Type} {K : Assembly → Assembly → Prop} {own : Option FrameId}
    {plan : Plan} {act : Lower → Action Workspace α} (h : Orderly K own plan act)
    {I : Assembly → Prop} (hK : ∀ code code', K code code' → I code → I code')
    {lower lower' : Lower}
    (hsame : ∀ node ∈ plan.nodes, ∀ ws, I ws.code → lower' node ws = lower node ws)
    (hkeeps : ∀ node ∈ plan.nodes, ∀ ws u ws', I ws.code → lower node ws = .done u ws' →
      I ws'.code) {ws : Workspace} (hI : I ws.code) :
    act lower' ws = act lower ws ∧ ∀ x ws', act lower ws = .done x ws' → I ws'.code := by
  induction h generalizing ws with
  | own h =>
      refine ⟨rfl, fun x ws' hdone => ?_⟩
      have hends := h ws
      dsimp only at hdone
      rw [hdone] at hends
      exact hK _ _ hends.1 hI
  | part node =>
      have hnode : node ∈ (Plan.part node .nothing).nodes := List.mem_cons_self
      exact ⟨hsame node hnode ws hI, fun u ws' => hkeeps node hnode ws u ws' hI⟩
  | bind _ _ ihfirst ihnext =>
      simp only [Plan.nodes_append, List.mem_append] at hsame hkeeps
      have hfirst := ihfirst (fun node hnode => hsame node (.inl hnode))
        (fun node hnode => hkeeps node (.inl hnode)) hI
      have hnext := fun x (ws : Workspace) (hws : I ws.code) => ihnext x
        (fun node hnode => hsame node (.inr hnode)) (fun node hnode => hkeeps node (.inr hnode)) hws
      constructor
      · simp only [Action.bind_apply, hfirst.1]
        split
        · rename_i x ws₁ hdone
          exact (hnext x ws₁ (hfirst.2 x ws₁ hdone)).1
        · rfl
        · rfl
      · intro y ws' hdone
        obtain ⟨x, ws₁, hx, hy⟩ := Action.bind_done.mp hdone
        exact (hnext x ws₁ (hfirst.2 x ws₁ hx)).2 y ws' hy
  | fail => exact ⟨rfl, fun x ws' hdone => absurd hdone Action.not_fail_done⟩
  | within state _ ih =>
      simp only [Plan.nodes, List.append_nil] at hsame hkeeps
      have hentered : I (ws.entered state).code := hI
      have hbody := fun id => ih id hsame hkeeps hentered
      constructor
      · exact within_congr fun id => (hbody id).1
      · intro x ws' hdone
        obtain ⟨inside, frame, outer, hinside, -, -, -, rfl⟩ := within_done hdone
        exact (hbody _).2 x.1 inside hinside

namespace Rule

/-- A rule that is given a node of another construct does nothing but fail. -/
theorem standard_mismatch {construct : Construct} {node : Node} (h : node.construct ≠ construct)
    (lower : Lower) : standard construct lower node = mismatch construct node := by
  cases construct <;> cases node <;> first | rfl | exact absurd rfl h

/-- **A standard rule only asks for the parts of its node,** also if the node is not one of its own
construct. -/
theorem standard_local (construct : Construct) {node : Node} {lower lower' : Lower}
    (hsame : ∀ part ∈ node.children, lower' part = lower part) :
    standard construct lower' node = standard construct lower node := by
  by_cases hconstruct : node.construct = construct
  · subst hconstruct
    have horderly : Orderly Assembly.KeepsLine none node.plan fun lower =>
        standard node.construct lower node := standard_orderly node
    rw [← Node.nodes_plan] at hsame
    funext ws
    exact (horderly.congr (I := fun _ => True) (fun _ _ _ _ => trivial)
      (fun part hpart ws _ => congrFun (hsame part hpart) ws)
      (fun _ _ _ _ _ _ _ => trivial) trivial).1
  · rw [standard_mismatch hconstruct, standard_mismatch hconstruct]

end Rule

/-- The body of a function is the only part that its lowering asks for. -/
theorem Lower.body_local {lower lower' : Lower} {node : Node} (hsame : lower' node = lower node) :
    lower'.body node = lower.body node := by
  unfold Lower.body Lower.value
  rw [hsame]

/-! ### Supervision -/

theorem Outcome.Ends.leaves {σ α : Type} {post : σ → Prop} {outcome : Outcome σ α}
    (h : outcome.Ends post) : outcome.Leaves post := by
  cases outcome with
  | done x s => exact h
  | failed error s => exact h.2
  | fault fault => trivial

namespace Contract

/-- Of a node only the construct and the place matter to its supervision. -/
theorem supervise_of_same {settings : Settings} {node node' : Node}
    (hconstruct : node'.construct = node.construct) (hspan : node'.span = node.span)
    (lowering : Action Workspace Unit) :
    supervise settings node' lowering = supervise settings node lowering := by
  unfold supervise checkBalance checkDepth
  rw [hconstruct, hspan]

/-- Without lines a node is lowered at the line at which it was reached. -/
theorem startLine_of_lineless {settings : Settings} (hlines : settings.lineInfo = false)
    (node : Node) (line : Nat) : startLine settings node line = line := by
  rw [startLine, hlines]
  rfl

/-- The line is put back, however a supervised lowering ends. -/
theorem supervise_line (settings : Settings) (node : Node) (lowering : Action Workspace Unit)
    (ws : Workspace) :
    (supervise settings node lowering ws).Leaves fun ws' => ws'.code.line = ws.code.line := by
  rw [supervise_apply]
  cases lowering (ws.atLine (startLine settings node ws.code.line)) with
  | done u inside =>
      have hcheck : Tends Assembly.Continues none (check settings node ws.scopes.height
        ws.scopes.counts.pushes ws.code.depth) := check_tends settings node _ _ _
      exact ((hcheck _).mono fun _ h => h.1.line).leaves
  | failed error inside => rfl
  | fault fault => trivial

end Contract

end QueryCompiler
