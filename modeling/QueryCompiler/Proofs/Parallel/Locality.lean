/-
Only the rules that a query needs matter to it.

A rule has no way to ask for another rule: all it can do is to have a part of its node
lowered.  So what becomes of a tree depends on the registry through the constructs that
stand in the tree, and through nothing else.

That also holds of registries in which the standard rules stand in the wrong places.  What
a rule does with a node of another construct is to fail, and it fails alike whatever else
is in the registry.
-/
import QueryCompiler.Proofs.Assignment.Visible
import QueryCompiler.Proofs.Order.Preflight
import QueryCompiler.Proofs.Parallel.Parts

namespace QueryCompiler

open Workspace

namespace Registry

variable {registry registry' : Registry}

/-- The rules of the registry are standard rules, though not always of the construct they are
registered for. -/
def Borrowed (registry : Registry) : Prop :=
  ∀ construct rule, registry.rule? construct = some rule → ∃ other, rule = Rule.standard other

/-- The registries have the same rules for the constructs of a tree, or both have none. -/
def AgreeOn (registry registry' : Registry) (root : Node) : Prop :=
  ∀ node, root.Occurs node → registry'.rule? node.construct = registry.rule? node.construct

theorem AgreeOn.part {root node : Node} (h : registry.AgreeOn registry' root)
    (hnode : node ∈ root.children) : registry.AgreeOn registry' node :=
  fun part hpart => h part ((Node.Occurs.part .root hnode).trans hpart)

theorem AgreeOn.ruleFor {root : Node} (h : registry.AgreeOn registry' root) :
    registry'.ruleFor root.construct root.span = registry.ruleFor root.construct root.span := by
  rw [Registry.ruleFor, Registry.ruleFor, h root .root]

theorem Borrowed.ruleFor (h : registry.Borrowed) {construct : Construct} {span : Span} {rule : Rule}
    (hrule : registry.ruleFor construct span = .ok rule) : ∃ other, rule = Rule.standard other := by
  refine h construct rule ?_
  unfold Registry.ruleFor at hrule
  split at hrule
  · rename_i hrule'
    rw [hrule', Except.ok.inj hrule]
  · cases hrule

/-- A rule may be withheld from a query that does not need it. -/
theorem AgreeOn.withhold {root : Node} {construct : Construct}
    (h : (root.walk.all fun entry => entry.1.construct ≠ construct) = true) :
    registry.AgreeOn (registry.withhold construct) root := by
  intro node hnode
  obtain ⟨depth, hwalk⟩ := hnode.mem_walk
  have hother : node.construct ≠ construct :=
    of_decide_eq_true (Array.all_eq_true'.mp h (node, depth) hwalk)
  exact if_neg hother

end Registry

/-- **What a node is lowered to only depends on the rules for what occurs in it.** -/
theorem lowerWithin_local {registry registry' : Registry} (hborrowed : registry.Borrowed)
    (settings : Settings) (room : Nat) {node : Node} (hsame : registry.AgreeOn registry' node) :
    lowerWithin registry' settings room node = lowerWithin registry settings room node := by
  induction room generalizing node with
  | zero => simp only [lowerWithin, hsame.ruleFor]
  | succ room ih =>
      simp only [lowerWithin, hsame.ruleFor]
      cases hrule : registry.ruleFor node.construct node.span with
      | error error => rfl
      | ok rule =>
          obtain ⟨other, rfl⟩ := hborrowed.ruleFor hrule
          show Contract.supervise settings node _ = Contract.supervise settings node _
          rw [Rule.standard_local other fun part hpart => ih (hsame.part hpart)]

namespace Compiler

/-- A walk over a tree meets no construct that does not occur in it. -/
theorem inspect_local {registry registry' : Registry} (settings : Settings) {node : Node}
    (depth : Nat) (hsame : registry.AgreeOn registry' node) :
    inspect ⟨registry', settings⟩ node depth = inspect ⟨registry, settings⟩ node depth := by
  induction node, depth using Node.preorder.induct with
  | case1 node depth ih =>
      have hobjection : objection? ⟨registry', settings⟩ node depth =
          objection? ⟨registry, settings⟩ node depth := by
        rw [objection?, objection?, hsame.ruleFor]
      have hparts : ∀ child ∈ node.children, inspect ⟨registry', settings⟩ child (depth + 1) =
          inspect ⟨registry, settings⟩ child (depth + 1) :=
        fun child hchild => ih ⟨child, hchild⟩ (hsame.part hchild)
      rw [inspect_eq, inspect_eq, hobjection, ← List.head?_filterMap, ← List.head?_filterMap,
        List.filterMap_congr hparts]

theorem run_local {registry registry' : Registry} (hborrowed : registry.Borrowed)
    (settings : Settings) (traced : Bool) {root : Node} (hsame : registry.AgreeOn registry' root) :
    run ⟨registry', settings⟩ traced root = run ⟨registry, settings⟩ traced root := by
  have hwalk : firstObjection? ⟨registry', settings⟩ root =
      firstObjection? ⟨registry, settings⟩ root := by
    rw [firstObjection?_eq, firstObjection?_eq, inspect_local settings 1 hsame]
  have hbody : (lower registry' settings).body root = (lower registry settings).body root :=
    Lower.body_local (lowerWithin_local hborrowed settings settings.maxDepth hsame)
  have hmain : ∀ ws, lowerMain ⟨registry', settings⟩ root ws =
      lowerMain ⟨registry, settings⟩ root ws :=
    fun ws => lowerMain_congr (congrFun hbody _)
  rw [run, run, hwalk, hmain]
  rfl

/-- **What becomes of a query depends on no rule that it does not need.**  If the standard rules
are registered for any constructs, and another registry has the same ones for the constructs of a
query, then the query compiles to the same program with both, or fails with the same error, or runs
into the same fault. -/
theorem compile_local {registry registry' : Registry} (hborrowed : registry.Borrowed)
    {root : Node} (hsame : registry.AgreeOn registry' root) (settings : Settings) :
    compile ⟨registry', settings⟩ root = compile ⟨registry, settings⟩ root ∧
      compileTraced ⟨registry', settings⟩ root = compileTraced ⟨registry, settings⟩ root := by
  constructor
  · rw [compile, compile, run_local hborrowed settings false hsame]
  · exact run_local hborrowed settings true hsame

/-- Literals and parameters are lowered by the rules of each other. -/
def mixedUp : Registry where
  rule? construct := some (Rule.standard (match construct with
    | .literal => .param
    | .param => .literal
    | other => other))

/-- A query with a lambda before its first literal. -/
def greeter : Node :=
  .block [.varDecl ⟨"greet", ⟨1, 5, 5⟩⟩ (.lambda [⟨"name", ⟨1, 14, 4⟩⟩] (.ident "name" ⟨1, 22, 4⟩)
      ⟨1, 13, 14⟩) ⟨1, 1, 26⟩,
    .run (.call (.ident "greet" ⟨2, 1, 5⟩) [.literal (.string "you") ⟨2, 7, 5⟩] ⟨2, 1, 12⟩)
      ⟨2, 1, 12⟩] ⟨1, 1, 40⟩

theorem greeter_local :
    compile ⟨mixedUp, {}⟩ greeter =
        .error (.error (.internal (.wrongConstruct .param .literal ⟨2, 7, 5⟩))) ∧
      compile ⟨mixedUp.withhold .tryCatch, {}⟩ greeter =
        .error (.error (.internal (.wrongConstruct .param .literal ⟨2, 7, 5⟩))) := by
  have hborrowed : mixedUp.Borrowed := by
    intro construct rule hrule
    exact ⟨_, (Option.some.inj hrule).symm⟩
  have hsame : mixedUp.AgreeOn (mixedUp.withhold .tryCatch) greeter := .withhold (by decide +kernel)
  have hcompile : compile ⟨mixedUp, {}⟩ greeter =
      .error (.error (.internal (.wrongConstruct .param .literal ⟨2, 7, 5⟩))) := by decide +kernel
  exact ⟨hcompile, ((compile_local hborrowed hsame {}).1).trans hcompile⟩

end Compiler

end QueryCompiler
