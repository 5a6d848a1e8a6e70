/-
Parentheses leave no trace in the code.

The rule for parentheses has the inside lowered and does nothing else.  But it is
supervised too: the line of the parentheses is set before and put back after, and what
the inside has left is checked against the contract of parentheses.  Without lines the
first comes to nothing, and so does the second always, because the contract of the inside
asks for at least as much and has been checked just before.

Parentheses take a level of their own, so the two trees need not be equally deep.  How
much room there is does not matter to a tree that fits into it, and a tree fits at least as
well without its parentheses.
-/
import QueryCompiler.Proofs.Order.Preflight
import QueryCompiler.Proofs.Parallel.Parts
import QueryCompiler.Proofs.Parallel.Ungrouping

namespace QueryCompiler

open Workspace

/-! ### Depth -/

namespace Node

/-- The tree has no more than so many levels. -/
def FitsIn : Nat → Node → Prop
  | 0, _ => False
  | room + 1, node => ∀ part ∈ node.children, part.FitsIn room

theorem fitsIn_iff {room : Nat} {node : Node} (depth : Nat) :
    node.FitsIn room ↔ ∀ entry ∈ node.preorder depth, entry.2 < depth + room := by
  induction room generalizing node depth with
  | zero =>
      rw [preorder_eq]
      simp [FitsIn]
  | succ room ih =>
      have hparts : node.FitsIn (room + 1) ↔ ∀ part ∈ node.children,
          ∀ entry ∈ part.preorder (depth + 1), entry.2 < depth + 1 + room :=
        forall₂_congr fun part _ => ih (depth + 1)
      rw [hparts, preorder_eq]
      simp only [List.forall_mem_cons, List.mem_flatMap, forall_exists_index, and_imp]
      constructor
      · intro h
        refine ⟨by omega, fun entry part hpart hentry => ?_⟩
        have hlt := h part hpart entry hentry
        omega
      · intro h part hpart entry hentry
        have hlt := h.2 entry part hpart hentry
        omega

theorem FitsIn.succ {room : Nat} {node : Node} (h : node.FitsIn room) : node.FitsIn (room + 1) := by
  induction room generalizing node with
  | zero => exact h.elim
  | succ room ih => exact fun part hpart => ih (h part hpart)

/-- A tree is not deeper without its parentheses. -/
theorem FitsIn.ungrouped {room : Nat} {node : Node} (h : node.FitsIn room) :
    node.ungrouped.FitsIn room := by
  induction room generalizing node with
  | zero => exact h.elim
  | succ room ih =>
      cases hsuperfluous : node.isSuperfluous with
      | false =>
          intro part hpart
          rw [children_ungrouped hsuperfluous] at hpart
          obtain ⟨child, hchild, rfl⟩ := List.mem_map.mp hpart
          exact ih (h child hchild)
      | true =>
          cases node with
          | group inner span =>
              rw [ungrouped_superfluous hsuperfluous]
              exact (ih (h inner List.mem_cons_self)).succ
          | _ => cases hsuperfluous

end Node

/-! ### Supervision -/

namespace Contract

variable {settings : Settings} {inner outer : Node}

theorem checkScopes_again {construct construct' : Construct} (hscope : construct'.scope? = none)
    {height pushes : Nat} {ws ws' : Workspace} {u : Unit}
    (h : checkScopes construct height pushes ws = .done u ws') :
    checkScopes construct' height pushes ws = .done () ws := by
  have hheight : ¬ ws.scopes.height ≠ height := by
    intro hne
    simp only [checkScopes, Action.bind_done, onScopes_done, Action.read_done] at h
    obtain ⟨_, _, ⟨_, ⟨rfl, rfl⟩, rfl⟩, _, _, ⟨_, ⟨rfl, rfl⟩, rfl⟩, h⟩ := h
    rw [if_pos hne] at h
    simp only [Action.bind_done, Action.not_raise_done, false_and, exists_false] at h
  unfold checkScopes
  rw [hscope]
  show (if ws.scopes.height ≠ height then _ else _ : Action Workspace Unit) ws = _
  rw [if_neg hheight]
  rfl

theorem checkDepth_again {expected : Nat} {ws ws' : Workspace} {u : Unit}
    (h : checkDepth settings inner expected ws = .done u ws') :
    checkDepth settings outer expected ws = .done () ws := by
  unfold checkDepth at h ⊢
  rw [depth_bind] at h ⊢
  split at h
  · exact absurd h Action.not_fail_done
  · rename_i hdepth
    rw [if_neg hdepth]
    rfl

/-- Where the contract of a node with a value has been checked, there is nothing left to check for
another one that opens no scope. -/
theorem check_again (hinner : inner.construct.balance = .value)
    (houter : outer.construct.balance = .value) (hscope : outer.construct.scope? = none)
    {height pushes start : Nat} {ws ws' : Workspace} {u : Unit}
    (h : check settings inner height pushes start ws = .done u ws') :
    ws' = ws ∧ check settings outer height pushes start ws = .done () ws := by
  obtain ⟨_, ws₁, hscopes, hbalance⟩ := Action.bind_done.mp h
  obtain rfl := Layout.checkScopes_done hscopes
  simp only [checkBalance, hinner, Action.bind_done, Action.ofWord_done] at hbalance
  obtain ⟨expected, _, ⟨hword, rfl⟩, hdepth⟩ := hbalance
  refine ⟨(Layout.checkDepth_done hdepth).symm, ?_⟩
  refine Action.bind_done.mpr ⟨(), ws, checkScopes_again hscope hscopes, ?_⟩
  simp only [checkBalance, houter, Action.bind_done, Action.ofWord_done]
  exact ⟨expected, ws, ⟨hword, rfl⟩, checkDepth_again hdepth⟩

theorem check_of_supervise {node : Node} {lowering : Action Workspace Unit} {ws ws' : Workspace}
    {u : Unit} (h : supervise settings node lowering ws = .done u ws') :
    ∃ back, check settings node ws.scopes.height ws.scopes.counts.pushes ws.code.depth back =
      .done u ws' := by
  rw [supervise_apply] at h
  split at h
  · exact ⟨_, h⟩
  · cases h
  · cases h

/-- **Without lines the supervision of parentheses adds nothing to that of what is inside.** -/
theorem supervise_supervise (hlines : settings.lineInfo = false)
    (hinner : inner.construct.balance = .value) (houter : outer.construct.balance = .value)
    (hscope : outer.construct.scope? = none) (lowering : Action Workspace Unit) :
    supervise settings outer (supervise settings inner lowering) =
      supervise settings inner lowering := by
  funext ws
  have hline := supervise_line settings inner lowering ws
  rw [supervise_apply settings outer, startLine_of_lineless hlines]
  cases hrun : supervise settings inner lowering ws with
  | done u inside =>
      obtain ⟨back, hcheck⟩ := check_of_supervise hrun
      obtain ⟨rfl, hagain⟩ := check_again hinner houter hscope hcheck
      rw [hrun] at hline
      rw [show supervise settings inner lowering (ws.atLine ws.code.line) =
        .done u inside from hrun, ← show inside.code.line = ws.code.line from hline]
      exact hagain
  | failed error inside =>
      rw [hrun] at hline
      rw [show supervise settings inner lowering (ws.atLine ws.code.line) =
        .failed error inside from hrun, ← show inside.code.line = ws.code.line from hline]
      rfl
  | fault fault =>
      rw [show supervise settings inner lowering (ws.atLine ws.code.line) =
        .fault fault from hrun]

end Contract

/-! ### Lowering -/

/-- **A tree without its parentheses is lowered to the same code,** if it is not too deep. -/
theorem lowerWithin_ungrouped {settings : Settings} (hlines : settings.lineInfo = false)
    {room room' : Nat} {node : Node} (hfits : node.FitsIn room)
    (hfits' : node.ungrouped.FitsIn room') :
    lowerWithin .standard settings room' node.ungrouped =
      lowerWithin .standard settings room node := by
  induction room generalizing room' node with
  | zero => exact hfits.elim
  | succ room ih =>
      cases room' with
      | zero => exact hfits'.elim
      | succ room' =>
          cases hsuperfluous : node.isSuperfluous with
          | false =>
              have hconstruct := Node.construct_ungrouped hsuperfluous
              have hparts : ∀ part ∈ node.children,
                  (lowerWithin .standard settings room').ungrouping part =
                    lowerWithin .standard settings room part := by
                intro part hpart
                refine ih (hfits part hpart) (hfits' _ ?_)
                rw [Node.children_ungrouped hsuperfluous]
                exact List.mem_map_of_mem hpart
              show Contract.supervise settings _ (Rule.standard _ _ _) =
                Contract.supervise settings _ (Rule.standard _ _ _)
              rw [Contract.supervise_of_same hconstruct (Node.span_ungrouped hsuperfluous),
                hconstruct, Rule.standard_ungrouped _ hsuperfluous,
                Rule.standard_local node.construct hparts]
          | true =>
              cases node with
              | group inner span =>
                  have hvalue : inner.construct.balance = .value := of_decide_eq_true hsuperfluous
                  have hinside : lowerWithin .standard settings (room + 1) (.group inner span) =
                      Contract.supervise settings (.group inner span)
                        (lowerWithin .standard settings room inner) := by
                    show Contract.supervise settings _ (Lower.value _ inner) = _
                    rw [Lower.value, hvalue]
                    rfl
                  rw [Node.ungrouped_superfluous hsuperfluous] at hfits' ⊢
                  rw [hinside, ← ih (hfits inner List.mem_cons_self) hfits']
                  exact (Contract.supervise_supervise hlines
                    (by rw [Node.balance_ungrouped, hvalue]) rfl rfl _).symm
              | _ => cases hsuperfluous

/-! ### Compiling -/

/-- Where everything stays at its place, a compilation is seen without its lines. -/
theorem View.ofPlaces_result (result : Except Failure (Program × ScopeStack)) :
    ((ofPlaces id).result result).map Prod.fst =
      (result.map Prod.fst).map Program.withoutLines := by
  rcases result with (error | fault) | ⟨program, scopes⟩
  · show Except.error (Failure.error (error.alter .keep)) = .error (.error error)
    rw [CompileError.alter_keep]
  · rfl
  · rfl

namespace Compiler

variable {settings : Settings} {root : Node}

/-- With the standard rules the only objection to a tree is its depth. -/
theorem firstObjection?_eq_none :
    firstObjection? ⟨.standard, settings⟩ root = none ↔
      ∀ entry ∈ root.preorder 1, entry.2 ≤ settings.maxDepth := by
  rw [firstObjection?_eq, inspect, List.findSome?_eq_none_iff]
  refine forall₂_congr fun entry _ => ?_
  rw [objection?_eq_none]
  exact and_iff_right rfl

theorem depth_le_of_compile {program : Program}
    (h : compile ⟨.standard, settings⟩ root = .ok program) :
    ∀ entry ∈ root.preorder 1, entry.2 ≤ settings.maxDepth := by
  rw [← firstObjection?_eq_none]
  unfold compile run at h
  split at h
  · cases h
  · assumption

theorem run_ungrouped (settings : Settings) (hlines : settings.lineInfo = false) (traced : Bool)
    (hdepth : ∀ entry ∈ root.preorder 1, entry.2 ≤ settings.maxDepth) :
    run ⟨.standard, settings⟩ traced root.ungrouped = run ⟨.standard, settings⟩ traced root := by
  have hfits : root.FitsIn settings.maxDepth := by
    refine (Node.fitsIn_iff 1).mpr fun entry hentry => ?_
    have hle := hdepth entry hentry
    omega
  have hdepth' : ∀ entry ∈ root.ungrouped.preorder 1, entry.2 ≤ settings.maxDepth := by
    intro entry hentry
    have hlt := (Node.fitsIn_iff 1).mp hfits.ungrouped entry hentry
    omega
  have hbody : (lower .standard settings).body root.ungrouped =
      (lower .standard settings).body root := by
    rw [Lower.body_ungrouped]
    exact Lower.body_local (lowerWithin_ungrouped hlines hfits hfits.ungrouped)
  have hmain : lowerMain ⟨.standard, settings⟩ root.ungrouped =
      lowerMain ⟨.standard, settings⟩ root := by
    unfold lowerMain
    simp only [hbody]
  rw [run, run, firstObjection?_eq_none.mpr hdepth,
    firstObjection?_eq_none.mpr hdepth', hmain]

/-- **Parentheses leave no trace.**  A query compiles to the same bytes without its superfluous
parentheses, and to the same program but for lines; and if it does not compile, though it is not
too deep, it fails for the same reason without them. -/
theorem compile_ungrouped (settings : Settings) (root : Node) :
    (∀ program, compile ⟨.standard, settings⟩ root = .ok program →
      ∃ program', compile ⟨.standard, settings⟩ root.ungrouped = .ok program' ∧
        program'.withoutLines = program.withoutLines ∧ program'.encode = program.encode) ∧
    ((∀ entry ∈ root.preorder 1, entry.2 ≤ settings.maxDepth) →
      ∀ failure, compile ⟨.standard, settings⟩ root = .error failure →
        compile ⟨.standard, settings⟩ root.ungrouped = .error failure) := by
  have hcode : (∀ entry ∈ root.preorder 1, entry.2 ≤ settings.maxDepth) →
      (compile ⟨.standard, settings⟩ root.ungrouped).map Program.withoutLines =
        (compile ⟨.standard, settings⟩ root).map Program.withoutLines := by
    intro hdepth
    rw [compile, compile, ← View.ofPlaces_result, ← View.ofPlaces_result, run_lineless,
      run_lineless, run_ungrouped { settings with lineInfo := false } rfl false hdepth]
  constructor
  · intro program hcompile
    have hsame := hcode (depth_le_of_compile hcompile)
    rw [hcompile] at hsame
    cases hcompile' : compile ⟨.standard, settings⟩ root.ungrouped with
    | ok program' =>
        rw [hcompile'] at hsame
        have hlines : program'.withoutLines = program.withoutLines := Except.ok.inj hsame
        refine ⟨program', rfl, hlines, ?_⟩
        rw [← program'.encode_withoutLines, hlines, program.encode_withoutLines]
    | error failure =>
        rw [hcompile'] at hsame
        cases hsame
  · intro hdepth failure hcompile
    have hsame := hcode hdepth
    rw [hcompile] at hsame
    cases hcompile' : compile ⟨.standard, settings⟩ root.ungrouped with
    | ok program =>
        rw [hcompile'] at hsame
        cases hsame
    | error failure' =>
        rw [hcompile'] at hsame
        exact congrArg _ (Except.error.inj hsame)

/-- A query with parentheses in the condition of a loop, around a lambda and around its body, twice
around a value that is dropped, and around the result. -/
def bracketed (body : Node) : Node :=
  .block [
    .whileLoop (.group (.group (.param "go" ⟨1, 9, 3⟩) ⟨1, 8, 5⟩) ⟨1, 7, 7⟩)
      (.run (.group (.group (.call (.group (.lambda [] (.group body ⟨2, 8, 3⟩) ⟨2, 4, 7⟩) ⟨2, 3, 9⟩)
        [] ⟨2, 3, 11⟩) ⟨2, 2, 13⟩) ⟨2, 1, 15⟩) ⟨2, 1, 15⟩) ⟨1, 1, 30⟩,
    .returnWith 0 (some (.group (.literal (.int 7) ⟨3, 9, 1⟩) ⟨3, 8, 3⟩)) ⟨3, 1, 10⟩] ⟨1, 1, 50⟩

theorem bracketed_compiles :
    (compile {} (bracketed (.param "x" ⟨2, 9, 1⟩))).toOption.map (·.functions.size) = some 2 := by
  decide +kernel

/-- With a body that makes sense both compile; with one that does not, both fail. -/
theorem bracketed_ungrouped :
    (∃ program program', compile {} (bracketed (.param "x" ⟨2, 9, 1⟩)) = .ok program ∧
      compile {} (bracketed (.param "x" ⟨2, 9, 1⟩)).ungrouped = .ok program' ∧
      program'.encode = program.encode) ∧
    compile {} (bracketed (.current ⟨2, 9, 1⟩)) =
      .error (.error (.notEnclosed .transform ⟨2, 9, 1⟩)) ∧
    compile {} (bracketed (.current ⟨2, 9, 1⟩)).ungrouped =
      .error (.error (.notEnclosed .transform ⟨2, 9, 1⟩)) := by
  have hfails : compile {} (bracketed (.current ⟨2, 9, 1⟩)) =
      .error (.error (.notEnclosed .transform ⟨2, 9, 1⟩)) := by decide +kernel
  have hdepth : ∀ entry ∈ (bracketed (.current ⟨2, 9, 1⟩)).preorder 1, entry.2 ≤ 256 := by
    decide +kernel
  obtain ⟨program, hcompile, -⟩ := compiles_of_view bracketed_compiles
  obtain ⟨program', hcompile', -, hbytes⟩ := (compile_ungrouped {} _).1 program hcompile
  exact ⟨⟨program, program', hcompile, hcompile', hbytes⟩, hfails,
    (compile_ungrouped {} _).2 hdepth _ hfails⟩

end Compiler

end QueryCompiler
