/-
Settings do not matter to the code.

Lines are written beside the code, and the history of scopes beside everything, so a
compilation without them is seen in any other.  The balance of a node is always right,
also where control does not get, so nothing comes of checking it.  And a limit on the
depth of a query decides whether it compiles, but not to what: what gets done when there
is little room gets done in the same way when there is more.

That checks make no difference goes by induction on the room that is left.  A rule lowers
parts only when the workspace is ready for them, and for those parts the lowerings with
and without checks are the same already.
-/
import QueryCompiler.Proofs.Assignment.Origin
import QueryCompiler.Proofs.Parallel.Positions

namespace QueryCompiler

open Workspace

/-! ### Checks -/

namespace Contract

variable {settings : Settings} {node : Node} {height pushes start : Nat} {ws : Workspace}

/-- Where the balance is right, nothing comes of checking it. -/
theorem check_of_balance (verify : Bool)
    (h : node.construct.balance ≠ .diverges →
      ws.code.depth = start + node.construct.balance.gain) :
    check { settings with verifyStack := verify } node height pushes start ws =
      check settings node height pushes start ws := by
  have hbalance : checkBalance { settings with verifyStack := verify } node start ws =
      checkBalance settings node start ws := by
    unfold checkBalance
    cases hkind : node.construct.balance with
    | diverges => rfl
    | effect =>
        rw [hkind] at h
        have hdepth : ws.code.depth = start := h nofun
        dsimp only
        rw [Progress.checkDepth_of_eq hdepth, Progress.checkDepth_of_eq hdepth]
    | value =>
        rw [hkind] at h
        have hdepth : ws.code.depth = start + 1 := h nofun
        simp only [Action.bind_apply]
        cases hword : addWord start 1 with
        | error fault => rfl
        | ok expected =>
            obtain ⟨rfl, -⟩ := addWord_ok hword
            show checkDepth _ node (start + 1) ws = checkDepth _ node (start + 1) ws
            rw [Progress.checkDepth_of_eq hdepth, Progress.checkDepth_of_eq hdepth]
  unfold check
  simp only [Action.bind_apply]
  cases hscopes : checkScopes node.construct height pushes ws with
  | failed error ws₁ => rfl
  | fault fault => rfl
  | done u ws₁ =>
      obtain rfl := Layout.checkScopes_done hscopes
      exact hbalance

/-- Nothing comes of checking the balance of a node that is lowered as it should be. -/
theorem supervise_of_balance (verify : Bool) {lowering lowering' : Action Workspace Unit}
    (hlowering : lowering' (ws.atLine (startLine settings node ws.code.line)) =
      lowering (ws.atLine (startLine settings node ws.code.line)))
    (h : ∀ inside,
      lowering (ws.atLine (startLine settings node ws.code.line)) =
        .done () inside →
      node.construct.balance ≠ .diverges →
        inside.code.depth = ws.code.depth + node.construct.balance.gain) :
    supervise { settings with verifyStack := verify } node lowering' ws =
      supervise settings node lowering ws := by
  have hline : startLine { settings with verifyStack := verify } node ws.code.line =
      startLine settings node ws.code.line := rfl
  rw [supervise_apply, supervise_apply, hline, hlowering]
  cases hdone : lowering (ws.atLine (startLine settings node ws.code.line)) with
  | done u inside => exact check_of_balance verify (h inside hdone)
  | failed error inside => rfl
  | fault fault => rfl

end Contract

theorem Lower.asserting_congr {lower lower' : Lower} {P : Node → Workspace → Prop}
    (h : ∀ node ws, P node ws → lower' node ws = lower node ws) :
    lower'.asserting P = lower.asserting P := by
  funext node ws
  unfold asserting
  split
  · exact h node ws ‹_›
  · rfl

namespace Progress

variable {root node : Node} {ends : Nat → Nat} {ws : Workspace} {lower lower' : Lower} {room : Nat}

/-- Rules do not tell lowerings apart that agree on parts that are due. -/
theorem standard_congr (hl : Lowers (.loose root) room lower)
    (hl' : Lowers (.loose root) room lower')
    (h : ∀ node ws, Due root node ws → lower' node ws = lower node ws) (hnode : root.Occurs node)
    (hready : Ready (.loose root) ends ws) :
    Rule.standard node.construct lower' node ws = Rule.standard node.construct lower node ws := by
  rw [← standard_asserting hl' hnode hready, ← standard_asserting hl hnode hready,
    Lower.asserting_congr h]

theorem body_congr (hl : Lowers (.loose root) room lower)
    (hl' : Lowers (.loose root) room lower')
    (h : ∀ node ws, Due root node ws → lower' node ws = lower node ws) (hnode : root.Occurs node)
    (hready : Ready (.loose root) ends ws) : lower'.body node ws = lower.body node ws := by
  rw [← body_asserting hl' hnode hready, ← body_asserting hl hnode hready, Lower.asserting_congr h]

end Progress

theorem Workspace.within_congr {α : Type} {state : FrameState}
    {body body' : FrameId → Action Workspace α} {ws : Workspace}
    (h : ∀ id, body' id (ws.entered state) = body id (ws.entered state)) :
    within state body' ws = within state body ws := by
  rw [within_eq, within_eq, h]

/-- **Checks make no difference to a node that is due.** -/
theorem lowerWithin_verify (settings : Settings) (verify : Bool) (room : Nat) {root node : Node}
    {ws : Workspace} (hdue : Progress.Due root node ws) :
    lowerWithin .standard { settings with verifyStack := verify } room node ws =
      lowerWithin .standard settings room node ws := by
  induction room generalizing node ws with
  | zero => rfl
  | succ room ih =>
      obtain ⟨hnode, ends, hready⟩ := hdue
      let ws₁ : Workspace :=
        (ws.atLine (Contract.startLine settings node ws.code.line))
      have hready₁ : Progress.Ready (.loose root) ends ws₁ := hready.atLine _
      have hl := Progress.lowerWithin_lowers (T := .loose root) settings room
      have hrule := Progress.standard_congr hl (Progress.lowerWithin_lowers
        { settings with verifyStack := verify } room) (fun _ _ => ih) hnode hready₁
      refine Contract.supervise_of_balance verify hrule fun inside hdone hgoes => ?_
      have hfulfils := Progress.standard_fulfils hl hnode False.elim hready₁.start
      rw [hdone] at hfulfils
      obtain ⟨depth, hreaches, hdepth⟩ := hfulfils
      exact hreaches.depth.trans (hdepth hgoes)

/-! ### Depth -/

/-- A rule gets done what it got done with a lowering that got less done. -/
theorem Orderly.done_mono {α : Type} {K : Assembly → Assembly → Prop} {own : Option FrameId}
    {plan : Plan} {act : Lower → Action Workspace α} (h : Orderly K own plan act)
    {lower lower' : Lower} (hlower : ∀ node ws u ws', lower node ws = .done u ws' →
      lower' node ws = .done u ws') {ws ws' : Workspace} {x : α}
    (hdone : act lower ws = .done x ws') : act lower' ws = .done x ws' := by
  induction h generalizing ws ws' with
  | own | fail => exact hdone
  | part node => exact hlower node ws x ws' hdone
  | bind _ _ ihfirst ihnext =>
      obtain ⟨y, ws₁, hfirst, hnext⟩ := Action.bind_done.mp hdone
      exact Action.bind_done.mpr ⟨y, ws₁, ihfirst hfirst, ihnext y hnext⟩
  | @within own α plan state body _ ih =>
      dsimp only at hdone ⊢
      rw [within_eq] at hdone ⊢
      cases hbody : body ⟨ws.scopes.nextSerial, state.scope⟩ lower (ws.entered state) with
      | done y inside =>
          rw [hbody] at hdone
          rw [ih _ hbody]
          exact hdone
      | failed error inside =>
          rw [hbody] at hdone
          obtain ⟨closed, after, hpop⟩ := pop_attempt ⟨ws.scopes.nextSerial, state.scope⟩ inside
          simp only [Action.bind_apply, hpop] at hdone
          cases hdone
      | fault fault =>
          rw [hbody] at hdone
          cases hdone

theorem Contract.supervise_done_mono {settings : Settings} (limit : Nat) {node : Node}
    {lowering lowering' : Action Workspace Unit}
    (hlowering : ∀ ws u ws', lowering ws = .done u ws' → lowering' ws = .done u ws')
    {ws ws' : Workspace} {u : Unit} (h : supervise settings node lowering ws = .done u ws') :
    supervise { settings with maxDepth := limit } node lowering' ws = .done u ws' := by
  rw [supervise_apply] at h ⊢
  cases hdone : lowering (ws.atLine (startLine settings node ws.code.line)) with
  | done x inside =>
      rw [hdone] at h
      rw [show lowering' (ws.atLine (startLine { settings with maxDepth := limit } node
        ws.code.line)) = .done x inside from hlowering _ _ _ hdone]
      exact h
  | failed error inside =>
      rw [hdone] at h
      cases h
  | fault fault =>
      rw [hdone] at h
      cases h

/-- **With more room a node is lowered as it was with less.** -/
theorem lowerWithin_done_mono (settings : Settings) (limit : Nat) {room room' : Nat}
    (hroom : room ≤ room') {node : Node} {ws ws' : Workspace} {u : Unit}
    (h : lowerWithin .standard settings room node ws = .done u ws') :
    lowerWithin .standard { settings with maxDepth := limit } room' node ws = .done u ws' := by
  induction room generalizing room' node ws ws' with
  | zero =>
      simp only [lowerWithin, Action.bind_done, Action.not_fail_done, and_false,
        exists_false] at h
  | succ room ih =>
      cases room' with
      | zero => exact absurd hroom (Nat.not_succ_le_zero room)
      | succ room' =>
          have horderly : Orderly Assembly.KeepsLine none node.plan fun lower =>
              Rule.standard node.construct lower node := Rule.standard_orderly node
          refine Contract.supervise_done_mono limit (fun ws₁ x ws₂ hdone => ?_) h
          exact horderly.done_mono (fun _ _ _ _ => ih (Nat.le_of_succ_le_succ hroom)) hdone

/-! ### Compiling -/

/-- Lower a tree as the main function, in one way or another. -/
def Lower.main (lower : Lower) (root : Node) : Action Workspace Unit := do
  let ((), frame) ← within (.function 0 0) fun _ => lower.body root
  let height ← onScopes (Action.read ScopeStack.height)
  if height ≠ 0 then
    Action.fail (.internal (.scopesLeftOpen height))
  onCode (Action.modify fun code => code.reserveLocals (frame.nextSlot?.getD 0))

/-- The main function is what the body of the query is lowered to. -/
theorem Lower.main_congr {lower lower' : Lower} {root : Node} {ws : Workspace}
    (h : lower'.body root (ws.entered (.function 0 0)) =
      lower.body root (ws.entered (.function 0 0))) : lower'.main root ws = lower.main root ws := by
  unfold main
  rw [Action.bind_apply, Action.bind_apply, within_congr fun _ => h]

namespace Compiler

theorem lowerMain_congr {compiler compiler' : Compiler} {root : Node} {ws : Workspace}
    (h : (lower compiler'.registry compiler'.settings).body root (ws.entered (.function 0 0)) =
      (lower compiler.registry compiler.settings).body root (ws.entered (.function 0 0))) :
    compiler'.lowerMain root ws = compiler.lowerMain root ws :=
  Lower.main_congr h

/-- **Nothing comes of checking balances.** -/
theorem run_verify (settings : Settings) (verify traced : Bool) (root : Node) :
    run ⟨.standard, { settings with verifyStack := verify }⟩ traced root =
      run ⟨.standard, settings⟩ traced root := by
  have hready := Progress.start_ready (.loose root) ⟨.standard, settings⟩ traced
  have hbody := Progress.body_congr (Progress.lowerWithin_lowers settings settings.maxDepth)
    (Progress.lowerWithin_lowers { settings with verifyStack := verify } settings.maxDepth)
    (fun _ _ => lowerWithin_verify settings verify settings.maxDepth) .root hready
  have hmain : lowerMain ⟨.standard, { settings with verifyStack := verify }⟩ root
        (start ⟨.standard, { settings with verifyStack := verify }⟩ traced) =
      lowerMain ⟨.standard, settings⟩ root (start ⟨.standard, settings⟩ traced) :=
    lowerMain_congr hbody
  unfold run
  rw [hmain]
  rfl

/-- What gets done under a limit gets done under a higher one. -/
theorem lowerMain_done_mono {settings : Settings} {limit : Nat} (hlimit : settings.maxDepth ≤ limit)
    {root : Node} {ws ws' : Workspace} {u : Unit}
    (h : lowerMain ⟨.standard, settings⟩ root ws = .done u ws') :
    lowerMain ⟨.standard, { settings with maxDepth := limit }⟩ root ws = .done u ws' := by
  have horderly : Orderly Assembly.Continues none
      (.scope (FrameState.function 0 0).scope (.part root .nothing) .nothing) fun lower =>
        within (.function 0 0) fun _ => lower.body root := .within _ fun _ => .body root
  unfold lowerMain at h ⊢
  obtain ⟨result, ws₁, hbody, hrest⟩ := Action.bind_done.mp h
  refine Action.bind_done.mpr ⟨result, ws₁, ?_, hrest⟩
  exact horderly.done_mono (fun _ _ _ _ => lowerWithin_done_mono settings limit hlimit) hbody

/-- **Under a higher limit a query compiles to the same program.** -/
theorem run_eq_of_limit {settings : Settings} {limit : Nat} (hlimit : settings.maxDepth ≤ limit)
    {traced : Bool} {root : Node} {program program' : Program}
    (h : (run ⟨.standard, settings⟩ traced root).map Prod.fst = .ok program)
    (h' : (run ⟨.standard, { settings with maxDepth := limit }⟩ traced root).map Prod.fst =
      .ok program') : program = program' := by
  obtain ⟨ws, hlower, rfl⟩ := Layout.run_done h
  obtain ⟨ws', hlower', rfl⟩ := Layout.run_done h'
  have hsame := hlower'.symm.trans (lowerMain_done_mono hlimit hlower)
  rw [(Outcome.done.inj hsame).2]

/-- Compiling without lines shows what compiling with lines comes to. -/
theorem run_lineless (settings : Settings) (traced : Bool) (root : Node) :
    (View.ofPlaces id).result (run ⟨.standard, settings⟩ traced root) =
      run ⟨.standard, { settings with lineInfo := false }⟩ false root := by
  calc (View.ofPlaces id).result (run ⟨.standard, settings⟩ traced root)
    _ = ((View.ofPlaces id).compiler ⟨.standard, settings⟩).run false (root.alter .keep) :=
      (View.ofPlaces_run id rfl traced root).symm
    _ = run ⟨.standard, { settings with lineInfo := false }⟩ false root := by
      rw [Node.alter_keep, View.compiler, View.settings]
      exact congrArg (fun lineInfo => run ⟨.standard, ⟨_, lineInfo, _⟩⟩ false root)
        (Bool.and_false settings.lineInfo)

/-- **Lines, checks and the history of scopes do not change the code.** -/
theorem run_alike {settings settings' : Settings} (hlimit : settings.maxDepth = settings'.maxDepth)
    (hdepth : settings.maxDepth ≤ 65535) (traced traced' : Bool) (root : Node) :
    Alike (· = ·) ((run ⟨.standard, settings⟩ traced root).map Prod.fst)
      ((run ⟨.standard, settings'⟩ traced' root).map Prod.fst) := by
  have hbare : ∀ (settings : Settings) (traced : Bool),
      (View.ofPlaces id).result (run ⟨.standard, settings⟩ traced root) =
        run ⟨.standard, ⟨settings.maxDepth, false, false⟩⟩ false root :=
    fun settings traced => (run_lineless settings traced root).trans
      (run_verify { settings with lineInfo := false } false false root).symm
  have hseen : (View.ofPlaces id).result (run ⟨.standard, settings⟩ traced root) =
      (View.ofPlaces id).result (run ⟨.standard, settings'⟩ traced' root) := by
    rw [hbare, hbare, hlimit]
  refine (View.alike_of_seen hseen (run_ne_fault rfl hdepth traced root)).mono ?_
  intro error error' h
  have hkept : error.alter .keep = error'.alter .keep := h
  rwa [CompileError.alter_keep, CompileError.alter_keep] at hkept

/-- **Settings do not change the code.**  Whether lines are kept, balances are checked or scopes are
recorded, a query fails with the same error or compiles to the same code; and under two limits on
the depth it compiles to the same program, if it compiles under both. -/
theorem run_settings (root : Node) :
    (∀ (settings settings' : Settings) (traced traced' : Bool),
      settings.maxDepth = settings'.maxDepth → settings.maxDepth ≤ 65535 →
      Alike (· = ·) ((run ⟨.standard, settings⟩ traced root).map Prod.fst)
        ((run ⟨.standard, settings'⟩ traced' root).map Prod.fst)) ∧
    (∀ (settings : Settings) (limit : Nat) (traced : Bool) (program program' : Program),
      (run ⟨.standard, settings⟩ traced root).map Prod.fst = .ok program →
      (run ⟨.standard, { settings with maxDepth := limit }⟩ traced root).map Prod.fst =
        .ok program' →
      program = program') := by
  refine ⟨fun settings settings' traced traced' hlimit hdepth =>
    run_alike hlimit hdepth traced traced' root, ?_⟩
  intro settings limit traced program program' h h'
  rcases Nat.le_total settings.maxDepth limit with hle | hle
  · exact run_eq_of_limit hle h h'
  · exact (run_eq_of_limit hle h' h).symm

/-- A loop in which the operand stack has to be right also after `break`. -/
def searching : Node :=
  .block [
    .forEach ⟨"item", ⟨1, 5, 4⟩⟩ (.param "items" ⟨1, 13, 6⟩)
      (.ifChain [(.ident "item" ⟨2, 6, 4⟩,
        .block [.breakLoop ⟨2, 14, 5⟩, .run (.ident "item" ⟨2, 21, 4⟩) ⟨2, 21, 4⟩] ⟨2, 12, 15⟩)]
        none ⟨2, 3, 24⟩) ⟨1, 1, 30⟩,
    .returnWith 0 none ⟨3, 1, 6⟩]
    ⟨1, 1, 40⟩

theorem searching_compiles : ∀ limit ∈ [6, 256],
    (compile ⟨.standard, { maxDepth := limit }⟩ searching).toOption.map (·.functions.size) =
      some 1 := by
  decide +kernel

theorem searching_settings :
    (∃ program, compile ⟨.standard, { maxDepth := 6 }⟩ searching = .ok program ∧
      compile {} searching = .ok program) ∧
    Alike (· = ·) (compile {} searching)
      ((run ⟨.standard, ⟨256, false, false⟩⟩ true searching).map Prod.fst) := by
  obtain ⟨program, hcompile, -⟩ := compiles_of_view (searching_compiles 6 (by decide))
  obtain ⟨program', hcompile', -⟩ := compiles_of_view (searching_compiles 256 (by decide))
  obtain rfl := (run_settings searching).2 { maxDepth := 6 } 256 false program program' hcompile
    hcompile'
  exact ⟨⟨program, hcompile, hcompile'⟩,
    (run_settings searching).1 {} ⟨256, false, false⟩ false true rfl (by decide)⟩

end Compiler

end QueryCompiler
