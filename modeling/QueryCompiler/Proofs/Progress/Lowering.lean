/-
What a lowering reaches, and which errors are to be expected of it.

The rules of the standard table reach what they have to, and the contract finds
nothing to object to, so by induction on the levels of the tree every node is lowered
as it should be.  Two results come of it.  A query that does not compile is to blame
itself (`compile_blames_query`): the machinery is never at fault.  And a query that
does compile was lowered on a course (`compile_course`), which is where everything
that is said about the tables of a program starts.
-/
import QueryCompiler.Proofs.Progress.Handlers

namespace QueryCompiler

namespace Progress

open Workspace

variable {T : Terms} {S : Site T} {ends : Nat → Nat} {ws ws₁ : Workspace} {lower : Lower}
  {node : Node}

/-! ### Rules -/

/-- Every rule of the standard table reaches what it has to. -/
theorem standard_fulfils (hl : Lowers T S.room lower) (hnode : T.root.Occurs node)
    (hnested : T.bounded → S.opened.length + S.room + 1 ≤ 65536)
    (h : Reaches S ends false [] (S.base + 0) ws ws) :
    (Rule.standard node.construct lower node ws).Meets T.Allowed fun _ ws' =>
      Fulfils S ends node ws ws' := by
  have hfew : T.bounded → S.opened.length ≤ Frame.slotLimit := by
    intro hbounded
    have hnested := hnested hbounded
    unfold Frame.slotLimit
    omega
  cases node with
  | literal => exact literal_fulfils lower hnode h
  | list => exact list_fulfils hl hnode h
  | object => exact object_fulfils hl hnode h
  | ident => exact ident_fulfils lower hnode hfew h
  | param => exact param_fulfils lower hnode h
  | current => exact current_fulfils lower hnode hfew h
  | member => exact member_fulfils hl hnode h
  | index => exact index_fulfils hl hnode h
  | call => exact call_fulfils hl hnode h
  | unary => exact unary_fulfils hl hnode h
  | binary => exact binary_fulfils hl hnode h
  | logical => exact logical_fulfils hl hnode h
  | ternary => exact ternary_fulfils hl hnode h
  | group => exact group_fulfils hl hnode h
  | lambda => exact lambda_fulfils hl hnode hnested h
  | transform kind =>
      cases kind with
      | each => exact transformEach_fulfils hl hnode h
      | single => exact transformSingle_fulfils hl hnode h
  | block => exact block_fulfils hl hnode h
  | varDecl => exact varDecl_fulfils hl hnode h
  | assign => exact assign_fulfils hl hnode hfew h
  | run => exact run_fulfils hl hnode h
  | hint => exact hint_fulfils lower hnode h
  | importAs => exact importAs_fulfils lower hnode h
  | ifChain => exact ifChain_fulfils hl hnode h
  | whileLoop => exact whileLoop_fulfils hl hnode h
  | forEach => exact forEach_fulfils hl hnode h
  | breakLoop => exact breakLoop_fulfils lower hnode h
  | continueLoop => exact continueLoop_fulfils lower hnode h
  | tryCatch => exact tryCatch_fulfils hl hnode h
  | returnWith => exact returnWith_fulfils hl hnode h
  | exitWith => exact exitWith_fulfils hl hnode h
  | throwWith => exact throwWith_fulfils hl hnode h

/-! ### The contract -/

/-- As many scopes are open as before a course. -/
theorem Follows.height (h : Follows ws ws₁) : ws₁.scopes.height = ws.scopes.height := by
  have hlength := congrArg List.length h.shape
  rw [Workspace.shape, Workspace.shape, List.length_map, List.length_map] at hlength
  exact hlength

/-- The scopes are as the contract wants them. -/
theorem checkScopes_meets {construct : Construct} (hfollows : Follows ws ws₁)
    (hopens : construct.scope?.isSome = true →
      ws.scopes.counts.pushes < ws₁.scopes.counts.pushes) :
    (Contract.checkScopes construct ws.scopes.height ws.scopes.counts.pushes ws₁).Meets T.Allowed
      fun _ ws₂ => ws₁ = ws₂ := by
  have hread : ∀ (view : ScopeStack → Nat) (next : Nat → Action Workspace Unit),
      (onScopes (Action.read view) >>= next) ws₁ = next (view ws₁.scopes) ws₁ := fun _ _ => rfl
  unfold Contract.checkScopes
  rw [hread, hread, if_neg (not_not.mpr hfollows.height)]
  cases hscope : construct.scope? with
  | none => exact rfl
  | some scope =>
      have hlt := hopens (by rw [hscope]; rfl)
      simp only [if_neg (Nat.not_le.mpr hlt)]
      exact rfl

/-- Nothing comes of a comparison with the right depth. -/
theorem checkDepth_of_eq {settings : Settings} {expected : Nat} (h : ws.code.depth = expected) :
    Contract.checkDepth settings node expected ws = .done () ws := by
  unfold Contract.checkDepth
  rw [depth_bind, if_neg]
  · rfl
  · simp [h]

theorem checkDepth_meets {settings : Settings} {expected : Nat} (h : ws.code.depth = expected) :
    (Contract.checkDepth settings node expected ws).Meets T.Allowed fun _ ws' => ws = ws' := by
  rw [checkDepth_of_eq h]
  exact rfl

/-- The depth is as the contract wants it, or is set so where control does not get. -/
theorem checkBalance_meets {settings : Settings} (hready : Ready T ends ws₁)
    (hstart : ws.code.depth < wordLimit) (hcourse : Course ws ws₁)
    (hdepth : node.construct.balance ≠ .diverges →
      ws₁.code.depth = ws.code.depth + node.construct.balance.gain) :
    (Contract.checkBalance settings node ws.code.depth ws₁).Meets T.Allowed fun _ ws' =>
      Ready T ends ws' ∧ Course ws ws' ∧
        ws'.code.depth = ws.code.depth + node.construct.balance.gain := by
  unfold Contract.checkBalance
  cases hkind : node.construct.balance with
  | diverges =>
      have hreset : resetDepth ws.code.depth ws₁ =
          .done () (ws₁.revise fun routine => routine.setDepth ws.code.depth) := rfl
      show Outcome.Meets T.Allowed _ (resetDepth ws.code.depth ws₁)
      rw [hreset]
      exact ⟨hready.reset hstart, hcourse.trans (.step (.reset _)),
        congrArg Layout.Spot.depth (Layout.reset_spot hready.sound _)⟩
  | value =>
      rw [hkind] at hdepth
      have hdepth := hdepth nofun
      have hfit : ws.code.depth + 1 < wordLimit := by
        have hlt := hready.depth_lt
        rw [hdepth] at hlt
        exact hlt
      refine (addWord_meets fun _ => hfit).bind ?_
      rintro expected _ ⟨rfl, rfl, -⟩
      refine (checkDepth_meets hdepth).mono ?_
      rintro _ _ rfl
      exact ⟨hready, hcourse, hdepth⟩
  | effect =>
      rw [hkind] at hdepth
      have hdepth := hdepth nofun
      refine (checkDepth_meets hdepth).mono ?_
      rintro _ _ rfl
      exact ⟨hready, hcourse, hdepth⟩

/-- **A rule that reaches what it has to is supervised without objection.** -/
theorem supervise_meets (S : Site T) {settings : Settings} {lowering : Action Workspace Unit}
    (hready : Ready T ends ws) (hbase : S.base = ws.code.depth) (hopened : S.opened = ws.code.opened)
    (hlowering : ∀ ws₁, Reaches S ends false [] (S.base + 0) ws₁ ws₁ →
      (lowering ws₁).Meets T.Allowed fun _ ws₂ => Fulfils S ends node ws₁ ws₂) :
    (Contract.supervise settings node lowering ws).Meets T.Allowed fun _ ws' =>
      Ready T ends ws' ∧ Course ws ws' ∧
        ws'.code.depth = ws.code.depth + node.construct.balance.gain := by
  -- The line that is set first is of no account, except that it is put back in the end.
  have hrest : ∀ line ws₁, Ready T ends ws₁ → Course ws ws₁ → ws₁.code.depth = ws.code.depth →
      ws₁.code.opened = ws.code.opened →
      ((do
        let start ← depth
        let height ← onScopes (Action.read fun scopes => scopes.height)
        let pushes ← onScopes (Action.read fun scopes => scopes.counts.pushes)
        let result ← lowering.attempt
        moveToLine line
        Action.ofResult result
        Contract.checkScopes node.construct height pushes
        Contract.checkBalance settings node start : Action Workspace Unit) ws₁).Meets T.Allowed
        fun _ ws' => Ready T ends ws' ∧ Course ws ws' ∧
          ws'.code.depth = ws.code.depth + node.construct.balance.gain := by
    intro line ws₁ hready₁ hcourse₁ hdepth₁ hopened₁
    have hstart : Reaches S ends false [] (S.base + 0) ws₁ ws₁ :=
      .start hready₁ (hopened₁.trans hopened.symm) (hdepth₁.trans hbase.symm)
    refine Outcome.Meets.restoring (fun ws => ws.atLine line) (fun _ => rfl)
      (hlowering ws₁ hstart) ?_
    rintro _ ws₂ ⟨depth₂, h₂, hdepth₂⟩
    have hback : Course ws₁ (ws₂.atLine line) := h₂.course.trans (.step (.line line))
    refine (checkScopes_meets hback.follows h₂.opens).bind ?_
    rintro _ _ rfl
    refine (checkBalance_meets (h₂.ready.atLine line) hready₁.depth_lt hback ?_).mono ?_
    · intro hgoes
      rw [hdepth₁, ← hbase]
      exact h₂.depth.trans (hdepth₂ hgoes)
    · rintro _ ws' ⟨hready', hcourse', hdepth'⟩
      exact ⟨hready', hcourse₁.trans hcourse', by rw [hdepth', hdepth₁]⟩
  have hline : ∀ (next : Nat → Action Workspace Unit),
      (onCode (Action.read fun code => code.line) >>= next) ws = next ws.code.line ws :=
    fun _ => rfl
  unfold Contract.supervise
  rw [hline]
  split
  · exact hrest ws.code.line (ws.atLine node.span.line) (hready.atLine _) (.step (.line _)) rfl rfl
  · exact hrest ws.code.line ws hready (.stay ws) rfl rfl

/-! ### Lowering -/

/-- **With the standard rules every node is lowered as it should be, however deep the tree.** -/
theorem lowerWithin_lowers (settings : Settings) (room : Nat) :
    Lowers T room (lowerWithin .standard settings room) := by
  induction room with
  | zero => exact fun _ _ _ _ _ _ _ => .inl trivial
  | succ room ih =>
      intro node ends ws hnode hready hdeep hnested
      let S : Site T :=
        { base := ws.code.depth
          opened := ws.code.opened
          room := room
          deep := hdeep
          nested := fun hbounded => Nat.le_of_succ_le (hnested hbounded) }
      have hl : Lowers T S.room (lowerWithin .standard settings room) := ih
      refine supervise_meets S hready rfl rfl fun ws₁ h₁ => ?_
      exact standard_fulfils hl hnode hnested h₁

/-- Before anything is done the main function is open, and nothing else. -/
theorem start_ready (T : Terms) (compiler : Compiler) (traced : Bool) :
    Ready T (fun _ => 0) ((compiler.start traced).entered (.function 0 0)) where
  sound := Layout.entered_sound (Layout.start_sound compiler traced) nofun
  kept := ⟨trivial, trivial⟩
  functions := rfl
  inside := List.cons_ne_nil _ _
  distinct := List.nodup_nil
  known _ h := nomatch h

/-- A query is lowered on a course, from nothing but an open main function to its end. -/
theorem lowerMain_meets (T : Terms) {compiler : Compiler} (traced : Bool)
    (hregistry : compiler.registry = .standard)
    (hdepth : T.bounded → compiler.settings.maxDepth ≤ 65535) :
    (compiler.lowerMain T.root (compiler.start traced)).Meets T.Allowed fun _ ws =>
      ∃ inside frame outer, Course ((compiler.start traced).entered (.function 0 0)) inside ∧
        inside.scopes.frames = frame :: outer ∧
        ws.code = inside.code.reserveLocals (frame.state.nextSlot?.getD 0) := by
  let S : Site T :=
    { base := 0
      opened := [0]
      room := compiler.settings.maxDepth
      deep := by
        intro hbounded
        have hdepth := hdepth hbounded
        have hlevels : 65535 * (compiler.settings.maxDepth + 1) ≤ 65535 * 65536 :=
          Nat.mul_le_mul_left _ (Nat.succ_le_succ hdepth)
        unfold wordLimit
        omega
      nested := by
        intro hbounded
        have hdepth := hdepth hbounded
        rw [List.length_singleton]
        omega }
  have hl : Lowers T S.room (lower compiler.registry compiler.settings) := by
    rw [hregistry]
    exact lowerWithin_lowers _ _
  have hstart : Reaches S (fun _ => 0) false [] (S.base + 0)
      ((compiler.start traced).entered (.function 0 0))
      ((compiler.start traced).entered (.function 0 0)) :=
    .start (start_ready T compiler traced) rfl rfl
  have hbody : (within (.function 0 0) (fun _ =>
      (lower compiler.registry compiler.settings).body T.root) (compiler.start traced)).Meets
      T.Allowed fun result ws => ∃ inside frame outer,
        Course ((compiler.start traced).entered (.function 0 0)) inside ∧
        inside.scopes.frames = frame :: outer ∧ outer = [] ∧ result.2 = frame.state ∧
        ws = inside.left frame := by
    refine within_meets ((body_reaches hl .root hstart).mono ?_)
    rintro _ inside ⟨_, hinside⟩
    obtain ⟨frame, outer, hframes, hframe, houter⟩ := hinside.course.follows.innermost
    exact ⟨frame, outer, hframes, congrArg Prod.fst hframe, inside, frame, outer, hinside.course,
      hframes, List.map_eq_nil_iff.mp houter, rfl, rfl⟩
  refine hbody.bind ?_
  rintro ⟨_, _⟩ _ ⟨inside, frame, outer, hcourse, hframes, rfl, rfl, rfl⟩
  have hheight : (inside.left frame).scopes.height = 0 := by
    simp only [ScopeStack.height, left, hframes, List.tail_cons, List.length_nil]
  have hread : ∀ next : Nat → Action Workspace Unit,
      (onScopes (Action.read ScopeStack.height) >>= next) (inside.left frame) =
        next (inside.left frame).scopes.height (inside.left frame) := fun _ => rfl
  dsimp only
  rw [hread, hheight, if_neg (not_not.mpr rfl)]
  exact ⟨inside, frame, [], hcourse, hframes, rfl⟩

end Progress

/-! ### Compiling -/

namespace Compiler

variable {compiler : Compiler} {root : Node}

/-- With the standard rules the only objection to a tree is its depth. -/
theorem objection_tooDeep (hregistry : compiler.registry = .standard) {error : CompileError}
    (h : compiler.firstObjection? root = some error) :
    ∃ limit span, error = .tooDeep limit span := by
  rw [firstObjection?, Node.Walk.findSome?_start] at h
  obtain ⟨⟨node, depth⟩, -, hobjection⟩ := List.exists_of_findSome?_eq_some h
  unfold objection? at hobjection
  rw [hregistry] at hobjection
  simp only [Registry.ruleFor, Registry.standard] at hobjection
  split at hobjection
  · exact ⟨_, _, (Option.some.inj hobjection).symm⟩
  · cases hobjection

/-- With the standard rules there is no fault, as long as trees are not deeper than a slot can be
far away. -/
theorem run_ne_fault (hregistry : compiler.registry = .standard)
    (hdepth : compiler.settings.maxDepth ≤ 65535) (traced : Bool) (root : Node) (fault : Fault) :
    compiler.run traced root ≠ .error (.fault fault) := by
  intro h
  let T : Progress.Terms := ⟨root, True⟩
  have hmain := Progress.lowerMain_meets T traced hregistry fun _ => hdepth
  unfold run at h
  split at h
  · cases h
  · cases hlower : compiler.lowerMain root (compiler.start traced) with
    | done u ws => rw [hlower] at h; cases h
    | failed error ws => rw [hlower] at h; cases h
    | fault fault =>
        rw [show compiler.lowerMain T.root _ = _ from hlower] at hmain
        exact absurd trivial hmain.1

/-- **A query that does not compile is itself to blame.**  With the standard rules, as long as trees
are not deeper than a slot can be far away and the query has not more constants than can be
numbered, there is no fault, and every error is one that was to be expected. -/
theorem compile_blames_query {failure : Failure} (hregistry : compiler.registry = .standard)
    (hdepth : compiler.settings.maxDepth ≤ 65535)
    (hconstants : root.constants.dedup.length ≤ Pool.limit)
    (h : compiler.compile root = .error failure) :
    ∃ error, failure = .error error ∧ error.Expected root := by
  let T : Progress.Terms := ⟨root, True⟩
  have hmain := Progress.lowerMain_meets T false hregistry fun _ => hdepth
  unfold compile run at h
  split at h
  · rename_i error hobjection
    obtain ⟨limit, span, rfl⟩ := objection_tooDeep hregistry hobjection
    obtain rfl := Except.error.inj h
    exact ⟨_, rfl, trivial⟩
  · cases hlower : compiler.lowerMain root (compiler.start false) with
    | done u ws => rw [hlower] at h; cases h
    | failed error ws =>
        rw [show compiler.lowerMain T.root _ = _ from hlower] at hmain
        rw [hlower] at h
        obtain rfl := Except.error.inj h
        rcases hmain with hexpected | ⟨hmany, -⟩
        · exact ⟨error, rfl, hexpected⟩
        · exact absurd hconstants (Nat.not_le.mpr hmany)
    | fault fault =>
        rw [show compiler.lowerMain T.root _ = _ from hlower] at hmain
        exact absurd trivial hmain.1

/-- A `break` in a lambda, which is not in the loop that the lambda is in. -/
def strayBreak : Node :=
  .whileLoop (.param "p" {}) (.run (.lambda [] (.breakLoop ⟨2, 3, 5⟩) {}) {}) {}

theorem strayBreak_blamed :
    compile {} strayBreak = .error (.error (.notEnclosed .loop ⟨2, 3, 5⟩)) ∧
      strayBreak.constants.dedup.length ≤ Pool.limit ∧
      CompileError.Expected strayBreak (.notEnclosed .loop ⟨2, 3, 5⟩) := by
  have hcompile : compile {} strayBreak = .error (.error (.notEnclosed .loop ⟨2, 3, 5⟩)) := by
    decide +kernel
  have hconstants : strayBreak.constants.dedup.length ≤ Pool.limit := by decide +kernel
  obtain ⟨error, hfailure, hexpected⟩ :=
    compile_blames_query rfl (by decide) hconstants hcompile
  obtain rfl := Failure.error.inj hfailure
  exact ⟨hcompile, hconstants, hexpected⟩

/-- A query compiles if something can be seen of its program. -/
theorem compiles_of_view {α : Type} {view : Program → α} {seen : α}
    (h : (compiler.compile root).toOption.map view = some seen) :
    ∃ program, compiler.compile root = .ok program ∧ view program = seen := by
  cases hcompile : compiler.compile root with
  | error failure =>
      rw [hcompile] at h
      cases h
  | ok program =>
      rw [hcompile] at h
      exact ⟨program, rfl, Option.some.inj h⟩

/-- **A query that compiles was lowered on a course,** which starts in an empty main function. -/
theorem compile_course {program : Program} (hregistry : compiler.registry = .standard)
    (h : compiler.compile root = .ok program) :
    ∃ inside frame outer,
      Progress.Course ((compiler.start false).entered (.function 0 0)) inside ∧
      inside.scopes.frames = frame :: outer ∧
      program = (inside.code.reserveLocals (frame.state.nextSlot?.getD 0)).toProgram := by
  let T : Progress.Terms := ⟨root, False⟩
  have hmain := Progress.lowerMain_meets T false hregistry False.elim
  obtain ⟨ws, hlower, rfl⟩ := Layout.compile_done h
  rw [show compiler.lowerMain T.root _ = _ from hlower] at hmain
  obtain ⟨inside, frame, outer, hcourse, hframes, hcode⟩ := hmain
  exact ⟨inside, frame, outer, hcourse, hframes, congrArg Assembly.toProgram hcode⟩

end Compiler

end QueryCompiler
