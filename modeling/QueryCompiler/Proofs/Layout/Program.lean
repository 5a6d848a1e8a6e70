/-
The layout of compiled programs.

A lambda is written into a function of its own, to which everything that was said of
the code around it applies again; by the time the lambda is done, its function is
complete.  With that the last rule is covered, lowering is faithful at every depth,
and each function of a compiled program is the body of a node laid out from its first
instruction to its last.
-/
import QueryCompiler.Proofs.Layout.Handlers
import QueryCompiler.Compiler

namespace QueryCompiler

/-! ### Complete functions -/

namespace Routine

variable {routine : Routine} {constants more : Array Constant} {body : Node} {scopes : List Frame}

/-- The function is the body of a node, laid out among the scopes from its first instruction to its
last in every program that has these constants. -/
structure Spans (routine : Routine) (constants : Array Constant) (body : Node)
    (scopes : List Frame) : Prop where
  maxDepth_lt : routine.maxDepth < wordLimit
  laid : ∀ F : Layout.Image, F.code = routine.code → routine.maxDepth ≤ F.maxStack →
    (∀ (i : Nat) (c : Constant), constants[i]? = some c → F.constants[i]? = some c) →
    routine.code.size < wordLimit →
    ∃ b : Layout.Spot, Layout.Laid F {} (.body body) ⟨0, 0, true, scopes⟩ b ∧
      b.index = routine.code.size

theorem Spans.mono (h : routine.Spans constants body scopes)
    (hmore : ∀ (i : Nat) (c : Constant), constants[i]? = some c → more[i]? = some c) :
    routine.Spans more body scopes where
  maxDepth_lt := h.maxDepth_lt
  laid F hcode hstack hconst := h.laid F hcode hstack fun i c hc => hconst i c (hmore i c hc)

theorem Spans.implements (h : routine.Spans constants body scopes) :
    routine.Implements constants body :=
  ⟨h.maxDepth_lt, scopes, h.laid⟩

theorem Implements.spans (h : routine.Implements constants body) :
    ∃ scopes, routine.Spans constants body scopes := by
  obtain ⟨hdepth, scopes, hlaid⟩ := h
  exact ⟨scopes, hdepth, hlaid⟩

end Routine

/-- A function is the one that was being written, up to the locals that were reserved for it in the
end, or another one. -/
theorem Assembly.routine_of_reserveLocals {code : Assembly} {locals : UInt16} {g : Nat}
    {routine : Routine} (h : (code.reserveLocals locals).routines[g]? = some routine) :
    (code.currentFunction = g ∧ routine = code.current.reserve locals) ∨
      (code.currentFunction ≠ g ∧ code.routines[g]? = some routine) := by
  rw [reserveLocals, modifyCurrent, Array.getElem?_modify] at h
  by_cases hsame : code.currentFunction = g
  · rw [if_pos hsame] at h
    obtain ⟨inner, hinner, rfl⟩ := Option.map_eq_some_iff.mp h
    refine .inl ⟨hsame, ?_⟩
    rw [current, Array.getD_eq_getD_getElem?, hsame, hinner]
    rfl
  · rw [if_neg hsame] at h
    exact .inr ⟨hsame, h⟩

namespace Layout

open Workspace

variable {lower : Lower} {ws ws' : Workspace} {u : Unit}

/-! ### Functions -/

/-- Declare the parameters of a function. -/
abbrev declareAll (params : List Name) : Action Workspace Unit :=
  params.forM fun param => do
    let _ ← declare param

/-- The parameters of a function take its first slots, and no code. -/
theorem declareAll_passes {params : List Name} (hs : ws.Sound)
    (h : declareAll params ws = .done u ws') :
    (∃ scopes, ws'.spot = { ws.spot with scopes }) ∧ Passes (fun _ _ => True) [] [] ws ws' := by
  induction params generalizing ws with
  | nil =>
      rw [Action.forM_nil_done] at h
      subst h
      exact ⟨⟨_, rfl⟩, Passes.stay hs⟩
  | cons param rest ih =>
      rw [Action.forM_cons_done] at h
      obtain ⟨ws₁, hfirst, hrest⟩ := h
      obtain ⟨slot, _, hdeclare, hpure⟩ := Action.bind_done.mp hfirst
      obtain ⟨-, rfl⟩ := Action.pure_done.mp hpure
      obtain ⟨-, hspot, hdeclare⟩ := Passes.declare hs hdeclare
      obtain ⟨⟨scopes, hspot'⟩, hrest⟩ := ih hdeclare.sound hrest
      refine ⟨⟨scopes, ?_⟩, (hdeclare.and hs hrest).mono fun _ _ _ => trivial⟩
      rw [hspot', hspot]
      rfl

/-- The workspace with one more function, which is being written. -/
def opened (ws : Workspace) (params : UInt16) : Workspace :=
  { ws with code := { ws.code with
    routines := ws.code.routines.push (Routine.start params)
    opened := ws.code.routines.size :: ws.code.opened } }

/-- A function is complete once its body is done. -/
theorem spans_of_passes {body : Node} {id : Nat} {scopes : List Frame} {inside : Workspace}
    (h : Passes (fun F s => Laid F s (.body body) ⟨0, 0, true, scopes⟩ inside.spot) [] []
      (ws.entered (.function id 0)) inside) :
    inside.code.current.Spans inside.code.pool.constants body scopes := by
  obtain ⟨breaks, hrun, -⟩ := h
  -- No loop can be broken out of from inside a function.
  obtain rfl : breaks = [] := hrun.owned rfl
  refine ⟨hrun.sound.maxDepth_lt, ?_⟩
  intro F hcode hstack hconst hshort
  refine ⟨inside.spot, hrun.holds F 0 ⟨?_, nofun, hshort, hstack, hconst⟩, rfl⟩
  intro i instruction _ _ hi
  rw [hcode]
  exact hi

theorem implements_of_passes {body : Node} {id : Nat} {scopes : List Frame} {inside : Workspace}
    (h : Passes (fun F s => Laid F s (.body body) ⟨0, 0, true, scopes⟩ inside.spot) [] []
      (ws.entered (.function id 0)) inside) :
    inside.code.current.Implements inside.code.pool.constants body :=
  (spans_of_passes h).implements

/-- The workspace inside the new function of a lambda. -/
abbrev inLambda (ws : Workspace) (params : List Name) : Workspace :=
  (opened ws params.length.toUInt16).entered (.function ws.code.routines.size 0)

theorem opened_sound (hs : ws.Sound) (params : UInt16) : (opened ws params).Sound where
  current := by simp [opened, Assembly.currentFunction]
  depth_le := by simp [opened, Assembly.depth, Assembly.maxDepth, Assembly.current,
    Assembly.currentFunction, Routine.start]
  maxDepth_lt := by simp [opened, Assembly.maxDepth, Assembly.current, Assembly.currentFunction,
    Routine.start, wordLimit]
  pool_le := hs.pool_le
  serials := hs.serials
  fresh := hs.fresh
  levels := hs.levels

theorem opened_spot (params : UInt16) :
    (opened ws params).spot = ⟨0, 0, true, ws.spot.scopes⟩ := by
  simp [opened, Workspace.spot, Assembly.length, Assembly.depth, Assembly.reachable,
    Assembly.current, Assembly.currentFunction, Routine.start]

/-- The workspace after a function, back in the functions around it. -/
def closed (ws : Workspace) (locals : UInt16) (outer : List Nat) : Workspace :=
  { ws with code := { ws.code.reserveLocals locals with opened := outer } }

theorem closeFunction_done {locals : UInt16} {id last : Nat} {outer : List Nat}
    (hopened : ws.code.opened = id :: outer)
    (h : onCode (Assembly.closeFunction locals) ws = .done last ws') :
    ws' = closed ws locals outer := by
  obtain ⟨code, hclose, rfl⟩ := onCode_done.mp h
  unfold Assembly.closeFunction at hclose
  rw [hopened] at hclose
  cases outer with
  | nil => cases hclose
  | cons next rest =>
      simp only [Outcome.done.injEq] at hclose
      rw [← hclose.2]
      rfl

section

variable {Q : Image → Nat → Prop} {params locals : UInt16} {id : Nat} {inside : Workspace}
  {frame : Frame}

/-- The functions there were before are as they were. -/
theorem closed_others (hrun : Run Q [] [] ((opened ws params).entered (.function id 0)) inside)
    {g : Nat} (hg : g < ws.code.routines.size) :
    (closed (inside.left frame) locals ws.code.opened).code.routines[g]? =
      ws.code.routines[g]? := by
  have hfunction : inside.code.currentFunction = ws.code.routines.size :=
    hrun.grows.currentFunction
  show (inside.code.reserveLocals locals).routines[g]? = _
  rw [Assembly.reserveLocals, Assembly.modifyCurrent, Array.getElem?_modify, hfunction,
    if_neg (Nat.ne_of_gt hg), hrun.grows.others g]
  · simp only [opened, entered, Array.getElem?_push, if_neg (Nat.ne_of_lt hg)]
  · simp only [opened, entered, Array.size_push]
    omega
  · simp only [opened, entered, Assembly.currentFunction, List.headD_cons]
    omega

theorem closed_current (hs : ws.Sound)
    (hrun : Run Q [] [] ((opened ws params).entered (.function id 0)) inside) :
    (closed (inside.left frame) locals ws.code.opened).code.current = ws.code.current := by
  show Array.getD _ ws.code.currentFunction _ = Array.getD _ ws.code.currentFunction _
  rw [Array.getD_eq_getD_getElem?, Array.getD_eq_getD_getElem?]
  exact congrArg (Option.getD · _) (closed_others hrun hs.current)

/-- The function that was closed, and those that were made inside it, are complete. -/
theorem closed_made (hrun : Run Q [] [] ((opened ws params).entered (.function id 0)) inside)
    {body : Node} (hbody : inside.code.current.Implements inside.code.pool.constants body)
    {g : Nat} {routine : Routine} (hg : ws.code.routines.size ≤ g)
    (h : (closed (inside.left frame) locals ws.code.opened).code.routines[g]? = some routine) :
    ∃ body, routine.Implements inside.code.pool.constants body := by
  have hfunction : inside.code.currentFunction = ws.code.routines.size :=
    hrun.grows.currentFunction
  have h : (inside.code.reserveLocals locals).routines[g]? = some routine := h
  rcases Assembly.routine_of_reserveLocals h with ⟨-, rfl⟩ | ⟨hother, h⟩
  · exact ⟨body, hbody⟩
  · refine hrun.grows.made g routine ?_ h
    rw [hfunction] at hother
    simp only [opened, entered, Array.size_push]
    omega

theorem closed_extends (hs : ws.Sound)
    (hrun : Run Q [] [] ((opened ws params).entered (.function id 0)) inside)
    {body : Node} (hbody : inside.code.current.Implements inside.code.pool.constants body) :
    Extends ws.code.length ws (closed (inside.left frame) locals ws.code.opened) where
  opened := rfl
  size := by
    have hsize := hrun.grows.size
    simp only [opened, entered, Array.size_push] at hsize
    show _ ≤ (inside.code.reserveLocals locals).routines.size
    simp only [Assembly.reserveLocals, Assembly.modifyCurrent, Array.size_modify]
    omega
  others g hg _ := closed_others hrun hg
  length := by simp only [Assembly.length, closed_current hs hrun, Nat.le_refl]
  kept i _ := by rw [closed_current hs hrun]
  maxDepth := by simp only [Assembly.maxDepth, closed_current hs hrun, Nat.le_refl]
  pool := hrun.grows.pool
  made g routine hg h := closed_made hrun hbody hg h

theorem closed_sound (hs : ws.Sound)
    (hrun : Run Q [] [] ((opened ws params).entered (.function id 0)) inside) :
    (closed (inside.left frame) locals ws.code.opened).Sound := by
  have hleft : (inside.left frame).Sound := left_sound hrun.sound
  have hsize := hrun.grows.size
  simp only [opened, entered, Array.size_push] at hsize
  refine ⟨?_, ?_, ?_, hleft.pool_le, hleft.serials, hleft.fresh, hleft.levels⟩
  · show ws.code.currentFunction < (inside.code.reserveLocals locals).routines.size
    have hcurrent := hs.current
    simp only [Assembly.reserveLocals, Assembly.modifyCurrent, Array.size_modify]
    omega
  · simpa only [Assembly.depth, Assembly.maxDepth, closed_current hs hrun] using hs.depth_le
  · simpa only [Assembly.maxDepth, closed_current hs hrun] using hs.maxDepth_lt

theorem closed_spot (hs : ws.Sound)
    (hrun : Run Q [] [] ((opened ws params).entered (.function id 0)) inside) :
    (closed (inside.left frame) locals ws.code.opened).spot = ws.spot := by
  have hscopes : (inside.left frame).spot.scopes = ws.spot.scopes := by
    have hinside := beyond_inside frame hrun.shape
    have hentered := beyond_entered (opened ws params) (.function id 0)
    have hfunction : (FrameState.function id 0).scope = .function := rfl
    rw [if_pos hfunction] at hinside hentered
    exact hinside.symm.trans (hrun.beyond.trans hentered)
  have hcurrent : (closed (inside.left frame) locals ws.code.opened).code.current =
      ws.code.current := closed_current hs hrun
  show Spot.mk _ _ _ (inside.left frame).spot.scopes = Spot.mk _ _ _ ws.spot.scopes
  rw [hscopes]
  simp only [Assembly.length, Assembly.depth, Assembly.reachable, hcurrent]

/-- **A function that was opened and closed again leaves the code around it alone.** -/
theorem function_passes {body : Node} {scopes : List Frame} {last : Nat} (hs : ws.Sound)
    (hbody : Passes (fun F s => Laid F s (.body body) ⟨0, 0, true, scopes⟩ inside.spot) [] []
      ((opened ws params).entered (.function id 0)) inside)
    (h : onCode (Assembly.closeFunction locals) (inside.left frame) = .done last ws') :
    ws'.spot = ws.spot ∧ Passes (fun _ _ => True) [] [] ws ws' := by
  have hlaid := implements_of_passes hbody
  obtain ⟨breaks, hrun, houtline⟩ := hbody
  obtain rfl : breaks = [] := hrun.owned rfl
  have hopened : (inside.left frame).code.opened = ws.code.routines.size :: ws.code.opened :=
    hrun.grows.opened
  obtain rfl := closeFunction_done hopened h
  have hspot : (closed (inside.left frame) locals ws.code.opened).spot = ws.spot :=
    closed_spot hs hrun
  have hshape : (closed (inside.left frame) locals ws.code.opened).shape = ws.shape := by
    refine (left_shape frame).trans ?_
    rw [hrun.shape]
    rfl
  have houtline : (closed (inside.left frame) locals ws.code.opened).outline = ws.outline := by
    refine (left_outline frame).trans ?_
    rw [houtline, Frame.withExits_nil, Frame.withBreaks_nil]
    rfl
  refine ⟨hspot, Passes.ofRun (Run.plain (closed_extends hs hrun hlaid) (closed_sound hs hrun)
    hshape ?_ fun _ _ _ => trivial) houtline⟩
  rw [hspot]

end

/-- The way of a lambda: a function is opened, the parameters are declared and the body is lowered in
it, the function is closed, and a closure is made of it. -/
theorem lambda_done {params : List Name} {body : Node} {span : Span}
    (h : Rule.lambda lower (.lambda params body span) ws = .done u ws') :
    params.length ≤ Frame.slotLimit ∧ ∃ declared inside frame outer locals last closed,
      declareAll params (inLambda ws params) = .done () declared ∧
      lower.body body declared = .done () inside ∧ inside.scopes.frames = frame :: outer ∧
      onCode (Assembly.closeFunction locals) (inside.left frame) = .done last closed ∧
      emitWith .makeLambda (.function last.toUInt32) closed = .done u ws' := by
  simp only [Rule.lambda] at h
  split at h
  · simp only [Action.bind_done, Action.not_fail_done, false_and, exists_false] at h
  · rename_i hfew
    simp only [Action.bind_done] at h
    obtain ⟨id, ws₁, hopen, ⟨_, last⟩, _, hwithin, made, closed, hclose, hmake⟩ := h
    obtain ⟨inside, frame, outer, hbody, hframes, -, rfl, rfl⟩ := within_done hwithin
    obtain ⟨code, hcode, rfl⟩ := onCode_done.mp hopen
    simp only [Assembly.openFunction, Outcome.done.injEq] at hcode
    obtain ⟨rfl, rfl⟩ := hcode
    obtain ⟨_, declared, hparams, hbody⟩ := Action.bind_done.mp hbody
    exact ⟨Nat.le_of_not_lt hfew, declared, inside, frame, outer, _, made, closed, hparams, hbody,
      hframes, hclose, hmake⟩

/-- The body of a lambda is laid out from the first instruction of a function of its own, among the
scopes there are once the parameters are declared. -/
theorem lambdaBody_passes (hl : Faithful lower) {params : List Name} {body : Node}
    {declared inside : Workspace} (hs : ws.Sound)
    (hparams : declareAll params (inLambda ws params) = .done () declared)
    (hbody : lower.body body declared = .done () inside) :
    Passes (fun F s => Laid F s (.body body) ⟨0, 0, true, declared.spot.scopes⟩ inside.spot) [] []
      (inLambda ws params) inside := by
  have hs₁ : (inLambda ws params).Sound := entered_sound (opened_sound hs _) nofun
  obtain ⟨⟨scopes, hspot⟩, hparams⟩ := declareAll_passes hs₁ hparams
  have hbody := body_lays hl hparams.sound hbody
  rw [entered_spot, opened_spot] at hspot
  rw [Lays, hspot] at hbody
  rw [hspot]
  exact (hparams.and hs₁ hbody).mono fun _ _ hF => hF.2

theorem lambda_lays (hl : Faithful lower) {params : List Name} {body : Node} {span : Span}
    (hs : ws.Sound) (h : Rule.lambda lower (.lambda params body span) ws = .done u ws') :
    Lays (.rule (.lambda params body span)) ws ws' := by
  obtain ⟨-, declared, inside, frame, outer, locals, last, closed, hparams, hbody, -, hclose,
    hmake⟩ := lambda_done h
  have hall := lambdaBody_passes hl hs hparams hbody
  obtain ⟨hspot', hfunction⟩ := function_passes hs hall hclose
  have hmake := Passes.write hfunction.sound hmake
  refine (hfunction.and hs hmake).mono ?_
  intro F s hF
  rw [hspot'] at hF
  exact .lambda hF.2

/-! ### Lowering -/

/-- Every rule of the standard table follows its line of the layout. -/
theorem standard_lays (hl : Faithful lower) {node : Node} (hs : ws.Sound)
    (h : Rule.standard node.construct lower node ws = .done u ws') : Lays (.rule node) ws ws' := by
  cases node with
  | literal => exact literal_lays lower hs h
  | list => exact list_lays hl hs h
  | object => exact object_lays hl hs h
  | ident => exact ident_lays lower hs h
  | param => exact param_lays lower hs h
  | current => exact current_lays lower hs h
  | member => exact member_lays hl hs h
  | index => exact index_lays hl hs h
  | call => exact call_lays hl hs h
  | unary => exact unary_lays hl hs h
  | binary => exact binary_lays hl hs h
  | logical => exact logical_lays hl hs h
  | ternary => exact ternary_lays hl hs h
  | group => exact group_lays hl hs h
  | lambda => exact lambda_lays hl hs h
  | transform mode source shape span =>
      cases mode with
      | each => exact transformEach_lays hl hs h
      | single => exact transformSingle_lays hl hs h
  | block => exact block_lays hl hs h
  | varDecl => exact varDecl_lays hl hs h
  | assign => exact assign_lays hl hs h
  | run => exact run_lays hl hs h
  | hint => exact hint_lays lower hs h
  | importAs => exact importAs_lays lower hs h
  | ifChain => exact ifChain_lays hl hs h
  | whileLoop => exact whileLoop_lays hl hs h
  | forEach => exact forEach_lays hl hs h
  | breakLoop => exact breakLoop_lays lower hs h
  | continueLoop => exact continueLoop_lays lower hs h
  | tryCatch => exact tryCatch_lays hl hs h
  | returnWith => exact returnWith_lays hl hs h
  | exitWith => exact exitWith_lays hl hs h
  | throwWith => exact throwWith_lays hl hs h

theorem checkScopes_done {construct : Construct} {height pushes : Nat}
    (h : Contract.checkScopes construct height pushes ws = .done u ws') : ws = ws' := by
  simp only [Contract.checkScopes, Action.bind_done, onScopes_done, Action.read_done] at h
  obtain ⟨_, _, ⟨_, ⟨rfl, rfl⟩, rfl⟩, _, _, ⟨_, ⟨rfl, rfl⟩, rfl⟩, h⟩ := h
  split at h
  · simp only [Action.bind_done, Action.not_raise_done, false_and, exists_false] at h
  · cases hscope : construct.scope? with
    | none =>
        rw [hscope] at h
        exact (Action.pure_done.mp h).2
    | some scope =>
        simp only [hscope] at h
        split at h
        · exact absurd h Action.not_raise_done
        · exact (Action.pure_done.mp h).2

theorem checkDepth_done {settings : Settings} {node : Node} {expected : Nat}
    (h : Contract.checkDepth settings node expected ws = .done u ws') : ws = ws' := by
  simp only [Contract.checkDepth, Action.bind_done] at h
  obtain ⟨found, _, hdepth, h⟩ := h
  obtain ⟨-, rfl⟩ := depth_done hdepth
  split at h
  · exact absurd h Action.not_fail_done
  · exact (Action.pure_done.mp h).2

/-- After a node that diverges the depth is what it was before, and after others it is left as it
is. -/
theorem checkBalance_lays {settings : Settings} {node : Node} {ws₁ : Workspace}
    (hs : ws.Sound) (hrule : Lays (.rule node) ws ws₁)
    (h : Contract.checkBalance settings node ws.code.depth ws₁ = .done u ws') :
    Lays (.node node) ws ws' := by
  unfold Contract.checkBalance at h
  cases hkind : node.construct.balance with
  | diverges =>
      rw [hkind] at h
      have hdepth : ws.code.depth < wordLimit := Nat.lt_of_le_of_lt hs.depth_le hs.maxDepth_lt
      obtain ⟨hspot, hreset⟩ := Passes.resetDepth hrule.sound hdepth h
      exact (hrule.and hs hreset).mono fun F s hF => .diverges hkind hF.1 hspot
  | value =>
      simp only [hkind, Action.bind_done, Action.ofWord_done] at h
      obtain ⟨expected, _, ⟨-, rfl⟩, h⟩ := h
      obtain rfl := checkDepth_done h
      exact hrule.mono fun F s hF => .settles (by rw [hkind]; exact nofun) hF
  | effect =>
      rw [hkind] at h
      obtain rfl := checkDepth_done h
      exact hrule.mono fun F s hF => .settles (by rw [hkind]; exact nofun) hF

/-- The line of a node is noted before it is lowered, if it has one. -/
theorem supervise_done {settings : Settings} {node : Node} {lowering : Action Workspace Unit}
    (h : Contract.supervise settings node lowering ws = .done u ws') :
    ∃ ws₁ ws₂ ws₃ line, (ws₁ = ws ∨ moveToLine node.span.line ws = .done () ws₁) ∧
      lowering ws₁ = .done () ws₂ ∧ moveToLine line ws₂ = .done () ws₃ ∧
      Contract.checkBalance settings node ws₁.code.depth ws₃ = .done u ws' := by
  simp only [Contract.supervise, Action.bind_done, onCode_done, Action.read_done] at h
  obtain ⟨line, _, ⟨_, ⟨rfl, rfl⟩, rfl⟩, h⟩ := h
  obtain ⟨ws₁, hstart, h⟩ : ∃ ws₁, (ws₁ = ws ∨ moveToLine node.span.line ws = .done () ws₁) ∧
      (do
        let start ← depth
        let height ← onScopes (Action.read fun scopes => scopes.height)
        let pushes ← onScopes (Action.read fun scopes => scopes.counts.pushes)
        let result ← lowering.attempt
        moveToLine ws.code.line
        Action.ofResult result
        Contract.checkScopes node.construct height pushes
        Contract.checkBalance settings node start : Action Workspace Unit) ws₁ = .done u ws' := by
    split at h
    · obtain ⟨_, ws₁, hmove, h⟩ := Action.bind_done.mp h
      exact ⟨ws₁, .inr hmove, h⟩
    · exact ⟨ws, .inl rfl, h⟩
  simp only [Action.bind_done, onScopes_done, Action.read_done, Action.ofResult_done] at h
  obtain ⟨start, _, hdepth, _, _, ⟨_, ⟨rfl, rfl⟩, rfl⟩, _, _, ⟨_, ⟨rfl, rfl⟩, rfl⟩, result, ws₂,
    hlowering, _, ws₃, hmove, _, _, ⟨rfl, rfl⟩, _, _, hscopes, hbalance⟩ := h
  obtain ⟨rfl, rfl⟩ := depth_done hdepth
  obtain rfl := checkScopes_done hscopes
  rw [Action.attempt_ok] at hlowering
  exact ⟨ws₁, ws₂, ws₃, _, hstart, hlowering, hmove, hbalance⟩

/-- **Lowering with the standard rules is faithful, however deep the tree may be.** -/
theorem lowerWithin_faithful (settings : Settings) (room : Nat) :
    Faithful (lowerWithin .standard settings room) := by
  induction room with
  | zero =>
      intro node ws ws' hs h
      simp only [lowerWithin, Action.bind_done, Action.not_fail_done, and_false,
        exists_false] at h
  | succ room ih =>
      intro node ws ws' hs h
      simp only [lowerWithin, Action.bind_done, Action.ofResult_done] at h
      obtain ⟨rule, _, ⟨hrule, rfl⟩, h⟩ := h
      obtain rfl : Rule.standard node.construct = rule := Except.ok.inj hrule
      obtain ⟨ws₁, ws₂, ws₃, line, hstart, hlowering, hmove, hbalance⟩ := supervise_done h
      obtain ⟨hspot₁, hstart⟩ : ws₁.spot = ws.spot ∧ Passes (fun _ _ => True) [] [] ws ws₁ := by
        rcases hstart with rfl | hstart
        · exact ⟨rfl, Passes.stay hs⟩
        · exact Passes.moveToLine hs hstart
      have hrule := standard_lays ih hstart.sound hlowering
      obtain ⟨hspot₃, hmove⟩ := Passes.moveToLine hrule.sound hmove
      have hrule : Lays (.rule node) ws₁ ws₃ := by
        rw [Lays, hspot₃]
        exact (hrule.and hstart.sound hmove).mono fun F s hF => hF.1
      have hnode := checkBalance_lays hstart.sound hrule hbalance
      rw [Lays, hspot₁] at hnode
      exact (hstart.and hs hnode).mono fun F s hF => hF.2

/-! ### Compiled programs -/

/-- A function of a compiled program, with the constants of the program. -/
def Image.ofFunction (program : Program) (function : CompiledFunction) : Image where
  code := function.code
  maxStack := function.maxStack.toNat
  constants := program.constants

theorem start_sound (compiler : Compiler) (traced : Bool) : (compiler.start traced).Sound where
  current := Nat.zero_lt_one
  depth_le := Nat.le_refl _
  maxDepth_lt := Nat.zero_lt_succ _
  pool_le := Nat.zero_le _
  serials := List.Pairwise.nil
  fresh _ h := nomatch h
  levels _ h := nomatch h

/-- The query is lowered as the body of the main function, whose locals are reserved then. -/
theorem lowerMain_done {compiler : Compiler} {traced : Bool} {root : Node}
    (h : compiler.lowerMain root (compiler.start traced) = .done u ws) :
    ∃ inside locals, (QueryCompiler.lower compiler.registry compiler.settings).body root
        ((compiler.start traced).entered (.function 0 0)) = .done () inside ∧
      ws.code = inside.code.reserveLocals locals := by
  simp only [Compiler.lowerMain, Action.bind_done, onScopes_done, Action.read_done] at h
  obtain ⟨⟨_, last⟩, _, hwithin, _, _, ⟨_, ⟨rfl, rfl⟩, rfl⟩, h⟩ := h
  obtain ⟨inside, frame, outer, hbody, -, -, rfl, rfl⟩ := within_done hwithin
  split at h
  · simp only [Action.bind_done, Action.not_fail_done, false_and, exists_false] at h
  · simp only [onCode_done, Action.modify_done] at h
    obtain ⟨_, rfl, rfl⟩ := h
    exact ⟨inside, _, hbody, rfl⟩

/-- All functions of a program that compiles are complete, and the main one has the query as its
body. -/
theorem lowerMain_implements {compiler : Compiler} {traced : Bool} {root : Node}
    (hregistry : compiler.registry = .standard)
    (h : compiler.lowerMain root (compiler.start traced) = .done u ws) {g : Nat}
    {routine : Routine} (hroutine : ws.code.routines[g]? = some routine) :
    ∃ body, routine.Implements ws.code.pool.constants body ∧ (g = 0 → body = root) := by
  obtain ⟨inside, locals, hbody, hcode⟩ := lowerMain_done h
  rw [hcode] at hroutine ⊢
  have hl : Faithful (lower compiler.registry compiler.settings) := by
    rw [lower, hregistry]
    exact lowerWithin_faithful _ _
  have hs₀ : ((compiler.start traced).entered (.function 0 0)).Sound :=
    entered_sound (start_sound compiler traced) nofun
  have hbody := body_lays hl hs₀ hbody
  have hmain := implements_of_passes hbody
  obtain ⟨breaks, hrun, -⟩ := hbody
  have hfunction : inside.code.currentFunction = 0 := hrun.grows.currentFunction
  rcases Assembly.routine_of_reserveLocals hroutine with ⟨-, rfl⟩ | ⟨hother, hroutine⟩
  · exact ⟨root, hmain, fun _ => rfl⟩
  · rw [hfunction] at hother
    obtain ⟨body, hbody⟩ :=
      hrun.grows.made g routine (Nat.pos_of_ne_zero (Ne.symm hother)) hroutine
    exact ⟨body, hbody, fun heq => absurd heq.symm hother⟩

/-- What compiles has been lowered to the end. -/
theorem run_done {compiler : Compiler} {traced : Bool} {root : Node} {program : Program}
    (h : (compiler.run traced root).map Prod.fst = .ok program) :
    ∃ ws, compiler.lowerMain root (compiler.start traced) = .done () ws ∧
      program = ws.code.toProgram := by
  unfold Compiler.run at h
  split at h
  · cases h
  · split at h
    · rename_i ws hlower
      exact ⟨ws, hlower, (Except.ok.inj h).symm⟩
    · cases h
    · cases h

theorem compile_done {compiler : Compiler} {root : Node} {program : Program}
    (h : compiler.compile root = .ok program) :
    ∃ ws, compiler.lowerMain root (compiler.start false) = .done () ws ∧
      program = ws.code.toProgram :=
  run_done h

/-- The functions of a program that compiles are those there are once the query is lowered. -/
theorem compile_routine {compiler : Compiler} {root : Node} {program : Program}
    (h : compiler.compile root = .ok program) {g : Nat} {function : CompiledFunction}
    (hfunction : program.functions[g]? = some function) :
    ∃ ws routine, compiler.lowerMain root (compiler.start false) = .done () ws ∧
      ws.code.routines[g]? = some routine ∧ program = ws.code.toProgram ∧
      function = Assembly.finish g routine := by
  obtain ⟨ws, hlower, rfl⟩ := compile_done h
  simp only [Assembly.toProgram, Array.getElem?_mapIdx, Option.map_eq_some_iff] at hfunction
  obtain ⟨routine, hroutine, rfl⟩ := hfunction
  exact ⟨ws, routine, hlower, hroutine, rfl, rfl⟩

/-- A complete function is laid out as a function of the program. -/
theorem finish_laid {code : Assembly} {g : Nat} {routine : Routine} {body : Node}
    {scopes : List Frame} (h : routine.Spans code.pool.constants body scopes)
    (hshort : (Assembly.finish g routine).code.size < wordLimit) :
    ∃ b : Spot, Laid (.ofFunction code.toProgram (Assembly.finish g routine)) {} (.body body)
        ⟨0, 0, true, scopes⟩ b ∧
      b.index = (Assembly.finish g routine).code.size := by
  have hword : routine.maxDepth.toUInt32.toNat = routine.maxDepth :=
    Nat.mod_eq_of_lt h.maxDepth_lt
  exact h.laid _ rfl (Nat.le_of_eq hword.symm) (fun _ _ hc => hc) hshort

/-- **Every function of a compiled program is the body of a node, laid out from its first
instruction to its last.**  The body of the main function is the query. -/
theorem compile_laid {compiler : Compiler} {root : Node} {program : Program}
    (hregistry : compiler.registry = .standard) (h : compiler.compile root = .ok program)
    {g : Nat} {function : CompiledFunction} (hfunction : program.functions[g]? = some function)
    (hshort : function.code.size < wordLimit) :
    ∃ (body : Node) (scopes : List Frame) (b : Spot), (g = 0 → body = root) ∧
      Laid (.ofFunction program function) {} (.body body) ⟨0, 0, true, scopes⟩ b ∧
      b.index = function.code.size := by
  obtain ⟨ws, routine, hlower, hroutine, rfl, rfl⟩ := compile_routine h hfunction
  obtain ⟨body, himplements, hmain⟩ := lowerMain_implements hregistry hlower hroutine
  obtain ⟨scopes, hspans⟩ := himplements.spans
  obtain ⟨b, hlaid, hend⟩ := finish_laid hspans hshort
  exact ⟨body, scopes, b, hmain, hlaid, hend⟩

end Layout

end QueryCompiler
