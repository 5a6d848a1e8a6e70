/-
Where the functions of a program come from.

Every function of a program is the body of a node.  A function `Stems` from a tree if
that node occurs in the tree, and if all that can be found in the function itself at its
start is its parameters.  Lowering a node of the tree `Makes` functions that stem from
it and leaves others alone: a rule makes what its parts make, and only that of lambdas
makes a function of its own besides.

The parts of a lambda are only known to be laid out in a sound workspace, and the
description of a rule in `Order/Rules` says nothing about that.  So the lowering of parts
is made to assert that the workspace is ready.  An action on an asserting lowering does
the same as before, or is at fault; and since the rules of the standard table are never
at fault, they do the same.
-/
import QueryCompiler.Proofs.Assignment.Visible
import QueryCompiler.Proofs.Order.Rules
import QueryCompiler.Proofs.Progress.Lowering

namespace QueryCompiler

open Layout Workspace

/-! ### Functions of a tree -/

/-- The function is the body of a node in the tree, and no slot of its own can be found at its start
but those of its parameters. -/
def Routine.Stems (routine : Routine) (constants : Array Constant) (root : Node) : Prop :=
  ∃ (body : Node) (scopes : List Frame), root.Occurs body ∧
    (∀ slot, Spot.Shows ⟨0, 0, true, scopes⟩ slot → slot < routine.params) ∧
    routine.Spans constants body scopes

namespace Routine.Stems

variable {routine : Routine} {constants more : Array Constant} {root : Node}

theorem mono (h : routine.Stems constants root)
    (hmore : ∀ (i : Nat) (c : Constant), constants[i]? = some c → more[i]? = some c) :
    routine.Stems more root := by
  obtain ⟨body, scopes, hbody, hshows, hspans⟩ := h
  exact ⟨body, scopes, hbody, hshows, hspans.mono hmore⟩

theorem reserve (h : routine.Stems constants root) (locals : UInt16) :
    (routine.reserve locals).Stems constants root := by
  obtain ⟨body, scopes, hbody, hshows, hspans⟩ := h
  exact ⟨body, scopes, hbody, hshows, hspans.maxDepth_lt, hspans.laid⟩

end Routine.Stems

namespace Assembly

variable {root : Node} {code code₁ code₂ : Assembly}

/-- The second program comes from the first by work on the current function, which keeps its
parameters, and by making functions that stem from the tree. -/
structure Makes (root : Node) (code code' : Assembly) : Prop where
  opened : code'.opened = code.opened
  size : code.routines.size ≤ code'.routines.size
  params : ∀ g < code.routines.size,
    code'.routines[g]?.map Routine.params = code.routines[g]?.map Routine.params
  others : ∀ g < code.routines.size, g ≠ code.currentFunction →
    code'.routines[g]? = code.routines[g]?
  pool : ∀ (i : Nat) (c : Constant), code.pool.constants[i]? = some c →
    code'.pool.constants[i]? = some c
  made : ∀ (g : Nat) (routine : Routine), code.routines.size ≤ g →
    code'.routines[g]? = some routine → routine.Stems code'.pool.constants root

theorem Continues.makes (h : Continues code code₁) : Makes root code code₁ where
  opened := h.opened
  size := Nat.le_of_eq h.size.symm
  params g _ := h.params g
  others g _ := h.others g
  pool := h.pool
  made g routine hg hroutine := by
    rw [← h.size] at hg
    rw [Array.getElem?_eq_none hg] at hroutine
    cases hroutine

namespace Makes

theorem currentFunction (h : Makes root code code₁) :
    code₁.currentFunction = code.currentFunction := by
  rw [Assembly.currentFunction, Assembly.currentFunction, h.opened]

theorem current_lt (h : Makes root code code₁)
    (hcurrent : code.currentFunction < code.routines.size) :
    code₁.currentFunction < code₁.routines.size := by
  rw [h.currentFunction]
  exact Nat.lt_of_lt_of_le hcurrent h.size

theorem trans (hcurrent : code.currentFunction < code.routines.size) (h : Makes root code code₁)
    (h' : Makes root code₁ code₂) : Makes root code code₂ where
  opened := h'.opened.trans h.opened
  size := Nat.le_trans h.size h'.size
  params g hg := (h'.params g (Nat.lt_of_lt_of_le hg h.size)).trans (h.params g hg)
  others g hg hother := by
    rw [h'.others g (Nat.lt_of_lt_of_le hg h.size) (by rw [h.currentFunction]; exact hother)]
    exact h.others g hg hother
  pool i c hc := h'.pool i c (h.pool i c hc)
  made g routine hg hroutine := by
    by_cases hfirst : g < code₁.routines.size
    · -- What was made first has not been touched since, as it is not the current function.
      have hother : g ≠ code₁.currentFunction := by
        rw [h.currentFunction]
        omega
      rw [h'.others g hfirst hother] at hroutine
      exact (h.made g routine hg hroutine).mono h'.pool
    · exact h'.made g routine (Nat.le_of_not_lt hfirst) hroutine

/-- The current function keeps its parameters. -/
theorem current_params (h : Makes root code code₁)
    (hcurrent : code.currentFunction < code.routines.size) :
    code₁.current.params = code.current.params := by
  have hparams := h.params _ hcurrent
  rw [Array.getElem?_eq_getElem hcurrent,
    Array.getElem?_eq_getElem (Nat.lt_of_lt_of_le hcurrent h.size)] at hparams
  rw [current, current, Array.getD_eq_getD_getElem?, Array.getD_eq_getD_getElem?,
    h.currentFunction, Array.getElem?_eq_getElem hcurrent,
    Array.getElem?_eq_getElem (Nat.lt_of_lt_of_le hcurrent h.size)]
  exact Option.some.inj hparams

end Makes

end Assembly

theorem Workspace.moveToLine_done {line : Nat} {ws ws' : Workspace} {u : Unit}
    (h : moveToLine line ws = .done u ws') : ws' = ws.atLine line :=
  (Outcome.done.inj h).2.symm

theorem Workspace.moveToLine_makes {line : Nat} {ws ws' : Workspace} {u : Unit} {root : Node}
    (h : moveToLine line ws = .done u ws') : Assembly.Makes root ws.code ws'.code := by
  obtain rfl := moveToLine_done h
  refine ⟨rfl, Nat.le_refl _, fun _ _ => rfl, fun _ _ _ => rfl, fun _ _ h => h, ?_⟩
  intro g routine hg hroutine
  rw [show (ws.atLine line).code.routines = ws.code.routines from rfl,
    Array.getElem?_eq_none hg] at hroutine
  cases hroutine

/-! ### Parts that make functions -/

/-- A step of a rule's own makes nothing. -/
theorem Tends.makes {α : Type} {own : Option FrameId} {action : Action Workspace α}
    (h : Tends Assembly.Continues own action) {root : Node} {ws ws' : Workspace} {x : α}
    (hdone : action ws = .done x ws') : Assembly.Makes root ws.code ws'.code := by
  have hends := h ws
  rw [hdone] at hends
  exact hends.1.makes

/-- An orderly action that continues the current function makes what its parts make. -/
theorem Orderly.makes {α : Type} {own : Option FrameId} {plan : Plan}
    {act : Lower → Action Workspace α} (h : Orderly Assembly.Continues own plan act)
    {lower : Lower} {root : Node} (hparts : ∀ node ws ws', lower node ws = .done () ws' →
      Assembly.Makes root ws.code ws'.code) {ws ws' : Workspace} {x : α}
    (hcurrent : ws.code.currentFunction < ws.code.routines.size)
    (hdone : act lower ws = .done x ws') : Assembly.Makes root ws.code ws'.code := by
  induction h generalizing ws ws' with
  | own h => exact h.makes hdone
  | part node => exact hparts node ws ws' hdone
  | bind _ _ ihfirst ihnext =>
      obtain ⟨y, ws₁, hfirst, hnext⟩ := Action.bind_done.mp hdone
      have hmakes := ihfirst hcurrent hfirst
      exact hmakes.trans hcurrent (ihnext y (hmakes.current_lt hcurrent) hnext)
  | fail => cases hdone
  | within state _ ih =>
      obtain ⟨y, last⟩ := x
      obtain ⟨inside, frame, outer, hbody, -, -, -, rfl⟩ := within_done hdone
      have hentered : (ws.entered state).code.currentFunction <
          (ws.entered state).code.routines.size := hcurrent
      have hinside := ih _ hentered hbody
      exact hinside

/-! ### Asserting lowerings -/

/-- Lower nodes as before, and be at fault as no rule is where what is asserted of a node and the
workspace does not hold. -/
noncomputable def Lower.asserting (lower : Lower) (P : Node → Workspace → Prop) : Lower :=
  fun node ws => open Classical in
    if P node ws then lower node ws else .fault (.notABranch .ret)

section

variable {lower : Lower} {P : Node → Workspace → Prop} {ws ws' : Workspace}

theorem Lower.asserting_cases (node : Node) : lower.asserting P node ws = lower node ws ∨
    lower.asserting P node ws = .fault (.notABranch .ret) := by
  unfold asserting
  split
  · exact .inl rfl
  · exact .inr rfl

theorem Lower.asserting_done {node : Node} {u : Unit}
    (h : lower.asserting P node ws = .done u ws') : P node ws ∧ lower node ws = .done u ws' := by
  unfold asserting at h
  split at h
  · exact ⟨‹_›, h⟩
  · cases h

theorem Lower.asserting_faithful (hl : Faithful lower) : Faithful (lower.asserting P) :=
  fun node ws ws' hs h => hl node ws ws' hs (asserting_done h).2

/-- **What is asserted makes no difference unless it fails.** -/
theorem Orderly.asserting {α : Type} {K : Assembly → Assembly → Prop} {own : Option FrameId}
    {plan : Plan} {act : Lower → Action Workspace α} (h : Orderly K own plan act) (lower : Lower)
    (P : Node → Workspace → Prop) (ws : Workspace) :
    act (lower.asserting P) ws = act lower ws ∨
      act (lower.asserting P) ws = .fault (.notABranch .ret) := by
  induction h generalizing ws with
  | own | fail => exact .inl rfl
  | part node => exact Lower.asserting_cases node
  | @bind own α β p q first next _ _ ihfirst ihnext =>
      dsimp only
      rcases ihfirst ws with heq | hstray
      · rw [Action.bind_apply, Action.bind_apply, heq]
        cases first lower ws with
        | done x ws₁ => exact ihnext x ws₁
        | failed error ws₁ => exact .inl rfl
        | fault fault => exact .inl rfl
      · rw [Action.bind_apply, hstray]
        exact .inr rfl
  | within state _ ih =>
      dsimp only
      rcases ih ⟨ws.scopes.nextSerial, state.scope⟩ (ws.entered state) with heq | hstray
      · rw [within_eq, within_eq, heq]
        exact .inl rfl
      · rw [within_eq, hstray]
        exact .inr rfl

/-- An action that ends as it may asserts without making a difference. -/
theorem Orderly.asserting_eq {α : Type} {K : Assembly → Assembly → Prop} {own : Option FrameId}
    {plan : Plan} {act : Lower → Action Workspace α} (h : Orderly K own plan act)
    {T : Progress.Terms} {post : α → Workspace → Prop}
    (hmeets : (act (lower.asserting P) ws).Meets T.Allowed post) :
    act (lower.asserting P) ws = act lower ws := by
  rcases h.asserting lower P ws with heq | hfault
  · exact heq
  · rw [hfault] at hmeets
    obtain ⟨-, hoverflow⟩ := hmeets
    cases hoverflow

end

/-! ### Lambdas -/

/-- What can be found of a function itself, from directly in it, are the names declared there. -/
theorem Frame.mem_slots_function {serial id : Nat} {bindings : List (String × UInt16)}
    {next slot : UInt16} {outer : List Frame}
    (h : (0, slot) ∈ slots 0 (⟨serial, bindings, .function id next⟩ :: outer)) :
    slot ∈ bindings.map Prod.snd := by
  rcases List.mem_append.mp h with hown | houter
  · simpa [FrameState.element?] using hown
  · rw [slots_from] at houter
    obtain ⟨entry, -, hentry⟩ := List.mem_map.mp houter
    have hdistance := (Prod.mk.inj hentry).1
    simp only [leaves, Frame.scope, FrameState.scope, if_true] at hdistance
    omega

section

variable {ws ws' : Workspace} {serial id : Nat} {bindings : List (String × UInt16)}
  {next : UInt16} {outer : List Frame}

/-- A name that is declared directly in a function takes its next slot. -/
theorem Workspace.declare_frames {name : Name} {slot : UInt16}
    (hframes : ws.scopes.frames = ⟨serial, bindings, .function id next⟩ :: outer)
    (h : declare name ws = .done slot ws') :
    (next + 1).toNat = next.toNat + 1 ∧ ws'.scopes.frames =
      ⟨serial, (name.text, next) :: bindings, .function id (next + 1)⟩ :: outer := by
  obtain ⟨_, htake, rfl⟩ := declare_done h
  obtain ⟨hnext, hlimit, rfl⟩ := takeSlot_done htake
  rw [ScopeStack.nextSlot?, hframes] at hnext
  obtain rfl : next = slot := Option.some.inj hnext
  constructor
  · unfold Frame.slotLimit at hlimit
    have hone : (1 : UInt16).toNat = 1 := rfl
    rw [UInt16.toNat_add]
    exact Nat.mod_eq_of_lt (by omega)
  · rw [reframe_frames, reframe_frames, hframes]
    rfl

/-- Parameters take the first slots of their function. -/
theorem Workspace.declareAll_frames {params : List Name} {u : Unit}
    (hframes : ws.scopes.frames = ⟨serial, bindings, .function id next⟩ :: outer)
    (hbound : ∀ slot ∈ bindings.map Prod.snd, slot < next)
    (h : declareAll params ws = .done u ws') :
    ∃ bindings' next', ws'.scopes.frames = ⟨serial, bindings', .function id next'⟩ :: outer ∧
      next'.toNat = next.toNat + params.length ∧
      ∀ slot ∈ bindings'.map Prod.snd, slot < next' := by
  induction params generalizing ws bindings next with
  | nil =>
      rw [declareAll, Action.forM_nil_done] at h
      subst h
      exact ⟨bindings, next, hframes, rfl, hbound⟩
  | cons param rest ih =>
      rw [declareAll, Action.forM_cons_done] at h
      obtain ⟨ws₁, hfirst, hrest⟩ := h
      obtain ⟨slot, _, hdeclare, hpure⟩ := Action.bind_done.mp hfirst
      obtain ⟨-, rfl⟩ := Action.pure_done.mp hpure
      obtain ⟨hnext, hframes₁⟩ := declare_frames hframes hdeclare
      have hbound₁ : ∀ slot ∈ ((param.text, next) :: bindings).map Prod.snd, slot < next + 1 := by
        intro slot hslot
        rw [UInt16.lt_iff_toNat_lt, hnext]
        rcases List.mem_cons.mp hslot with rfl | hmem
        · exact Nat.lt_succ_self _
        · exact Nat.lt_succ_of_lt (UInt16.lt_iff_toNat_lt.mp (hbound slot hmem))
      obtain ⟨bindings', next', hframes', hlength, hbound'⟩ := ih hframes₁ hbound₁ hrest
      refine ⟨bindings', next', hframes', ?_, hbound'⟩
      rw [hlength, hnext, List.length_cons]
      omega

end

section

variable {lower : Lower} {ws ws' inside : Workspace} {root : Node} {params : List Name}
  {body : Node}

/-- The function of a lambda is made with the functions inside it. -/
theorem Assembly.Makes.closed {arity locals : UInt16} {frame : Frame}
    (h : Makes root (Layout.opened ws arity).code inside.code)
    (hstems : inside.code.current.Stems inside.code.pool.constants root) :
    Makes root ws.code (Layout.closed (inside.left frame) locals ws.code.opened).code := by
  have hsize : (Layout.opened ws arity).code.routines.size = ws.code.routines.size + 1 :=
    Array.size_push ..
  have hfunction : inside.code.currentFunction = ws.code.routines.size := h.currentFunction
  have hkept : ∀ g < ws.code.routines.size,
      (Layout.closed (inside.left frame) locals ws.code.opened).code.routines[g]? =
        ws.code.routines[g]? := by
    intro g hg
    show (inside.code.reserveLocals locals).routines[g]? = _
    rw [reserveLocals, modifyCurrent, Array.getElem?_modify, hfunction, if_neg (Nat.ne_of_gt hg),
      h.others g (by omega) (Nat.ne_of_lt hg)]
    simp only [Layout.opened, Array.getElem?_push, if_neg (Nat.ne_of_lt hg)]
  refine ⟨rfl, ?_, fun g hg => by rw [hkept g hg], fun g hg _ => hkept g hg, h.pool, ?_⟩
  · show _ ≤ (inside.code.reserveLocals locals).routines.size
    have hgrown := h.size
    simp only [reserveLocals, modifyCurrent, Array.size_modify]
    omega
  · intro g routine hg hroutine
    rcases routine_of_reserveLocals hroutine with ⟨-, rfl⟩ | ⟨hother, hroutine⟩
    · exact hstems.reserve locals
    · have hother : inside.code.currentFunction ≠ g := hother
      exact h.made g routine (by omega) hroutine

/-- Declaring the parameters of a lambda makes nothing, so its body makes all that is made in it. -/
theorem lambdaBody_makes (hparts : ∀ node ws ws', lower node ws = .done () ws' →
      Assembly.Makes root ws.code ws'.code) {declared : Workspace} (hs : ws.Sound)
    (hparams : declareAll params (inLambda ws params) = .done () declared)
    (hlower : lower.body body declared = .done () inside) :
    Assembly.Makes root (inLambda ws params).code inside.code := by
  have hdeclares : Tends Assembly.Continues none (declareAll params) :=
    .forM (fun param => (Tends.declare param).bind fun _ => .pure _) params
  have horderly : Orderly Assembly.Continues none (.part body .nothing) fun lower => (do
      declareAll params
      lower.body body) :=
    .andThen hdeclares fun _ => .body body
  have hcurrent : (inLambda ws params).code.currentFunction <
      (inLambda ws params).code.routines.size := (opened_sound hs _).current
  exact horderly.makes hparts hcurrent (Action.bind_done.mpr ⟨_, declared, hparams, hlower⟩)

/-- The function of a lambda stems from the tree of the lambda: what can be found in it at its start
is its parameters. -/
theorem lambdaBody_stems (hl : Faithful lower) {declared : Workspace} (hs : ws.Sound)
    (hfew : params.length ≤ Frame.slotLimit) (hbody : root.Occurs body)
    (hparams : declareAll params (inLambda ws params) = .done () declared)
    (hlower : lower.body body declared = .done () inside)
    (hinside : Assembly.Makes root (inLambda ws params).code inside.code) :
    inside.code.current.Stems inside.code.pool.constants root := by
  have hpasses := lambdaBody_passes hl hs hparams hlower
  have hframe : (inLambda ws params).scopes.frames =
      ⟨ws.scopes.nextSerial, [], .function ws.code.routines.size 0⟩ :: ws.scopes.frames := rfl
  obtain ⟨bindings, next, hdeclared, hlength, hbound⟩ := declareAll_frames hframe nofun hparams
  refine ⟨body, declared.spot.scopes, hbody, fun slot hshows => ?_, spans_of_passes hpasses⟩
  rw [Spot.Shows, spot, Frame.slots_bare, hdeclared] at hshows
  have hlt := UInt16.lt_iff_toNat_lt.mp (hbound slot (Frame.mem_slots_function hshows))
  have harity : params.length.toUInt16.toNat = params.length :=
    Nat.mod_eq_of_lt (Nat.lt_succ_of_le hfew)
  have hparams : inside.code.current.params = params.length.toUInt16 := by
    rw [hinside.current_params (opened_sound hs _).current]
    simp [inLambda, opened, entered, Assembly.current, Assembly.currentFunction, Routine.start]
  rw [hparams, UInt16.lt_iff_toNat_lt, harity]
  have hzero : (0 : UInt16).toNat = 0 := rfl
  omega

/-- **A lambda makes a function of its own, besides those that its body makes.** -/
theorem Rule.lambda_makes (hl : Faithful lower) (hparts : ∀ node ws ws',
      lower node ws = .done () ws' → Assembly.Makes root ws.code ws'.code)
    (hs : ws.Sound) (hbody : root.Occurs body) {span : Span} {u : Unit}
    (h : Rule.lambda lower (.lambda params body span) ws = .done u ws') :
    Assembly.Makes root ws.code ws'.code := by
  obtain ⟨hfew, declared, inside, frame, outer, locals, last, closed, hparams, hlower, -, hclose,
    hmake⟩ := lambda_done h
  have hinside := lambdaBody_makes hparts hs hparams hlower
  have hstems := lambdaBody_stems hl hs hfew hbody hparams hlower hinside
  have hopened : (inside.left frame).code.opened = ws.code.routines.size :: ws.code.opened :=
    hinside.opened
  obtain rfl := closeFunction_done hopened hclose
  have hclosed : Assembly.Makes root ws.code
      (Layout.closed (inside.left frame) locals ws.code.opened).code :=
    Assembly.Makes.closed hinside hstems
  have htends : Tends Assembly.Continues none (emitWith .makeLambda (.function last.toUInt32)) :=
    .emitWith _ _
  exact hclosed.trans hs.current (htends.makes hmake)

end

/-! ### Lowering -/

namespace Progress

/-- A query without any promise about the depth. -/
def Terms.loose (root : Node) : Terms := ⟨root, False⟩

/-- Without such a promise a rule can be at work anywhere. -/
def Site.loose (root : Node) (ws : Workspace) (room : Nat) : Site (.loose root) where
  base := ws.code.depth
  opened := ws.code.opened
  room := room
  deep := False.elim
  nested := False.elim

/-- The node is part of the query, and the workspace is ready for it. -/
def Due (root node : Node) (ws : Workspace) : Prop :=
  root.Occurs node ∧ ∃ ends, Ready (.loose root) ends ws

variable {root node : Node} {ends : Nat → Nat} {ws : Workspace} {lower : Lower} {room : Nat}

theorem Ready.start (h : Ready (.loose root) ends ws) :
    Reaches (.loose root ws room) ends false [] (ws.code.depth + 0) ws ws :=
  Reaches.start h rfl rfl

theorem asserting_lowers (hl : Lowers (.loose root) room lower) :
    Lowers (.loose root) room (lower.asserting (Due root)) := by
  intro node ends ws hnode hready hdeep hnested
  rw [Lower.asserting, if_pos ⟨hnode, ends, hready⟩]
  exact hl node ends ws hnode hready hdeep hnested

/-- A rule of the standard table lowers parts only when they are due. -/
theorem standard_asserting (hl : Lowers (.loose root) room lower) (hnode : root.Occurs node)
    (hready : Ready (.loose root) ends ws) :
    Rule.standard node.construct (lower.asserting (Due root)) node ws =
      Rule.standard node.construct lower node ws := by
  have horderly : Orderly Assembly.KeepsLine none node.plan fun lower =>
      Rule.standard node.construct lower node := Rule.standard_orderly node
  have hl' : Lowers (.loose root) (Site.loose root ws room).room (lower.asserting (Due root)) :=
    asserting_lowers hl
  exact horderly.asserting_eq (standard_fulfils hl' hnode False.elim hready.start)

/-- The body of a function is lowered when it is due. -/
theorem body_asserting (hl : Lowers (.loose root) room lower) (hnode : root.Occurs node)
    (hready : Ready (.loose root) ends ws) :
    (lower.asserting (Due root)).body node ws = lower.body node ws := by
  have horderly : Orderly Assembly.Continues none (.part node .nothing) fun lower =>
      lower.body node := .body node
  have hl' : Lowers (.loose root) (Site.loose root ws room).room (lower.asserting (Due root)) :=
    asserting_lowers hl
  exact horderly.asserting_eq (body_reaches hl' hnode hready.start)

end Progress

section

variable {root node : Node} {ws ws' : Workspace} {u : Unit}

/-- A rule makes what the parts of its node make, and what a lambda is. -/
theorem Rule.standard_makes {lower : Lower} (hl : Faithful lower) (hparts : ∀ node ws ws',
      lower node ws = .done () ws' → Assembly.Makes root ws.code ws'.code)
    (hs : ws.Sound) (hnode : root.Occurs node)
    (h : Rule.standard node.construct lower node ws = .done u ws') :
    Assembly.Makes root ws.code ws'.code := by
  by_cases hlambda : node.construct = .lambda
  · cases node with
    | lambda params body span =>
        exact lambda_makes hl hparts hs (hnode.part List.mem_cons_self) h
    | _ => cases hlambda
  · have horderly : Orderly Assembly.Continues none node.plan fun lower =>
        Rule.standard node.construct lower node := standard_continues hlambda
    exact horderly.makes hparts hs.current h

/-- **A node of the tree makes functions that stem from the tree.** -/
theorem lowerWithin_makes (settings : Settings) (room : Nat) (hdue : Progress.Due root node ws)
    (h : lowerWithin .standard settings room node ws = .done () ws') :
    Assembly.Makes root ws.code ws'.code := by
  induction room generalizing node ws ws' with
  | zero =>
      simp only [lowerWithin, Action.bind_done, Action.not_fail_done, and_false,
        exists_false] at h
  | succ room ih =>
      simp only [lowerWithin, Action.bind_done, Action.ofResult_done] at h
      obtain ⟨rule, _, ⟨hrule, rfl⟩, h⟩ := h
      obtain rfl : Rule.standard node.construct = rule := Except.ok.inj hrule
      obtain ⟨ws₁, ws₂, ws₃, line, hstart, hlowering, hmove, hbalance⟩ := supervise_done h
      obtain ⟨hnode, ends, hready⟩ := hdue
      obtain ⟨hready₁, hstarted⟩ : Progress.Ready (.loose root) ends ws₁ ∧
          Assembly.Makes root ws.code ws₁.code := by
        rcases hstart with rfl | hstart
        · exact ⟨hready, (Assembly.Continues.refl _).makes⟩
        · refine ⟨?_, moveToLine_makes hstart⟩
          obtain rfl := moveToLine_done hstart
          exact hready.atLine _
      have hrule : Assembly.Makes root ws₁.code ws₂.code := by
        have hl := Progress.lowerWithin_lowers (T := .loose root) settings room
        rw [← Progress.standard_asserting hl hnode hready₁] at hlowering
        have hfaithful := lowerWithin_faithful settings room
        refine Rule.standard_makes (Lower.asserting_faithful hfaithful) ?_ hready₁.sound hnode
          hlowering
        intro part ws ws' hpart
        obtain ⟨hdue, hdone⟩ := Lower.asserting_done hpart
        exact ih hdue hdone
      have hmoved : Assembly.Makes root ws₂.code ws₃.code := moveToLine_makes hmove
      have hchecked : Assembly.Makes root ws₃.code ws'.code := by
        have htends : Tends Assembly.Continues none
            (Contract.checkBalance settings node ws₁.code.depth) :=
          Contract.checkBalance_tends settings node _
        exact htends.makes hbalance
      have hcurrent := hready.sound.current
      have hcurrent₁ := hstarted.current_lt hcurrent
      have hcurrent₂ := hrule.current_lt hcurrent₁
      exact hstarted.trans hcurrent (hrule.trans hcurrent₁ (hmoved.trans hcurrent₂ hchecked))

/-! ### Compiled programs -/

/-- The functions there are once a query is lowered stem from it. -/
theorem lowerMain_stems {compiler : Compiler} {traced : Bool}
    (hregistry : compiler.registry = .standard)
    (h : compiler.lowerMain root (compiler.start traced) = .done u ws) {g : Nat}
    {routine : Routine} (hroutine : ws.code.routines[g]? = some routine) :
    routine.Stems ws.code.pool.constants root := by
  obtain ⟨inside, locals, hbody, hcode⟩ := lowerMain_done h
  rw [lower, hregistry] at hbody
  rw [hcode] at hroutine ⊢
  have hready := Progress.start_ready (.loose root) compiler traced
  have hmain : inside.code.current.Stems inside.code.pool.constants root := by
    have hlays := body_lays (lowerWithin_faithful _ _) hready.sound hbody
    refine ⟨root, _, .root, fun slot hshows => ?_, spans_of_passes hlays⟩
    cases Frame.mem_slots_function hshows
  have hmakes : Assembly.Makes root ((compiler.start traced).entered (.function 0 0)).code
      inside.code := by
    rw [← Progress.body_asserting (Progress.lowerWithin_lowers _ _) .root hready] at hbody
    have horderly : Orderly Assembly.Continues none (.part root .nothing) fun lower =>
        lower.body root := .body root
    refine horderly.makes ?_ hready.sound.current hbody
    intro part ws ws' hpart
    obtain ⟨hdue, hdone⟩ := Lower.asserting_done hpart
    exact lowerWithin_makes _ _ hdue hdone
  rcases Assembly.routine_of_reserveLocals hroutine with ⟨-, rfl⟩ | ⟨hother, hroutine⟩
  · exact hmain.reserve locals
  · have hfunction : inside.code.currentFunction = 0 := hmakes.currentFunction
    rw [hfunction] at hother
    exact hmakes.made g routine (Nat.pos_of_ne_zero (Ne.symm hother)) hroutine

/-- **Every function of a compiled program is the body of a node of the query,** laid out from its
first instruction to its last, and at its start nothing of its own can be found but its
parameters. -/
theorem compile_stems {compiler : Compiler} {program : Program}
    (hregistry : compiler.registry = .standard) (h : compiler.compile root = .ok program)
    {function : CompiledFunction} (hfunction : function ∈ program.functions)
    (hshort : function.code.size < wordLimit) :
    ∃ (body : Node) (scopes : List Frame) (b : Spot), root.Occurs body ∧
      (∀ slot, Spot.Shows ⟨0, 0, true, scopes⟩ slot → slot < function.params) ∧
      Laid (.ofFunction program function) {} (.body body) ⟨0, 0, true, scopes⟩ b ∧
      b.index = function.code.size := by
  obtain ⟨g, hg⟩ := Array.mem_iff_getElem?.mp hfunction
  obtain ⟨ws, routine, hlower, hroutine, rfl, rfl⟩ := compile_routine h hg
  obtain ⟨body, scopes, hbody, hshows, hspans⟩ := lowerMain_stems hregistry hlower hroutine
  obtain ⟨b, hlaid, hend⟩ := finish_laid hspans hshort
  exact ⟨body, scopes, b, hbody, hshows, hlaid, hend⟩

end

end QueryCompiler
