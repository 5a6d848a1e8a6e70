/-
What the rules for expressions reach.

A way to lower nodes does its work if from every workspace that is ready it reaches
one that is ready again, with the depth that the balance of the node asks for.  Given
that of the parts, each rule is followed from one operation to the next.
-/
import QueryCompiler.Proofs.Progress.Operations

namespace QueryCompiler

/-- How much deeper the operand stack is taken to be after a node. -/
def Balance.gain : Balance → Nat
  | value => 1
  | effect | diverges => 0

theorem UnaryOperator.opcode_uses (op : UnaryOperator) : op.opcode.Uses .none ⟨1, 1⟩ := by
  cases op <;> exact ⟨rfl, rfl, rfl⟩

theorem BinaryOperator.opcode_uses (op : BinaryOperator) : op.opcode.Uses .none ⟨2, 1⟩ := by
  cases op <;> exact ⟨rfl, rfl, rfl⟩

namespace Progress

open Workspace

/-- Every part of the query is lowered as it should be, with room for some levels of the tree. -/
def Lowers (T : Terms) (room : Nat) (lower : Lower) : Prop :=
  ∀ (node : Node) (ends : Nat → Nat) (ws : Workspace), T.root.Occurs node → Ready T ends ws →
    (T.bounded → ws.code.depth + 65535 * room + 65536 ≤ wordLimit) →
    (T.bounded → ws.code.opened.length + room ≤ 65536) →
    (lower node ws).Meets T.Allowed fun _ ws' =>
      Ready T ends ws' ∧ Course ws ws' ∧
        ws'.code.depth = ws.code.depth + node.construct.balance.gain

/-- What a rule has to reach for its node.  Where control does not come out at the end, the depth
there does not matter. -/
def Fulfils {T : Terms} (S : Site T) (ends : Nat → Nat) (node : Node) (ws ws' : Workspace) : Prop :=
  ∃ depth, Reaches S ends node.construct.scope?.isSome [] depth ws ws' ∧
    (node.construct.balance ≠ .diverges → depth = S.base + node.construct.balance.gain)

variable {T : Terms} {S : Site T} {ends : Nat → Nat} {opens : Bool}
  {labels : List (Opcode × PendingJump)} {k : Nat} {ws ws₁ : Workspace} {lower : Lower}
  {node parent : Node}

/-! ### The ways to ask for a node -/

theorem lower_reaches (hl : Lowers T S.room lower) (hnode : T.root.Occurs node)
    (h : Reaches S ends opens labels (S.base + k) ws ws₁) (hk : k ≤ 65535) :
    (lower node ws₁).Meets T.Allowed fun _ ws₂ =>
      Reaches S ends opens labels (S.base + (k + node.construct.balance.gain)) ws ws₂ := by
  have hdeep : T.bounded → ws₁.code.depth + 65535 * S.room + 65536 ≤ wordLimit := by
    intro hbounded
    have hdeep := S.deep hbounded
    rw [h.depth]
    omega
  have hnested : T.bounded → ws₁.code.opened.length + S.room ≤ 65536 := by
    rw [h.opened]
    exact S.nested
  refine (hl node ends ws₁ hnode h.ready hdeep hnested).mono ?_
  rintro _ ws₂ ⟨hready, hcourse, hdepth⟩
  refine h.next hready hcourse ?_
  rw [hdepth, h.depth, Nat.add_assoc]

/-- The depth at which a node starts is read before anything else. -/
theorem value_apply (lower : Lower) (node : Node) (ws : Workspace) :
    lower.value node ws = (match node.construct.balance with
      | .value => lower node
      | .diverges => do
        lower node
        let after ← Action.ofWord (addWord ws.code.depth 1)
        resetDepth after
      | .effect => do
        let expected ← Action.ofWord (addWord ws.code.depth 1)
        Action.fail (.wrongBalance node.construct expected ws.code.depth node.span) :
      Action Workspace Unit) ws := rfl

theorem addWord_meets {a b : Nat} (hfit : T.bounded → a + b < wordLimit) :
    ((Action.ofWord (addWord a b) : Action Workspace Nat) ws).Meets T.Allowed fun sum ws' =>
      ws = ws' ∧ sum = a + b ∧ sum < wordLimit :=
  Outcome.Meets.addWord (fun hlt => ⟨rfl, rfl, hlt⟩) (T.allowed_overflow hfit)

/-- Where a value is needed there is one then, or the part that yields none is to blame. -/
theorem value_reaches (hl : Lowers T S.room lower) (hparent : T.root.Occurs parent)
    (hnode : node ∈ parent.operands) (h : Reaches S ends opens labels (S.base + k) ws ws₁)
    (hk : k ≤ 65535) :
    (lower.value node ws₁).Meets T.Allowed fun _ ws₂ =>
      Reaches S ends opens labels (S.base + (k + 1)) ws ws₂ := by
  have hfit : T.bounded → ws₁.code.depth + 1 < wordLimit := by
    rw [h.depth]
    exact S.fits (Nat.succ_le_succ hk)
  have hnext := lower_reaches hl (hparent.operand hnode) h hk
  rw [value_apply]
  cases hkind : node.construct.balance with
  | value =>
      rw [hkind] at hnext
      exact hnext
  | diverges =>
      refine hnext.bind fun _ ws₂ h₂ => ?_
      refine (addWord_meets hfit).bind ?_
      rintro after _ ⟨rfl, rfl, hlt⟩
      refine (resetDepth_reaches h₂ hlt).mono fun _ ws₃ h₃ => ?_
      rw [h.depth] at h₃
      exact h₃
  | effect =>
      refine (addWord_meets hfit).bind ?_
      rintro expected _ ⟨rfl, rfl, -⟩
      exact .inl ⟨parent, node, hparent, hnode, rfl, hkind, rfl, rfl⟩

/-- As a statement a node leaves the depth as it was. -/
theorem statement_reaches (hl : Lowers T S.room lower) (hnode : T.root.Occurs node)
    (h : Reaches S ends opens labels (S.base + k) ws ws₁) (hk : k ≤ 65535) :
    (lower.statement node ws₁).Meets T.Allowed fun _ ws₂ =>
      Reaches S ends opens labels (S.base + k) ws ws₂ := by
  refine (lower_reaches hl hnode h hk).bind fun _ ws₂ h₂ => ?_
  cases hkind : node.construct.balance with
  | value =>
      rw [hkind] at h₂
      exact emit_reaches .pop ⟨1, 0⟩ k ⟨rfl, rfl, rfl⟩ h₂ (Nat.le_succ_of_le hk)
  | effect | diverges =>
      rw [hkind] at h₂
      exact h₂

theorem statements_reaches (hl : Lowers T S.room lower) {nodes : List Node}
    (hnodes : ∀ node ∈ nodes, T.root.Occurs node)
    (h : Reaches S ends opens labels (S.base + k) ws ws₁) (hk : k ≤ 65535) :
    (lower.statements nodes ws₁).Meets T.Allowed fun _ ws₂ =>
      Reaches S ends opens labels (S.base + k) ws ws₂ := by
  refine Outcome.Meets.forM (fun _ ws₂ => Reaches S ends opens labels (S.base + k) ws ws₂) h ?_
  intro before node after ws₂ hsplit h₂
  refine statement_reaches hl (hnodes node ?_) h₂ hk
  rw [hsplit]
  exact List.mem_append_right _ List.mem_cons_self

/-- Every value adds one to the depth. -/
theorem values_reaches (hl : Lowers T S.room lower) (hparent : T.root.Occurs parent)
    {nodes : List Node} (hnodes : ∀ node ∈ nodes, node ∈ parent.operands)
    (h : Reaches S ends opens labels (S.base + k) ws ws₁) (hk : k + nodes.length ≤ 65536) :
    (lower.values nodes ws₁).Meets T.Allowed fun _ ws₂ =>
      Reaches S ends opens labels (S.base + (k + nodes.length)) ws ws₂ := by
  refine Outcome.Meets.forM
    (fun done ws₂ => Reaches S ends opens labels (S.base + (k + done.length)) ws ws₂) h ?_
  intro before node after ws₂ hsplit h₂
  have hlength : nodes.length = before.length + (after.length + 1) := by
    rw [hsplit, List.length_append, List.length_cons]
  have hmem : node ∈ nodes := by
    rw [hsplit]
    exact List.mem_append_right _ List.mem_cons_self
  rw [List.length_append, List.length_singleton, ← Nat.add_assoc k]
  exact value_reaches hl hparent (hnodes node hmem) h₂ (by omega)

/-- The body of a function, with a return at its end if control comes there. -/
theorem body_reaches (hl : Lowers T S.room lower) (hnode : T.root.Occurs node)
    (h : Reaches S ends opens labels (S.base + 0) ws ws₁) :
    (lower.body node ws₁).Meets T.Allowed fun _ ws₂ =>
      ∃ depth, Reaches S ends opens labels depth ws ws₂ := by
  have hzero : Constant.int 0 ∈ T.root.constants := List.mem_cons_self
  unfold Lower.body
  cases hkind : node.construct.balance with
  | value =>
      refine (pushConstant_reaches hzero h (by decide)).bind fun _ ws₂ h₂ => ?_
      have hvalue := lower_reaches hl hnode h₂ (by decide)
      have hlower : lower.value node ws₂ = lower node ws₂ := by
        rw [value_apply, hkind]
      rw [hkind] at hvalue
      rw [← hlower] at hvalue
      refine hvalue.bind fun _ ws₃ h₃ => ?_
      exact (emit_reaches .ret ⟨2, 0⟩ 0 ⟨rfl, rfl, rfl⟩ h₃ (by decide)).mono
        fun _ ws₄ h₄ => ⟨_, h₄⟩
  | effect =>
      have hlower := lower_reaches hl hnode h (by decide)
      rw [hkind] at hlower
      refine hlower.bind fun _ ws₂ h₂ => ?_
      rw [reachable_bind]
      split
      · refine (pushConstant_reaches hzero h₂ (by decide)).bind fun _ ws₃ h₃ => ?_
        refine (emit_reaches .pushNull ⟨0, 1⟩ 1 ⟨rfl, rfl, rfl⟩ h₃ (by decide)).bind
          fun _ ws₄ h₄ => ?_
        exact (emit_reaches .ret ⟨2, 0⟩ 0 ⟨rfl, rfl, rfl⟩ h₄ (by decide)).mono
          fun _ ws₅ h₅ => ⟨_, h₅⟩
      · exact ⟨_, h₂⟩
  | diverges =>
      have hlower := lower_reaches hl hnode h (by decide)
      exact hlower.mono fun _ ws₂ h₂ => ⟨_, h₂⟩

/-! ### Values that take one instruction -/

theorem literal_fulfils (lower : Lower) {value : Constant} {span : Span}
    (hnode : T.root.Occurs (.literal value span))
    (h : Reaches S ends false [] (S.base + 0) ws ws) :
    (Rule.literal lower (.literal value span) ws).Meets T.Allowed fun _ ws' =>
      Fulfils S ends (.literal value span) ws ws' := by
  have hpooled : value ∈ (Node.literal value span).ownConstants →
      (pushConstant value ws).Meets T.Allowed fun _ ws' =>
        Fulfils S ends (.literal value span) ws ws' := by
    intro hvalue
    exact (pushConstant_reaches (Node.mem_constants hnode hvalue) h (by decide)).mono
      fun _ ws' h' => ⟨_, h', fun _ => rfl⟩
  have hdirect : ∀ op : Opcode, op.Uses .none ⟨0, 1⟩ → (emit op ws).Meets T.Allowed fun _ ws' =>
      Fulfils S ends (.literal value span) ws ws' := by
    intro op hop
    exact (emit_reaches op ⟨0, 1⟩ 0 hop h (by decide)).mono fun _ ws' h' => ⟨_, h', fun _ => rfl⟩
  cases value with
  | null => exact hdirect .pushNull ⟨rfl, rfl, rfl⟩
  | bool value =>
      cases value with
      | true => exact hdirect .pushTrue ⟨rfl, rfl, rfl⟩
      | false => exact hdirect .pushFalse ⟨rfl, rfl, rfl⟩
  | int | float | string => exact hpooled List.mem_cons_self

/-- A name is looked up through all functions around it, of which there are not too many. -/
theorem ident_fulfils (lower : Lower) {name : String} {span : Span}
    (hnode : T.root.Occurs (.ident name span))
    (hnested : T.bounded → S.opened.length ≤ Frame.slotLimit)
    (h : Reaches S ends false [] (S.base + 0) ws ws) :
    (Rule.ident lower (.ident name span) ws).Meets T.Allowed fun _ ws' =>
      Fulfils S ends (.ident name span) ws ws' := by
  refine (findLocal_meets name h.ready (by rw [h.opened]; exact hnested)).bind ?_
  rintro found _ ⟨rfl, hfound⟩
  cases found with
  | some ref =>
      exact (load_reaches (.name hfound) h (by decide)).mono fun _ ws' h' => ⟨_, h', fun _ => rfl⟩
  | none =>
      have hname := Node.mem_constants hnode List.mem_cons_self
      exact (emitName_reaches .loadGlobal ⟨0, 1⟩ 0 ⟨rfl, rfl, rfl⟩ hname h (by decide)).mono
        fun _ ws' h' => ⟨_, h', fun _ => rfl⟩

theorem param_fulfils (lower : Lower) {name : String} {span : Span}
    (hnode : T.root.Occurs (.param name span))
    (h : Reaches S ends false [] (S.base + 0) ws ws) :
    (Rule.param lower (.param name span) ws).Meets T.Allowed fun _ ws' =>
      Fulfils S ends (.param name span) ws ws' := by
  have hname := Node.mem_constants hnode List.mem_cons_self
  exact (emitName_reaches .loadParam ⟨0, 1⟩ 0 ⟨rfl, rfl, rfl⟩ hname h (by decide)).mono
    fun _ ws' h' => ⟨_, h', fun _ => rfl⟩

theorem current_fulfils (lower : Lower) {span : Span} (hnode : T.root.Occurs (.current span))
    (hnested : T.bounded → S.opened.length ≤ Frame.slotLimit)
    (h : Reaches S ends false [] (S.base + 0) ws ws) :
    (Rule.current lower (.current span) ws).Meets T.Allowed fun _ ws' =>
      Fulfils S ends (.current span) ws ws' := by
  refine (findElement_meets h.ready hnode (by rw [h.opened]; exact hnested)).bind ?_
  rintro ref _ ⟨rfl, hfound⟩
  exact (load_reaches (.element hfound) h (by decide)).mono fun _ ws' h' => ⟨_, h', fun _ => rfl⟩

/-! ### Values made of others -/

theorem list_fulfils (hl : Lowers T S.room lower) {items : List Node} {span : Span}
    (hnode : T.root.Occurs (.list items span))
    (h : Reaches S ends false [] (S.base + 0) ws ws) :
    (Rule.list lower (.list items span) ws).Meets T.Allowed fun _ ws' =>
      Fulfils S ends (.list items span) ws ws' := by
  refine (emit_reaches .newList ⟨0, 1⟩ 0 ⟨rfl, rfl, rfl⟩ h (by decide)).bind fun _ ws₁ h₁ => ?_
  refine Outcome.Meets.mono (Outcome.Meets.forM
    (fun _ ws₂ => Reaches S ends false [] (S.base + 1) ws ws₂) h₁ ?_)
    fun _ ws' h' => ⟨_, h', fun _ => rfl⟩
  intro before item after ws₂ hsplit h₂
  have hitem : item ∈ (Node.list items span).operands := by
    rw [Node.operands, hsplit]
    exact List.mem_append_right _ List.mem_cons_self
  refine (value_reaches hl hnode hitem h₂ (by decide)).bind fun _ ws₃ h₃ => ?_
  exact emit_reaches .push ⟨2, 1⟩ 0 ⟨rfl, rfl, rfl⟩ h₃ (by decide)

theorem object_fulfils (hl : Lowers T S.room lower) {fields : List (String × Node)} {span : Span}
    (hnode : T.root.Occurs (.object fields span))
    (h : Reaches S ends false [] (S.base + 0) ws ws) :
    (Rule.object lower (.object fields span) ws).Meets T.Allowed fun _ ws' =>
      Fulfils S ends (.object fields span) ws ws' := by
  refine (emit_reaches .newObject ⟨0, 1⟩ 0 ⟨rfl, rfl, rfl⟩ h (by decide)).bind fun _ ws₁ h₁ => ?_
  refine Outcome.Meets.mono (Outcome.Meets.forM
    (fun _ ws₂ => Reaches S ends false [] (S.base + 1) ws ws₂) h₁ ?_)
    fun _ ws' h' => ⟨_, h', fun _ => rfl⟩
  intro before field after ws₂ hsplit h₂
  have hmem : field ∈ fields := by
    rw [hsplit]
    exact List.mem_append_right _ List.mem_cons_self
  have hvalue : field.2 ∈ (Node.object fields span).operands := List.mem_map_of_mem hmem
  have hkey : Constant.string field.1 ∈ T.root.constants :=
    Node.mem_constants hnode (List.mem_map.mpr ⟨field, hmem, rfl⟩)
  refine (value_reaches hl hnode hvalue h₂ (by decide)).bind fun _ ws₃ h₃ => ?_
  exact emitName_reaches .put ⟨2, 1⟩ 0 ⟨rfl, rfl, rfl⟩ hkey h₃ (by decide)

theorem member_fulfils (hl : Lowers T S.room lower) {owner : Node} {name : String} {span : Span}
    (hnode : T.root.Occurs (.member owner name span))
    (h : Reaches S ends false [] (S.base + 0) ws ws) :
    (Rule.member lower (.member owner name span) ws).Meets T.Allowed fun _ ws' =>
      Fulfils S ends (.member owner name span) ws ws' := by
  have hname := Node.mem_constants hnode List.mem_cons_self
  refine (value_reaches hl hnode List.mem_cons_self h (by decide)).bind fun _ ws₁ h₁ => ?_
  exact (emitName_reaches .getMember ⟨1, 1⟩ 0 ⟨rfl, rfl, rfl⟩ hname h₁ (by decide)).mono
    fun _ ws' h' => ⟨_, h', fun _ => rfl⟩

/-- Two operands, and an instruction that makes one value of them. -/
theorem operands_reach (hl : Lowers T S.room lower) {left right : Node} {op : Opcode}
    (hnode : T.root.Occurs node) (hleft : left ∈ node.operands) (hright : right ∈ node.operands)
    (hop : op.Uses .none ⟨2, 1⟩) (h : Reaches S ends false [] (S.base + 0) ws ws) :
    ((do
      lower.value left
      lower.value right
      emit op : Action Workspace Unit) ws).Meets T.Allowed fun _ ws' =>
        Reaches S ends false [] (S.base + 1) ws ws' := by
  refine (value_reaches hl hnode hleft h (by decide)).bind fun _ ws₁ h₁ => ?_
  refine (value_reaches hl hnode hright h₁ (by decide)).bind fun _ ws₂ h₂ => ?_
  exact emit_reaches op ⟨2, 1⟩ 0 hop h₂ (by decide)

theorem index_fulfils (hl : Lowers T S.room lower) {owner subscript : Node} {span : Span}
    (hnode : T.root.Occurs (.index owner subscript span))
    (h : Reaches S ends false [] (S.base + 0) ws ws) :
    (Rule.index lower (.index owner subscript span) ws).Meets T.Allowed fun _ ws' =>
      Fulfils S ends (.index owner subscript span) ws ws' :=
  (operands_reach hl hnode (by simp [Node.operands]) (by simp [Node.operands])
    ⟨rfl, rfl, rfl⟩ h).mono fun _ _ h' => ⟨_, h', fun _ => rfl⟩

/-- A call finds its callee and all of its arguments on the stack. -/
theorem call_fulfils (hl : Lowers T S.room lower) {callee : Node} {arguments : List Node}
    {span : Span} (hnode : T.root.Occurs (.call callee arguments span))
    (h : Reaches S ends false [] (S.base + 0) ws ws) :
    (Rule.call lower (.call callee arguments span) ws).Meets T.Allowed fun _ ws' =>
      Fulfils S ends (.call callee arguments span) ws ws' := by
  simp only [Rule.call]
  by_cases hmany : 65535 < arguments.length
  · rw [if_pos hmany]
    exact .inl ⟨callee, arguments, span, hnode, hmany, rfl⟩
  · rw [if_neg hmany]
    have hfew : arguments.length ≤ 65535 := Nat.le_of_not_lt hmany
    refine (value_reaches hl hnode (by simp [Node.operands]) h (by decide)).bind
      fun _ ws₁ h₁ => ?_
    have harguments : ∀ node ∈ arguments, node ∈ (Node.call callee arguments span).operands :=
      fun node hmem => List.mem_cons_of_mem _ hmem
    refine (values_reaches hl hnode harguments h₁ (by omega)).bind fun _ ws₂ h₂ => ?_
    have hcount : arguments.length.toUInt16.toNat = arguments.length :=
      Nat.mod_eq_of_lt (Nat.lt_succ_of_le hfew)
    have huse : (Instruction.mk .call (.count arguments.length.toUInt16)).stackUse =
        ⟨arguments.length + 1, 1⟩ := by
      simp only [Instruction.stackUse, Opcode.stackUse, hcount]
    have h₂ : Reaches S ends false [] (S.base + (0 + (arguments.length + 1))) ws ws₂ := by
      rw [Nat.zero_add, Nat.add_comm arguments.length 1]
      exact h₂
    have hstep : Step ws₂ (ws₂.wrote ⟨.call, .count arguments.length.toUInt16⟩) := .write rfl
    exact (emitWith_reaches _ huse rfl (h₂.course.trans (.step hstep)) h₂
      (show 0 + 1 ≤ 65536 by decide)).mono
      fun _ ws' h' => ⟨_, h', fun _ => rfl⟩

theorem unary_fulfils (hl : Lowers T S.room lower) {op : UnaryOperator} {operand : Node}
    {span : Span} (hnode : T.root.Occurs (.unary op operand span))
    (h : Reaches S ends false [] (S.base + 0) ws ws) :
    (Rule.unary lower (.unary op operand span) ws).Meets T.Allowed fun _ ws' =>
      Fulfils S ends (.unary op operand span) ws ws' := by
  refine (value_reaches hl hnode List.mem_cons_self h (by decide)).bind fun _ ws₁ h₁ => ?_
  exact (emit_reaches op.opcode ⟨1, 1⟩ 0 op.opcode_uses h₁ (by decide)).mono
    fun _ ws' h' => ⟨_, h', fun _ => rfl⟩

theorem binary_fulfils (hl : Lowers T S.room lower) {op : BinaryOperator} {left right : Node}
    {span : Span} (hnode : T.root.Occurs (.binary op left right span))
    (h : Reaches S ends false [] (S.base + 0) ws ws) :
    (Rule.binary lower (.binary op left right span) ws).Meets T.Allowed fun _ ws' =>
      Fulfils S ends (.binary op left right span) ws ws' :=
  (operands_reach hl hnode (by simp [Node.operands]) (by simp [Node.operands])
    op.opcode_uses h).mono fun _ _ h' => ⟨_, h', fun _ => rfl⟩

/-- The jump that skips the right operand arrives with the left one, as deep as the right one
leaves the stack. -/
theorem logical_fulfils (hl : Lowers T S.room lower) {op : LogicalOperator} {left right : Node}
    {span : Span} (hnode : T.root.Occurs (.logical op left right span))
    (h : Reaches S ends false [] (S.base + 0) ws ws) :
    (Rule.logical lower (.logical op left right span) ws).Meets T.Allowed fun _ ws' =>
      Fulfils S ends (.logical op left right span) ws ws' := by
  have hskip : op.skip.Uses .target ⟨1, 0⟩ ∧ op.skip.branchUse? = some ⟨1, 0⟩ := by
    cases op <;> exact ⟨⟨rfl, rfl, rfl⟩, rfl⟩
  refine (value_reaches hl hnode (by simp [Node.operands]) h (by decide)).bind fun _ ws₁ h₁ => ?_
  refine (emit_reaches .dup ⟨1, 2⟩ 0 ⟨rfl, rfl, rfl⟩ h₁ (by decide)).bind fun _ ws₂ h₂ => ?_
  refine (jump_reaches op.skip ⟨1, 0⟩ 0 1 hskip.1 hskip.2 h₂ (by decide) (by decide)).bind ?_
  rintro decided ws₃ ⟨h₃, harrive, -⟩
  refine (emit_reaches .pop ⟨1, 0⟩ 0 ⟨rfl, rfl, rfl⟩ h₃ (by decide)).bind fun _ ws₄ h₄ => ?_
  refine (value_reaches hl hnode (by simp [Node.operands]) h₄ (by decide)).bind
    fun _ ws₅ h₅ => ?_
  refine (land_reaches h₅ List.mem_cons_self hskip.1.plain fun _ => harrive.symm).mono ?_
  rintro _ ws' ⟨h', -⟩
  exact ⟨_, h'.forget, fun _ => harrive⟩

theorem group_fulfils (hl : Lowers T S.room lower) {inner : Node} {span : Span}
    (hnode : T.root.Occurs (.group inner span))
    (h : Reaches S ends false [] (S.base + 0) ws ws) :
    (Rule.group lower (.group inner span) ws).Meets T.Allowed fun _ ws' =>
      Fulfils S ends (.group inner span) ws ws' :=
  (value_reaches hl hnode List.mem_cons_self h (by decide)).mono
    fun _ ws' h' => ⟨_, h', fun _ => rfl⟩

end Progress

end QueryCompiler
