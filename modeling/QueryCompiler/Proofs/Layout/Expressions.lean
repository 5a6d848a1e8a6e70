/-
What the rules for expressions write.

A way to lower nodes is faithful if every node it gets done is laid out in the code.
Each lemma here takes one rule, or one of the ways in which rules ask for parts, and
finds in what it wrote the line of the table that the rule is meant to follow, given
that the parts are lowered faithfully.
-/
import QueryCompiler.Proofs.Layout.Passage

namespace QueryCompiler.Layout

open Workspace

/-- What gets done is laid out. -/
def Faithful (lower : Lower) : Prop :=
  ∀ (node : Node) (ws ws' : Workspace), ws.Sound → lower node ws = .done () ws' →
    Lays (.node node) ws ws'

variable {lower : Lower} {ws ws' : Workspace} {node : Node} {u : Unit}

/-! ### The ways to ask for a node -/

theorem value_lays (hl : Faithful lower) (hs : ws.Sound) (h : lower.value node ws = .done u ws') :
    Lays (.value node) ws ws' := by
  simp only [Lower.value, Action.bind_done] at h
  obtain ⟨start, _, hdepth, h⟩ := h
  obtain ⟨rfl, rfl⟩ := depth_done hdepth
  cases hkind : node.construct.balance with
  | value =>
      rw [hkind] at h
      exact (hl _ _ _ hs h).mono fun F s hnode => .valueOf hkind hnode
  | diverges =>
      simp only [hkind, Action.bind_done, Action.ofWord_done] at h
      obtain ⟨_, ws₁, hnode, after, _, ⟨hafter, rfl⟩, hreset⟩ := h
      obtain ⟨rfl, hlt⟩ := addWord_ok hafter
      have hnode := hl _ _ _ hs hnode
      obtain ⟨hspot, hreset⟩ := Passes.resetDepth hnode.sound hlt hreset
      exact (hnode.and hs hreset).mono fun F s hF => .valueNever hkind hF.1 hspot
  | effect =>
      simp only [hkind, Action.bind_done, Action.not_fail_done, and_false, exists_false] at h

theorem statement_lays (hl : Faithful lower) (hs : ws.Sound)
    (h : lower.statement node ws = .done u ws') : Lays (.statement node) ws ws' := by
  simp only [Lower.statement, Action.bind_done] at h
  obtain ⟨_, ws₁, hnode, h⟩ := h
  have hnode := hl _ _ _ hs hnode
  split at h
  · rename_i hkind
    have hdrop := Passes.write hnode.sound h
    exact (hnode.and hs hdrop).mono fun F s hF => .dropped hkind hF.1 hF.2
  · rename_i hkind
    obtain ⟨-, rfl⟩ := Action.pure_done.mp h
    exact hnode.mono fun F s hF => .plain hkind hF

/-- What is done for one element after another is laid out as a phrase of all of them, if each of
them leaves what `Q` says. -/
theorem forM_lays {α : Type} {each : α → Action Workspace Unit} {phrase : List α → Phrase}
    (Q : α → Spot → Spot → Image → Surroundings → Prop)
    (hnil : ∀ {F : Image} {s : Surroundings} {a : Spot}, Laid F s (phrase []) a a)
    (hcons : ∀ {F : Image} {s : Surroundings} {x : α} {rest : List α} {a b c : Spot},
      Q x a b F s → Laid F s (phrase rest) b c → Laid F s (phrase (x :: rest)) a c)
    (heach : ∀ {x : α} {ws ws₁ : Workspace}, ws.Sound → each x ws = .done () ws₁ →
      Passes (Q x ws.spot ws₁.spot) [] [] ws ws₁)
    {elements : List α} (hs : ws.Sound) (h : elements.forM each ws = .done u ws') :
    Lays (phrase elements) ws ws' := by
  induction elements generalizing ws with
  | nil =>
      rw [Action.forM_nil_done] at h
      subst h
      exact (Passes.stay hs).mono fun _ _ _ => hnil
  | cons x rest ih =>
      rw [Action.forM_cons_done] at h
      obtain ⟨ws₁, hfirst, hrest⟩ := h
      have hfirst := heach hs hfirst
      exact (hfirst.and hs (ih hfirst.sound hrest)).mono fun F s hF => hcons hF.1 hF.2

theorem values_lays (hl : Faithful lower) {nodes : List Node} (hs : ws.Sound)
    (h : lower.values nodes ws = .done u ws') : Lays (.values nodes) ws ws' :=
  forM_lays (fun node a b F s => Laid F s (.value node) a b) .noValues .moreValues
    (fun hs h => value_lays hl hs h) hs h

theorem statements_lays (hl : Faithful lower) {nodes : List Node} (hs : ws.Sound)
    (h : lower.statements nodes ws = .done u ws') : Lays (.statements nodes) ws ws' :=
  forM_lays (fun node a b F s => Laid F s (.statement node) a b) .noStatements .moreStatements
    (fun hs h => statement_lays hl hs h) hs h

/-- The body of a function ends in a return, unless control does not come to its end. -/
theorem body_lays (hl : Faithful lower) (hs : ws.Sound) (h : lower.body node ws = .done u ws') :
    Lays (.body node) ws ws' := by
  unfold Lower.body at h
  cases hkind : node.construct.balance with
  | value =>
      simp only [hkind, Action.bind_done] at h
      obtain ⟨_, ws₁, hpush, _, ws₂, hvalue, hret⟩ := h
      have hpush := Passes.pushConstant hs hpush
      have hvalue := value_lays hl hpush.sound hvalue
      have hret := Passes.write hvalue.sound hret
      refine ((hpush.and hs hvalue).and hs hret).mono ?_
      intro F s hF
      obtain ⟨⟨⟨id, hid, hpush⟩, hvalue⟩, hret⟩ := hF
      exact .bodyValue hkind hid hpush hvalue hret
  | effect =>
      simp only [hkind, Action.bind_done] at h
      obtain ⟨_, ws₁, hnode, reached, _, hreached, h⟩ := h
      obtain ⟨rfl, rfl⟩ := reachable_done hreached
      have hnode := hl _ _ _ hs hnode
      split at h
      · rename_i hfalls
        simp only [Action.bind_done] at h
        obtain ⟨_, ws₂, hpush, _, ws₃, hnull, hret⟩ := h
        have hpush := Passes.pushConstant hnode.sound hpush
        have hnull := Passes.write hpush.sound hnull
        have hret := Passes.write hnull.sound hret
        refine (((hnode.and hs hpush).and hs hnull).and hs hret).mono ?_
        intro F s hF
        obtain ⟨⟨⟨hnode, id, hid, hpush⟩, hnull⟩, hret⟩ := hF
        exact .bodyFalls hkind hnode hfalls hid hpush hnull hret
      · rename_i hends
        obtain ⟨-, rfl⟩ := Action.pure_done.mp h
        exact hnode.mono fun F s hF => .bodyEnds hkind hF (eq_false_of_ne_true hends)
  | diverges =>
      rw [hkind] at h
      exact (hl _ _ _ hs h).mono fun F s hF => .bodyNever hkind hF

/-! ### Values that take one instruction -/

theorem literal_lays (lower : Lower) {value : Constant} {span : Span} (hs : ws.Sound)
    (h : Rule.literal lower (.literal value span) ws = .done u ws') :
    Lays (.rule (.literal value span)) ws ws' := by
  have hpooled : Workspace.pushConstant value ws = .done u ws' →
      Lays (.rule (.literal value span)) ws ws' := by
    intro hpush
    refine (Passes.pushConstant hs hpush).mono ?_
    intro F s hF
    obtain ⟨id, hid, hpush⟩ := hF
    exact .literal (.pooled hid) hpush
  cases value with
  | null => exact (Passes.write hs h).mono fun F s hF => .literal .null hF
  | bool value =>
      cases value with
      | true => exact (Passes.write hs h).mono fun F s hF => .literal .true hF
      | false => exact (Passes.write hs h).mono fun F s hF => .literal .false hF
  | int | float | string => exact hpooled h

theorem ident_lays (lower : Lower) {name : String} {span : Span} (hs : ws.Sound)
    (h : Rule.ident lower (.ident name span) ws = .done u ws') :
    Lays (.rule (.ident name span)) ws ws' := by
  simp only [Rule.ident, Action.bind_done] at h
  obtain ⟨found, _, hfound, h⟩ := h
  obtain ⟨hlocal, rfl⟩ := Passes.findLocal hfound
  cases found with
  | some ref => exact (Passes.write hs h).mono fun F s hF => .localName hlocal hF
  | none =>
      refine (Passes.emitName hs h).mono ?_
      intro F s hF
      obtain ⟨id, hid, hload⟩ := hF
      exact .globalName hlocal hid hload

theorem param_lays (lower : Lower) {name : String} {span : Span} (hs : ws.Sound)
    (h : Rule.param lower (.param name span) ws = .done u ws') :
    Lays (.rule (.param name span)) ws ws' := by
  refine (Passes.emitName hs h).mono ?_
  intro F s hF
  obtain ⟨id, hid, hload⟩ := hF
  exact .param hid hload

theorem current_lays (lower : Lower) {span : Span} (hs : ws.Sound)
    (h : Rule.current lower (.current span) ws = .done u ws') :
    Lays (.rule (.current span)) ws ws' := by
  simp only [Rule.current, Action.bind_done] at h
  obtain ⟨ref, _, hfound, h⟩ := h
  obtain ⟨helement, rfl⟩ := Passes.findElement hfound
  exact (Passes.write hs h).mono fun F s hF => .current helement hF

/-! ### Values made of others -/

theorem items_lays (hl : Faithful lower) {items : List Node} (hs : ws.Sound)
    (h : (items.forM fun item => do
      lower.value item
      emit .push) ws = .done u ws') : Lays (.items items) ws ws' := by
  refine forM_lays (fun item a c F s => ∃ b, Laid F s (.value item) a b ∧
    F.Writes ⟨.push, .none⟩ b c) .noItems ?_ ?_ hs h
  · rintro F s item rest a c d ⟨b, hvalue, hpush⟩ hrest
    exact .moreItems hvalue hpush hrest
  · intro item ws ws₁ hs h
    obtain ⟨_, ws₂, hvalue, hpush⟩ := Action.bind_done.mp h
    have hvalue := value_lays hl hs hvalue
    exact (hvalue.and hs (Passes.write hvalue.sound hpush)).mono fun F s hF => ⟨_, hF⟩

theorem list_lays (hl : Faithful lower) {items : List Node} {span : Span} (hs : ws.Sound)
    (h : Rule.list lower (.list items span) ws = .done u ws') :
    Lays (.rule (.list items span)) ws ws' := by
  obtain ⟨_, ws₁, hnew, hfill⟩ := Action.bind_done.mp h
  have hnew := Passes.write hs hnew
  have hfill := items_lays hl hnew.sound hfill
  exact (hnew.and hs hfill).mono fun F s hF => .list hF.1 hF.2

theorem fields_lays (hl : Faithful lower) {fields : List (String × Node)} (hs : ws.Sound)
    (h : (fields.forM fun (key, value) => do
      lower.value value
      emitName .put key) ws = .done u ws') : Lays (.fields fields) ws ws' := by
  refine forM_lays (fun field a c F s => ∃ b, Laid F s (.value field.2) a b ∧
    ∃ id, F.Holds id (.string field.1) ∧ F.Writes ⟨.put, .const id⟩ b c) .noFields ?_ ?_ hs h
  · rintro F s ⟨key, value⟩ rest a c d ⟨b, hvalue, id, hid, hput⟩ hrest
    exact .moreFields hvalue hid hput hrest
  · rintro ⟨key, value⟩ ws ws₁ hs h
    obtain ⟨_, ws₂, hvalue, hput⟩ := Action.bind_done.mp h
    have hvalue := value_lays hl hs hvalue
    exact (hvalue.and hs (Passes.emitName hvalue.sound hput)).mono fun F s hF => ⟨_, hF⟩

theorem object_lays (hl : Faithful lower) {fields : List (String × Node)} {span : Span}
    (hs : ws.Sound) (h : Rule.object lower (.object fields span) ws = .done u ws') :
    Lays (.rule (.object fields span)) ws ws' := by
  obtain ⟨_, ws₁, hnew, hfill⟩ := Action.bind_done.mp h
  have hnew := Passes.write hs hnew
  have hfill := fields_lays hl hnew.sound hfill
  exact (hnew.and hs hfill).mono fun F s hF => .object hF.1 hF.2

theorem member_lays (hl : Faithful lower) {owner : Node} {name : String} {span : Span}
    (hs : ws.Sound) (h : Rule.member lower (.member owner name span) ws = .done u ws') :
    Lays (.rule (.member owner name span)) ws ws' := by
  obtain ⟨_, ws₁, howner, hget⟩ := Action.bind_done.mp h
  have howner := value_lays hl hs howner
  have hget := Passes.emitName howner.sound hget
  refine (howner.and hs hget).mono ?_
  intro F s hF
  obtain ⟨howner, id, hid, hget⟩ := hF
  exact .member howner hid hget

theorem index_lays (hl : Faithful lower) {owner subscript : Node} {span : Span} (hs : ws.Sound)
    (h : Rule.index lower (.index owner subscript span) ws = .done u ws') :
    Lays (.rule (.index owner subscript span)) ws ws' := by
  simp only [Rule.index, Action.bind_done] at h
  obtain ⟨_, ws₁, howner, _, ws₂, hsubscript, hget⟩ := h
  have howner := value_lays hl hs howner
  have hsubscript := value_lays hl howner.sound hsubscript
  have hget := Passes.write hsubscript.sound hget
  refine ((howner.and hs hsubscript).and hs hget).mono ?_
  intro F s hF
  obtain ⟨⟨howner, hsubscript⟩, hget⟩ := hF
  exact .index howner hsubscript hget

theorem call_lays (hl : Faithful lower) {callee : Node} {arguments : List Node} {span : Span}
    (hs : ws.Sound) (h : Rule.call lower (.call callee arguments span) ws = .done u ws') :
    Lays (.rule (.call callee arguments span)) ws ws' := by
  simp only [Rule.call] at h
  split at h
  · simp only [Action.bind_done, Action.not_fail_done, false_and, exists_false] at h
  · rename_i hfew
    simp only [Action.bind_done] at h
    obtain ⟨_, ws₁, hcallee, _, ws₂, harguments, hcall⟩ := h
    have hcallee := value_lays hl hs hcallee
    have harguments := values_lays hl hcallee.sound harguments
    have hcall := Passes.write harguments.sound hcall
    refine ((hcallee.and hs harguments).and hs hcall).mono ?_
    intro F s hF
    obtain ⟨⟨hcallee, harguments⟩, hcall⟩ := hF
    exact .call (Nat.le_of_not_lt hfew) hcallee harguments hcall

theorem unary_lays (hl : Faithful lower) {op : UnaryOperator} {operand : Node} {span : Span}
    (hs : ws.Sound) (h : Rule.unary lower (.unary op operand span) ws = .done u ws') :
    Lays (.rule (.unary op operand span)) ws ws' := by
  obtain ⟨_, ws₁, hoperand, hop⟩ := Action.bind_done.mp h
  have hoperand := value_lays hl hs hoperand
  have hop := Passes.write hoperand.sound hop
  exact (hoperand.and hs hop).mono fun F s hF => .unary hF.1 hF.2

theorem binary_lays (hl : Faithful lower) {op : BinaryOperator} {left right : Node} {span : Span}
    (hs : ws.Sound) (h : Rule.binary lower (.binary op left right span) ws = .done u ws') :
    Lays (.rule (.binary op left right span)) ws ws' := by
  simp only [Rule.binary, Action.bind_done] at h
  obtain ⟨_, ws₁, hleft, _, ws₂, hright, hop⟩ := h
  have hleft := value_lays hl hs hleft
  have hright := value_lays hl hleft.sound hright
  have hop := Passes.write hright.sound hop
  refine ((hleft.and hs hright).and hs hop).mono ?_
  intro F s hF
  obtain ⟨⟨hleft, hright⟩, hop⟩ := hF
  exact .binary hleft hright hop

/-- The skipping jump lands behind the right operand. -/
theorem logical_lays (hl : Faithful lower) {op : LogicalOperator} {left right : Node}
    {span : Span} (hs : ws.Sound)
    (h : Rule.logical lower (.logical op left right span) ws = .done u ws') :
    Lays (.rule (.logical op left right span)) ws ws' := by
  simp only [Rule.logical, Action.bind_done] at h
  obtain ⟨_, ws₁, hleft, _, ws₂, hdup, decided, ws₃, hskip, _, ws₄, hpop, _, ws₅, hright,
    hland⟩ := h
  have hleft := value_lays hl hs hleft
  have hdup := Passes.write hleft.sound hdup
  obtain ⟨htaken, hskip⟩ := Passes.jump hdup.sound hskip
  have hpop := Passes.write hskip.sound hpop
  have hright := value_lays hl hpop.sound hright
  have hall := (((hleft.and hs hdup).and hs hskip).and hs hpop).and hs hright
  obtain ⟨hspot, hall⟩ := Passes.land hs hall hland
  refine hall.mono ?_
  intro F s hF
  obtain ⟨⟨⟨⟨⟨hleft, hdup⟩, hskip⟩, hpop⟩, hright⟩, haimed⟩ := hF
  exact .logical hleft hdup (hskip _ haimed) hpop hright (by rw [hspot, htaken])

theorem group_lays (hl : Faithful lower) {inner : Node} {span : Span} (hs : ws.Sound)
    (h : Rule.group lower (.group inner span) ws = .done u ws') :
    Lays (.rule (.group inner span)) ws ws' :=
  (value_lays hl hs h).mono fun _ _ hF => .group hF

end QueryCompiler.Layout
