/-
The code of an expression computes its value.

The value is that of a direct evaluator, which works from left to right, leaves the
right operand of `&&` and `||` alone when the left one decides, and looks at one arm of
a ternary only.  The evaluator asks the host the same questions as the machine, and
what it has asked is part of what is compared.

In a place that control does not get to, the jump at the end of the first arm of a
ternary is left out, for nothing would ever take it.  That is the only way in which the
place matters, and it matters only until a jump of the expression lands, since control
is taken to get there again.  `Node.firstLanding?` says which construct such a jump is of:
unless it is a ternary, the code computes the value wherever it stands.
-/
import QueryCompiler.Proofs.Execution.Machine
import QueryCompiler.Proofs.Layout.Program
import QueryCompiler.Proofs.Progress.Blame

namespace QueryCompiler

/-! ### The evaluator -/

/-- The expressions that are about values alone: no functions, no transforms, no statements. -/
inductive Node.IsExpression : Node → Prop
  | literal {value : Constant} {span : Span} : IsExpression (.literal value span)
  | list {items : List Node} {span : Span} (ofItems : ∀ item ∈ items, IsExpression item) :
      IsExpression (.list items span)
  | object {fields : List (String × Node)} {span : Span}
      (ofFields : ∀ field ∈ fields, IsExpression field.2) : IsExpression (.object fields span)
  | ident {name : String} {span : Span} : IsExpression (.ident name span)
  | param {name : String} {span : Span} : IsExpression (.param name span)
  | member {owner : Node} {name : String} {span : Span} (ofOwner : IsExpression owner) :
      IsExpression (.member owner name span)
  | index {owner subscript : Node} {span : Span} (ofOwner : IsExpression owner)
      (ofSubscript : IsExpression subscript) : IsExpression (.index owner subscript span)
  | call {callee : Node} {arguments : List Node} {span : Span} (ofCallee : IsExpression callee)
      (ofArguments : ∀ argument ∈ arguments, IsExpression argument) :
      IsExpression (.call callee arguments span)
  | unary {op : UnaryOperator} {operand : Node} {span : Span} (ofOperand : IsExpression operand) :
      IsExpression (.unary op operand span)
  | binary {op : BinaryOperator} {left right : Node} {span : Span} (ofLeft : IsExpression left)
      (ofRight : IsExpression right) : IsExpression (.binary op left right span)
  | logical {op : LogicalOperator} {left right : Node} {span : Span} (ofLeft : IsExpression left)
      (ofRight : IsExpression right) : IsExpression (.logical op left right span)
  | ternary {condition whenTrue whenFalse : Node} {span : Span}
      (ofCondition : IsExpression condition) (ofTrue : IsExpression whenTrue)
      (ofFalse : IsExpression whenFalse) :
      IsExpression (.ternary condition whenTrue whenFalse span)
  | group {inner : Node} {span : Span} (ofInner : IsExpression inner) :
      IsExpression (.group inner span)

theorem UnaryOperator.opcode_goesOn (op : UnaryOperator) : op.opcode.isTerminal = false := by
  cases op <;> rfl

theorem BinaryOperator.opcode_goesOn (op : BinaryOperator) : op.opcode.isTerminal = false := by
  cases op <;> rfl

theorem LogicalOperator.skip_goesOn (op : LogicalOperator) : op.skip.isTerminal = false := by
  cases op <;> rfl

theorem Node.IsExpression.balance {node : Node} (h : node.IsExpression) :
    node.construct.balance = .value := by
  cases h <;> rfl

namespace Node

/-! ### Where jumps land -/

mutual

/-- The construct whose jump is the first to land, in the order in which the code of an expression
is written.  The jump of `&&` and `||` lands behind the right operand, and the first one of a
ternary lands behind the first arm. -/
def firstLanding? : Node → Option Construct
  | list items _ => firstLandingAll? items
  | object fields _ => firstLandingFields? fields
  | member owner _ _ => firstLanding? owner
  | index owner subscript _ => (firstLanding? owner).or (firstLanding? subscript)
  | call callee arguments _ => (firstLanding? callee).or (firstLandingAll? arguments)
  | unary _ operand _ => firstLanding? operand
  | binary _ left right _ => (firstLanding? left).or (firstLanding? right)
  | logical _ left right _ => (firstLanding? left).or ((firstLanding? right).or (some .logical))
  | ternary condition whenTrue _ _ =>
    (firstLanding? condition).or ((firstLanding? whenTrue).or (some .ternary))
  | group inner _ => firstLanding? inner
  | _ => none

/-- The construct whose jump is the first to land in the code of some expressions. -/
def firstLandingAll? : List Node → Option Construct
  | [] => none
  | node :: rest => (firstLanding? node).or (firstLandingAll? rest)

/-- The construct whose jump is the first to land in the code of the values of some fields. -/
def firstLandingFields? : List (String × Node) → Option Construct
  | [] => none
  | (_, node) :: rest => (firstLanding? node).or (firstLandingFields? rest)

end

theorem firstLandingAll?_mem {nodes : List Node} {kind : Construct}
    (h : firstLandingAll? nodes = some kind) :
    ∃ node ∈ nodes, node.firstLanding? = some kind := by
  induction nodes with
  | nil => cases h
  | cons node rest ih =>
      rcases Option.or_eq_some_iff.mp h with hnode | ⟨-, hrest⟩
      · exact ⟨node, List.mem_cons_self, hnode⟩
      · obtain ⟨other, hmem, hother⟩ := ih hrest
        exact ⟨other, List.mem_cons_of_mem _ hmem, hother⟩

theorem firstLandingFields?_eq (fields : List (String × Node)) :
    firstLandingFields? fields = firstLandingAll? (fields.map Prod.snd) := by
  induction fields with
  | nil => rfl
  | cons field rest ih => rw [firstLandingFields?, List.map_cons, firstLandingAll?, ih]

theorem firstLanding?_of_or {left right : Node} {kind : Construct}
    (h : left.firstLanding?.or right.firstLanding? = some kind) :
    ∃ part ∈ [left, right], part.firstLanding? = some kind := by
  rcases Option.or_eq_some_iff.mp h with hleft | ⟨-, hright⟩
  · exact ⟨left, List.mem_cons_self, hleft⟩
  · exact ⟨right, List.mem_cons_of_mem _ List.mem_cons_self, hright⟩

/-- A jump that lands in the code of an expression is of the expression itself or of a part. -/
theorem firstLanding?_part {node : Node} {kind : Construct}
    (h : node.firstLanding? = some kind) :
    node.construct = kind ∨ ∃ part ∈ node.children, part.firstLanding? = some kind := by
  cases node with
  | list items span => exact .inr (firstLandingAll?_mem h)
  | object fields span =>
      rw [firstLanding?, firstLandingFields?_eq] at h
      exact .inr (firstLandingAll?_mem h)
  | member owner name span => exact .inr ⟨owner, List.mem_singleton_self _, h⟩
  | unary op operand span => exact .inr ⟨operand, List.mem_singleton_self _, h⟩
  | group inner span => exact .inr ⟨inner, List.mem_singleton_self _, h⟩
  | index owner subscript span => exact .inr (firstLanding?_of_or h)
  | binary op left right span => exact .inr (firstLanding?_of_or h)
  | call callee arguments span =>
      have hall : firstLandingAll? (callee :: arguments) = some kind := h
      exact .inr (firstLandingAll?_mem hall)
  | logical op left right span =>
      rw [firstLanding?, ← Option.or_assoc] at h
      rcases Option.or_eq_some_iff.mp h with hparts | ⟨-, hown⟩
      · exact .inr (firstLanding?_of_or hparts)
      · exact .inl (Option.some.inj hown)
  | ternary condition whenTrue whenFalse span =>
      rw [firstLanding?, ← Option.or_assoc] at h
      rcases Option.or_eq_some_iff.mp h with hparts | ⟨-, hown⟩
      · obtain ⟨part, hmem, hpart⟩ := firstLanding?_of_or hparts
        exact .inr ⟨part, List.mem_append_left [whenFalse] hmem, hpart⟩
      · exact .inl (Option.some.inj hown)
  | _ => cases h

/-- The construct of a jump that lands occurs in the expression. -/
theorem firstLanding?_occurs {node : Node} {kind : Construct}
    (h : node.firstLanding? = some kind) :
    ∃ inner, node.Occurs inner ∧ inner.construct = kind := by
  rcases firstLanding?_part h with hconstruct | ⟨part, hpart, hlanding⟩
  · exact ⟨node, .root, hconstruct⟩
  · obtain ⟨inner, hinner, hconstruct⟩ := firstLanding?_occurs hlanding
    exact ⟨inner, (Occurs.root.part hpart).trans hinner, hconstruct⟩
termination_by node.size
decreasing_by exact size_lt_of_mem_children hpart

/-- Without a ternary no jump of a ternary lands. -/
theorem firstLanding?_ne_ternary {node : Node}
    (h : ∀ inner, node.Occurs inner → inner.construct ≠ .ternary) :
    node.firstLanding? ≠ some .ternary := by
  intro hlanding
  obtain ⟨inner, hinner, hconstruct⟩ := firstLanding?_occurs hlanding
  exact h inner hinner hconstruct

end Node

/-- The truth of a left operand that makes it the result. -/
def LogicalOperator.decides : LogicalOperator → Bool
  | and => false
  | or => true

section

variable {V : Type}

/-- Ask the host. -/
def Host.ask (host : Host V) (event : Event V) (history : List (Event V)) :
    Option (V × List (Event V)) :=
  some (host.answer (event :: history), event :: history)

/-- What the evaluator needs besides the host: the locals, and which of them a name stands for. -/
structure Scene (V : Type) where
  locals : SlotRef → V
  names : String → Option SlotRef

namespace Scene

/-- A name stands for what the scopes say. -/
def Fits (scene : Scene V) (scopes : List Frame) : Prop :=
  ∀ name found, Frame.findLocal name 0 scopes = .ok found → scene.names name = found

/-- The scene inside some scopes. -/
def inside (scopes : List Frame) (locals : SlotRef → V) : Scene V where
  locals := locals
  names name := (Frame.findLocal name 0 scopes).toOption.join

theorem inside_fits (scopes : List Frame) (locals : SlotRef → V) :
    (inside scopes locals).Fits scopes := by
  intro name found hfound
  show (Frame.findLocal name 0 scopes).toOption.join = found
  rw [hfound]
  rfl

end Scene

variable (host : Host V) (scene : Scene V)

mutual

/-- The value of an expression and what has been asked to find it, after what was asked before. -/
def evaluate : Node → List (Event V) → Option (V × List (Event V))
  | .literal value _, history => some (host.constant value, history)
  | .list items _, history => fillList items host.emptyList history
  | .object fields _, history => fillObject fields host.emptyObject history
  | .ident name _, history =>
    match scene.names name with
    | some ref => some (scene.locals ref, history)
    | none => host.ask (.global name) history
  | .param name _, history => host.ask (.param name) history
  | .member owner name _, history => do
    let (owner, history) ← evaluate owner history
    host.ask (.member owner name) history
  | .index owner subscript _, history => do
    let (owner, history) ← evaluate owner history
    let (subscript, history) ← evaluate subscript history
    host.ask (.index owner subscript) history
  | .call callee arguments _, history => do
    let (callee, history) ← evaluate callee history
    let (arguments, history) ← evaluateAll arguments history
    host.ask (.call callee arguments) history
  | .unary op operand _, history => do
    let (operand, history) ← evaluate operand history
    return (host.unary op operand, history)
  | .binary op left right _, history => do
    let (left, history) ← evaluate left history
    let (right, history) ← evaluate right history
    return (host.binary op left right, history)
  | .logical op left right _, history => do
    let (left, history) ← evaluate left history
    if host.truthy left = op.decides then return (left, history)
    evaluate right history
  | .ternary condition whenTrue whenFalse _, history => do
    let (condition, history) ← evaluate condition history
    if host.truthy condition then evaluate whenTrue history else evaluate whenFalse history
  | .group inner _, history => evaluate inner history
  | _, _ => none

/-- The values of some expressions, from left to right. -/
def evaluateAll : List Node → List (Event V) → Option (List V × List (Event V))
  | [], history => some ([], history)
  | node :: rest, history => do
    let (value, history) ← evaluate node history
    let (values, history) ← evaluateAll rest history
    return (value :: values, history)

/-- A list with the values of some expressions added. -/
def fillList : List Node → V → List (Event V) → Option (V × List (Event V))
  | [], list, history => some (list, history)
  | node :: rest, list, history => do
    let (item, history) ← evaluate node history
    fillList rest (host.push list item) history

/-- An object with the values of some expressions as fields. -/
def fillObject : List (String × Node) → V → List (Event V) → Option (V × List (Event V))
  | [], object, history => some (object, history)
  | (key, node) :: rest, object, history => do
    let (value, history) ← evaluate node history
    fillObject rest (host.put object key value) history

end

attribute [simp] evaluate evaluateAll fillList fillObject

end

namespace Layout

/-! ### What the code of a phrase computes -/

/-- Nothing happens between two places but that values are computed: control gets from the one to
the other, or to the other anyway if a jump lands in between, and the scopes stay the same. -/
structure Carries (landing : Option Construct) (a b : Spot) : Prop where
  reachable : a.reachable = true ∨ landing.isSome = true → b.reachable = true
  scopes : b.scopes = a.scopes

section

variable {V : Type} {F : Image} {host : Host V} {scene : Scene V} {s : Surroundings}
  {a b c d e f g : Spot} {landing later : Option Construct}

theorem Carries.refl : Carries none a a where
  reachable h := h.resolve_right nofun
  scopes := rfl

theorem Carries.falls (h : Carries landing a b) (ha : a.reachable = true) : b.reachable = true :=
  h.reachable (.inl ha)

theorem Carries.trans (h : Carries landing a b) (h' : Carries later b c) :
    Carries (landing.or later) a c where
  reachable ha := by
    cases landing with
    | none => exact h'.reachable (ha.imp_left h.falls)
    | some construct => exact h'.falls (h.reachable (.inr rfl))
  scopes := h'.scopes.trans h.scopes

/-- Nothing lands in what comes after. -/
theorem Carries.andThen (h : Carries landing a b) (h' : Carries none b c) :
    Carries landing a c := by
  have hboth := h.trans h'
  rwa [Option.or_none] at hboth

theorem Image.Writes.carries {instruction : Instruction} (h : F.Writes instruction a b)
    (hop : instruction.op.isTerminal = false) : Carries none a b where
  reachable ha := by
    rw [h.next]
    simp [Spot.step, ha.resolve_right nofun, hop]
  scopes := by
    rw [h.next]
    rfl

theorem Image.Jumps.carries {op : Opcode} {target : Nat} (h : F.Jumps op target a b)
    (hop : op.isTerminal = false) : Carries none a b := by
  obtain ⟨word, -, h⟩ := h
  exact h.carries hop

theorem Leaves.scopes {wanted : Bool} {finish : Nat} {exits : List Nat}
    (h : Leaves F wanted finish exits a b) : b.scopes = a.scopes := by
  cases h with
  | jumps falls jump =>
      obtain ⟨word, -, h⟩ := jump
      rw [h.next]
      rfl
  | stays ends => rfl

/-- Control gets to a place, or no jump of a ternary is the first to land in what is written from
there, and names stand there for what the scene says. -/
structure Sees (scene : Scene V) (landing : Option Construct) (a : Spot) : Prop where
  clear : a.reachable = true ∨ landing ≠ some .ternary
  fits : scene.Fits a.scopes

theorem Sees.first (h : Sees scene (landing.or later) a) : Sees scene landing a where
  clear := h.clear.imp_right fun hne hfirst => hne (by rw [hfirst, Option.some_or])
  fits := h.fits

theorem Sees.second (h : Sees scene (landing.or later) a) (hcarries : Carries landing a b) :
    Sees scene later b where
  clear := by
    cases landing with
    | none => exact h.clear.imp_left hcarries.falls
    | some construct => exact .inl (hcarries.reachable (.inr rfl))
  fits := hcarries.scopes ▸ h.fits

theorem Sees.along (h : Sees scene landing a) (hcarries : Carries none a b) :
    Sees scene landing b where
  clear := h.clear.imp_left hcarries.falls
  fits := hcarries.scopes ▸ h.fits

/-- A conditional declares nothing. -/
theorem Sees.enter (h : Sees scene landing a) :
    Sees scene landing (a.enter (.branch 0 #[])) where
  clear := h.clear
  fits := fun name found hfound => h.fits name found hfound

/-- Where the jump of a ternary is the next to land, control has to get to. -/
theorem Sees.falls (h : Sees scene (some .ternary) a) : a.reachable = true :=
  h.clear.resolve_right fun hne => hne rfl

variable (F host scene) in
/-- The code between two places takes some values from the stack and pushes the value that an
evaluation gives.  What the evaluation asks, the machine asks. -/
def Yields (a b : Spot) (taken : List V)
    (evaluation : List (Event V) → Option (V × List (Event V))) : Prop :=
  ∀ (stack : List V) (handlers : List Handler) (history : List (Event V)),
    ∃ value history', evaluation history = some (value, history') ∧
      Steps F host ⟨a.index, taken ++ stack, scene.locals, handlers, history⟩
        ⟨b.index, value :: stack, scene.locals, handlers, history'⟩

variable (F host scene) in
/-- The code between two places pushes the values of some nodes. -/
def YieldsAll (a b : Spot) (nodes : List Node) : Prop :=
  ∀ (stack : List V) (handlers : List Handler) (history : List (Event V)),
    ∃ values history', evaluateAll host scene nodes history = some (values, history') ∧
      values.length = nodes.length ∧
      Steps F host ⟨a.index, stack, scene.locals, handlers, history⟩
        ⟨b.index, values.reverse ++ stack, scene.locals, handlers, history'⟩

/-- The construct whose jump is the first to land in the code of a phrase that is made of
expressions. -/
def Phrase.firstLanding? : Phrase → Option Construct
  | rule tree | node tree | value tree => tree.firstLanding?
  | values nodes | items nodes => Node.firstLandingAll? nodes
  | fields entries => Node.firstLandingFields? entries
  | _ => none

variable (F host scene) in
/-- What the code of a phrase computes, if the phrase is made of expressions. -/
def Phrase.Computed (a b : Spot) : Phrase → Prop
  | rule tree | node tree | value tree =>
    tree.IsExpression →
      Carries tree.firstLanding? a b ∧ Yields F host scene a b [] (evaluate host scene tree)
  | values nodes =>
    (∀ node ∈ nodes, node.IsExpression) →
      Carries (Node.firstLandingAll? nodes) a b ∧ YieldsAll F host scene a b nodes
  | items nodes =>
    (∀ node ∈ nodes, node.IsExpression) →
      Carries (Node.firstLandingAll? nodes) a b ∧
        ∀ list, Yields F host scene a b [list] (fillList host scene nodes list)
  | fields entries =>
    (∀ entry ∈ entries, entry.2.IsExpression) →
      Carries (Node.firstLandingFields? entries) a b ∧
        ∀ object, Yields F host scene a b [object] (fillObject host scene entries object)
  | _ => True

namespace Yields

/-! ### Values that take one instruction -/

theorem literal {value : Constant} {span : Span} {instruction : Instruction}
    (pushes : Pushes F value instruction) (push : F.Writes instruction a b) :
    Yields F host scene a b [] (evaluate host scene (.literal value span)) := by
  intro stack handlers history
  refine ⟨_, _, rfl, push.goes ?_⟩
  cases pushes with
  | null => rfl
  | true => rfl
  | false => rfl
  | pooled holds => exact holds.onConstant _

theorem localName {name : String} {span : Span} {ref : SlotRef} (hscene : scene.Fits a.scopes)
    (found : Frame.findLocal name 0 a.scopes = .ok (some ref))
    (load : F.Writes ⟨.load, .slot ref⟩ a b) :
    Yields F host scene a b [] (evaluate host scene (.ident name span)) := by
  intro stack handlers history
  refine ⟨_, _, ?_, load.goes rfl⟩
  rw [evaluate, hscene name _ found]

theorem globalName {name : String} {span : Span} {id : UInt32} (hscene : scene.Fits a.scopes)
    (found : Frame.findLocal name 0 a.scopes = .ok none) (holds : F.Holds id (.string name))
    (load : F.Writes ⟨.loadGlobal, .const id⟩ a b) :
    Yields F host scene a b [] (evaluate host scene (.ident name span)) := by
  intro stack handlers history
  refine ⟨_, _, ?_, load.goes (holds.onName _)⟩
  rw [evaluate, hscene name _ found]
  rfl

theorem param {name : String} {span : Span} {id : UInt32} (holds : F.Holds id (.string name))
    (load : F.Writes ⟨.loadParam, .const id⟩ a b) :
    Yields F host scene a b [] (evaluate host scene (.param name span)) := by
  intro stack handlers history
  refine ⟨_, _, ?_, load.goes (holds.onName _)⟩
  rw [evaluate]
  rfl

/-! ### Values made of others -/

theorem list {items : List Node} {span : Span} (new : F.Writes ⟨.newList, .none⟩ a b)
    (fill : ∀ list, Yields F host scene b c [list] (fillList host scene items list)) :
    Yields F host scene a c [] (evaluate host scene (.list items span)) := by
  intro stack handlers history
  obtain ⟨value, history', hfill, hsteps⟩ := fill host.emptyList stack handlers history
  refine ⟨value, history', ?_, (new.goes rfl).trans hsteps⟩
  rw [evaluate, hfill]

theorem object {entries : List (String × Node)} {span : Span}
    (new : F.Writes ⟨.newObject, .none⟩ a b)
    (fill : ∀ object, Yields F host scene b c [object] (fillObject host scene entries object)) :
    Yields F host scene a c [] (evaluate host scene (.object entries span)) := by
  intro stack handlers history
  obtain ⟨value, history', hfill, hsteps⟩ := fill host.emptyObject stack handlers history
  refine ⟨value, history', ?_, (new.goes rfl).trans hsteps⟩
  rw [evaluate, hfill]

theorem member {owner : Node} {name : String} {span : Span} {id : UInt32}
    (ofOwner : Yields F host scene a b [] (evaluate host scene owner))
    (holds : F.Holds id (.string name)) (get : F.Writes ⟨.getMember, .const id⟩ b c) :
    Yields F host scene a c [] (evaluate host scene (.member owner name span)) := by
  intro stack handlers history
  obtain ⟨value, history', howner, hsteps⟩ := ofOwner stack handlers history
  refine ⟨_, _, ?_, hsteps.trans (get.goes (holds.onName _))⟩
  rw [evaluate, howner]
  rfl

theorem index {owner subscript : Node} {span : Span}
    (ofOwner : Yields F host scene a b [] (evaluate host scene owner))
    (ofSubscript : Yields F host scene b c [] (evaluate host scene subscript))
    (get : F.Writes ⟨.getIndex, .none⟩ c d) :
    Yields F host scene a d [] (evaluate host scene (.index owner subscript span)) := by
  intro stack handlers history
  obtain ⟨first, history₁, howner, hsteps₁⟩ := ofOwner stack handlers history
  obtain ⟨second, history₂, hsubscript, hsteps₂⟩ := ofSubscript (first :: stack) handlers history₁
  refine ⟨_, _, ?_, hsteps₁.trans (hsteps₂.trans (get.goes rfl))⟩
  rw [evaluate, howner]
  show (evaluate host scene subscript history₁ >>= _) = _
  rw [hsubscript]
  rfl

theorem call {callee : Node} {arguments : List Node} {span : Span}
    (few : arguments.length ≤ 65535)
    (ofCallee : Yields F host scene a b [] (evaluate host scene callee))
    (ofArguments : YieldsAll F host scene b c arguments)
    (call : F.Writes ⟨.call, .count arguments.length.toUInt16⟩ c d) :
    Yields F host scene a d [] (evaluate host scene (.call callee arguments span)) := by
  intro stack handlers history
  obtain ⟨value, history₁, hcallee, hsteps₁⟩ := ofCallee stack handlers history
  obtain ⟨values, history₂, harguments, hlength, hsteps₂⟩ :=
    ofArguments (value :: stack) handlers history₁
  have hcount : arguments.length.toUInt16.toNat = values.reverse.length := by
    rw [List.length_reverse, hlength]
    exact Nat.mod_eq_of_lt (Nat.lt_succ_of_le few)
  let event : Event V := .call value values
  refine ⟨host.answer (event :: history₂), event :: history₂, ?_,
    hsteps₁.trans (hsteps₂.trans (call.goes ?_))⟩
  · rw [evaluate, hcallee]
    show (evaluateAll host scene arguments history₁ >>= _) = _
    rw [harguments]
    rfl
  · simp only [Image.perform, Operand.onCount, State.takeCall, hcount, List.drop_left,
      List.take_left, List.reverse_reverse]
    rfl

theorem unary {op : UnaryOperator} {operand : Node} {span : Span}
    (ofOperand : Yields F host scene a b [] (evaluate host scene operand))
    (apply : F.Writes ⟨op.opcode, .none⟩ b c) :
    Yields F host scene a c [] (evaluate host scene (.unary op operand span)) := by
  intro stack handlers history
  obtain ⟨value, history', hoperand, hsteps⟩ := ofOperand stack handlers history
  refine ⟨host.unary op value, history', ?_, hsteps.trans (apply.goes ?_)⟩
  · rw [evaluate, hoperand]
    rfl
  · cases op <;> rfl

theorem binary {op : BinaryOperator} {left right : Node} {span : Span}
    (ofLeft : Yields F host scene a b [] (evaluate host scene left))
    (ofRight : Yields F host scene b c [] (evaluate host scene right))
    (apply : F.Writes ⟨op.opcode, .none⟩ c d) :
    Yields F host scene a d [] (evaluate host scene (.binary op left right span)) := by
  intro stack handlers history
  obtain ⟨first, history₁, hleft, hsteps₁⟩ := ofLeft stack handlers history
  obtain ⟨second, history₂, hright, hsteps₂⟩ := ofRight (first :: stack) handlers history₁
  refine ⟨host.binary op first second, history₂, ?_,
    hsteps₁.trans (hsteps₂.trans (apply.goes ?_))⟩
  · rw [evaluate, hleft]
    show (evaluate host scene right history₁ >>= _) = _
    rw [hright]
    rfl
  · cases op <;> rfl

/-! ### Values that skip code -/

theorem logical {op : LogicalOperator} {left right : Node} {span : Span}
    (ofLeft : Yields F host scene a b [] (evaluate host scene left))
    (dup : F.Writes ⟨.dup, .none⟩ b c) (skip : F.Jumps op.skip f.index c d)
    (pop : F.Writes ⟨.pop, .none⟩ d e)
    (ofRight : Yields F host scene e f [] (evaluate host scene right)) :
    Yields F host scene a f [] (evaluate host scene (.logical op left right span)) := by
  intro stack handlers history
  obtain ⟨first, history₁, hleft, hsteps₁⟩ := ofLeft stack handlers history
  have hop : op.skip = if op.decides then .jumpIfTrue else .jumpIfFalse := by cases op <;> rfl
  have htest := (hsteps₁.trans (dup.goes rfl)).trans (skip.test op.decides hop)
  by_cases hdecides : host.truthy first = op.decides
  · rw [if_pos hdecides] at htest
    refine ⟨first, history₁, ?_, htest⟩
    rw [evaluate, hleft]
    show (if host.truthy first = op.decides then _ else _) = _
    rw [if_pos hdecides]
    rfl
  · rw [if_neg hdecides] at htest
    obtain ⟨second, history₂, hright, hsteps₂⟩ := ofRight stack handlers history₁
    refine ⟨second, history₂, ?_, htest.trans ((pop.goes rfl).trans hsteps₂)⟩
    rw [evaluate, hleft]
    show (if host.truthy first = op.decides then _ else _) = _
    rw [if_neg hdecides]
    exact hright

theorem ternary {condition whenTrue whenFalse : Node} {span : Span} {exits : List Nat}
    {depth : Nat} (ofCondition : Yields F host scene a b [] (evaluate host scene condition))
    (skip : F.Jumps .jumpIfFalse e.index b c)
    (ofTrue : Yields F host scene c d [] (evaluate host scene whenTrue))
    (falls : d.reachable = true) (leaves : Leaves F true f.index exits d e)
    (ofFalse : Yields F host scene (e.land depth) f [] (evaluate host scene whenFalse)) :
    Yields F host scene a f []
      (evaluate host scene (.ternary condition whenTrue whenFalse span)) := by
  intro stack handlers history
  obtain ⟨test, history₁, hcondition, hsteps₁⟩ := ofCondition stack handlers history
  have htest := hsteps₁.trans (skip.test false rfl)
  cases htruthy : host.truthy test with
  | true =>
      rw [htruthy, if_neg nofun] at htest
      obtain ⟨value, history₂, htrue, hsteps₂⟩ := ofTrue stack handlers history₁
      cases leaves with
      | jumps _ jump =>
          refine ⟨value, history₂, ?_, (htest.trans hsteps₂).trans jump.goes⟩
          rw [evaluate, hcondition]
          show (if host.truthy test = true then _ else _) = _
          rw [if_pos htruthy]
          exact htrue
      | stays ends =>
          rw [falls] at ends
          cases ends
  | false =>
      rw [htruthy, if_pos rfl] at htest
      obtain ⟨value, history₂, hfalse, hsteps₂⟩ := ofFalse stack handlers history₁
      refine ⟨value, history₂, ?_, htest.trans hsteps₂⟩
      rw [evaluate, hcondition]
      show (if host.truthy test = true then _ else _) = _
      rw [htruthy]
      exact hfalse

/-! ### Several nodes -/

theorem noItems {list : V} : Yields F host scene a a [list] (fillList host scene [] list) := by
  intro stack handlers history
  exact ⟨list, history, by rw [fillList], .done⟩

theorem moreItems {node : Node} {rest : List Node} {list : V}
    (ofFirst : Yields F host scene a b [] (evaluate host scene node))
    (push : F.Writes ⟨.push, .none⟩ b c)
    (ofRest : ∀ list, Yields F host scene c d [list] (fillList host scene rest list)) :
    Yields F host scene a d [list] (fillList host scene (node :: rest) list) := by
  intro stack handlers history
  obtain ⟨item, history₁, hfirst, hsteps₁⟩ := ofFirst (list :: stack) handlers history
  obtain ⟨value, history₂, hrest, hsteps₂⟩ := ofRest (host.push list item) stack handlers history₁
  refine ⟨value, history₂, ?_, (hsteps₁.trans (push.goes rfl)).trans hsteps₂⟩
  rw [fillList, hfirst]
  exact hrest

theorem noFields {object : V} :
    Yields F host scene a a [object] (fillObject host scene [] object) := by
  intro stack handlers history
  exact ⟨object, history, by rw [fillObject], .done⟩

theorem moreFields {key : String} {node : Node} {rest : List (String × Node)} {object : V}
    {id : UInt32} (ofFirst : Yields F host scene a b [] (evaluate host scene node))
    (holds : F.Holds id (.string key)) (put : F.Writes ⟨.put, .const id⟩ b c)
    (ofRest : ∀ object, Yields F host scene c d [object] (fillObject host scene rest object)) :
    Yields F host scene a d [object] (fillObject host scene ((key, node) :: rest) object) := by
  intro stack handlers history
  obtain ⟨item, history₁, hfirst, hsteps₁⟩ := ofFirst (object :: stack) handlers history
  obtain ⟨value, history₂, hrest, hsteps₂⟩ :=
    ofRest (host.put object key item) stack handlers history₁
  refine ⟨value, history₂, ?_, (hsteps₁.trans (put.goes (holds.onName _))).trans hsteps₂⟩
  rw [fillObject, hfirst]
  exact hrest

end Yields

theorem YieldsAll.nil : YieldsAll F host scene a a [] := by
  intro stack handlers history
  exact ⟨[], history, by rw [evaluateAll], rfl, .done⟩

theorem YieldsAll.cons {node : Node} {rest : List Node}
    (ofFirst : Yields F host scene a b [] (evaluate host scene node))
    (ofRest : YieldsAll F host scene b c rest) : YieldsAll F host scene a c (node :: rest) := by
  intro stack handlers history
  obtain ⟨value, history₁, hfirst, hsteps₁⟩ := ofFirst stack handlers history
  obtain ⟨values, history₂, hrest, hlength, hsteps₂⟩ := ofRest (value :: stack) handlers history₁
  refine ⟨value :: values, history₂, ?_, by rw [List.length_cons, List.length_cons, hlength], ?_⟩
  · rw [evaluateAll, hfirst]
    show (evaluateAll host scene rest history₁ >>= _) = _
    rw [hrest]
    rfl
  · rw [List.reverse_cons, List.append_assoc]
    exact hsteps₁.trans hsteps₂

/-! ### Every expression -/

/-- **The code of an expression computes its value**, in a place that control gets to, and in any
place if no jump of a ternary is the first to land. -/
theorem Laid.computed {phrase : Phrase} (h : Laid F s phrase a b)
    (sees : Sees scene phrase.firstLanding? a) : phrase.Computed F host scene a b := by
  induction h with
  | literal pushes push =>
      intro _
      refine ⟨push.carries ?_, .literal pushes push⟩
      cases pushes <;> rfl
  | localName found load =>
      intro _
      exact ⟨load.carries rfl, .localName sees.fits found load⟩
  | globalName found holds load =>
      intro _
      exact ⟨load.carries rfl, .globalName sees.fits found holds load⟩
  | param holds load =>
      intro _
      exact ⟨load.carries rfl, .param holds load⟩
  | list new fill ihFill =>
      intro hnode
      cases hnode with
      | list ofItems =>
          obtain ⟨hfill, hyields⟩ := ihFill (sees.along (new.carries rfl)) ofItems
          exact ⟨(new.carries rfl).trans hfill, .list new hyields⟩
  | object new fill ihFill =>
      intro hnode
      cases hnode with
      | object ofFields =>
          obtain ⟨hfill, hyields⟩ := ihFill (sees.along (new.carries rfl)) ofFields
          exact ⟨(new.carries rfl).trans hfill, .object new hyields⟩
  | member ofOwner holds get ihOwner =>
      intro hnode
      cases hnode with
      | member hnode =>
          obtain ⟨howner, hyields⟩ := ihOwner sees hnode
          exact ⟨howner.andThen (get.carries rfl), .member hyields holds get⟩
  | index ofOwner ofSubscript get ihOwner ihSubscript =>
      intro hnode
      cases hnode with
      | index hfirst hsecond =>
          obtain ⟨howner, hyields₁⟩ := ihOwner sees.first hfirst
          obtain ⟨hsubscript, hyields₂⟩ := ihSubscript (sees.second howner) hsecond
          refine ⟨(howner.trans hsubscript).andThen (get.carries rfl), ?_⟩
          exact .index hyields₁ hyields₂ get
  | call few ofCallee ofArguments call ihCallee ihArguments =>
      intro hnode
      cases hnode with
      | call hfirst hrest =>
          obtain ⟨hcallee, hyields₁⟩ := ihCallee sees.first hfirst
          obtain ⟨harguments, hyields₂⟩ := ihArguments (sees.second hcallee) hrest
          refine ⟨(hcallee.trans harguments).andThen (call.carries rfl), ?_⟩
          exact .call few hyields₁ hyields₂ call
  | unary ofOperand apply ihOperand =>
      intro hnode
      cases hnode with
      | unary hnode =>
          obtain ⟨hoperand, hyields⟩ := ihOperand sees hnode
          refine ⟨hoperand.andThen (apply.carries ?_), .unary hyields apply⟩
          exact UnaryOperator.opcode_goesOn _
  | binary ofLeft ofRight apply ihLeft ihRight =>
      intro hnode
      cases hnode with
      | binary hfirst hsecond =>
          obtain ⟨hleft, hyields₁⟩ := ihLeft sees.first hfirst
          obtain ⟨hright, hyields₂⟩ := ihRight (sees.second hleft) hsecond
          have happly := apply.carries (BinaryOperator.opcode_goesOn _)
          exact ⟨(hleft.trans hright).andThen happly, .binary hyields₁ hyields₂ apply⟩
  | logical ofLeft dup skip pop ofRight land ihLeft ihRight =>
      intro hnode
      subst land
      cases hnode with
      | logical hfirst hsecond =>
          obtain ⟨hleft, hyields₁⟩ := ihLeft sees.first hfirst
          have hskip := skip.carries (LogicalOperator.skip_goesOn _)
          have hdropped :=
            (hleft.andThen (dup.carries rfl)).andThen (hskip.andThen (pop.carries rfl))
          obtain ⟨hright, hyields₂⟩ := ihRight (sees.second hdropped).first hsecond
          refine ⟨⟨fun _ => rfl, (hdropped.trans hright).scopes⟩, ?_⟩
          exact .logical hyields₁ dup skip pop hyields₂
  | ternary ofCondition skip ofTrue leaves ofFalse land ihCondition ihTrue ihFalse =>
      intro hnode
      subst land
      cases hnode with
      | ternary hfirst hsecond hthird =>
          obtain ⟨hcondition, hyields₁⟩ := ihCondition sees.enter.first hfirst
          have hskip := hcondition.andThen (skip.carries rfl)
          have hinside := sees.enter.second hskip
          obtain ⟨htrue, hyields₂⟩ := ihTrue hinside.first hsecond
          -- The jump that lands next is the ternary's own, so the first arm ends in the open.
          have hends := (hinside.second htrue).falls
          have hscopes := leaves.scopes.trans (hskip.trans htrue).scopes
          obtain ⟨hfalse, hyields₃⟩ := ihFalse ⟨.inl rfl, hscopes ▸ sees.enter.fits⟩ hthird
          have hout := hfalse.falls rfl
          refine ⟨⟨fun _ => Spot.landAll_reachable.mpr (.inl hout), ?_⟩, ?_⟩
          · rw [Spot.landAll_scopes, Spot.leave, hfalse.scopes.trans hscopes]
            rfl
          · intro stack handlers history
            rw [Spot.landAll_index]
            exact Yields.ternary hyields₁ skip hyields₂ hends leaves hyields₃ stack handlers
              history
  | group ofInner ihInner =>
      intro hnode
      cases hnode with
      | group hnode =>
          obtain ⟨hcarries, hyields⟩ := ihInner sees hnode
          refine ⟨hcarries, fun stack handlers history => ?_⟩
          rw [evaluate]
          exact hyields stack handlers history
  | settles kind ofRule ihRule => exact ihRule sees
  | diverges kind ofRule reset ihRule =>
      intro hnode
      rw [hnode.balance] at kind
      cases kind
  | valueOf kind ofNode ihNode => exact ihNode sees
  | valueNever kind ofNode reset ihNode =>
      intro hnode
      rw [hnode.balance] at kind
      cases kind
  | noValues =>
      intro _
      exact ⟨.refl, .nil⟩
  | moreValues ofFirst ofRest ihFirst ihRest =>
      intro hnodes
      obtain ⟨hfirst, hyields₁⟩ := ihFirst sees.first (hnodes _ (List.mem_cons_self ..))
      obtain ⟨hrest, hyields₂⟩ := ihRest (sees.second hfirst)
        fun node hmem => hnodes node (List.mem_cons_of_mem _ hmem)
      exact ⟨hfirst.trans hrest, .cons hyields₁ hyields₂⟩
  | noItems =>
      intro _
      exact ⟨.refl, fun list => .noItems⟩
  | moreItems ofFirst push ofRest ihFirst ihRest =>
      intro hnodes
      obtain ⟨hfirst, hyields₁⟩ := ihFirst sees.first (hnodes _ (List.mem_cons_self ..))
      have hpush := hfirst.andThen (push.carries rfl)
      obtain ⟨hrest, hyields₂⟩ := ihRest (sees.second hpush)
        fun node hmem => hnodes node (List.mem_cons_of_mem _ hmem)
      exact ⟨hpush.trans hrest, fun list => .moreItems hyields₁ push hyields₂⟩
  | noFields =>
      intro _
      exact ⟨.refl, fun object => .noFields⟩
  | moreFields ofFirst holds put ofRest ihFirst ihRest =>
      intro hentries
      obtain ⟨hfirst, hyields₁⟩ := ihFirst sees.first (hentries _ (List.mem_cons_self ..))
      have hput := hfirst.andThen (put.carries rfl)
      obtain ⟨hrest, hyields₂⟩ := ihRest (sees.second hput)
        fun entry hmem => hentries entry (List.mem_cons_of_mem _ hmem)
      exact ⟨hput.trans hrest, fun object => .moreFields hyields₁ holds put hyields₂⟩
  | _ =>
      -- What is left are other nodes and phrases that are not about values.
      first
      | exact trivial
      | (intro hnode; exact nomatch hnode)

end

/-! ### Lowering an expression -/

/-- The code that is being written, as it stands. -/
def image (ws : Workspace) : Image where
  code := ws.code.current.code
  maxStack := ws.code.maxDepth
  constants := ws.code.pool.constants

/-- What was written for a node is laid out in the code as it stands. -/
theorem lowerWithin_laid {settings : Settings} {room : Nat} {node : Node} {ws ws' : Workspace}
    (hs : ws.Sound) (h : lowerWithin .standard settings room node ws = .done () ws')
    (hshort : ws'.code.length < wordLimit) :
    ∃ s, Laid (image ws') s (.node node) ws.spot ws'.spot := by
  obtain ⟨breaks, hrun, -⟩ := lowerWithin_faithful settings room node ws ws' hs h
  -- The jumps of breaks that wait for their loop lead to the largest word meanwhile.
  refine ⟨_, hrun.holds (image ws') 4294967295 ⟨?_, ?_, hshort, Nat.le_refl _, ?_⟩⟩
  · intro i instruction _ _ hcode
    exact hcode
  · intro label hlabel
    exact ⟨4294967295, rfl, (hrun.breaks_wait label hlabel).unaimed⟩
  · intro i c hc
    exact hc

/-- **Lowering an expression writes code that computes it**, from every state of the machine and
with every host, in every place that control gets to.  In other places it does so too, unless a
jump of a ternary is the first to land; without a ternary none does
(`Node.firstLanding?_ne_ternary`). -/
theorem lower_computes {V : Type} (host : Host V) {settings : Settings} {room : Nat} {node : Node}
    {ws ws' : Workspace} (hnode : node.IsExpression) (hs : ws.Sound)
    (hclear : ws.code.reachable = true ∨ node.firstLanding? ≠ some .ternary)
    (h : lowerWithin .standard settings room node ws = .done () ws')
    (hshort : ws'.code.length < wordLimit) (stack : List V) (locals : SlotRef → V)
    (handlers : List Handler) (history : List (Event V)) :
    ∃ value history',
      evaluate host (.inside ws.scopes.frames locals) node history = some (value, history') ∧
        Steps (image ws') host ⟨ws.code.length, stack, locals, handlers, history⟩
          ⟨ws'.code.length, value :: stack, locals, handlers, history'⟩ := by
  obtain ⟨s, hlaid⟩ := lowerWithin_laid hs h hshort
  have hsees : Sees (.inside ws.scopes.frames locals) node.firstLanding? ws.spot := by
    refine ⟨hclear, ?_⟩
    intro name found hfound
    rw [show ws.spot.scopes = ws.scopes.frames.map Frame.bare from rfl,
      Frame.findLocal_bare] at hfound
    exact Scene.inside_fits ws.scopes.frames locals name found hfound
  exact (hlaid.computed hsees hnode).2 stack handlers history

/-- A host that has constants for values and one answer to everything. -/
def plainHost : Host Constant where
  constant value := value
  emptyList := .null
  push list _ := list
  emptyObject := .null
  put object _ _ := object
  closure _ := .null
  imported _ _ := .null
  unary _ value := value
  binary _ left _ := left
  iterator value := value
  raised code _ := code
  truthy value := value == .bool true
  answer _ := .null
  gives _ := false

/-- A ternary whose condition is true. -/
def choice : Node :=
  .ternary (.literal (.bool true) {}) (.literal (.int 1) {}) (.literal (.int 2) {}) {}

theorem choice_isExpression : choice.IsExpression :=
  .ternary .literal .literal .literal

/-- The code of a node lowered in a workspace: where it starts, the code, and the constants. -/
def writtenIn (outcome : Outcome Workspace Unit) (node : Node) :
    Option (Nat × Array Instruction × Array Constant) :=
  match outcome with
  | .done _ ws =>
    match lowerWithin .standard {} 2 node ws with
    | .done _ ws' => some (ws.code.length, ws'.code.current.code, ws'.code.pool.constants)
    | _ => none
  | _ => none

theorem writtenIn_some {outcome : Outcome Workspace Unit} {node : Node} {start : Nat}
    {code : Array Instruction} {constants : Array Constant}
    (h : writtenIn outcome node = some (start, code, constants)) :
    ∃ ws ws', outcome = .done () ws ∧ lowerWithin .standard {} 2 node ws = .done () ws' ∧
      ws.code.length = start ∧ (image ws').code = code ∧ (image ws').constants = constants := by
  unfold writtenIn at h
  split at h
  · rename_i ws
    split at h
    · rename_i ws' hlower
      simp only [Option.some.injEq, Prod.mk.injEq] at h
      exact ⟨ws, ws', rfl, hlower, h.1, h.2.1, h.2.2⟩
    · cases h
  · cases h

/-- Two operands that are both looked at, and no ternary. -/
def bothTrue : Node :=
  .logical .and (.literal (.bool true) {}) (.literal (.int 1) {}) {}

/-- A choice at the start of a query, and `&&` after a return. -/
theorem choice_computes :
    (∃ ws', lowerWithin .standard {} 2 choice (Compiler.start {} false) = .done () ws' ∧
      Steps (image ws') plainHost ⟨0, [], fun _ => .null, [], []⟩
        ⟨5, [.int 1], fun _ => .null, [], []⟩) ∧
    ∃ ws ws',
      lowerWithin .standard {} 2 (.returnWith 0 none {}) (Compiler.start {} false) = .done () ws ∧
        lowerWithin .standard {} 2 bothTrue ws = .done () ws' ∧
        Steps (image ws') plainHost ⟨3, [], fun _ => .null, [], []⟩
          ⟨8, [.int 1], fun _ => .null, [], []⟩ := by
  constructor
  · have hwritten : writtenIn (.done () (Compiler.start {} false)) choice = some (0,
        #[⟨.pushTrue, .none⟩, ⟨.jumpIfFalse, .target 4⟩, ⟨.loadConst, .const 0⟩,
          ⟨.jump, .target 5⟩, ⟨.loadConst, .const 1⟩], #[.int 1, .int 2]) := by decide +kernel
    obtain ⟨ws, ws', hstart, hlower, -, hcode, -⟩ := writtenIn_some hwritten
    obtain rfl : Compiler.start {} false = ws := (Outcome.done.inj hstart).2
    have hlength : ws'.code.length = 5 := congrArg Array.size hcode
    obtain ⟨value, history, hvalue, hsteps⟩ := lower_computes plainHost choice_isExpression
      (start_sound {} false) (.inl rfl) hlower (by rw [hlength]; decide) [] (fun _ => .null) [] []
    obtain ⟨rfl, rfl⟩ : Constant.int 1 = value ∧ [] = history :=
      Prod.mk.inj (Option.some.inj hvalue)
    rw [hlength] at hsteps
    exact ⟨ws', hlower, hsteps⟩
  · have hwritten : writtenIn (lowerWithin .standard {} 2 (.returnWith 0 none {})
        (Compiler.start {} false)) bothTrue = some (3,
          #[⟨.loadConst, .const 0⟩, ⟨.pushNull, .none⟩, ⟨.ret, .none⟩, ⟨.pushTrue, .none⟩,
            ⟨.dup, .none⟩, ⟨.jumpIfFalse, .target 8⟩, ⟨.pop, .none⟩, ⟨.loadConst, .const 1⟩],
          #[.int 0, .int 1]) := by decide +kernel
    obtain ⟨ws, ws', hreturn, hlower, hstart, hcode, -⟩ := writtenIn_some hwritten
    have hsound : ws.Sound :=
      (lowerWithin_faithful {} 2 _ _ _ (start_sound {} false) hreturn).sound
    have hlength : ws'.code.length = 8 := congrArg Array.size hcode
    obtain ⟨value, history, hvalue, hsteps⟩ := lower_computes plainHost
      (.logical .literal .literal) hsound (.inr nofun) hlower (by rw [hlength]; decide) []
      (fun _ => .null) [] []
    obtain ⟨rfl, rfl⟩ : Constant.int 1 = value ∧ [] = history :=
      Prod.mk.inj (Option.some.inj hvalue)
    rw [hstart, hlength] at hsteps
    exact ⟨ws, ws', hreturn, hlower, hsteps⟩

/-- After a return the jump over the second arm is left out, so the code of the ternary leaves two
values.  Control does not get there. -/
theorem dead_choice_leaves_two : ¬ ∀ (settings : Settings) (room : Nat) (node : Node)
    (ws ws' : Workspace), node.IsExpression → ws.Sound →
      lowerWithin .standard settings room node ws = .done () ws' → ws'.code.length < wordLimit →
      ∀ (host : Host Constant) (stack : List Constant) (locals : SlotRef → Constant)
        (handlers : List Handler) (history : List (Event Constant)),
        ∃ value history',
          evaluate host (.inside ws.scopes.frames locals) node history = some (value, history') ∧
            Steps (image ws') host ⟨ws.code.length, stack, locals, handlers, history⟩
              ⟨ws'.code.length, value :: stack, locals, handlers, history'⟩ := by
  intro hclaim
  have hwritten : writtenIn (lowerWithin .standard {} 2 (.returnWith 0 none {})
      (Compiler.start {} false)) choice = some (3,
        #[⟨.loadConst, .const 0⟩, ⟨.pushNull, .none⟩, ⟨.ret, .none⟩, ⟨.pushTrue, .none⟩,
          ⟨.jumpIfFalse, .target 6⟩, ⟨.loadConst, .const 1⟩, ⟨.loadConst, .const 2⟩],
        #[.int 0, .int 1, .int 2]) := by decide +kernel
  obtain ⟨ws, ws', hreturn, hlower, hstart, hcode, hconstants⟩ := writtenIn_some hwritten
  have hsound : ws.Sound :=
    (lowerWithin_faithful {} 2 _ _ _ (start_sound {} false) hreturn).sound
  have hlength : ws'.code.length = 7 := congrArg Array.size hcode
  obtain ⟨value, history, -, hsteps⟩ := hclaim {} 2 choice ws ws' choice_isExpression hsound hlower
    (by rw [hlength]; decide) plainHost [] (fun _ => .null) [] []
  rw [hstart, hlength] at hsteps
  generalize image ws' = F at hcode hconstants hsteps
  obtain ⟨code, maxStack, constants⟩ := F
  subst hcode hconstants
  have heq := hsteps.stuck_unique (.more rfl (.more rfl (.more rfl (.more rfl .done)))) rfl rfl
  have hlengths : 1 = 2 := congrArg (fun σ => σ.stack.length) heq
  exact absurd hlengths (by decide)

end Layout

end QueryCompiler
