/-
Queries without superfluous parentheses.

Parentheses around something that yields a value say nothing that the tree does not say
already.  `Node.ungrouped` takes them away, from the inside out; parentheses around a
statement stay, since they are an error and have to remain one.

A node that is not taken away itself keeps its construct and its place, and its parts are
the ungrouped parts.  A rule does not see more of a part than its balance, and of a part
without value its construct and its place; these are the same without parentheses.  So a
rule does with the ungrouped node what it does with the node, if it has the ungrouped
parts lowered.
-/
import QueryCompiler.Lowering.Registry

namespace QueryCompiler

namespace Node

mutual

/-- The query without parentheses around what yields a value. -/
def ungrouped : Node → Node
  | literal value span => literal value span
  | list items span => list (ungroupedList items) span
  | object fields span => object (ungroupedFields fields) span
  | ident name span => ident name span
  | param name span => param name span
  | current span => current span
  | member owner name span => member owner.ungrouped name span
  | index owner subscript span => index owner.ungrouped subscript.ungrouped span
  | call callee arguments span => call callee.ungrouped (ungroupedList arguments) span
  | unary op operand span => unary op operand.ungrouped span
  | binary op left right span => binary op left.ungrouped right.ungrouped span
  | logical op left right span => logical op left.ungrouped right.ungrouped span
  | ternary condition whenTrue whenFalse span =>
    ternary condition.ungrouped whenTrue.ungrouped whenFalse.ungrouped span
  | group inner span =>
    if inner.ungrouped.construct.balance = .value then inner.ungrouped
    else group inner.ungrouped span
  | lambda params body span => lambda params body.ungrouped span
  | transform mode source shape span => transform mode source.ungrouped shape.ungrouped span
  | block statements span => block (ungroupedList statements) span
  | varDecl name init span => varDecl name init.ungrouped span
  | assign name value span => assign name value.ungrouped span
  | run inner span => run inner.ungrouped span
  | hint name value span => hint name value span
  | importAs source path binding span => importAs source path binding span
  | ifChain arms otherwise span => ifChain (ungroupedArms arms) (ungroupedOption otherwise) span
  | whileLoop condition body span => whileLoop condition.ungrouped body.ungrouped span
  | forEach binding iterable body span => forEach binding iterable.ungrouped body.ungrouped span
  | breakLoop span => breakLoop span
  | continueLoop span => continueLoop span
  | tryCatch body binding handler span => tryCatch body.ungrouped binding handler.ungrouped span
  | returnWith code data span => returnWith code (ungroupedOption data) span
  | exitWith code data span => exitWith code (ungroupedOption data) span
  | throwWith code data span => throwWith code data.ungrouped span

def ungroupedList : List Node → List Node
  | [] => []
  | node :: rest => node.ungrouped :: ungroupedList rest

def ungroupedFields : List (String × Node) → List (String × Node)
  | [] => []
  | (key, node) :: rest => (key, node.ungrouped) :: ungroupedFields rest

def ungroupedArms : List (Node × Node) → List (Node × Node)
  | [] => []
  | (condition, body) :: rest => (condition.ungrouped, body.ungrouped) :: ungroupedArms rest

def ungroupedOption : Option Node → Option Node
  | none => none
  | some node => some node.ungrouped

end

theorem ungroupedList_eq (nodes : List Node) : ungroupedList nodes = nodes.map ungrouped := by
  induction nodes with
  | nil => rfl
  | cons node rest ih => rw [ungroupedList, ih, List.map_cons]

theorem ungroupedFields_eq (fields : List (String × Node)) :
    ungroupedFields fields = fields.map fun field => (field.1, field.2.ungrouped) := by
  induction fields with
  | nil => rfl
  | cons field rest ih => rw [ungroupedFields, ih, List.map_cons]

theorem ungroupedArms_eq (arms : List (Node × Node)) :
    ungroupedArms arms = arms.map fun arm => (arm.1.ungrouped, arm.2.ungrouped) := by
  induction arms with
  | nil => rfl
  | cons arm rest ih => rw [ungroupedArms, ih, List.map_cons]

theorem ungroupedOption_eq (node : Option Node) : ungroupedOption node = node.map ungrouped := by
  cases node <;> rfl

/-- Parentheses do not change what is left on the operand stack. -/
@[simp] theorem balance_ungrouped (node : Node) :
    node.ungrouped.construct.balance = node.construct.balance := by
  cases node with
  | group inner span =>
      by_cases hvalue : inner.ungrouped.construct.balance = .value
      · rw [ungrouped, if_pos hvalue, hvalue]
        rfl
      · rw [ungrouped, if_neg hvalue]
        rfl
  | _ => rfl

/-- The node is a pair of parentheses that is taken away. -/
def isSuperfluous : Node → Bool
  | group inner _ => inner.construct.balance = .value
  | _ => false

theorem ungrouped_superfluous {inner : Node} {span : Span}
    (h : (group inner span).isSuperfluous = true) :
    (group inner span).ungrouped = inner.ungrouped := by
  have hvalue : inner.construct.balance = .value := of_decide_eq_true h
  rw [ungrouped, if_pos (by rw [balance_ungrouped, hvalue])]

theorem ungrouped_group {inner : Node} {span : Span}
    (h : (group inner span).isSuperfluous = false) :
    (group inner span).ungrouped = group inner.ungrouped span := by
  have hvalue : inner.construct.balance ≠ .value := of_decide_eq_false h
  rw [ungrouped, if_neg (by rw [balance_ungrouped]; exact hvalue)]

example (span : Span) :
    (group (group (group (breakLoop span) span) span) span).ungrouped =
      group (breakLoop span) span := rfl

/-! ### Nodes that stay -/

variable {node : Node}

theorem construct_ungrouped (h : node.isSuperfluous = false) :
    node.ungrouped.construct = node.construct := by
  cases node with
  | group inner span =>
      rw [ungrouped_group h]
      rfl
  | _ => rfl

theorem span_ungrouped (h : node.isSuperfluous = false) : node.ungrouped.span = node.span := by
  cases node with
  | group inner span =>
      rw [ungrouped_group h]
      rfl
  | _ => rfl

/-- **The parts of an ungrouped node are its parts, ungrouped.** -/
theorem children_ungrouped (h : node.isSuperfluous = false) :
    node.ungrouped.children = node.children.map ungrouped := by
  cases node with
  | object fields =>
      simp only [ungrouped, children, ungroupedFields_eq, List.map_map]
      rfl
  | ifChain arms otherwise =>
      simp only [ungrouped, children, ungroupedArms_eq, ungroupedOption_eq, List.map_append,
        List.flatMap_map, List.map_flatMap, List.map_cons, List.map_nil]
      cases otherwise <;> rfl
  | list | block | call => simp [ungrouped, children, ungroupedList_eq]
  | returnWith code data | exitWith code data => cases data <;> rfl
  | group inner span =>
      rw [ungrouped_group h]
      rfl
  | _ => rfl

/-- What yields no value is no pair of parentheses. -/
theorem isSuperfluous_of_balance (h : node.construct.balance ≠ .value) :
    node.isSuperfluous = false := by
  cases node with
  | group => exact absurd rfl h
  | _ => rfl

end Node

/-! ### The ways to ask for ungrouped parts -/

namespace Lower

/-- Lower nodes without their superfluous parentheses. -/
def ungrouping (lower : Lower) : Lower := fun node => lower node.ungrouped

variable (lower : Lower)

theorem value_ungrouped (node : Node) :
    lower.value node.ungrouped = lower.ungrouping.value node := by
  unfold value
  rw [Node.balance_ungrouped]
  cases hbalance : node.construct.balance with
  | value | diverges => rfl
  | effect =>
      have hstays : node.isSuperfluous = false :=
        Node.isSuperfluous_of_balance (by rw [hbalance]; decide)
      rw [Node.construct_ungrouped hstays, Node.span_ungrouped hstays]

theorem statement_ungrouped (node : Node) :
    lower.statement node.ungrouped = lower.ungrouping.statement node := by
  rw [statement, statement, Node.balance_ungrouped]
  rfl

theorem body_ungrouped (node : Node) : lower.body node.ungrouped = lower.ungrouping.body node := by
  rw [body, body, Node.balance_ungrouped, value_ungrouped]
  rfl

theorem values_ungrouped (nodes : List Node) :
    lower.values (nodes.map Node.ungrouped) = lower.ungrouping.values nodes := by
  simp only [values, List.forM_eq_forM, List.forM_map, value_ungrouped]

theorem statements_ungrouped (nodes : List Node) :
    lower.statements (nodes.map Node.ungrouped) = lower.ungrouping.statements nodes := by
  simp only [statements, List.forM_eq_forM, List.forM_map, statement_ungrouped]

end Lower

/-! ### Rules -/

namespace Rule

open Workspace

variable (lower : Lower)

theorem ifArms_ungrouped (id : FrameId) (moreFollows : Bool) (arm : Nat)
    (arms : List (Node × Node)) :
    ifArms lower id moreFollows arm (Node.ungroupedArms arms) =
      ifArms lower.ungrouping id moreFollows arm arms := by
  induction arms generalizing arm with
  | nil => rfl
  | cons first rest ih =>
      have hempty : (Node.ungroupedArms rest).isEmpty = rest.isEmpty := by cases rest <;> rfl
      simp only [Node.ungroupedArms, ifArms, ih, hempty, lower.value_ungrouped,
        lower.statement_ungrouped]

theorem result_ungrouped (code : Int64) (data : Option Node) :
    result lower code (Node.ungroupedOption data) = result lower.ungrouping code data := by
  cases data with
  | none => rfl
  | some data => simp only [Node.ungroupedOption, result, lower.value_ungrouped]

/-- **A rule does with an ungrouped node what it does with the node.** -/
theorem standard_ungrouped {node : Node} (h : node.isSuperfluous = false) :
    standard node.construct lower node.ungrouped =
      standard node.construct lower.ungrouping node := by
  cases node with
  | literal | ident | param | current | hint | importAs | breakLoop | continueLoop => rfl
  | list items =>
      simp only [Node.ungrouped, Node.construct, standard, list, Node.ungroupedList_eq,
        List.forM_eq_forM, List.forM_map, lower.value_ungrouped]
  | object fields =>
      simp only [Node.ungrouped, Node.construct, standard, object, Node.ungroupedFields_eq,
        List.forM_eq_forM, List.forM_map, lower.value_ungrouped]
  | call callee arguments =>
      simp only [Node.ungrouped, Node.construct, standard, call, Node.ungroupedList_eq,
        List.length_map, lower.value_ungrouped, lower.values_ungrouped]
  | block statements =>
      simp only [Node.ungrouped, Node.construct, standard, block, Node.ungroupedList_eq,
        lower.statements_ungrouped]
  | group inner span =>
      rw [Node.ungrouped_group h]
      exact lower.value_ungrouped inner
  | lambda params body => simp only [Node.ungrouped, Node.construct, standard, lambda,
      lower.body_ungrouped]
  | transform mode source shape =>
      cases mode <;> simp only [Node.ungrouped, Node.construct, standard, transform, transformEach,
        transformSingle, shapeWith, lower.value_ungrouped]
  | ifChain arms otherwise =>
      have hsome : (Node.ungroupedOption otherwise).isSome = otherwise.isSome := by
        cases otherwise <;> rfl
      have hlength : (Node.ungroupedArms arms).length = arms.length := by
        rw [Node.ungroupedArms_eq, List.length_map]
      simp only [Node.ungrouped, Node.construct, standard, ifChain, hsome, hlength,
        ifArms_ungrouped]
      cases otherwise with
      | none => rfl
      | some body => simp only [Node.ungroupedOption, lower.statement_ungrouped]
  | tryCatch body binding handler => simp only [Node.ungrouped, Node.construct, standard, tryCatch,
      tryPaths, lower.statement_ungrouped]
  | returnWith code data => simp only [Node.ungrouped, Node.construct, standard, returnWith,
      result_ungrouped]
  | exitWith code data => simp only [Node.ungrouped, Node.construct, standard, exitWith,
      result_ungrouped]
  | member | index | unary | binary | logical | ternary | varDecl | assign | run | whileLoop
  | forEach | throwWith =>
      simp only [Node.ungrouped, Node.construct, standard, member, index, unary, binary, logical,
        ternary, varDecl, assign, run, whileLoop, forEach, throwWith, lower.value_ungrouped,
        lower.statement_ungrouped]

end Rule

end QueryCompiler
