/-
Walking a query tree without recursion on the tree.

The walk visits every node before its children and the children in order.  It
keeps the nodes still to be visited on a stack, each with its depth, and puts the
children of a visited node on top of the others, so a tree of any depth can be
looked at.  What shrinks is the number of nodes in all pending trees together:
`size_eq` says that visiting a node trades its tree for those of its children.
-/
import QueryCompiler.Query.Node

namespace QueryCompiler.Node

/-! ### Sizes of trees -/

mutual

/-- How many nodes a tree has. -/
def size : Node → Nat
  | literal .. | ident .. | param .. | current .. | hint .. | importAs .. | breakLoop ..
  | continueLoop .. => 1
  | list items _ => 1 + sizeList items
  | object fields _ => 1 + sizeFields fields
  | member owner _ _ => 1 + owner.size
  | index owner subscript _ => 1 + owner.size + subscript.size
  | call callee arguments _ => 1 + callee.size + sizeList arguments
  | unary _ operand _ => 1 + operand.size
  | binary _ left right _ => 1 + left.size + right.size
  | logical _ left right _ => 1 + left.size + right.size
  | ternary condition whenTrue whenFalse _ =>
    1 + condition.size + whenTrue.size + whenFalse.size
  | group inner _ => 1 + inner.size
  | lambda _ body _ => 1 + body.size
  | transform _ source shape _ => 1 + source.size + shape.size
  | block statements _ => 1 + sizeList statements
  | varDecl _ init _ => 1 + init.size
  | assign _ value _ => 1 + value.size
  | run inner _ => 1 + inner.size
  | ifChain arms otherwise _ => 1 + sizeArms arms + sizeOption otherwise
  | whileLoop condition body _ => 1 + condition.size + body.size
  | forEach _ iterable body _ => 1 + iterable.size + body.size
  | tryCatch body _ handler _ => 1 + body.size + handler.size
  | returnWith _ data _ => 1 + sizeOption data
  | exitWith _ data _ => 1 + sizeOption data
  | throwWith _ data _ => 1 + data.size

/-- How many nodes some trees have together. -/
def sizeList : List Node → Nat
  | [] => 0
  | node :: rest => node.size + sizeList rest

/-- How many nodes the values of some fields have together. -/
def sizeFields : List (String × Node) → Nat
  | [] => 0
  | (_, node) :: rest => node.size + sizeFields rest

/-- How many nodes the conditions and bodies of some arms have together. -/
def sizeArms : List (Node × Node) → Nat
  | [] => 0
  | (condition, body) :: rest => condition.size + body.size + sizeArms rest

/-- How many nodes a tree has that may be absent. -/
def sizeOption : Option Node → Nat
  | none => 0
  | some node => node.size

end

@[simp] theorem sizeList_append (a b : List Node) :
    sizeList (a ++ b) = sizeList a + sizeList b := by
  induction a with
  | nil => simp [sizeList]
  | cons node rest ih => simp [sizeList, ih, Nat.add_assoc]

theorem sizeList_fields (fields : List (String × Node)) :
    sizeList (fields.map Prod.snd) = sizeFields fields := by
  induction fields with
  | nil => rfl
  | cons field rest ih => simp [sizeList, sizeFields, ih]

theorem sizeList_arms (arms : List (Node × Node)) :
    sizeList (arms.flatMap fun (condition, body) => [condition, body]) = sizeArms arms := by
  induction arms with
  | nil => rfl
  | cons arm rest ih => simp [sizeList, sizeArms, ih, Nat.add_assoc]

theorem sizeList_toList (node : Option Node) : sizeList node.toList = sizeOption node := by
  cases node <;> simp [sizeList, sizeOption]

/-- A tree is its root and the trees of the children. -/
theorem size_eq (node : Node) : node.size = 1 + sizeList node.children := by
  cases node <;>
    simp [size, children, sizeList, sizeList_fields, sizeList_arms, sizeList_toList,
      Nat.add_assoc]

/-! ### The walk -/

/-- Nodes still to be visited, each with its depth in the tree, the next one first. -/
abbrev Pending := List (Node × Nat)

namespace Pending

/-- How many nodes are still to be visited. -/
def size (pending : Pending) : Nat :=
  sizeList (pending.map Prod.fst)

/-- What is left to visit after a node: its children, one level further down, come first. -/
def descend (node : Node) (depth : Nat) (rest : Pending) : Pending :=
  node.children.map (fun child => (child, depth + 1)) ++ rest

theorem size_descend_lt (node : Node) (depth : Nat) (rest : Pending) :
    (descend node depth rest).size < size ((node, depth) :: rest) := by
  simp [size, descend, sizeList, size_eq node, Function.comp_def]

end Pending

/-- Turn around what an array has from a position on. -/
def turnFrom {α : Type} (start : Nat) (stack : Array α) : Array α :=
  let turned := (stack.extract start).reverse
  stack.shrink start ++ turned

theorem turnFrom_append {α : Type} (rest added : Array α) :
    turnFrom rest.size (rest ++ added) = rest ++ added.reverse := by
  simp [turnFrom, Array.extract_append]

/-- A walk keeps the nodes still to be visited on a stack, the next one at the end. -/
structure Walk where
  stack : Array (Node × Nat)

namespace Walk

/-- A walk over a tree, whose root is at depth one. -/
def start (root : Node) : Walk where
  stack := #[(root, 1)]

/-- The next node and what remains of the walk.  The children of the node are added in their order
and then turned around, so that the first of them is the next to be taken. -/
def next? (walk : Walk) : Option ((Node × Nat) × Walk) :=
  match walk.stack.back? with
  | none => none
  | some (node, depth) =>
    let rest := walk.stack.pop
    let added := (node.children.map fun child => (child, depth + 1)).toArray
    some ((node, depth), ⟨turnFrom rest.size (rest ++ added)⟩)

/-- What is on the stack, read from its end. -/
def pending (walk : Walk) : Pending :=
  walk.stack.toList.reverse

/-- **Read from its end, the stack has the children of the node in the place of the node.** -/
theorem next?_pending (walk : Walk) :
    match walk.next? with
    | none => walk.pending = []
    | some ((node, depth), after) =>
      ∃ rest, walk.pending = (node, depth) :: rest ∧
        after.pending = Pending.descend node depth rest := by
  obtain ⟨stack⟩ := walk
  cases hlast : stack.back? with
  | none =>
      obtain rfl := Array.back?_eq_none_iff.mp hlast
      rfl
  | some entry =>
      obtain ⟨rest, rfl⟩ := Array.back?_eq_some_iff.mp hlast
      simp only [next?, Array.back?_push, Array.pop_push, turnFrom_append, pending]
      refine ⟨rest.toList.reverse, ?_, ?_⟩
      · rw [Array.toList_push, List.reverse_append]
        rfl
      · simp [Pending.descend]

theorem pending_of_none {walk : Walk} (h : walk.next? = none) : walk.pending = [] := by
  have hnext := walk.next?_pending
  rwa [h] at hnext

theorem pending_of_some {walk after : Walk} {node : Node} {depth : Nat}
    (h : walk.next? = some ((node, depth), after)) :
    ∃ rest, walk.pending = (node, depth) :: rest ∧
      after.pending = Pending.descend node depth rest := by
  have hnext := walk.next?_pending
  rwa [h] at hnext

theorem size_next_lt {walk after : Walk} {entry : Node × Nat}
    (h : walk.next? = some (entry, after)) : after.pending.size < walk.pending.size := by
  obtain ⟨rest, hpending, hafter⟩ := pending_of_some h
  rw [hpending, hafter]
  exact Pending.size_descend_lt entry.1 entry.2 rest

/-- Visit everything that is pending, after the nodes already visited. -/
def visit (walk : Walk) (visited : Array (Node × Nat)) : Array (Node × Nat) :=
  match _ : walk.next? with
  | none => visited
  | some (entry, after) => visit after (visited.push entry)
termination_by walk.pending.size
decreasing_by exact size_next_lt ‹_›

/-- The first answer any pending node gives, in the order of the walk.  Nothing after that node
is looked at. -/
def findSome? {α : Type} (answer : Node → Nat → Option α) (walk : Walk) : Option α :=
  match _ : walk.next? with
  | none => none
  | some ((node, depth), after) =>
    match answer node depth with
    | some found => some found
    | none => findSome? answer after
termination_by walk.pending.size
decreasing_by exact size_next_lt ‹_›

end Walk

/-- Every node of the tree with its depth, the root first and at depth one. -/
def walk (root : Node) : Array (Node × Nat) :=
  (Walk.start root).visit #[]

end QueryCompiler.Node
