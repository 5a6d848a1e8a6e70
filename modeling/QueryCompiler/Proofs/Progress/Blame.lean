/-
Which errors a query can be blamed for.

With the standard rules not every error of the compiler can come up, and those that
can point at a part of the query that is to blame.  `CompileError.Expected` says which
errors are to be expected of a query, and what in it they are about.  The constants
the pool can be asked for are those that stand in the query, so a query with few of
them does not fill it; `mem_constants` is what connects the parts of a query with the
walk that collects its constants.
-/
import QueryCompiler.Failure.CompileError
import QueryCompiler.Proofs.Order.Walk

namespace QueryCompiler

namespace Node

/-- The node is the tree itself or a part of it. -/
inductive Occurs (root : Node) : Node → Prop
  | root : Occurs root root
  | part {parent node : Node} (hparent : Occurs root parent) (hnode : node ∈ parent.children) :
      Occurs root node

theorem Occurs.trans {root middle node : Node} (h : root.Occurs middle) (h' : middle.Occurs node) :
    root.Occurs node := by
  induction h' with
  | root => exact h
  | part _ hnode ih => exact ih.part hnode

/-- The direct parts of a node that stand where a value is needed. -/
def operands : Node → List Node
  | list items _ => items
  | object fields _ => fields.map Prod.snd
  | member owner _ _ => [owner]
  | index owner subscript _ => [owner, subscript]
  | call callee arguments _ => callee :: arguments
  | unary _ operand _ => [operand]
  | binary _ left right _ => [left, right]
  | logical _ left right _ => [left, right]
  | ternary condition whenTrue whenFalse _ => [condition, whenTrue, whenFalse]
  | group inner _ => [inner]
  | transform _ source shape _ => [source, shape]
  | varDecl _ init _ => [init]
  | assign _ value _ => [value]
  | ifChain arms _ _ => arms.map Prod.fst
  | whileLoop condition _ _ => [condition]
  | forEach _ iterable _ _ => [iterable]
  | returnWith _ data _ => data.toList
  | exitWith _ data _ => data.toList
  | throwWith _ data _ => [data]
  | literal .. | ident .. | param .. | current .. | lambda .. | block .. | run .. | hint ..
  | importAs .. | breakLoop .. | continueLoop .. | tryCatch .. => []

theorem mem_children_of_mem_operands {node part : Node} (h : part ∈ node.operands) :
    part ∈ node.children := by
  cases node with
  | ifChain arms otherwise span =>
      obtain ⟨arm, harm, rfl⟩ := List.mem_map.mp h
      exact List.mem_append_left _ (List.mem_flatMap.mpr ⟨arm, harm, List.mem_cons_self⟩)
  | whileLoop | forEach =>
      simp only [operands, List.mem_singleton] at h
      simp only [children, List.mem_cons, h, true_or]
  | list | object | member | index | call | unary | binary | logical | ternary | group
  | transform | varDecl | assign | returnWith | exitWith | throwWith => exact h
  | literal | ident | param | current | lambda | block | run | hint | importAs | breakLoop
  | continueLoop | tryCatch => cases h

theorem Occurs.operand {root node part : Node} (hnode : Occurs root node)
    (h : part ∈ node.operands) : Occurs root part :=
  hnode.part (mem_children_of_mem_operands h)

/-! ### Constants -/

/-- The constants a node has the pool asked for, those of its parts left out. -/
def ownConstants : Node → List Constant
  | literal .null _ | literal (.bool _) _ => []
  | literal value _ => [value]
  | object fields _ => fields.map fun field => .string field.1
  | ident name _ | param name _ | member _ name _ => [.string name]
  | hint name value _ => [.string name, value]
  | importAs _ path _ _ => [.string path]
  | returnWith code _ _ | exitWith code _ _ | throwWith code _ _ => [.int code]
  | _ => []

/-- All constants the pool can be asked for: zero, which is the code of a function that comes to
its end, and those of the nodes. -/
def constants (root : Node) : List Constant :=
  .int 0 :: root.walk.toList.flatMap fun (node, _) => node.ownConstants

/-- The walk comes to every part of a tree. -/
theorem Occurs.mem_walk {root node : Node} (h : Occurs root node) :
    ∃ depth, (node, depth) ∈ root.walk := by
  have hlisted : ∃ depth, (node, depth) ∈ root.preorder 1 := by
    induction h with
    | root => exact ⟨1, root.mem_preorder_self 1⟩
    | part _ hnode ih =>
        obtain ⟨depth, hparent⟩ := ih
        exact ⟨depth + 1, mem_preorder_of_mem_children hparent hnode⟩
  obtain ⟨depth, hnode⟩ := hlisted
  rw [← walk_toList, Array.mem_toList_iff] at hnode
  exact ⟨depth, hnode⟩

/-- **The constants of every part of a tree are among those of the tree.** -/
theorem mem_constants {root node : Node} {value : Constant} (hnode : Occurs root node)
    (h : value ∈ node.ownConstants) : value ∈ root.constants := by
  obtain ⟨depth, hwalk⟩ := hnode.mem_walk
  refine List.mem_cons_of_mem _ (List.mem_flatMap.mpr ⟨(node, depth), ?_, h⟩)
  exact Array.mem_toList_iff.mpr hwalk

end Node

/-! ### Errors -/

/-- The errors that are to be expected of a query, and what in it they are about. -/
def CompileError.Expected (root : Node) : CompileError → Prop
  -- No query is to blame for these.
  | unsupported .. | closedOutOfOrder .. | duplicateRule .. | poolFull .. => False
  -- A `break` or `continue` outside of a loop, or a current element outside of a transform.
  | notEnclosed scope span =>
    (scope = .loop ∧ (root.Occurs (.breakLoop span) ∨ root.Occurs (.continueLoop span))) ∨
      (scope = .transform ∧ root.Occurs (.current span))
  -- A part that yields no value, where one is needed.
  | wrongBalance construct expected found span =>
    ∃ parent node, root.Occurs parent ∧ node ∈ parent.operands ∧ node.construct = construct ∧
      construct.balance = .effect ∧ node.span = span ∧ expected = found + 1
  -- A call with more arguments than an instruction can count.
  | internal defect =>
    ∃ callee arguments span, root.Occurs (.call callee arguments span) ∧
      65535 < arguments.length ∧ defect = .tooManyArguments span arguments.length
  | tooDeep .. | undeclared .. | strayOperands .. | slotsExhausted .. => True

end QueryCompiler
