/-
What the lowering of a node consists of.

Seen from outside, the rule of a node has parts lowered and takes slots, in an order
that only depends on the construct.  `Node.errands` is the table of that order.  It also
says with how many operands on the stack each part is lowered: a part has those of its
node under it, and besides the ones that the node has put there for it to be combined
with.  Where a node of a tree is lowered can then be read off the tree alone, and so can
the slots that a function takes.
-/
import QueryCompiler.Proofs.Order.Preflight
import QueryCompiler.Proofs.Progress.Expressions

namespace QueryCompiler

/-- Where a node stands in the body of a function. -/
structure Place where
  /-- The operands that lie on the stack when its lowering starts. -/
  depth : Nat
  /-- The operands that lay on the stack where the condition or the body starts of the loop that a
  `break` at the node would leave, if there is one. -/
  level? : Option Nat
deriving DecidableEq

namespace Place

/-- A part that is lowered with some more operands on the stack. -/
def above (place : Place) (operands : Nat) : Place :=
  ⟨place.depth + operands, place.level?⟩

/-- A part that is repeated, or decides about that. -/
def inLoop (place : Place) (operands : Nat) : Place :=
  ⟨place.depth + operands, some (place.depth + operands)⟩

/-- A part from which no loop around it can be left. -/
def inTransform (place : Place) (operands : Nat) : Place :=
  ⟨place.depth + operands, none⟩

/-- The body of a function.  If it yields a value, the result code lies under it. -/
def ofBody (body : Node) : Place :=
  ⟨if body.construct.balance = .value then 1 else 0, none⟩

/-- The operands on the stack that the loop around the node knows nothing of. -/
def stray? (place : Place) : Option Nat :=
  place.level?.map fun level => place.depth - level

end Place

/-- Something that is to be done for a node, as far as it can be told from the tree. -/
inductive Errand where
  /-- A part is lowered. -/
  | part (node : Node) (place : Place)
  /-- A slot of the function is taken. -/
  | slot
  /-- A function with some parameters is made. -/
  | function (params : List Name) (body : Node)

/-- The node whose lowering is started, and where. -/
def Errand.start? : Errand → Option (Node × Place)
  | part node place => some (node, place)
  | slot => none
  | function _ body => some (body, .ofBody body)

namespace Node

/-- **What is to be done for a node,** in order. -/
def errands (place : Place) : Node → List Errand
  | literal .. | ident .. | param .. | current .. | hint .. | breakLoop .. | continueLoop .. => []
  | list items _ => items.map fun item => .part item (place.above 1)
  | object fields _ => fields.map fun field => .part field.2 (place.above 1)
  | member owner _ _ => [.part owner place]
  | index owner subscript _ => [.part owner place, .part subscript (place.above 1)]
  | call callee arguments _ =>
    .part callee place :: arguments.mapIdx fun i argument => .part argument (place.above (1 + i))
  | unary _ operand _ => [.part operand place]
  | binary _ left right _ => [.part left place, .part right (place.above 1)]
  | logical _ left right _ => [.part left place, .part right place]
  | ternary condition whenTrue whenFalse _ =>
    [.part condition place, .part whenTrue place, .part whenFalse place]
  | group inner _ => [.part inner place]
  | lambda params body _ => [.function params body]
  | transform .each source shape _ =>
    [.slot, .slot, .part source place, .part shape (place.inTransform 2)]
  | transform .single source shape _ =>
    [.slot, .part source place, .part shape (place.inTransform 0)]
  | block statements _ => statements.map fun statement => .part statement place
  | varDecl _ init _ => [.part init place, .slot]
  | assign _ value _ => [.part value place]
  | run inner _ => [.part inner place]
  | importAs .. => [.slot]
  | ifChain arms otherwise _ =>
    arms.flatMap (fun arm => [.part arm.1 place, .part arm.2 place]) ++
      otherwise.toList.map fun body => .part body place
  | whileLoop condition body _ => [.part condition (place.inLoop 0), .part body (place.inLoop 0)]
  | forEach _ iterable body _ => [.part iterable place, .slot, .part body (place.inLoop 1)]
  | tryCatch body binding handler _ =>
    .part body place :: ((binding.toList.map fun _ => .slot) ++ [.part handler place])
  | returnWith _ data _ | exitWith _ data _ =>
    data.toList.map fun data => .part data (place.above 1)
  | throwWith _ data _ => [.part data (place.above 1)]

/-- The nodes whose lowering is started are the children, in order. -/
theorem map_start_errands (node : Node) (place : Place) :
    ((node.errands place).filterMap Errand.start?).map Prod.fst = node.children := by
  have hparts : ∀ (nodes : List Node) (place : Place),
      ((nodes.map fun node => Errand.part node place).filterMap Errand.start?).map Prod.fst =
        nodes := by
    intro nodes place
    simp [List.filterMap_map, Function.comp_def, Errand.start?]
  cases node with
  | list items | block statements => exact hparts _ _
  | object fields =>
      simp [errands, children, List.filterMap_map, Function.comp_def, Errand.start?]
  | call callee arguments =>
      have hplaces : ∀ place : Nat → Place, ((arguments.mapIdx fun i argument =>
          Errand.part argument (place i)).filterMap Errand.start?).map Prod.fst = arguments := by
        induction arguments with
        | nil => exact fun _ => rfl
        | cons argument rest ih =>
            intro place
            rw [List.mapIdx_cons]
            exact congrArg (List.cons argument) (ih fun i => place (i + 1))
      exact congrArg (List.cons callee) (hplaces _)
  | transform mode source shape => cases mode <;> rfl
  | ifChain arms otherwise =>
      simp only [errands, children, List.filterMap_append, List.map_append, hparts]
      congr 1
      induction arms with
      | nil => rfl
      | cons arm rest ih => simp [Errand.start?, ih]
  | tryCatch body binding handler => cases binding <;> rfl
  | returnWith code data | exitWith code data => cases data <;> rfl
  | _ => rfl

/-- The nodes of a tree in preorder, and where each of them is lowered. -/
def placed (node : Node) (place : Place) : List (Node × Place) :=
  (node, place) :: ((node.errands place).filterMap Errand.start?).attach.flatMap fun child =>
    child.val.1.placed child.val.2
termination_by node.size
decreasing_by
  refine size_lt_of_mem_children ?_
  rw [← map_start_errands node place]
  exact List.mem_map_of_mem child.property

theorem placed_eq (node : Node) (place : Place) :
    node.placed place = (node, place) ::
      ((node.errands place).filterMap Errand.start?).flatMap fun child =>
        child.1.placed child.2 := by
  rw [placed]
  congr 1
  conv_rhs => rw [← List.attach_map_subtype_val (List.filterMap Errand.start? (errands place node)),
    List.flatMap_map]

end Node

end QueryCompiler
