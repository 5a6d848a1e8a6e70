/-
Lowering a tree with the rules of a registry.

Rules never call each other.  Every node, also a part of another, is lowered by
`lower`, which finds the rule of its construct, applies it, and holds it to the
contract of the construct.  The tree may be as deep as the settings allow, and the
recursion is on the number of levels that are left.
-/
import QueryCompiler.Lowering.Contract
import QueryCompiler.Lowering.Registry

namespace QueryCompiler

/-- Lower a node of a tree that may go down `room` more levels, its own included. -/
def lowerWithin (registry : Registry) (settings : Settings) : (room : Nat) → Lower
  | 0 => fun node => do
    let _ ← Action.ofResult (registry.ruleFor node.construct node.span)
    Action.fail (.tooDeep settings.maxDepth node.span)
  | room + 1 => fun node => do
    let rule ← Action.ofResult (registry.ruleFor node.construct node.span)
    Contract.supervise settings node (rule (lowerWithin registry settings room) node)

/-- Lower a whole tree. -/
def lower (registry : Registry) (settings : Settings) : Lower :=
  lowerWithin registry settings settings.maxDepth

end QueryCompiler
