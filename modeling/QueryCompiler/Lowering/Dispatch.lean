/-
Lowering a tree while keeping count.

`lowerWithin` is told how many levels it may go down.  A dispatcher keeps count instead:
the counter is raised before the rule of a node is applied and lowered again after it,
also if the rule failed, and a node that is reached with the counter at the limit is
turned away.  The recursion needs a bound of its own, which nothing is decided by; a
counter that is kept in order turns nodes away before the bound is used up.
-/
import QueryCompiler.Lowering.Contract
import QueryCompiler.Lowering.Registry

namespace QueryCompiler

/-- Do something as the lowering of one more node, and count that node off again in any case. -/
def Workspace.further {α : Type} (action : Action Workspace α) : Action Workspace α := do
  Action.modify fun ws => { ws with underway := ws.underway + 1 }
  let result ← action.attempt
  Action.modify fun ws => { ws with underway := ws.underway - 1 }
  Action.ofResult result

/-- Lower a node, and at most `bound` levels of nodes below it. -/
def dispatchWithin (registry : Registry) (settings : Settings) (bound : Nat) :
    Lower := fun node => do
  let rule ← Action.ofResult (registry.ruleFor node.construct node.span)
  let underway ← Action.read Workspace.underway
  if settings.maxDepth ≤ underway then
    Action.fail (.tooDeep settings.maxDepth node.span)
  else
    match bound with
    | 0 => Action.raise .lostCount
    | bound + 1 =>
      Contract.supervise settings node
        (Workspace.further (rule (dispatchWithin registry settings bound) node))

/-- Lower a node, counting the nodes that are being lowered. -/
def dispatch (registry : Registry) (settings : Settings) : Lower :=
  dispatchWithin registry settings settings.maxDepth

end QueryCompiler
