/-
Rules a host may put in the place of standard ones.

Some of them do not keep the contract of the construct they may be registered for;
they show what the lowering does about that.
-/
import QueryCompiler.Lowering.Rule

namespace QueryCompiler.Rule

open Workspace

/-- Write nothing. -/
def noop : Rule := fun _ _ => pure ()

/-- Push null, whatever the node. -/
def pushNull : Rule := fun _ _ => emit .pushNull

/-- Push two values, whatever the node. -/
def pushTwo : Rule := fun _ _ => do
  emit .pushTrue
  emit .pushFalse

/-- Open a block and leave it open. -/
def leakBlock : Rule := fun _ _ => do
  let _ ← onScopes (ScopeStack.push .block)

/-- Lower the children as statements. -/
def childrenOnly : Rule := fun lower node => lower.statements node.children

/-- Throw the data inside a list of its own.  The throw is not counted on any handler. -/
def boxedThrow : Rule := fun lower node =>
  match node with
  | .throwWith code data _ => do
    pushConstant (.int code)
    emit .newList
    lower.value data
    emit .push
    emit .throw
  | _ => Action.fail (.internal (.note "not a throw"))

end QueryCompiler.Rule
