/-
The contract of a construct, and how a rule is held to it.

When a rule is done with a node, as many scopes have to be open as before, the scope
of the construct has to have been opened on the way if it has one, and the operand
stack has to have the depth the balance of the construct asks for.  A rule that
breaks the first two is at fault; one that breaks the third makes an error, if the
settings ask for the check.
-/
import QueryCompiler.Lowering.Rule
import QueryCompiler.Lowering.Settings

namespace QueryCompiler.Contract

open Workspace

/-- Check the scopes after a node was lowered, given how many were open before it and how many had
been opened altogether. -/
def checkScopes (construct : Construct) (height pushes : Nat) : Action Workspace Unit := do
  let heightNow ← onScopes (Action.read fun scopes => scopes.height)
  let pushesNow ← onScopes (Action.read fun scopes => scopes.counts.pushes)
  if heightNow ≠ height then
    Action.raise (.scopesLeftOpen construct)
  match construct.scope? with
  | some scope =>
    if pushesNow ≤ pushes then
      Action.raise (.scopeNotOpened construct scope)
  | none => pure ()

/-- Compare the depth of the operand stack with the one expected, if the settings ask for it. -/
def checkDepth (settings : Settings) (node : Node) (expected : Nat) : Action Workspace Unit := do
  let found ← depth
  if settings.verifyStack && found ≠ expected then
    Action.fail (.wrongBalance node.construct expected found node.span)

/-- Check the operand stack after a node was lowered that started at depth `start`.  What follows
a node that diverges is never run and goes on at that depth. -/
def checkBalance (settings : Settings) (node : Node) (start : Nat) : Action Workspace Unit := do
  match node.construct.balance with
  | .diverges => resetDepth start
  | .value =>
    let expected ← Action.ofWord (addWord start 1)
    checkDepth settings node expected
  | .effect => checkDepth settings node start

/-- Carry out the lowering of a node and check the contract.  The instructions get the line of the
node, unless it has none, and the line is put back in any case. -/
def supervise (settings : Settings) (node : Node) (lowering : Action Workspace Unit) :
    Action Workspace Unit := do
  let line ← onCode (Action.read fun code => code.line)
  if settings.lineInfo && !node.span.isSynthetic then
    moveToLine node.span.line
  let start ← depth
  let height ← onScopes (Action.read fun scopes => scopes.height)
  let pushes ← onScopes (Action.read fun scopes => scopes.counts.pushes)
  let result ← lowering.attempt
  moveToLine line
  Action.ofResult result
  checkScopes node.construct height pushes
  checkBalance settings node start

end QueryCompiler.Contract
