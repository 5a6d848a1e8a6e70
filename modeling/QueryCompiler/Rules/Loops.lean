/-
Rules for loops, and for leaving and repeating them.

While a loop is open its frame knows where `continue` jumps to and collects the
jumps of the `break`s, which land behind the loop.  Both may stand where a value is
needed, but only if nothing lies on the operand stack that the loop does not own.
-/
import QueryCompiler.Lowering.Rule

namespace QueryCompiler.Rule

open Workspace

/-- The condition is computed before every round. -/
def whileLoop : Rule := fun lower node =>
  match node with
  | .whileLoop condition body _ => do
    let start ← position
    let level ← depth
    let ((), frame) ← within (.loop start level #[]) fun _ => do
      lower.value condition
      let exit ← jump .jumpIfFalse
      lower.statement body
      jumpBack start level
      land exit
    landAll frame.breaks
  | _ => mismatch .whileLoop node

/-- The iterator stays on the operand stack as long as the loop runs, so `break` lands in front of
the instruction that drops it.  The element has one slot for all rounds. -/
def forEach : Rule := fun lower node =>
  match node with
  | .forEach binding iterable body _ => do
    lower.value iterable
    emit .iterStart
    let next ← position
    let level ← depth
    let ((), frame) ← within (.loop next level #[]) fun _ => do
      let exit ← jump .iterNext
      let slot ← declare binding
      emitSlot .store slot
      lower.statement body
      jumpBack next level
      land exit
    landAll frame.breaks
    emit .pop
  | _ => mismatch .forEach node

/-- The loop that `break` and `continue` are about. -/
def enclosingLoop (span : Span) : Action Workspace (Position × Nat) := do
  let frame ← onScopes (ScopeStack.enclosing .loop span)
  match frame.state.loopEntry? with
  | some entry => return entry
  | none => Action.fail (.notEnclosed .loop span)

/-- Check that control can leave for the enclosing loop, and leave the handlers on the way.  Code
that is never reached has no depth of its own and takes that of the loop. -/
def leaveForLoop (construct : Construct) (span : Span) : Action Workspace Unit := do
  let (_, expected) ← enclosingLoop span
  let found ← depth
  if (← reachable) && found ≠ expected then
    Action.fail (.strayOperands construct expected found span)
  resetDepth expected
  leaveHandlers .loop

/-- The jump is handed to the loop, which lets it land once it is closed. -/
def breakLoop : Rule := fun _ node =>
  match node with
  | .breakLoop span => do
    leaveForLoop .breakLoop span
    let label ← jump .jump
    onScopes (Action.modify (ScopeStack.modifyEnclosing .loop (FrameState.addBreak label)))
  | _ => mismatch .breakLoop node

/-- The target is known already, so the jump goes back at once. -/
def continueLoop : Rule := fun _ node =>
  match node with
  | .continueLoop span => do
    leaveForLoop .continueLoop span
    let (target, level) ← enclosingLoop span
    jumpBack target level
  | _ => mismatch .continueLoop node

end QueryCompiler.Rule
