/-
Rules for raising and catching errors.

The handler is installed before the guarded body and removed at its end.  The catch
path starts with the error on the operand stack and is itself no longer guarded.
Every guarded region goes into the handler table of the program, with the number of
`throw`s it holds.
-/
import QueryCompiler.Lowering.Rule

namespace QueryCompiler.Rule

open Workspace

/-- The guarded body and the catch path.  The value is the end of the guarded range, the start of
the catch path, and the jump from the body over the catch path, unless the body diverges. -/
def tryPaths (lower : Lower) (install : PendingJump) (id : FrameId) (body : Node)
    (binding : Option Name) (handler : Node) :
    Action Workspace (Nat × Nat × Option PendingJump) := do
  lower.statement body
  let stop ← position
  let exit ←
    if ← reachable then do
      emit .tryEnd
      let exit ← jump .jump
      pure (some exit)
    else
      pure none
  update id (FrameState.setGuarded false)
  let catchAt ← position
  land install
  match binding with
  | some name =>
    let slot ← declare name
    emitSlot .store slot
  | none => emit .pop
  lower.statement handler
  return (stop.index, catchAt.index, exit)

/-- The region is recorded after both paths, so an inner one comes before an outer one. -/
def tryCatch : Rule := fun lower node =>
  match node with
  | .tryCatch body binding handler _ => do
    let install ← jump .tryBegin
    let ((stop, catchAt, exit), frame) ← within (.handler install.position true 0) fun id =>
      tryPaths lower install id body binding handler
    match exit with
    | some exit => land exit
    | none => pure ()
    onCode (Action.modify fun code => code.addRegion
      { function := install.position.function.toUInt32
        start := install.position.index.toUInt32
        stop := stop.toUInt32
        catchAt := catchAt.toUInt32
        throws := frame.throws.toUInt32 })
  | _ => mismatch .tryCatch node

/-- The code is pushed before the data, since the machine takes the data first. -/
def throwWith : Rule := fun lower node =>
  match node with
  | .throwWith code data _ => do
    pushConstant (.int code)
    lower.value data
    onScopes (Action.modify ScopeStack.countThrow)
    emit .throw
  | _ => mismatch .throwWith node

end QueryCompiler.Rule
