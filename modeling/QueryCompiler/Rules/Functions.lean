/-
Rules for lambdas and for leaving a function or the query.

The body of a lambda becomes a function of the program, whose first slots are the
parameters.  In its place stands the one instruction that makes the closure.
-/
import QueryCompiler.Lowering.Rule

namespace QueryCompiler.Rule

open Workspace

/-- The function is closed only if its body could be lowered. -/
def lambda : Rule := fun lower node =>
  match node with
  | .lambda params body span => do
    if Frame.slotLimit < params.length then
      Action.fail (.slotsExhausted Frame.slotLimit span)
    let arity := params.length.toUInt16
    let function ← onCode (Assembly.openFunction arity)
    let ((), frame) ← within (.function function 0) fun _ => do
      params.forM fun param => do
        let _ ← declare param
      lower.body body
    let id ← onCode (Assembly.closeFunction (frame.nextSlot?.getD arity))
    emitWith .makeLambda (.function id.toUInt32)
  | _ => mismatch .lambda node

/-- The result code, then the data, or null without data. -/
def result (lower : Lower) (code : Int64) (data : Option Node) : Action Workspace Unit := do
  pushConstant (.int code)
  match data with
  | some data => lower.value data
  | none => emit .pushNull

/-- A return leaves the handlers around it in its function. -/
def returnWith : Rule := fun lower node =>
  match node with
  | .returnWith code data _ => do
    result lower code data
    leaveHandlers .function
    emit .ret
  | _ => mismatch .returnWith node

/-- An exit ends the query, and no handler matters any more. -/
def exitWith : Rule := fun lower node =>
  match node with
  | .exitWith code data _ => do
    result lower code data
    emit .exit
  | _ => mismatch .exitWith node

end QueryCompiler.Rule
