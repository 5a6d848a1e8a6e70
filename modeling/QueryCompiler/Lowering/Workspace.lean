/-
What a lowering works on: the program under construction and the open scopes.

The operations here are those of the two parts, carried over to the whole, together
with `within`, the one way in which rules open a scope.  How deep in a tree the work is
done is a third part, which rules do not see.
-/
import QueryCompiler.Query.Node
import QueryCompiler.Scopes.Stack

namespace QueryCompiler

/-- The program under construction, the open scopes, and how many nodes are being lowered, each a
part of the one before. -/
structure Workspace where
  code : Assembly
  scopes : ScopeStack
  underway : Nat := 0

namespace Workspace

variable {α : Type}

/-- An action on the program alone. -/
def onCode (action : Action Assembly α) : Action Workspace α := fun ws =>
  match action ws.code with
  | .done value code => .done value { ws with code }
  | .failed error code => .failed error { ws with code }
  | .fault fault => .fault fault

/-- An action on the scopes alone. -/
def onScopes (action : Action ScopeStack α) : Action Workspace α := fun ws =>
  match action ws.scopes with
  | .done value scopes => .done value { ws with scopes }
  | .failed error scopes => .failed error { ws with scopes }
  | .fault fault => .fault fault

/-! ### Code -/

/-- Add an instruction with an operand. -/
def emitWith (op : Opcode) (operand : Operand) : Action Workspace Unit := do
  let _ ← onCode (Assembly.emit op operand)

/-- Add an instruction without operand. -/
def emit (op : Opcode) : Action Workspace Unit :=
  emitWith op .none

/-- Add an instruction that pushes a constant. -/
def pushConstant (value : Constant) : Action Workspace Unit := do
  let _ ← onCode (Assembly.pushConstant value)

/-- Add an instruction on a local of the current function. -/
def emitSlot (op : Opcode) (slot : UInt16) : Action Workspace Unit :=
  emitWith op (.slot ⟨0, slot⟩)

/-- Add an instruction on a name. -/
def emitName (op : Opcode) (text : String) : Action Workspace Unit := do
  let id ← onCode (Assembly.name text)
  emitWith op (.const id)

/-- Add a forward jump. -/
def jump (op : Opcode) : Action Workspace PendingJump :=
  onCode (Assembly.jump op)

/-- Add a backward jump. -/
def jumpBack (target : Position) (depth : Nat) : Action Workspace Unit := do
  let _ ← onCode (Assembly.jumpBack target depth)

/-- Let a forward jump land at the next instruction. -/
def land (label : PendingJump) : Action Workspace Unit :=
  onCode (Assembly.land label)

/-- Let some forward jumps land at the next instruction. -/
def landAll (labels : List PendingJump) : Action Workspace Unit :=
  onCode (Assembly.landAll labels)

/-- The depth of the operand stack before the next instruction. -/
def depth : Action Workspace Nat :=
  onCode (Action.read Assembly.depth)

/-- Where the next instruction goes. -/
def position : Action Workspace Position :=
  onCode (Action.read Assembly.position)

/-- Whether control can get to the next instruction from the one before it. -/
def reachable : Action Workspace Bool :=
  onCode (Action.read Assembly.reachable)

/-- Take the depth of the current position to be `depth`. -/
def resetDepth (depth : Nat) : Action Workspace Unit :=
  onCode (Action.modify fun code => code.resetDepth depth)

/-- Set the source line of the instructions to come. -/
def moveToLine (line : Nat) : Action Workspace Unit :=
  onCode (Action.modify fun code => code.moveToLine line)

/-! ### Scopes -/

/-- Declare a name in the innermost scope. -/
def declare (name : Name) : Action Workspace UInt16 :=
  onScopes (ScopeStack.declare name.text name.span)

/-- Take a slot of the current function. -/
def takeSlot (span : Span) : Action Workspace UInt16 :=
  onScopes (ScopeStack.takeSlot span)

/-- The local a name stands for, if it stands for one. -/
def findLocal (name : String) : Action Workspace (Option SlotRef) :=
  onScopes (ScopeStack.findLocal name)

/-- The local that holds the current element. -/
def findElement (span : Span) : Action Workspace SlotRef :=
  onScopes (ScopeStack.findElement span)

/-- Change an open frame. -/
def update (id : FrameId) (change : FrameState → FrameState) : Action Workspace Unit :=
  onScopes (ScopeStack.update id change)

/-- How many handlers guard the code inside the innermost frame of a scope. -/
def guardsWithin (scope : Scope) : Action Workspace Nat :=
  onScopes (Action.read fun scopes => Frame.guardsWithin scope scopes.frames)

/-- Leave the handlers that a jump out of the innermost frame of a scope crosses. -/
def leaveHandlers (scope : Scope) : Action Workspace Unit := do
  let count ← guardsWithin scope
  (List.replicate count Opcode.tryEnd).forM emit

/-- Open a scope, do something in it and close it again, also if that failed.  The value comes with
what the frame remembered in the end. -/
def within (state : FrameState) (body : FrameId → Action Workspace α) :
    Action Workspace (α × FrameState) := do
  let id ← onScopes (ScopeStack.push state)
  let result ← (body id).attempt
  let closed ← (onScopes (ScopeStack.pop id)).attempt
  let value ← Action.ofResult result
  let frame ← Action.ofResult closed
  return (value, frame.state)

end Workspace

end QueryCompiler
