/-
Functions under construction.

Beside the code a routine follows the depth of the operand stack and whether the
next instruction can be reached from the one before it.  After an instruction that
never goes on the depth is a matter of convention until a jump lands there.
-/
import QueryCompiler.Machine.Instruction

namespace QueryCompiler

/-- A function under construction. -/
structure Routine where
  params : UInt16
  locals : UInt16
  code : Array Instruction
  /-- The source line of each instruction, if lines are kept. -/
  lines : Array Nat
  /-- The depth of the operand stack before the next instruction. -/
  depth : Nat
  maxDepth : Nat
  /-- Whether control can get to the next instruction from the one before it. -/
  reachable : Bool

namespace Routine

/-- A function without code.  Its parameters are its first locals. -/
def start (params : UInt16) : Routine where
  params := params
  locals := params
  code := #[]
  lines := #[]
  depth := 0
  maxDepth := 0
  reachable := true

def setDepth (routine : Routine) (depth : Nat) : Routine :=
  { routine with depth, maxDepth := max routine.maxDepth depth }

/-- Add an instruction after which the stack has the given depth. -/
def append (routine : Routine) (instruction : Instruction) (line? : Option Nat) (depth : Nat) :
    Routine :=
  { routine with
    code := routine.code.push instruction
    lines := match line? with
      | some line => routine.lines.push line
      | none => routine.lines
    depth
    maxDepth := max routine.maxDepth depth
    reachable := routine.reachable && !instruction.op.isTerminal }

/-- Make the next instruction one that jumps arrive at with the given depth. -/
def land (routine : Routine) (depth : Nat) : Routine :=
  { routine.setDepth depth with reachable := true }

/-- Raise the number of local slots to at least `locals`. -/
def reserve (routine : Routine) (locals : UInt16) : Routine :=
  { routine with locals := max routine.locals locals }

/-- Aim the instruction at `index` at `target`. -/
def aim (routine : Routine) (index : Nat) (target : UInt32) : Routine :=
  { routine with code := routine.code.modify index fun instruction => instruction.aimedAt target }

end Routine

end QueryCompiler
