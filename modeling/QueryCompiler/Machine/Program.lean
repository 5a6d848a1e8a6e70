/-
Compiled programs.

A program is a table of functions, of which the first is the query itself, a table
of constants and a table of guarded regions.
-/
import QueryCompiler.Machine.Instruction
import QueryCompiler.Value.Constant

namespace QueryCompiler

/-- The code of one function. -/
structure CompiledFunction where
  /-- The place of the function in the table. -/
  id : Nat
  /-- How many parameters it has.  They take the first slots. -/
  params : UInt16
  /-- How many local slots it has, parameters included. -/
  locals : UInt16
  /-- The greatest depth of the operand stack. -/
  maxStack : UInt32
  code : Array Instruction
  /-- The line of the query each instruction comes from, or nothing if lines are not kept. -/
  lines : Array Nat
deriving DecidableEq

/-- A range of instructions and where its errors are caught. -/
structure GuardedRegion where
  function : UInt32
  /-- The instruction that installs the handler. -/
  start : UInt32
  /-- The end of the guarded range. -/
  stop : UInt32
  /-- The first instruction of the catch path. -/
  catchAt : UInt32
  /-- How many `throw` statements the range holds. -/
  throws : UInt32
deriving DecidableEq

/-- A compiled query. -/
structure Program where
  functions : Array CompiledFunction
  constants : Array Constant
  regions : Array GuardedRegion
deriving DecidableEq

namespace Program

/-- The function that is the query itself. -/
def main? (program : Program) : Option CompiledFunction :=
  program.functions[0]?

def constant? (program : Program) (id : UInt32) : Option Constant :=
  program.constants[id.toNat]?

/-- How many instructions all functions have together. -/
def instructionCount (program : Program) : Nat :=
  program.functions.foldl (fun total function => total + function.code.size) 0

/-- Whether two programs are the same, with floats compared as numbers. -/
def same (a b : Program) : Bool :=
  a.functions == b.functions && a.regions == b.regions &&
    a.constants.isEqv b.constants Constant.sameValue

end Program

end QueryCompiler
