/-
Programs under construction.

Code is only ever added at the end of the function that is being written, and the
one thing that may change behind that end is the target of a jump.  A forward jump
remembers the depth of the operand stack it arrives with, so that where two paths
meet they can be checked to agree.

What only a build with assertions checks is checked here, and a sum that leaves its
machine word is noticed: an instruction with an operand of the wrong shape, one that
takes more from the stack than there is, a forward jump of an opcode that does not
branch, and a count that overflows all end the run with a `Fault`.
-/
import QueryCompiler.Action
import QueryCompiler.Assembly.Pool
import QueryCompiler.Assembly.Routine
import QueryCompiler.Machine.Program

namespace QueryCompiler

/-- A forward jump that waits for its target. -/
structure PendingJump where
  /-- Where the jump stands. -/
  position : Position
  /-- The depth of the operand stack when the jump is taken. -/
  depth : Nat
deriving DecidableEq

/-- A program under construction. -/
structure Assembly where
  routines : Array Routine
  /-- The functions that have been opened and not closed, innermost first. -/
  opened : List Nat
  pool : Pool
  regions : Array GuardedRegion
  /-- Whether instructions are given a source line. -/
  keepLines : Bool
  /-- The source line of the next instruction. -/
  line : Nat

namespace Assembly

/-- A program with nothing but an empty main function. -/
def start (keepLines : Bool) : Assembly where
  routines := #[Routine.start 0]
  opened := [0]
  pool := {}
  regions := #[]
  keepLines := keepLines
  line := 0

/-! ### What can be seen of an assembly -/

/-- The function that is being written. -/
def currentFunction (assembly : Assembly) : Nat :=
  assembly.opened.headD 0

def current (assembly : Assembly) : Routine :=
  assembly.routines.getD assembly.currentFunction (Routine.start 0)

/-- How many instructions the current function has. -/
def length (assembly : Assembly) : Nat := assembly.current.code.size

/-- Where the next instruction goes. -/
def position (assembly : Assembly) : Position :=
  ⟨assembly.currentFunction, assembly.length⟩

/-- The depth of the operand stack before the next instruction. -/
def depth (assembly : Assembly) : Nat := assembly.current.depth

def maxDepth (assembly : Assembly) : Nat := assembly.current.maxDepth

/-- Whether control can get to the next instruction from the one before it. -/
def reachable (assembly : Assembly) : Bool := assembly.current.reachable

/-- How many instructions all functions have together. -/
def totalLength (assembly : Assembly) : Nat :=
  assembly.routines.foldl (fun total routine => total + routine.code.size) 0

/-- The instruction at a position. -/
def instruction? (assembly : Assembly) (position : Position) : Option Instruction :=
  assembly.routines[position.function]?.bind fun routine => routine.code[position.index]?

/-- The source line to note for the next instruction, if lines are kept. -/
def noted? (assembly : Assembly) : Option Nat :=
  if assembly.keepLines then some assembly.line else none

/-! ### Changes that cannot fail -/

def modifyCurrent (assembly : Assembly) (change : Routine → Routine) : Assembly :=
  { assembly with routines := assembly.routines.modify assembly.currentFunction change }

/-- Set the source line of the instructions to come. -/
def moveToLine (assembly : Assembly) (line : Nat) : Assembly :=
  { assembly with line }

/-- Take the depth of the current position to be `depth`, as after code that never goes on. -/
def resetDepth (assembly : Assembly) (depth : Nat) : Assembly :=
  assembly.modifyCurrent fun routine => routine.setDepth depth

/-- Make sure that the current function has at least this many local slots. -/
def reserveLocals (assembly : Assembly) (locals : UInt16) : Assembly :=
  assembly.modifyCurrent fun routine => routine.reserve locals

/-- Record a guarded region. -/
def addRegion (assembly : Assembly) (region : GuardedRegion) : Assembly :=
  { assembly with regions := assembly.regions.push region }

/-! ### Writing code -/

/-- Add an instruction to the current function. -/
def emit (op : Opcode) (operand : Operand) : Action Assembly Position := fun assembly =>
  let instruction : Instruction := ⟨op, operand⟩
  let use := instruction.stackUse
  let depth := assembly.depth
  if operand.shape ≠ op.shape then
    .fault (.operandShape op)
  else if assembly.reachable && depth < use.pops then
    .fault (.stackUnderflow op use.pops depth)
  else
    match addWord (depth - use.pops) use.pushes with
    | .error fault => .fault fault
    | .ok after =>
      let position := assembly.position
      let line? := assembly.noted?
      .done position
        (assembly.modifyCurrent fun routine => routine.append instruction line? after)

/-- The number of a constant in the pool. -/
def constant (value : Constant) : Action Assembly UInt32 := fun assembly =>
  match assembly.pool.add value with
  | .ok (id, pool) => .done id { assembly with pool }
  | .error error => .failed error assembly

/-- The number of a name in the pool. -/
def name (text : String) : Action Assembly UInt32 :=
  constant (.string text)

/-- Add an instruction that pushes a constant. -/
def pushConstant (value : Constant) : Action Assembly Position := do
  let id ← constant value
  emit .loadConst (.const id)

/-! ### Jumps -/

/-- Add a forward jump, which has yet to land somewhere. -/
def jump (op : Opcode) : Action Assembly PendingJump := fun assembly =>
  match op.branchUse? with
  | none => .fault (.notABranch op)
  | some use =>
    match addWord (assembly.depth - use.pops) use.pushes with
    | .error fault => .fault fault
    | .ok depth =>
      match emit op .unaimed assembly with
      | .done position assembly => .done ⟨position, depth⟩ assembly
      | .failed error assembly => .failed error assembly
      | .fault fault => .fault fault

/-- Add a backward jump to a position where the stack had the given depth.  Control that gets
here has to have that depth too. -/
def jumpBack (target : Position) (depth : Nat) : Action Assembly Position := fun assembly =>
  if target.function ≠ assembly.currentFunction then
    .failed (.internal (.loopAcrossFunctions target.function assembly.currentFunction)) assembly
  else if assembly.reachable && assembly.depth ≠ depth then
    .failed (.internal (.loopDepth target.index assembly.depth depth)) assembly
  else
    emit .jump (.target target.index.toUInt32) assembly

/-- Aim the jump at a position at an instruction of its function. -/
def aim (position : Position) (target : UInt32) : Action Assembly Unit := fun assembly =>
  match assembly.instruction? position with
  | none => .failed (.internal (.noInstruction position.function position.index)) assembly
  | some instruction =>
    match instruction.target? with
    | none =>
      .failed (.internal (.notAJump instruction.op position.function position.index)) assembly
    | some _ =>
      .done () { assembly with
        routines := assembly.routines.modify position.function fun routine =>
          routine.aim position.index target }

/-- Check that a forward jump and the code before the next instruction agree on the depth, and
take the depth of the jump to be that of the next instruction. -/
def join (label : PendingJump) : Action Assembly Unit := fun assembly =>
  if assembly.reachable && assembly.depth ≠ label.depth then
    let here := assembly.position.index
    .failed (.internal (.joinDepth assembly.depth here label.position.index label.depth)) assembly
  else
    .done () (assembly.modifyCurrent fun routine => routine.land label.depth)

/-- Let a forward jump land at the next instruction.  The jump is aimed before the depths are
compared, and stays aimed if they differ. -/
def land (label : PendingJump) : Action Assembly Unit := fun assembly =>
  let here := assembly.position
  if label.position.function ≠ here.function then
    .failed (.internal (.labelAcrossFunctions label.position.function here.function)) assembly
  else
    (do
      aim label.position here.index.toUInt32
      join label : Action Assembly Unit) assembly

/-- Let some forward jumps land at the next instruction, one after the other. -/
def landAll (labels : List PendingJump) : Action Assembly Unit :=
  labels.forM land

/-! ### Functions -/

/-- Start a function and write into it from now on. -/
def openFunction (params : UInt16) : Action Assembly Nat := fun assembly =>
  let id := assembly.routines.size
  .done id { assembly with
    routines := assembly.routines.push (Routine.start params)
    opened := id :: assembly.opened }

/-- Finish the function that is being written and go back to the one around it. -/
def closeFunction (locals : UInt16) : Action Assembly Nat := fun assembly =>
  match assembly.opened with
  | id :: outer :: rest => .done id { assembly.reserveLocals locals with opened := outer :: rest }
  | _ => .failed (.internal .noNestedFunction) assembly

/-- The finished function at a place of the table. -/
def finish (id : Nat) (routine : Routine) : CompiledFunction where
  id := id
  params := routine.params
  locals := routine.locals
  maxStack := routine.maxDepth.toUInt32
  code := routine.code
  lines := routine.lines

/-- The program as it stands. -/
def toProgram (assembly : Assembly) : Program where
  functions := assembly.routines.mapIdx finish
  constants := assembly.pool.constants
  regions := assembly.regions

end Assembly

end QueryCompiler
