/-
Programs as bytes.

The format starts with four fixed bytes and then has three sections: constants,
functions, guarded regions.  Every section and every list in it is preceded by its
length, numbers are big-endian, and the operand of an instruction is as wide as its
opcode says.
-/
import QueryCompiler.Machine.Program

namespace QueryCompiler

/-! ### Numbers -/

/-- A 16-bit word, high byte first. -/
def bytes16 (n : UInt16) : List UInt8 :=
  [(n >>> 8).toUInt8, n.toUInt8]

/-- A 32-bit word, high byte first. -/
def bytes32 (n : UInt32) : List UInt8 :=
  [(n >>> 24).toUInt8, (n >>> 16).toUInt8, (n >>> 8).toUInt8, n.toUInt8]

/-- A 64-bit word, high byte first. -/
def bytes64 (n : UInt64) : List UInt8 :=
  [(n >>> 56).toUInt8, (n >>> 48).toUInt8, (n >>> 40).toUInt8, (n >>> 32).toUInt8,
    (n >>> 24).toUInt8, (n >>> 16).toUInt8, (n >>> 8).toUInt8, n.toUInt8]

/-- A length in front of a list. -/
def countBytes (n : Nat) : List UInt8 :=
  bytes32 n.toUInt32

/-! ### The parts of a program -/

/-- A constant: its tag, then its value. -/
def Constant.encode (constant : Constant) : List UInt8 :=
  constant.tag :: match constant with
    | .null => []
    | .bool value => [if value then 1 else 0]
    | .int value => bytes64 value.toUInt64
    | .float value => bytes64 value.bits
    | .string value => countBytes value.utf8ByteSize ++ value.toUTF8.data.toList

def Operand.encode : Operand → List UInt8
  | .none => []
  | .const id => bytes32 id
  | .target index => bytes32 index
  | .slot ref => bytes16 ref.depth ++ bytes16 ref.slot
  | .count n => bytes16 n
  | .function id => bytes32 id
  | .hint key value => bytes32 key ++ bytes32 value

/-- An instruction: the byte of its opcode, then its operand. -/
def Instruction.encode (instruction : Instruction) : List UInt8 :=
  instruction.op.byte :: instruction.operand.encode

/-- A function.  Its place in the table tells its number, and lines are left out. -/
def CompiledFunction.encode (function : CompiledFunction) : List UInt8 :=
  bytes16 function.params ++ bytes16 function.locals ++ bytes32 function.maxStack ++
    countBytes function.code.size ++ function.code.toList.flatMap Instruction.encode

def GuardedRegion.encode (region : GuardedRegion) : List UInt8 :=
  bytes32 region.function ++ bytes32 region.start ++ bytes32 region.stop ++
    bytes32 region.catchAt ++ bytes32 region.throws

namespace Program

/-- The bytes every encoded program starts with. -/
def magic : List UInt8 := [0x51, 0x49, 0x4c, 0x01]

/-- The encoded program. -/
def encode (program : Program) : List UInt8 :=
  magic ++
    countBytes program.constants.size ++ program.constants.toList.flatMap Constant.encode ++
    countBytes program.functions.size ++ program.functions.toList.flatMap CompiledFunction.encode ++
    countBytes program.regions.size ++ program.regions.toList.flatMap GuardedRegion.encode

end Program

end QueryCompiler
