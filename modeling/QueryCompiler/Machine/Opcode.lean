/-
The instruction set of the query machine.

The machine keeps an operand stack.  Every opcode says which shape of operand it
carries, how many values it pops and pushes when control goes on to the next
instruction, and, if it can branch, how many when it jumps.  Those numbers are
what lets the depth of the stack be followed while code is being written.
-/
namespace QueryCompiler

/-- The shapes an operand can have. -/
inductive OperandShape where
  /-- No operand. -/
  | none
  /-- An index into the constant pool. -/
  | const
  /-- An instruction index in the same function. -/
  | target
  /-- A local slot together with how many functions out it lives. -/
  | slot
  /-- A number of arguments. -/
  | count
  /-- An index into the function table. -/
  | function
  /-- Two indices into the constant pool, a key and a value. -/
  | hint
deriving DecidableEq

namespace OperandShape

/-- The word for the shape in messages. -/
def name : OperandShape → String
  | none => "None"
  | const => "Const"
  | target => "Target"
  | slot => "Local"
  | count => "Count"
  | function => "Function"
  | hint => "Hint"

/-- How many bytes an operand of this shape takes in an encoded program. -/
def width : OperandShape → Nat
  | none => 0
  | count => 2
  | const | target | slot | function => 4
  | hint => 8

end OperandShape

/-- How many values an instruction takes from the operand stack and how many it puts back. -/
structure StackUse where
  pops : Nat
  pushes : Nat
deriving DecidableEq

/-- The opcodes, in the order of their encoded bytes. -/
inductive Opcode where
  /-- Push a constant of the pool. -/
  | loadConst
  | pushNull
  | pushTrue
  | pushFalse
  | pop
  | dup
  /-- Push a local. -/
  | load
  /-- Pop into a local. -/
  | store
  /-- Push a name the host provides. -/
  | loadGlobal
  /-- Push a parameter of the query. -/
  | loadParam
  /-- `[object] → [object.name]` -/
  | getMember
  /-- `[object, index] → [object[index]]` -/
  | getIndex
  | newList
  /-- `[list, item] → [list]` -/
  | push
  | newObject
  /-- `[object, value] → [object]` -/
  | put
  /-- Push a closure over a function of the program. -/
  | makeLambda
  /-- `[callee, argument, ...] → [result]` -/
  | call
  | neg
  | not
  | bitNot
  | add
  | sub
  | mul
  | div
  | intDiv
  | mod
  | eq
  | ne
  | lt
  | le
  | gt
  | ge
  | bitAnd
  | bitOr
  | bitXor
  | shl
  | shr
  | ushr
  | jump
  /-- Pop the condition and jump if it is false. -/
  | jumpIfFalse
  /-- Pop the condition and jump if it is true. -/
  | jumpIfTrue
  /-- `[source] → [iterator]` -/
  | iterStart
  /-- `[iterator] → [iterator, item]`, or jump with `[iterator]` once it is exhausted. -/
  | iterNext
  /-- Install a handler.  The catch path starts with the raised error on the stack. -/
  | tryBegin
  /-- Remove the innermost handler. -/
  | tryEnd
  /-- Set an execution option. -/
  | hint
  /-- Push an imported module. -/
  | importModule
  /-- Push an imported resource. -/
  | importResource
  /-- `[code, data] →` leave the function. -/
  | ret
  /-- `[code, data] →` end the query. -/
  | exit
  /-- `[code, data] →` raise an error. -/
  | throw
deriving DecidableEq

namespace Opcode

/-- Every opcode, in the order of the encoded bytes. -/
def all : List Opcode :=
  [loadConst, pushNull, pushTrue, pushFalse, pop, dup, load, store, loadGlobal, loadParam,
    getMember, getIndex, newList, push, newObject, put, makeLambda, call, neg, not, bitNot, add,
    sub, mul, div, intDiv, mod, eq, ne, lt, le, gt, ge, bitAnd, bitOr, bitXor, shl, shr, ushr,
    jump, jumpIfFalse, jumpIfTrue, iterStart, iterNext, tryBegin, tryEnd, hint, importModule,
    importResource, ret, exit, throw]

/-- The byte that stands for the opcode in an encoded program. -/
def byte : Opcode → UInt8
  | loadConst => 0
  | pushNull => 1
  | pushTrue => 2
  | pushFalse => 3
  | pop => 4
  | dup => 5
  | load => 6
  | store => 7
  | loadGlobal => 8
  | loadParam => 9
  | getMember => 10
  | getIndex => 11
  | newList => 12
  | push => 13
  | newObject => 14
  | put => 15
  | makeLambda => 16
  | call => 17
  | neg => 18
  | not => 19
  | bitNot => 20
  | add => 21
  | sub => 22
  | mul => 23
  | div => 24
  | intDiv => 25
  | mod => 26
  | eq => 27
  | ne => 28
  | lt => 29
  | le => 30
  | gt => 31
  | ge => 32
  | bitAnd => 33
  | bitOr => 34
  | bitXor => 35
  | shl => 36
  | shr => 37
  | ushr => 38
  | jump => 39
  | jumpIfFalse => 40
  | jumpIfTrue => 41
  | iterStart => 42
  | iterNext => 43
  | tryBegin => 44
  | tryEnd => 45
  | hint => 46
  | importModule => 47
  | importResource => 48
  | ret => 49
  | exit => 50
  | throw => 51

/-- The opcode a byte stands for. -/
def ofByte? (value : UInt8) : Option Opcode :=
  all.find? fun op => op.byte == value

@[simp] theorem ofByte?_byte (op : Opcode) : ofByte? op.byte = some op := by
  cases op <;> decide +kernel

/-- The mnemonic in listings. -/
def name : Opcode → String
  | loadConst => "LDC"
  | pushNull => "PUSH_NULL"
  | pushTrue => "PUSH_TRUE"
  | pushFalse => "PUSH_FALSE"
  | pop => "POP"
  | dup => "DUP"
  | load => "LOAD"
  | store => "STORE"
  | loadGlobal => "LOAD_GLOBAL"
  | loadParam => "LOAD_PARAM"
  | getMember => "GET_MEMBER"
  | getIndex => "GET_INDEX"
  | newList => "NEW_LIST"
  | push => "PUSH"
  | newObject => "NEW_OBJECT"
  | put => "PUT"
  | makeLambda => "MAKE_LAMBDA"
  | call => "CALL"
  | neg => "NEG"
  | not => "NOT"
  | bitNot => "BIT_NOT"
  | add => "ADD"
  | sub => "SUB"
  | mul => "MUL"
  | div => "DIV"
  | intDiv => "INT_DIV"
  | mod => "MOD"
  | eq => "EQ"
  | ne => "NE"
  | lt => "LT"
  | le => "LE"
  | gt => "GT"
  | ge => "GE"
  | bitAnd => "BIT_AND"
  | bitOr => "BIT_OR"
  | bitXor => "BIT_XOR"
  | shl => "SHL"
  | shr => "SHR"
  | ushr => "USHR"
  | jump => "JUMP"
  | jumpIfFalse => "JUMP_IF_FALSE"
  | jumpIfTrue => "JUMP_IF_TRUE"
  | iterStart => "ITER_START"
  | iterNext => "ITER_NEXT"
  | tryBegin => "TRY_BEGIN"
  | tryEnd => "TRY_END"
  | hint => "HINT"
  | importModule => "IMPORT_MODULE"
  | importResource => "IMPORT_RESOURCE"
  | ret => "RETURN"
  | exit => "EXIT"
  | throw => "THROW"

/-- The opcode with a given mnemonic. -/
def ofName? (text : String) : Option Opcode :=
  all.find? fun op => op.name == text

@[simp] theorem ofName?_name (op : Opcode) : ofName? op.name = some op := by
  cases op <;> decide +kernel

/-- The shape of the operand the opcode carries. -/
def shape : Opcode → OperandShape
  | loadConst | loadGlobal | loadParam | getMember | put | importModule | importResource => .const
  | load | store => .slot
  | jump | jumpIfFalse | jumpIfTrue | iterNext | tryBegin => .target
  | call => .count
  | makeLambda => .function
  | hint => .hint
  | _ => .none

/-- Stack use when control goes on to the next instruction.  Only a call looks at the number of
arguments, which it takes from the stack together with the callee. -/
def stackUse (op : Opcode) (arguments : UInt16) : StackUse :=
  match op with
  | loadConst | pushNull | pushTrue | pushFalse | load | loadGlobal | loadParam | newList
  | newObject | makeLambda | importModule | importResource => ⟨0, 1⟩
  | dup => ⟨1, 2⟩
  | pop | store | jumpIfFalse | jumpIfTrue => ⟨1, 0⟩
  | getMember | neg | not | bitNot | iterStart => ⟨1, 1⟩
  | getIndex | push | put | add | sub | mul | div | intDiv | mod | eq | ne | lt | le | gt | ge
  | bitAnd | bitOr | bitXor | shl | shr | ushr => ⟨2, 1⟩
  | call => ⟨arguments.toNat + 1, 1⟩
  | iterNext => ⟨1, 2⟩
  | jump | tryBegin | tryEnd | hint => ⟨0, 0⟩
  | ret | exit | throw => ⟨2, 0⟩

/-- Stack use when the jump is taken, for the opcodes that can branch. -/
def branchUse? : Opcode → Option StackUse
  | jump => some ⟨0, 0⟩
  | jumpIfFalse | jumpIfTrue => some ⟨1, 0⟩
  | iterNext => some ⟨1, 1⟩
  | tryBegin => some ⟨0, 1⟩
  | _ => none

/-- Whether control never goes on to the next instruction. -/
def isTerminal : Opcode → Bool
  | jump | ret | exit | throw => true
  | _ => false

end Opcode

end QueryCompiler
