/-
Rules for the expressions that run straight through or skip one operand.

Every expression leaves one value.  Operands are evaluated from left to right, and
a name is put into the constant pool only after the operands before it.
-/
import QueryCompiler.Lowering.Rule

namespace QueryCompiler

/-- The instruction of a unary operator. -/
def UnaryOperator.opcode : UnaryOperator → Opcode
  | neg => .neg
  | not => .not
  | bitNot => .bitNot

/-- The instruction of a strict binary operator. -/
def BinaryOperator.opcode : BinaryOperator → Opcode
  | add => .add
  | sub => .sub
  | mul => .mul
  | div => .div
  | intDiv => .intDiv
  | mod => .mod
  | eq => .eq
  | ne => .ne
  | lt => .lt
  | le => .le
  | gt => .gt
  | ge => .ge
  | bitAnd => .bitAnd
  | bitOr => .bitOr
  | bitXor => .bitXor
  | shl => .shl
  | shr => .shr
  | ushr => .ushr

/-- The jump that skips the right operand once the left one has decided. -/
def LogicalOperator.skip : LogicalOperator → Opcode
  | and => .jumpIfFalse
  | or => .jumpIfTrue

namespace Rule

open Workspace

/-- Null and the truth values have instructions of their own, all else goes through the pool. -/
def literal : Rule := fun _ node =>
  match node with
  | .literal .null _ => emit .pushNull
  | .literal (.bool true) _ => emit .pushTrue
  | .literal (.bool false) _ => emit .pushFalse
  | .literal value _ => pushConstant value
  | _ => mismatch .literal node

/-- A list is made empty and filled item by item. -/
def list : Rule := fun lower node =>
  match node with
  | .list items _ => do
    emit .newList
    items.forM fun item => do
      lower.value item
      emit .push
  | _ => mismatch .list node

/-- An object is made empty and filled field by field. -/
def object : Rule := fun lower node =>
  match node with
  | .object fields _ => do
    emit .newObject
    fields.forM fun (key, value) => do
      lower.value value
      emitName .put key
  | _ => mismatch .object node

/-- A name is a local if one is in scope, and otherwise the host has to know it. -/
def ident : Rule := fun _ node =>
  match node with
  | .ident name _ => do
    match ← findLocal name with
    | some ref => emitWith .load (.slot ref)
    | none => emitName .loadGlobal name
  | _ => mismatch .ident node

/-- A parameter of the query is looked up by name when the query runs. -/
def param : Rule := fun _ node =>
  match node with
  | .param name _ => emitName .loadParam name
  | _ => mismatch .param node

/-- The current element is the one of the innermost transform. -/
def current : Rule := fun _ node =>
  match node with
  | .current span => do
    let ref ← findElement span
    emitWith .load (.slot ref)
  | _ => mismatch .current node

/-- The owner, then the name of the member. -/
def member : Rule := fun lower node =>
  match node with
  | .member owner name _ => do
    lower.value owner
    emitName .getMember name
  | _ => mismatch .member node

/-- The owner, then the subscript. -/
def index : Rule := fun lower node =>
  match node with
  | .index owner subscript _ => do
    lower.value owner
    lower.value subscript
    emit .getIndex
  | _ => mismatch .index node

/-- The callee comes before the arguments, whose number has to fit into sixteen bits. -/
def call : Rule := fun lower node =>
  match node with
  | .call callee arguments span => do
    if 65535 < arguments.length then
      Action.fail (.internal (.tooManyArguments span arguments.length))
    lower.value callee
    lower.values arguments
    emitWith .call (.count arguments.length.toUInt16)
  | _ => mismatch .call node

/-- The operand, then the operator. -/
def unary : Rule := fun lower node =>
  match node with
  | .unary op operand _ => do
    lower.value operand
    emit op.opcode
  | _ => mismatch .unary node

/-- Both operands, then the operator. -/
def binary : Rule := fun lower node =>
  match node with
  | .binary op left right _ => do
    lower.value left
    lower.value right
    emit op.opcode
  | _ => mismatch .binary node

/-- The left operand is the result if it decides; otherwise it is dropped for the right one. -/
def logical : Rule := fun lower node =>
  match node with
  | .logical op left right _ => do
    lower.value left
    emit .dup
    let decided ← jump op.skip
    emit .pop
    lower.value right
    land decided
  | _ => mismatch .logical node

/-- Parentheses leave no trace in the code. -/
def group : Rule := fun lower node =>
  match node with
  | .group inner _ => lower.value inner
  | _ => mismatch .group node

end Rule

end QueryCompiler
