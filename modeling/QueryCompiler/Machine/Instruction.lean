/-
Instructions and what they point at.

Operands are machine words, because that is what an encoded program has room for.
A forward jump whose target is not known yet carries the largest word instead.
-/
import QueryCompiler.Machine.Opcode

namespace QueryCompiler

/-- A local slot, seen from the function that uses it.  The depth counts the functions between
the use and the declaration: zero for a local of its own. -/
structure SlotRef where
  depth : UInt16
  slot : UInt16
deriving DecidableEq

/-- The place of an instruction: a function and an index into its code. -/
structure Position where
  function : Nat
  index : Nat
deriving DecidableEq

/-- What an instruction works on besides the operand stack. -/
inductive Operand where
  | none
  | const (id : UInt32)
  | target (index : UInt32)
  | slot (ref : SlotRef)
  | count (n : UInt16)
  | function (id : UInt32)
  | hint (key value : UInt32)
deriving DecidableEq

namespace Operand

/-- The target of a forward jump that has not been bound. -/
def unaimed : Operand := target 4294967295

def shape : Operand → OperandShape
  | none => .none
  | const _ => .const
  | target _ => .target
  | slot _ => .slot
  | count _ => .count
  | function _ => .function
  | hint _ _ => .hint

/-- The operand in raw listings, where constants are shown by number. -/
def text : Operand → String
  | none => ""
  | const id => s!"#{id.toNat}"
  | target index => if target index = unaimed then "@?" else s!"@{index.toNat}"
  | slot ref => s!"{ref.depth.toNat}:{ref.slot.toNat}"
  | count n => s!"{n.toNat}"
  | function id => s!"fn{id.toNat}"
  | hint key value => s!"#{key.toNat} #{value.toNat}"

end Operand

/-- An opcode with its operand. -/
structure Instruction where
  op : Opcode
  operand : Operand
deriving DecidableEq

namespace Instruction

/-- Stack use when control goes on to the next instruction. -/
def stackUse (instruction : Instruction) : StackUse :=
  match instruction.operand with
  | .count n => instruction.op.stackUse n
  | _ => instruction.op.stackUse 0

/-- The jump target, if there is one. -/
def target? (instruction : Instruction) : Option UInt32 :=
  match instruction.operand with
  | .target index => some index
  | _ => none

/-- The same instruction aimed at `index`. -/
def aimedAt (instruction : Instruction) (index : UInt32) : Instruction :=
  { instruction with operand := .target index }

/-- The instruction in raw listings. -/
def text (instruction : Instruction) : String :=
  match instruction.operand with
  | .none => instruction.op.name
  | operand => s!"{instruction.op.name} {operand.text}"

end Instruction

end QueryCompiler
