/-
The operators of query expressions.

Strict binary operators and the two that stop early are kept apart, because the
former become one instruction and the latter a jump.
-/
namespace QueryCompiler

/-- Operators in front of their operand. -/
inductive UnaryOperator where
  | neg
  | not
  | bitNot
deriving DecidableEq

/-- Operators that always evaluate both operands. -/
inductive BinaryOperator where
  | add
  | sub
  | mul
  | div
  /-- Division that keeps the whole part only. -/
  | intDiv
  | mod
  | eq
  | ne
  | lt
  | le
  | gt
  | ge
  | bitAnd
  | bitOr
  | bitXor
  | shl
  | shr
  /-- Shift to the right that fills with zeros. -/
  | ushr
deriving DecidableEq

/-- Operators that evaluate their right operand only if the left one does not decide. -/
inductive LogicalOperator where
  | and
  | or
deriving DecidableEq

namespace UnaryOperator

def all : List UnaryOperator := [neg, not, bitNot]

/-- The spelling in query text. -/
def symbol : UnaryOperator → String
  | neg => "-"
  | not => "!"
  | bitNot => "~"

/-- The operator with a given spelling. -/
def ofSymbol? (text : String) : Option UnaryOperator :=
  all.find? fun op => op.symbol == text

@[simp] theorem ofSymbol?_symbol (op : UnaryOperator) : ofSymbol? op.symbol = some op := by
  cases op <;> decide +kernel

end UnaryOperator

namespace BinaryOperator

def all : List BinaryOperator :=
  [add, sub, mul, div, intDiv, mod, eq, ne, lt, le, gt, ge, bitAnd, bitOr, bitXor, shl, shr, ushr]

/-- The spelling in query text. -/
def symbol : BinaryOperator → String
  | add => "+"
  | sub => "-"
  | mul => "*"
  | div => "/"
  | intDiv => "\\"
  | mod => "%"
  | eq => "=="
  | ne => "!="
  | lt => "<"
  | le => "<="
  | gt => ">"
  | ge => ">="
  | bitAnd => "&"
  | bitOr => "|"
  | bitXor => "^"
  | shl => "<<"
  | shr => ">>"
  | ushr => ">>>"

/-- The operator with a given spelling. -/
def ofSymbol? (text : String) : Option BinaryOperator :=
  all.find? fun op => op.symbol == text

@[simp] theorem ofSymbol?_symbol (op : BinaryOperator) : ofSymbol? op.symbol = some op := by
  cases op <;> decide +kernel

/-- Whether the result is a truth value. -/
def isComparison : BinaryOperator → Bool
  | eq | ne | lt | le | gt | ge => true
  | _ => false

end BinaryOperator

namespace LogicalOperator

def all : List LogicalOperator := [and, or]

/-- The spelling in query text. -/
def symbol : LogicalOperator → String
  | and => "&&"
  | or => "||"

/-- The operator with a given spelling. -/
def ofSymbol? (text : String) : Option LogicalOperator :=
  all.find? fun op => op.symbol == text

@[simp] theorem ofSymbol?_symbol (op : LogicalOperator) : ofSymbol? op.symbol = some op := by
  cases op <;> decide +kernel

end LogicalOperator

end QueryCompiler
