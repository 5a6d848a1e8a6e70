/-
The constant pool with an index.

`Pool` looks for a constant among its entries.  A pool that is asked often keeps an index
beside them, a hash map from constants to their numbers.  The numbers of a float's type do
not make good keys, since no not-a-number equals itself and the two zeros are equal.  So
the index is keyed by a mirror of the constant, in which a float is its bit pattern.
-/
import QueryCompiler.Assembly.Pool
import Std.Data.HashMap

namespace QueryCompiler

/-- What a constant is known by in the index. -/
inductive ConstantKey where
  | null
  | bool (value : Bool)
  | int (value : Int64)
  | float (bits : UInt64)
  | string (value : String)
deriving DecidableEq, Hashable

/-- The key of a constant. -/
def Constant.key : Constant → ConstantKey
  | null => .null
  | bool value => .bool value
  | int value => .int value
  | float value => .float value.bits
  | string value => .string value

/-- The constants of a program under construction, and where each of them is. -/
structure IndexedPool where
  constants : Array Constant := #[]
  index : Std.HashMap ConstantKey UInt32 := {}

namespace IndexedPool

def size (pool : IndexedPool) : Nat := pool.constants.size

def isEmpty (pool : IndexedPool) : Bool := pool.constants.isEmpty

/-- The constant with a given number. -/
def get? (pool : IndexedPool) (id : UInt32) : Option Constant :=
  pool.constants[id.toNat]?

/-- The number that the index has for the constant, or the next one. -/
def add (pool : IndexedPool) (constant : Constant) : Except CompileError (UInt32 × IndexedPool) :=
  match pool.index[constant.key]? with
  | some id => .ok (id, pool)
  | none =>
    if Pool.limit ≤ pool.size then .error (.poolFull Pool.limit)
    else
      let id := pool.size.toUInt32
      .ok (id, {
        constants := pool.constants.push constant
        index := pool.index.insert constant.key id })

/-- The pool without its index. -/
def unindexed (pool : IndexedPool) : Pool where
  constants := pool.constants

end IndexedPool

end QueryCompiler
