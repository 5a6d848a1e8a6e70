/-
Double-precision numbers, seen as the 64 bits that store them.

The compiler never computes with a float.  It stores them, tells them apart and
prints them, so a float is its bit pattern here: two are equal as data when their
bits agree, which keeps the two zeros and the many not-a-numbers apart.  The
comparison of numbers, which does not, is `sameNumber`.
-/
namespace QueryCompiler

/-- A double-precision number by its bits. -/
structure Float64 where
  bits : UInt64
deriving DecidableEq

namespace Float64

/-- What a bit pattern stands for. -/
inductive Reading where
  /-- Not a number. -/
  | nan
  | infinite (negative : Bool)
  | zero (negative : Bool)
  /-- The number `mantissa * 2 ^ exponent`, or its opposite.  The neighbour towards zero is only
  half as far away as the one on the other side if `narrow` is set. -/
  | finite (negative : Bool) (mantissa : Nat) (exponent : Int) (narrow : Bool)

/-- Take a bit pattern apart: a sign, eleven bits of exponent, fifty-two of fraction.  The lowest
exponent has no hidden leading bit, the highest is for infinities and not-a-numbers. -/
def read (x : Float64) : Reading :=
  let negative := x.bits >>> 63 == 1
  let scale := ((x.bits >>> 52) &&& 0x7ff).toNat
  let fraction := (x.bits &&& 0xfffffffffffff).toNat
  if scale == 2047 then
    if fraction == 0 then .infinite negative else .nan
  else if scale == 0 then
    if fraction == 0 then .zero negative else .finite negative fraction (-1074) false
  else
    .finite negative (0x10000000000000 + fraction) ((scale : Int) - 1075)
      (fraction == 0 && 1 < scale)

def isNaN (x : Float64) : Bool :=
  match x.read with
  | .nan => true
  | _ => false

def isZero (x : Float64) : Bool :=
  match x.read with
  | .zero _ => true
  | _ => false

/-- Equality of numbers: no not-a-number equals anything, and the zeros are one. -/
def sameNumber (x y : Float64) : Bool :=
  !x.isNaN && !y.isNaN && (x == y || x.isZero && y.isZero)

end Float64

end QueryCompiler
