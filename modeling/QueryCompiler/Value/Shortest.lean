/-
The shortest decimal that reads back as a given binary number.

A positive number `mantissa * 2 ^ exponent` stands for every real that rounds to
it: an interval that reaches half way to each neighbour, with its ends if the
mantissa is even.  `shortest` looks for a decimal in that interval on coarser and
then finer grids, one significant digit more each time.  On each grid only the two
points around the number need a look, since any grid point of the interval lies no
nearer than one of them.  Seventeen digits always suffice.
-/
namespace QueryCompiler

/-- The number `digits * 10 ^ exponent`. -/
structure Decimal where
  digits : Nat
  exponent : Int
deriving DecidableEq

namespace Decimal

/-- How many digits a natural number is written with. -/
def digitCount (n : Nat) : Nat :=
  (Nat.toDigits 10 n).length

/-- Move trailing zeros of the digits into the exponent. -/
def strip (digits : Nat) (exponent : Int) : Decimal :=
  if h : digits ≠ 0 ∧ digits % 10 = 0 then
    strip (digits / 10) (exponent + 1)
  else
    ⟨digits, exponent⟩
termination_by digits
decreasing_by omega

/-- The interval of reals that round to one number: fractions over one denominator. -/
structure Interval where
  low : Nat
  number : Nat
  high : Nat
  denominator : Nat
  /-- Whether the two ends belong to it. -/
  closed : Bool

namespace Interval

/-- The reals that round to `mantissa * 2 ^ exponent`, in quarters of its last binary place.
The lower half is half as wide if the neighbour below is `narrow`. -/
def of (mantissa : Nat) (exponent : Int) (narrow : Bool) : Interval :=
  let up := Nat.pow 2 (exponent - 2).toNat
  { low := (4 * mantissa - if narrow then 1 else 2) * up
    number := 4 * mantissa * up
    high := (4 * mantissa + 2) * up
    denominator := Nat.pow 2 (2 - exponent).toNat
    closed := mantissa % 2 == 0 }

/-- The power of ten just above the number: it lies in `[10 ^ (k - 1), 10 ^ k)`. -/
def magnitude (i : Interval) : Int :=
  if i.denominator ≤ i.number then digitCount (i.number / i.denominator)
  else 1 - digitCount (i.denominator / i.number)

/-- The best point of the grid of multiples of `10 ^ exponent` inside the interval: the nearer of
the two around the number, and the upper one if they are equally near and `tieUp` is set. -/
def onGrid? (i : Interval) (tieUp : Bool) (exponent : Int) : Option Decimal :=
  -- Dividing by the grid width turns the number into `scaled / unit`.
  let up := Nat.pow 10 (-exponent).toNat
  let unit := i.denominator * Nat.pow 10 exponent.toNat
  let scaled := i.number * up
  let below := scaled / unit
  let above := below + 1
  let inside (point : Nat) : Bool :=
    let place := point * unit
    if i.closed then i.low * up ≤ place && place ≤ i.high * up
    else i.low * up < place && place < i.high * up
  let rest := scaled % unit
  let upIsNearer := if tieUp then unit ≤ 2 * rest else unit < 2 * rest
  match inside below, inside above with
  | false, false => none
  | true, false => some ⟨below, exponent⟩
  | false, true => some ⟨above, exponent⟩
  | true, true => some ⟨if upIsNearer then above else below, exponent⟩

/-- Search the grids that give `places` significant digits and more, `finer` of them. -/
def search (i : Interval) (tieUp : Bool) (places : Nat) : (finer : Nat) → Decimal
  | 0 => ⟨i.number / i.denominator, 0⟩
  | finer + 1 =>
    match i.onGrid? tieUp (i.magnitude - places) with
    | some decimal => decimal
    | none => i.search tieUp (places + 1) finer

end Interval

/-- The shortest decimal that rounds to `mantissa * 2 ^ exponent`, the nearest of that length. -/
def shortest (mantissa : Nat) (exponent : Int) (narrow tieUp : Bool) : Decimal :=
  let found := (Interval.of mantissa exponent narrow).search tieUp 1 17
  strip found.digits found.exponent

end Decimal

end QueryCompiler
