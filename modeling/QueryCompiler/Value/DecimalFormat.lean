/-
How a decimal is put into characters.
-/
import QueryCompiler.Value.Shortest
import QueryCompiler.Value.Float64

namespace QueryCompiler.Decimal

/-- The choices of a number format.  With `0.d₁d₂… * 10 ^ point` for the number, the point
decides between plain digits and an exponent. -/
structure Format where
  /-- The points that are written with plain digits run from here … -/
  leastPoint : Int
  /-- … up to here. -/
  greatestPoint : Int
  /-- What stands before the exponent. -/
  mark : String
  /-- What follows the digits of a whole number written plainly. -/
  wholeTail : String
  /-- Whether the upper one of two equally near decimals is taken. -/
  tieUp : Bool
  infinity : String
  nan : String

namespace Format

/-- A positive decimal with plain digits. -/
def plain (format : Format) (digits : String) (point : Int) : String :=
  let zeros (n : Int) : String := "".pushn '0' n.toNat
  if point ≤ 0 then
    "0." ++ zeros (-point) ++ digits
  else if digits.length ≤ point then
    digits ++ zeros (point - digits.length) ++ format.wholeTail
  else
    let whole := digits.toList.take point.toNat
    let rest := digits.toList.drop point.toNat
    String.ofList (whole ++ '.' :: rest)

/-- A positive decimal with one digit before the point and an exponent. -/
def scientific (format : Format) (digits : String) (point : Int) : String :=
  let tail := match digits.toList with
    | first :: next :: rest => String.ofList (first :: '.' :: next :: rest)
    | _ => digits
  tail ++ format.mark ++ toString (point - 1)

/-- The text of a positive decimal. -/
def decimal (format : Format) (d : Decimal) : String :=
  let digits := toString d.digits
  let point := digits.length + d.exponent
  if format.leastPoint ≤ point && point ≤ format.greatestPoint then format.plain digits point
  else format.scientific digits point

/-- The text of a float. -/
def float (format : Format) (x : Float64) : String :=
  let sign (negative : Bool) : String := if negative then "-" else ""
  match x.read with
  | .nan => format.nan
  | .infinite negative => sign negative ++ format.infinity
  | .zero negative => sign negative ++ "0" ++ format.wholeTail
  | .finite negative mantissa exponent narrow =>
    sign negative ++ format.decimal (shortest mantissa exponent narrow format.tieUp)

end Format

end QueryCompiler.Decimal
