/-
The values a program can hold as constants.

Literals of the query and entries of the constant pool are the same thing, so one
type serves both.  Its equality is that of data: an integer is never a float, and
floats are told apart by their bits.
-/
import QueryCompiler.Value.DecimalFormat
import QueryCompiler.Text.Quoted

namespace QueryCompiler

/-- A literal value. -/
inductive Constant where
  | null
  | bool (value : Bool)
  | int (value : Int64)
  | float (value : Float64)
  | string (value : String)
deriving DecidableEq

namespace Constant

/-- The byte that announces the kind of constant in an encoded program. -/
def tag : Constant → UInt8
  | null => 0
  | bool _ => 1
  | int _ => 2
  | float _ => 3
  | string _ => 4

/-- Floats are written plainly from a ten-thousandth up to ten million billions, always with a
fraction digit, and with an exponent outside; of two equally near decimals the upper is taken. -/
def floatFormat : Decimal.Format where
  leastPoint := -3
  greatestPoint := 16
  mark := "e"
  wholeTail := ".0"
  tieUp := true
  infinity := "inf"
  nan := "NaN"

/-- The constant in listings. -/
def text : Constant → String
  | null => "null"
  | bool value => if value then "true" else "false"
  | int value => toString value.toInt
  | float value => floatFormat.float value
  | string value => Text.quoted value

example : text (.float ⟨0x3fb999999999999a⟩) = "0.1" := by decide +kernel

example : text (.float ⟨0x430c6bf526340000⟩) = "1000000000000000.0" := by decide +kernel

example : text (.float ⟨0x4341c37937e08000⟩) = "1e16" := by decide +kernel

example : text (.float ⟨0x8000000000000001⟩) = "-5e-324" := by decide +kernel

example : text (.string "a\"\n") = "\"a\\\"\\n\"" := by decide +kernel

/-- Equality of the values rather than of the data: floats are compared as numbers. -/
def sameValue : Constant → Constant → Bool
  | float x, float y => x.sameNumber y
  | a, b => a == b

end Constant

end QueryCompiler
