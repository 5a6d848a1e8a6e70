/-
Sums that have to fit a machine word.

Depths, lines, columns and lengths are counted in 32-bit words.  They are kept as
natural numbers, and the additions that could leave the range go through `addWord`.
-/
import QueryCompiler.Failure.Fault

namespace QueryCompiler

/-- One more than the largest 32-bit word. -/
def wordLimit : Nat := 4294967296

/-- The sum of two words, or a fault if it is no word. -/
def addWord (a b : Nat) : Except Fault Nat :=
  if a + b < wordLimit then .ok (a + b) else .error .overflow

end QueryCompiler
