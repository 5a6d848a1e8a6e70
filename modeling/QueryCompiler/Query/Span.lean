/-
Where a piece of query text starts and how long it is.
-/
import QueryCompiler.Machine.Word

namespace QueryCompiler

/-- A stretch of query text.  Lines and columns count from one; line zero marks a node that was
made up rather than read. -/
structure Span where
  line : Nat := 0
  col : Nat := 0
  /-- Length in bytes. -/
  len : Nat := 0
deriving DecidableEq, Inhabited

namespace Span

/-- The span of a node that comes from nowhere. -/
def synthetic : Span := {}

/-- A span without extent. -/
def point (line col : Nat) : Span := { line, col }

def isEmpty (span : Span) : Bool := span.len == 0

/-- Whether the span was made up rather than read from the query text. -/
def isSynthetic (span : Span) : Bool := span.line == 0

/-- The position in messages. -/
def text (span : Span) : String := s!"{span.line}:{span.col}"

/-- The smallest span on one line that covers both.  Spans on different lines keep the first
position and add up their lengths. -/
def merge (a b : Span) : Except Fault Span :=
  if a.line ≠ b.line then do
    let len ← addWord a.len b.len
    return { a with len }
  else do
    let start := min a.col b.col
    let endA ← addWord a.col a.len
    let endB ← addWord b.col b.len
    return { line := a.line, col := start, len := max endA endB - start }

end Span

end QueryCompiler
