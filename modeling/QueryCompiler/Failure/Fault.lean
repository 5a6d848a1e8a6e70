/-
Faults: broken promises of the code that does the lowering.

A fault is not a mistake in the query.  It says that a lowering rule, or a caller
that drives the pieces by hand, asked for something that makes no sense, and it
ends the work on the spot: unlike an error, it leaves no state behind that could
be looked at.

This is how a build with assertions behaves, in which a broken assertion and a sum
that leaves its machine word both end the run.  A build without them would go on, and
what it does then is not said here.
-/
import QueryCompiler.Machine.Opcode
import QueryCompiler.Query.Construct

namespace QueryCompiler

/-- What went wrong in the machinery itself. -/
inductive Fault where
  /-- An instruction was given an operand of a shape it does not carry. -/
  | operandShape (op : Opcode)
  /-- An instruction that can be reached pops more than the stack holds. -/
  | stackUnderflow (op : Opcode) (pops depth : Nat)
  /-- A forward jump was asked of an opcode that cannot branch. -/
  | notABranch (op : Opcode)
  /-- A rule succeeded without closing the scopes it opened. -/
  | scopesLeftOpen (construct : Construct)
  /-- A rule succeeded without ever opening the scope of its construct. -/
  | scopeNotOpened (construct : Construct) (scope : Scope)
  /-- A dispatcher went on below the depth at which its counter should have stopped it. -/
  | lostCount
  /-- A counter left the range of its machine word. -/
  | overflow
deriving DecidableEq

namespace Fault

/-- The text of the fault. -/
def message : Fault → String
  | operandShape op => s!"{op.name} takes a {op.shape.name} operand"
  | stackUnderflow op pops depth => s!"{op.name} pops {pops} from a stack of depth {depth}"
  | notABranch op => s!"{op.name} is not a branch"
  | scopesLeftOpen construct => s!"{construct.name} left scope frames open"
  | scopeNotOpened construct scope => s!"{construct.name} opened no {scope.name} scope"
  | lostCount => "the dispatcher lost count of its depth"
  | overflow => "attempt to add with overflow"

end Fault

end QueryCompiler
