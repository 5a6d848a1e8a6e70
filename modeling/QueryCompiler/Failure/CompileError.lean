/-
Why a query does not compile.

Every error is final: there is no partial program.  An error keeps its cause as
data, and the wording lives in `message` alone.  The causes that no query should
be able to reach are gathered in `Defect`; they point at a lowering rule or at a
caller that uses the pieces in the wrong order.
-/
import QueryCompiler.Query.Span

namespace QueryCompiler

/-- An inconsistency found while lowering. -/
inductive Defect where
  /-- A backward jump aims at another function. -/
  | loopAcrossFunctions (target current : Nat)
  /-- A backward jump arrives with another depth than its target has. -/
  | loopDepth (target depth expected : Nat)
  /-- There is no instruction to give a target. -/
  | noInstruction (function index : Nat)
  /-- The instruction to be given a target does not jump. -/
  | notAJump (op : Opcode) (function index : Nat)
  /-- A forward jump is bound in another function. -/
  | labelAcrossFunctions (label current : Nat)
  /-- A forward jump arrives with another depth than the code it meets. -/
  | joinDepth (depth position jump arriving : Nat)
  /-- A function is finished that was never begun. -/
  | noNestedFunction
  /-- A scope is addressed after it was closed. -/
  | staleFrame (scope : Scope) (serial : Nat)
  /-- Scopes are still open at the end of the query. -/
  | scopesLeftOpen (count : Nat)
  /-- A rule was applied to a node of another construct. -/
  | wrongConstruct (expected found : Construct) (span : Span)
  /-- A call has more arguments than an instruction can count. -/
  | tooManyArguments (span : Span) (count : Nat)
  /-- Anything a rule has to say for itself. -/
  | note (text : String)
deriving DecidableEq

namespace Defect

/-- The text of the defect. -/
def message : Defect → String
  | loopAcrossFunctions target current => s!"loop target in fn{target} emitted from fn{current}"
  | loopDepth target depth expected =>
    s!"jump to @{target} leaves operand stack depth {depth}, target expects {expected}"
  | noInstruction function index => s!"no instruction at fn{function}@{index}"
  | notAJump op function index => s!"{op.name} at fn{function}@{index} is not a jump"
  | labelAcrossFunctions label current => s!"label from fn{label} bound in fn{current}"
  | joinDepth depth position jump arriving =>
    s!"operand stack depth {depth} at @{position} but jump from @{jump} arrives with {arriving}"
  | noNestedFunction => "no nested function is open"
  | staleFrame scope serial => s!"{scope.name} frame #{serial} is no longer on the stack"
  | scopesLeftOpen count => s!"{count} scope frames left open after compilation"
  | wrongConstruct expected found span =>
    s!"{expected.name} compiler invoked on a {found.name} node at {span.text}"
  | tooManyArguments span count =>
    s!"call at {span.text} has {count} arguments, more than an instruction can encode"
  | note text => text

end Defect

/-- Why a query does not compile. -/
inductive CompileError where
  /-- No rule is registered for the construct. -/
  | unsupported (construct : Construct) (span : Span)
  /-- A scope was closed that is not the innermost one. -/
  | closedOutOfOrder (closing : Scope) (innermost : Option Scope)
  /-- The construct needs an enclosing scope that is not there. -/
  | notEnclosed (scope : Scope) (span : Span)
  /-- The tree nests deeper than the settings allow. -/
  | tooDeep (limit : Nat) (span : Span)
  /-- An assignment to a name that is no local. -/
  | undeclared (name : String) (span : Span)
  /-- A node left the operand stack at the wrong depth. -/
  | wrongBalance (construct : Construct) (expected found : Nat) (span : Span)
  /-- A `break` or `continue` would take values along that do not belong to the loop. -/
  | strayOperands (construct : Construct) (expected found : Nat) (span : Span)
  /-- Two rules were registered for one construct. -/
  | duplicateRule (construct : Construct)
  /-- The constant pool is full. -/
  | poolFull (limit : Nat)
  /-- A function needs more local slots than an operand can address. -/
  | slotsExhausted (limit : Nat) (span : Span)
  /-- An inconsistency that is not the fault of the query. -/
  | internal (defect : Defect)
deriving DecidableEq

namespace CompileError

/-- The text of the error. -/
def message : CompileError → String
  | unsupported construct span =>
    s!"at {span.text}: no compiler registered for {construct.name} nodes"
  | closedOutOfOrder closing innermost =>
    let found := (innermost.map Scope.name).getD "none"
    s!"scope exit out of order: closing {closing.name} frame but innermost is {found}"
  | notEnclosed scope span => s!"at {span.text}: no enclosing {scope.name} scope"
  | tooDeep limit span => s!"at {span.text}: nesting depth exceeds the limit of {limit}"
  | undeclared name span =>
    s!"at {span.text}: assignment to undeclared variable '{name}'"
  | wrongBalance construct expected found span =>
    s!"at {span.text}: {construct.name} left operand stack at depth {found}, expected {expected}"
  | strayOperands construct expected found span =>
    s!"at {span.text}: {construct.name} leaves operand stack at depth {found}, " ++
      s!"loop expects {expected}"
  | duplicateRule construct => s!"a compiler is already registered for {construct.name} nodes"
  | poolFull limit => s!"too many constants (limit: {limit})"
  | slotsExhausted limit span => s!"at {span.text}: too many local variables (limit: {limit})"
  | internal defect => s!"internal compiler error: {defect.message}"

/-- Where in the query the error points, if it points anywhere. -/
def span : CompileError → Span
  | unsupported _ span => span
  | notEnclosed _ span => span
  | tooDeep _ span => span
  | undeclared _ span => span
  | wrongBalance _ _ _ span => span
  | strayOperands _ _ _ span => span
  | slotsExhausted _ span => span
  | closedOutOfOrder _ _ | duplicateRule _ | poolFull _ | internal _ => .synthetic

end CompileError

end QueryCompiler
