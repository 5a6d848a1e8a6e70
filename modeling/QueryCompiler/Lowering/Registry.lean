/-
Which rule lowers which construct.

The standard registry has a rule for every construct.  A host that replaces or
withholds constructs starts from it, or from the empty one, and registers each
construct at most once.
-/
import QueryCompiler.Rules.Standard

namespace QueryCompiler

/-- A table of rules. -/
structure Registry where
  rule? : Construct → Option Rule

namespace Registry

/-- No rules at all. -/
def empty : Registry := ⟨fun _ => none⟩

/-- The standard rule for every construct. -/
def standard : Registry := ⟨fun construct => some (Rule.standard construct)⟩

def contains (registry : Registry) (construct : Construct) : Bool :=
  (registry.rule? construct).isSome

/-- The rule for a construct met at a span. -/
def ruleFor (registry : Registry) (construct : Construct) (span : Span) :
    Except CompileError Rule :=
  match registry.rule? construct with
  | some rule => .ok rule
  | none => .error (.unsupported construct span)

/-- The constructs without a rule, in order. -/
def missing (registry : Registry) : List Construct :=
  Construct.all.filter fun construct => !registry.contains construct

/-- How many constructs have a rule. -/
def size (registry : Registry) : Nat :=
  Construct.all.countP registry.contains

def isEmpty (registry : Registry) : Bool := registry.size == 0

/-- Whether every construct has a rule. -/
def isComplete (registry : Registry) : Bool :=
  Construct.all.all registry.contains

/-- Give a construct a rule, which it must not have yet. -/
def register (registry : Registry) (construct : Construct) (rule : Rule) :
    Except CompileError Registry :=
  if registry.contains construct then .error (.duplicateRule construct)
  else .ok ⟨fun other => if other = construct then some rule else registry.rule? other⟩

/-- Take the rule of a construct away, if it has one. -/
def withhold (registry : Registry) (construct : Construct) : Registry :=
  ⟨fun other => if other = construct then none else registry.rule? other⟩

/-! ### Summaries -/

/-- The summary of a registry that is being put together. -/
def draftSummary (registry : Registry) : String :=
  "RegistryBuilder \x7b registered: " ++ toString registry.size ++ " \x7d"

/-- The summary of a finished registry. -/
def summary (registry : Registry) : String :=
  let names := ", ".intercalate (registry.missing.map Construct.tag)
  "CompilerRegistry \x7b registered: " ++ toString registry.size ++ ", missing: [" ++ names ++
    "] \x7d"

end Registry

end QueryCompiler
