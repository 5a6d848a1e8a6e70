/-
The history of the scope stack.
-/
import QueryCompiler.Query.Construct

namespace QueryCompiler

/-- One opening or closing of a scope.  Serial numbers tell frames apart. -/
inductive ScopeEvent where
  /-- A scope was opened; the height is that of the stack afterwards. -/
  | entered (serial : Nat) (scope : Scope) (height : Nat)
  | left (serial : Nat) (scope : Scope)
deriving DecidableEq

/-- What is counted on every scope stack. -/
structure ScopeCounts where
  pushes : Nat := 0
  pops : Nat := 0
  /-- The greatest number of scopes open at once. -/
  maxHeight : Nat := 0
deriving DecidableEq

namespace ScopeCounts

/-- Whether as many scopes were closed as opened. -/
def isBalanced (counts : ScopeCounts) : Bool := counts.pushes == counts.pops

end ScopeCounts

namespace ScopeEvent

/-- Whether events that follow the openings of `opened`, innermost first, close all of them and
all of their own, each time the most recent one. -/
def closesAll (opened : List Nat) : List ScopeEvent → Bool
  | [] => opened.isEmpty
  | entered serial _ _ :: rest => closesAll (serial :: opened) rest
  | left serial _ :: rest =>
    match opened with
    | [] => false
    | top :: outer => top == serial && closesAll outer rest

/-- Whether every closing closes the most recent scope still open, and none stays open. -/
def wellNested (events : List ScopeEvent) : Bool :=
  closesAll [] events

end ScopeEvent

end QueryCompiler
