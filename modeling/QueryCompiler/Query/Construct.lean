/-
The constructs of the query language and what each promises.

A construct is the kind of a tree node.  Two facts about it are fixed by the
language rather than by whoever lowers it: its balance, that is how much the
operand stack has grown once its instructions have run, and the scope it opens
while it is being lowered, if it opens one.  The lowering checks both.
-/
namespace QueryCompiler

/-- What a node leaves on the operand stack once its instructions have run. -/
inductive Balance where
  /-- Exactly one value more than before. -/
  | value
  /-- The stack as it was. -/
  | effect
  /-- Nothing, because control never comes out at the end. -/
  | diverges
deriving DecidableEq

/-- The compile-time scopes a construct can open. -/
inductive Scope where
  /-- A function body, either the query itself or a lambda.  It owns local slots. -/
  | function
  /-- A loop, where `break` and `continue` lead. -/
  | loop
  /-- A guarded body together with its catch path. -/
  | handler
  /-- A conditional and its arms. -/
  | branch
  /-- A lexical block. -/
  | block
  /-- A transform, which binds the current element. -/
  | transform
deriving DecidableEq

namespace Scope

/-- The word for the scope in messages and traces. -/
def name : Scope → String
  | function => "function"
  | loop => "loop"
  | handler => "handler"
  | branch => "branch"
  | block => "block"
  | transform => "transform"

end Scope

/-- The kinds of node: sixteen expressions, then fifteen statements. -/
inductive Construct where
  | literal
  | list
  | object
  | ident
  | param
  | current
  | member
  | index
  | call
  | unary
  | binary
  | logical
  | ternary
  | group
  | lambda
  | transform
  | block
  | varDecl
  | assign
  | run
  | hint
  | importAs
  | ifChain
  | whileLoop
  | forEach
  | breakLoop
  | continueLoop
  | tryCatch
  | returnWith
  | exitWith
  | throwWith
deriving DecidableEq

namespace Construct

/-- Every construct, expressions before statements. -/
def all : List Construct :=
  [literal, list, object, ident, param, current, member, index, call, unary, binary, logical,
    ternary, group, lambda, transform, block, varDecl, assign, run, hint, importAs, ifChain,
    whileLoop, forEach, breakLoop, continueLoop, tryCatch, returnWith, exitWith, throwWith]

/-- The place of the construct in `all`. -/
def ordinal (construct : Construct) : Nat :=
  all.idxOf construct

/-- The name of the construct in messages. -/
def name : Construct → String
  | literal => "literal"
  | list => "list"
  | object => "object"
  | ident => "identifier"
  | param => "parameter"
  | current => "current element"
  | member => "member access"
  | index => "index"
  | call => "call"
  | unary => "unary operation"
  | binary => "binary operation"
  | logical => "logical operation"
  | ternary => "ternary"
  | group => "group"
  | lambda => "lambda"
  | transform => "transform"
  | block => "block"
  | varDecl => "var"
  | assign => "assignment"
  | run => "run"
  | hint => "hint"
  | importAs => "import"
  | ifChain => "if"
  | whileLoop => "while"
  | forEach => "for-each"
  | breakLoop => "break"
  | continueLoop => "continue"
  | tryCatch => "try"
  | returnWith => "return"
  | exitWith => "exit"
  | throwWith => "throw"

/-- The one-word tag of the construct in summaries of a rule table. -/
def tag : Construct → String
  | literal => "Literal"
  | list => "List"
  | object => "Object"
  | ident => "Ident"
  | param => "Param"
  | current => "Current"
  | member => "Member"
  | index => "Index"
  | call => "Call"
  | unary => "Unary"
  | binary => "Binary"
  | logical => "Logical"
  | ternary => "Ternary"
  | group => "Group"
  | lambda => "Lambda"
  | transform => "Transform"
  | block => "Block"
  | varDecl => "Var"
  | assign => "Assign"
  | run => "Run"
  | hint => "Hint"
  | importAs => "Import"
  | ifChain => "If"
  | whileLoop => "While"
  | forEach => "ForEach"
  | breakLoop => "Break"
  | continueLoop => "Continue"
  | tryCatch => "Try"
  | returnWith => "Return"
  | exitWith => "Exit"
  | throwWith => "Throw"

/-- The construct with a given tag. -/
def ofTag? (text : String) : Option Construct :=
  all.find? fun construct => construct.tag == text

@[simp] theorem ofTag?_tag (construct : Construct) : ofTag? construct.tag = some construct := by
  cases construct <;> decide +kernel

/-- The balance every rule for this construct has to keep. -/
def balance : Construct → Balance
  | literal | list | object | ident | param | current | member | index | call | unary | binary
  | logical | ternary | group | lambda | transform => .value
  | block | varDecl | assign | run | hint | importAs | ifChain | whileLoop | forEach
  | tryCatch => .effect
  | breakLoop | continueLoop | returnWith | exitWith | throwWith => .diverges

/-- The scope a rule for this construct has to open, if any. -/
def scope? : Construct → Option Scope
  | lambda => some .function
  | whileLoop | forEach => some .loop
  | tryCatch => some .handler
  | ifChain | ternary => some .branch
  | block => some .block
  | transform => some .transform
  | _ => none

end Construct

end QueryCompiler
