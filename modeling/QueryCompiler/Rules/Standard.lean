/-
The rule of every construct.
-/
import QueryCompiler.Rules.Branches
import QueryCompiler.Rules.Expressions
import QueryCompiler.Rules.Functions
import QueryCompiler.Rules.Handlers
import QueryCompiler.Rules.Loops
import QueryCompiler.Rules.Statements
import QueryCompiler.Rules.Transforms

namespace QueryCompiler.Rule

/-- The standard rule for a construct. -/
def standard : Construct → Rule
  | .literal => literal
  | .list => list
  | .object => object
  | .ident => ident
  | .param => param
  | .current => current
  | .member => member
  | .index => index
  | .call => call
  | .unary => unary
  | .binary => binary
  | .logical => logical
  | .ternary => ternary
  | .group => group
  | .lambda => lambda
  | .transform => transform
  | .block => block
  | .varDecl => varDecl
  | .assign => assign
  | .run => run
  | .hint => hint
  | .importAs => importAs
  | .ifChain => ifChain
  | .whileLoop => whileLoop
  | .forEach => forEach
  | .breakLoop => breakLoop
  | .continueLoop => continueLoop
  | .tryCatch => tryCatch
  | .returnWith => returnWith
  | .exitWith => exitWith
  | .throwWith => throwWith

end QueryCompiler.Rule
