/-
Compiling a query.

A query is compiled in two passes.  The first looks at every node and makes sure
that it has a rule and is not too deep, so that nothing is written for a tree that
cannot be finished; it needs no recursion and copes with trees of any depth.  The
second lowers the tree as the body of the main function.
-/
import QueryCompiler.Lowering.Descent
import QueryCompiler.Query.Traversal

namespace QueryCompiler

/-- Why there is no program: the query is wrong, or the machinery is. -/
inductive Failure where
  | error (error : CompileError)
  | fault (fault : Fault)
deriving DecidableEq

/-- A compiler: rules and settings.  It keeps nothing from one query to the next. -/
structure Compiler where
  registry : Registry := .standard
  settings : Settings := {}

namespace Compiler

/-- The objection to a node at a depth, if there is one: it has no rule, or it is too deep. -/
def objection? (compiler : Compiler) (node : Node) (depth : Nat) : Option CompileError :=
  match compiler.registry.ruleFor node.construct node.span with
  | .error error => some error
  | .ok _ =>
    if compiler.settings.maxDepth < depth then
      some (.tooDeep compiler.settings.maxDepth node.span)
    else
      none

/-- The first objection to a tree, if there is one. -/
def firstObjection? (compiler : Compiler) (root : Node) : Option CompileError :=
  (Node.Walk.start root).findSome? compiler.objection?

/-- Lower a tree as the main function. -/
def lowerMain (compiler : Compiler) (root : Node) : Action Workspace Unit := do
  let lower := lower compiler.registry compiler.settings
  let ((), frame) ← Workspace.within (.function 0 0) fun _ => lower.body root
  let height ← Workspace.onScopes (Action.read ScopeStack.height)
  if height ≠ 0 then
    Action.fail (.internal (.scopesLeftOpen height))
  Workspace.onCode (Action.modify fun code => code.reserveLocals (frame.nextSlot?.getD 0))

/-- The workspace before a query. -/
def start (compiler : Compiler) (traced : Bool) : Workspace where
  code := Assembly.start compiler.settings.lineInfo
  scopes := ScopeStack.start traced

/-- Compile a query and hand back the scope stack too, with its history if `traced` is set. -/
def run (compiler : Compiler) (traced : Bool) (root : Node) :
    Except Failure (Program × ScopeStack) :=
  match compiler.firstObjection? root with
  | some error => .error (.error error)
  | none =>
    match compiler.lowerMain root (compiler.start traced) with
    | .done () workspace => .ok (workspace.code.toProgram, workspace.scopes)
    | .failed error _ => .error (.error error)
    | .fault fault => .error (.fault fault)

/-- Compile a query. -/
def compile (compiler : Compiler) (root : Node) : Except Failure Program :=
  (compiler.run false root).map Prod.fst

/-- Compile a query and record how its scopes nested. -/
def compileTraced (compiler : Compiler) (root : Node) : Except Failure (Program × ScopeStack) :=
  compiler.run true root

end Compiler

/-- Compile a query with the standard rules and settings. -/
def compile (root : Node) : Except Failure Program :=
  Compiler.compile {} root

end QueryCompiler
