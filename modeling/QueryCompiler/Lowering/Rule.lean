/-
Lowering rules.

A rule says which instructions a node becomes.  It does not know how the parts of
the node are lowered: it is handed a function that does that, which is how one
construct can be given another rule without touching the rest.  This file has the
ways in which a rule may ask for a part to be lowered.
-/
import QueryCompiler.Lowering.Workspace

namespace QueryCompiler

/-- A way to lower nodes. -/
abbrev Lower := Node → Action Workspace Unit

/-- A rule lowers a node, given a way to lower the parts of it. -/
abbrev Rule := Lower → Node → Action Workspace Unit

namespace Lower

open Workspace

/-- Lower a node where a value is needed.  A node that diverges will do, since the code after it
may count on anything; a node that yields no value will not. -/
def value (lower : Lower) (node : Node) : Action Workspace Unit := do
  let start ← depth
  match node.construct.balance with
  | .value => lower node
  | .diverges =>
    lower node
    let after ← Action.ofWord (addWord start 1)
    resetDepth after
  | .effect =>
    let expected ← Action.ofWord (addWord start 1)
    Action.fail (.wrongBalance node.construct expected start node.span)

/-- Lower some nodes where values are needed, in order. -/
def values (lower : Lower) (nodes : List Node) : Action Workspace Unit :=
  nodes.forM lower.value

/-- Lower a node as a statement, dropping the value if it yields one. -/
def statement (lower : Lower) (node : Node) : Action Workspace Unit := do
  lower node
  if node.construct.balance = .value then
    emit .pop

/-- Lower some nodes as statements, in order. -/
def statements (lower : Lower) (nodes : List Node) : Action Workspace Unit :=
  nodes.forM lower.statement

/-- Lower the body of a function and end it.  A value is returned with code zero; a statement that
comes to its end returns nothing with code zero; a body that diverges needs no end. -/
def body (lower : Lower) (node : Node) : Action Workspace Unit := do
  match node.construct.balance with
  | .value =>
    pushConstant (.int 0)
    lower.value node
    emit .ret
  | .effect =>
    lower node
    if ← reachable then
      pushConstant (.int 0)
      emit .pushNull
      emit .ret
  | .diverges => lower node

end Lower

/-- The failure of a rule that was given a node of another construct. -/
def Rule.mismatch (expected : Construct) (node : Node) : Action Workspace Unit :=
  Action.fail (.internal (.wrongConstruct expected node.construct node.span))

end QueryCompiler
