/-
Query trees.

A node carries the span of the query text it was read from, and so does every name
that an error can point at.  Its kind is a `Construct`, and its direct parts, in
the order of the text, are its `children`.
-/
import QueryCompiler.Value.Constant
import QueryCompiler.Query.Operator
import QueryCompiler.Query.Span

namespace QueryCompiler

/-- A name together with where it stands. -/
structure Name where
  text : String
  span : Span
deriving DecidableEq

/-- How a transform applies its shape to its source. -/
inductive Shaping where
  /-- Once for every element, collecting a list. -/
  | each
  /-- Once for the source as a whole. -/
  | single
deriving DecidableEq

/-- What an import loads. -/
inductive ImportSource where
  /-- A library of functions the host provides. -/
  | library
  /-- Another query, loaded as a function. -/
  | resource
deriving DecidableEq

/-- A node of a query tree. -/
inductive Node where
  | literal (value : Constant) (span : Span)
  | list (items : List Node) (span : Span)
  /-- The fields keep the order of the text. -/
  | object (fields : List (String × Node)) (span : Span)
  /-- A local variable, or a name the host provides. -/
  | ident (name : String) (span : Span)
  /-- A parameter the host supplies for this execution. -/
  | param (name : String) (span : Span)
  /-- The element that is being transformed. -/
  | current (span : Span)
  | member (owner : Node) (name : String) (span : Span)
  | index (owner subscript : Node) (span : Span)
  | call (callee : Node) (arguments : List Node) (span : Span)
  | unary (op : UnaryOperator) (operand : Node) (span : Span)
  | binary (op : BinaryOperator) (left right : Node) (span : Span)
  | logical (op : LogicalOperator) (left right : Node) (span : Span)
  | ternary (condition whenTrue whenFalse : Node) (span : Span)
  | group (inner : Node) (span : Span)
  /-- An anonymous function.  Its body becomes a function of the program. -/
  | lambda (params : List Name) (body : Node) (span : Span)
  | transform (mode : Shaping) (source shape : Node) (span : Span)
  | block (statements : List Node) (span : Span)
  | varDecl (name : Name) (init : Node) (span : Span)
  | assign (name : Name) (value : Node) (span : Span)
  /-- Evaluate for the effects alone. -/
  | run (inner : Node) (span : Span)
  /-- An execution option for the machine. -/
  | hint (name : String) (value : Constant) (span : Span)
  | importAs (source : ImportSource) (path : String) (binding : Name) (span : Span)
  /-- Pairs of a condition and a body, tried in order, and what to do if all fail. -/
  | ifChain (arms : List (Node × Node)) (otherwise : Option Node) (span : Span)
  | whileLoop (condition body : Node) (span : Span)
  | forEach (binding : Name) (iterable body : Node) (span : Span)
  | breakLoop (span : Span)
  | continueLoop (span : Span)
  /-- The binding names the caught error inside the handler. -/
  | tryCatch (body : Node) (binding : Option Name) (handler : Node) (span : Span)
  /-- Finish the function with a result code and data. -/
  | returnWith (code : Int64) (data : Option Node) (span : Span)
  /-- Finish the whole query with a result code and data. -/
  | exitWith (code : Int64) (data : Option Node) (span : Span)
  | throwWith (code : Int64) (data : Node) (span : Span)

namespace Node

/-- The construct a node is an instance of. -/
def construct : Node → Construct
  | literal .. => .literal
  | list .. => .list
  | object .. => .object
  | ident .. => .ident
  | param .. => .param
  | current .. => .current
  | member .. => .member
  | index .. => .index
  | call .. => .call
  | unary .. => .unary
  | binary .. => .binary
  | logical .. => .logical
  | ternary .. => .ternary
  | group .. => .group
  | lambda .. => .lambda
  | transform .. => .transform
  | block .. => .block
  | varDecl .. => .varDecl
  | assign .. => .assign
  | run .. => .run
  | hint .. => .hint
  | importAs .. => .importAs
  | ifChain .. => .ifChain
  | whileLoop .. => .whileLoop
  | forEach .. => .forEach
  | breakLoop .. => .breakLoop
  | continueLoop .. => .continueLoop
  | tryCatch .. => .tryCatch
  | returnWith .. => .returnWith
  | exitWith .. => .exitWith
  | throwWith .. => .throwWith

/-- Where the node stands. -/
def span : Node → Span
  | literal _ span => span
  | list _ span => span
  | object _ span => span
  | ident _ span => span
  | param _ span => span
  | current span => span
  | member _ _ span => span
  | index _ _ span => span
  | call _ _ span => span
  | unary _ _ span => span
  | binary _ _ _ span => span
  | logical _ _ _ span => span
  | ternary _ _ _ span => span
  | group _ span => span
  | lambda _ _ span => span
  | transform _ _ _ span => span
  | block _ span => span
  | varDecl _ _ span => span
  | assign _ _ span => span
  | run _ span => span
  | hint _ _ span => span
  | importAs _ _ _ span => span
  | ifChain _ _ span => span
  | whileLoop _ _ span => span
  | forEach _ _ _ span => span
  | breakLoop span => span
  | continueLoop span => span
  | tryCatch _ _ _ span => span
  | returnWith _ _ span => span
  | exitWith _ _ span => span
  | throwWith _ _ span => span

/-- The direct parts of a node, in the order of the text. -/
def children : Node → List Node
  | literal .. | ident .. | param .. | current .. | hint .. | importAs .. | breakLoop ..
  | continueLoop .. => []
  | list items _ => items
  | object fields _ => fields.map Prod.snd
  | member owner _ _ => [owner]
  | index owner subscript _ => [owner, subscript]
  | call callee arguments _ => callee :: arguments
  | unary _ operand _ => [operand]
  | binary _ left right _ => [left, right]
  | logical _ left right _ => [left, right]
  | ternary condition whenTrue whenFalse _ => [condition, whenTrue, whenFalse]
  | group inner _ => [inner]
  | lambda _ body _ => [body]
  | transform _ source shape _ => [source, shape]
  | block statements _ => statements
  | varDecl _ init _ => [init]
  | assign _ value _ => [value]
  | run inner _ => [inner]
  | ifChain arms otherwise _ =>
    arms.flatMap (fun (condition, body) => [condition, body]) ++ otherwise.toList
  | whileLoop condition body _ => [condition, body]
  | forEach _ iterable body _ => [iterable, body]
  | tryCatch body _ handler _ => [body, handler]
  | returnWith _ data _ => data.toList
  | exitWith _ data _ => data.toList
  | throwWith _ data _ => [data]

end Node

end QueryCompiler
