/-
Queries that differ in positions and names alone.

An `Alteration` moves everything in a query to another place of the text, and gives its
variables other names.  Names that mean something outside the query stay as they are:
those of parameters, members, fields and hints, and the paths of imports.  An altered
query has the shape of the one it comes from: the same constructs, with the altered
parts as its parts.

Two alterations are of interest.  `unplaced` takes all positions away, so two queries
that differ in positions alone become the same; `renamed` changes names and nothing else.
-/
import Mathlib.Logic.Basic
import QueryCompiler.Failure.CompileError
import QueryCompiler.Query.Traversal

namespace QueryCompiler

/-- What is different about a query: where things stand, and what its variables are called. -/
structure Alteration where
  place : Span → Span
  rename : String → String

namespace Alteration

/-- Everything stays as it is. -/
def keep : Alteration := ⟨id, id⟩

def name (a : Alteration) (name : Name) : Name :=
  ⟨a.rename name.text, a.place name.span⟩

end Alteration

namespace Node

mutual

/-- The query with other positions and other names of variables. -/
def alter (a : Alteration) : Node → Node
  | literal value span => literal value (a.place span)
  | list items span => list (alterList a items) (a.place span)
  | object fields span => object (alterFields a fields) (a.place span)
  | ident name span => ident (a.rename name) (a.place span)
  | param name span => param name (a.place span)
  | current span => current (a.place span)
  | member owner name span => member (owner.alter a) name (a.place span)
  | index owner subscript span => index (owner.alter a) (subscript.alter a) (a.place span)
  | call callee arguments span => call (callee.alter a) (alterList a arguments) (a.place span)
  | unary op operand span => unary op (operand.alter a) (a.place span)
  | binary op left right span => binary op (left.alter a) (right.alter a) (a.place span)
  | logical op left right span => logical op (left.alter a) (right.alter a) (a.place span)
  | ternary condition whenTrue whenFalse span =>
    ternary (condition.alter a) (whenTrue.alter a) (whenFalse.alter a) (a.place span)
  | group inner span => group (inner.alter a) (a.place span)
  | lambda params body span => lambda (params.map a.name) (body.alter a) (a.place span)
  | transform mode source shape span =>
    transform mode (source.alter a) (shape.alter a) (a.place span)
  | block statements span => block (alterList a statements) (a.place span)
  | varDecl name init span => varDecl (a.name name) (init.alter a) (a.place span)
  | assign name value span => assign (a.name name) (value.alter a) (a.place span)
  | run inner span => run (inner.alter a) (a.place span)
  | hint name value span => hint name value (a.place span)
  | importAs source path binding span => importAs source path (a.name binding) (a.place span)
  | ifChain arms otherwise span =>
    ifChain (alterArms a arms) (alterOption a otherwise) (a.place span)
  | whileLoop condition body span => whileLoop (condition.alter a) (body.alter a) (a.place span)
  | forEach binding iterable body span =>
    forEach (a.name binding) (iterable.alter a) (body.alter a) (a.place span)
  | breakLoop span => breakLoop (a.place span)
  | continueLoop span => continueLoop (a.place span)
  | tryCatch body binding handler span =>
    tryCatch (body.alter a) (binding.map a.name) (handler.alter a) (a.place span)
  | returnWith code data span => returnWith code (alterOption a data) (a.place span)
  | exitWith code data span => exitWith code (alterOption a data) (a.place span)
  | throwWith code data span => throwWith code (data.alter a) (a.place span)

def alterList (a : Alteration) : List Node → List Node
  | [] => []
  | node :: rest => node.alter a :: alterList a rest

def alterFields (a : Alteration) : List (String × Node) → List (String × Node)
  | [] => []
  | (key, node) :: rest => (key, node.alter a) :: alterFields a rest

def alterArms (a : Alteration) : List (Node × Node) → List (Node × Node)
  | [] => []
  | (condition, body) :: rest => (condition.alter a, body.alter a) :: alterArms a rest

def alterOption (a : Alteration) : Option Node → Option Node
  | none => none
  | some node => some (node.alter a)

end

/-- The query without positions. -/
def unplaced (root : Node) : Node :=
  root.alter ⟨fun _ => .synthetic, id⟩

/-- The query with other names for its variables. -/
def renamed (rename : String → String) (root : Node) : Node :=
  root.alter ⟨id, rename⟩

/-! ### Parts of an altered query -/

variable {a : Alteration}

theorem alterList_eq (nodes : List Node) : alterList a nodes = nodes.map (alter a) := by
  induction nodes with
  | nil => rfl
  | cons node rest ih => rw [alterList, ih, List.map_cons]

theorem alterFields_eq (fields : List (String × Node)) :
    alterFields a fields = fields.map fun field => (field.1, field.2.alter a) := by
  induction fields with
  | nil => rfl
  | cons field rest ih => rw [alterFields, ih, List.map_cons]

theorem alterArms_eq (arms : List (Node × Node)) :
    alterArms a arms = arms.map fun arm => (arm.1.alter a, arm.2.alter a) := by
  induction arms with
  | nil => rfl
  | cons arm rest ih => rw [alterArms, ih, List.map_cons]

theorem alterOption_eq (node : Option Node) : alterOption a node = node.map (alter a) := by
  cases node <;> rfl

@[simp] theorem construct_alter (node : Node) : (node.alter a).construct = node.construct := by
  cases node <;> rfl

@[simp] theorem span_alter (node : Node) : (node.alter a).span = a.place node.span := by
  cases node <;> rfl

/-- **The parts of an altered node are its parts, altered.** -/
theorem children_alter (node : Node) :
    (node.alter a).children = node.children.map (alter a) := by
  cases node with
  | object fields =>
      simp only [alter, children, alterFields_eq, List.map_map]
      rfl
  | ifChain arms otherwise =>
      simp only [alter, children, alterArms_eq, alterOption_eq, List.map_append, List.flatMap_map,
        List.map_flatMap, List.map_cons, List.map_nil]
      cases otherwise <;> rfl
  | list | block | call => simp [alter, children, alterList_eq]
  | returnWith code data | exitWith code data => cases data <;> rfl
  | _ => rfl

mutual

/-- A query in which nothing is changed is the same query. -/
theorem alter_keep : ∀ node : Node, node.alter .keep = node
  | literal .. | ident .. | param .. | current .. | hint .. | importAs .. | breakLoop ..
  | continueLoop .. => rfl
  | list items span => congrArg (list · span) (alterList_keep items)
  | object fields span => congrArg (object · span) (alterFields_keep fields)
  | member owner name span => congrArg (member · name span) (alter_keep owner)
  | index owner subscript span =>
    congrArg₂ (index · · span) (alter_keep owner) (alter_keep subscript)
  | call callee arguments span =>
    congrArg₂ (call · · span) (alter_keep callee) (alterList_keep arguments)
  | unary op operand span => congrArg (unary op · span) (alter_keep operand)
  | binary op left right span =>
    congrArg₂ (binary op · · span) (alter_keep left) (alter_keep right)
  | logical op left right span =>
    congrArg₂ (logical op · · span) (alter_keep left) (alter_keep right)
  | ternary condition whenTrue whenFalse span => by
    rw [alter, alter_keep condition, alter_keep whenTrue, alter_keep whenFalse]
    rfl
  | group inner span => congrArg (group · span) (alter_keep inner)
  | lambda params body span =>
    congrArg₂ (lambda · · span) (List.map_id params) (alter_keep body)
  | transform mode source shape span =>
    congrArg₂ (transform mode · · span) (alter_keep source) (alter_keep shape)
  | block statements span => congrArg (block · span) (alterList_keep statements)
  | varDecl name init span => congrArg (varDecl name · span) (alter_keep init)
  | assign name value span => congrArg (assign name · span) (alter_keep value)
  | run inner span => congrArg (run · span) (alter_keep inner)
  | ifChain arms otherwise span =>
    congrArg₂ (ifChain · · span) (alterArms_keep arms) (alterOption_keep otherwise)
  | whileLoop condition body span =>
    congrArg₂ (whileLoop · · span) (alter_keep condition) (alter_keep body)
  | forEach binding iterable body span =>
    congrArg₂ (forEach binding · · span) (alter_keep iterable) (alter_keep body)
  | tryCatch body binding handler span => by
    rw [alter, alter_keep body, alter_keep handler, show binding.map Alteration.keep.name = binding
      from Option.map_id_apply]
    rfl
  | returnWith code data span => congrArg (returnWith code · span) (alterOption_keep data)
  | exitWith code data span => congrArg (exitWith code · span) (alterOption_keep data)
  | throwWith code data span => congrArg (throwWith code · span) (alter_keep data)

theorem alterList_keep : ∀ nodes : List Node, alterList .keep nodes = nodes
  | [] => rfl
  | node :: rest => congrArg₂ List.cons (alter_keep node) (alterList_keep rest)

theorem alterFields_keep : ∀ fields : List (String × Node), alterFields .keep fields = fields
  | [] => rfl
  | (key, node) :: rest =>
    congrArg₂ List.cons (congrArg (Prod.mk key) (alter_keep node)) (alterFields_keep rest)

theorem alterArms_keep : ∀ arms : List (Node × Node), alterArms .keep arms = arms
  | [] => rfl
  | (condition, body) :: rest =>
    congrArg₂ List.cons (congrArg₂ Prod.mk (alter_keep condition) (alter_keep body))
      (alterArms_keep rest)

theorem alterOption_keep : ∀ node : Option Node, alterOption .keep node = node
  | none => rfl
  | some node => congrArg some (alter_keep node)

end

end Node

/-! ### Errors about an altered query -/

/-- The defect, as it is found in an altered query. -/
def Defect.alter (a : Alteration) : Defect → Defect
  | wrongConstruct expected found span => wrongConstruct expected found (a.place span)
  | tooManyArguments span count => tooManyArguments (a.place span) count
  | defect => defect

/-- The error, as it is made about an altered query. -/
def CompileError.alter (a : Alteration) : CompileError → CompileError
  | unsupported construct span => unsupported construct (a.place span)
  | notEnclosed scope span => notEnclosed scope (a.place span)
  | tooDeep limit span => tooDeep limit (a.place span)
  | undeclared name span => undeclared (a.rename name) (a.place span)
  | wrongBalance construct expected found span =>
    wrongBalance construct expected found (a.place span)
  | strayOperands construct expected found span =>
    strayOperands construct expected found (a.place span)
  | slotsExhausted limit span => slotsExhausted limit (a.place span)
  | internal defect => internal (defect.alter a)
  | closedOutOfOrder closing innermost => closedOutOfOrder closing innermost
  | duplicateRule construct => duplicateRule construct
  | poolFull limit => poolFull limit

theorem CompileError.alter_keep (error : CompileError) : error.alter .keep = error := by
  cases error with
  | internal defect => cases defect <;> rfl
  | _ => rfl

/-- The error without positions. -/
def CompileError.unplaced (error : CompileError) : CompileError :=
  error.alter ⟨fun _ => .synthetic, id⟩

end QueryCompiler
