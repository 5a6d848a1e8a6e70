/-
Rules for blocks, variables and directives.

A declaration becomes visible after its own initial value, so the value can still
read an outer variable of the same name.
-/
import QueryCompiler.Lowering.Rule

namespace QueryCompiler

/-- The instruction that loads an import. -/
def ImportSource.opcode : ImportSource → Opcode
  | library => .importModule
  | resource => .importResource

namespace Rule

open Workspace

/-- The names declared in a block end with it. -/
def block : Rule := fun lower node =>
  match node with
  | .block statements _ => do
    let _ ← within .block fun _ => lower.statements statements
  | _ => mismatch .block node

/-- The initial value comes first, then the slot. -/
def varDecl : Rule := fun lower node =>
  match node with
  | .varDecl name init _ => do
    lower.value init
    let slot ← declare name
    emitSlot .store slot
  | _ => mismatch .varDecl node

/-- Only a local can be assigned to, and it is looked up before the value is computed. -/
def assign : Rule := fun lower node =>
  match node with
  | .assign name value _ => do
    match ← findLocal name.text with
    | some ref =>
      lower.value value
      emitWith .store (.slot ref)
    | none => Action.fail (.undeclared name.text name.span)
  | _ => mismatch .assign node

/-- An expression for its effects alone. -/
def run : Rule := fun lower node =>
  match node with
  | .run inner _ => lower.statement inner
  | _ => mismatch .run node

/-- Both the key and the value of a hint are constants. -/
def hint : Rule := fun _ node =>
  match node with
  | .hint name value _ => do
    let key ← onCode (Assembly.name name)
    let id ← onCode (Assembly.constant value)
    emitWith .hint (.hint key id)
  | _ => mismatch .hint node

/-- What was imported is kept in a local of the given name. -/
def importAs : Rule := fun _ node =>
  match node with
  | .importAs source path binding _ => do
    let id ← onCode (Assembly.name path)
    let slot ← declare binding
    emitWith source.opcode (.const id)
    emitSlot .store slot
  | _ => mismatch .importAs node

end Rule

end QueryCompiler
