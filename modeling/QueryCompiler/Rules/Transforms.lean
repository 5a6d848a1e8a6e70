/-
Rules for transforms.

The shape is evaluated with the current element in a hidden local.  Shaping every
element of a source collects the results in a list, which lives in a second hidden
local while the iterator is on the operand stack.
-/
import QueryCompiler.Lowering.Rule

namespace QueryCompiler.Rule

open Workspace

/-- Lower a shape whose element is in the given slot. -/
def shapeWith (lower : Lower) (element : UInt16) (shape : Node) : Action Workspace Unit := do
  let _ ← within (.transform element) fun _ => lower.value shape

/-- Shape every element of the source. -/
def transformEach (lower : Lower) (source shape : Node) (span : Span) :
    Action Workspace Unit := do
  let collected ← takeSlot span
  let element ← takeSlot span
  emit .newList
  emitSlot .store collected
  lower.value source
  emit .iterStart
  let next ← position
  let level ← depth
  let exit ← jump .iterNext
  emitSlot .store element
  emitSlot .load collected
  shapeWith lower element shape
  emit .push
  emit .pop
  jumpBack next level
  land exit
  emit .pop
  emitSlot .load collected

/-- Shape the source as a whole. -/
def transformSingle (lower : Lower) (source shape : Node) (span : Span) :
    Action Workspace Unit := do
  let element ← takeSlot span
  lower.value source
  emitSlot .store element
  shapeWith lower element shape

/-- The hidden locals belong to the function around the transform. -/
def transform : Rule := fun lower node =>
  match node with
  | .transform .each source shape span => transformEach lower source shape span
  | .transform .single source shape span => transformSingle lower source shape span
  | _ => mismatch .transform node

end QueryCompiler.Rule
