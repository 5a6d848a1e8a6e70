/-
Looking outward through open frames.

The frames come innermost first.  No search for a scope leaves the current function:
a loop around a lambda is nothing that a `break` in the lambda could leave.  Names
and the current element are found across functions, and their slots come with the
number of functions that had to be left on the way.
-/
import QueryCompiler.Scopes.Frame

namespace QueryCompiler.Frame

/-! ### Scopes -/

/-- Whether a search for a scope ends at a frame of another.  No search leaves a function, and a
search for a loop stops at a transform, whose own operands lie above those of the loop. -/
def hides (barrier wanted : Scope) : Bool :=
  barrier == .function || (barrier == .transform && wanted == .loop)

/-- The innermost frame of a scope in the current function. -/
def innermost? (wanted : Scope) : List Frame → Option Frame
  | [] => none
  | frame :: outer =>
    if frame.scope = wanted then some frame
    else if hides frame.scope wanted then none
    else innermost? wanted outer

/-- Change the innermost frame of a scope in the current function, if there is one. -/
def modifyInnermost (wanted : Scope) (change : FrameState → FrameState) : List Frame → List Frame
  | [] => []
  | frame :: outer =>
    if frame.scope = wanted then frame.modify change :: outer
    else if hides frame.scope wanted then frame :: outer
    else frame :: modifyInnermost wanted change outer

/-! ### Handlers -/

/-- How many handlers guard the code inside the innermost frame of a scope. -/
def guardsWithin (wanted : Scope) (frames : List Frame) : Nat :=
  (frames.takeWhile fun frame => frame.scope != wanted && frame.scope != .function).countP
    fun frame => frame.state.isGuarding

/-- Whether an error raised inside a frame passes it: it neither catches nor is a function. -/
def passesThrow (frame : Frame) : Bool :=
  !frame.state.isGuarding && frame.scope != .function

/-- The handler that guards the current position: where it is installed and the throws it has
counted. -/
def guard? (frames : List Frame) : Option (Position × Nat) :=
  match frames.dropWhile passesThrow with
  | ⟨_, _, .handler start _ throws⟩ :: _ => some (start, throws)
  | _ => none

/-- Count a `throw` on the handler that guards the current position, if there is one. -/
def countThrow : List Frame → List Frame
  | [] => []
  | frame :: outer =>
    if passesThrow frame then frame :: countThrow outer
    else frame.modify FrameState.countThrow :: outer

/-! ### Locals -/

/-- How many local slots a function can have, and how many functions out a local can be. -/
def slotLimit : Nat := 65535

/-- The distance after leaving a frame: one more if it is a function, as long as that fits. -/
def outward (distance : Nat) (frame : Frame) : Except Fault Nat :=
  if frame.scope = .function then
    if distance < slotLimit then .ok (distance + 1) else .error .overflow
  else
    .ok distance

/-- The local a name stands for, its innermost declaration first.  So many functions have been
left already as the distance says. -/
def findLocal (name : String) (distance : Nat) : List Frame → Except Fault (Option SlotRef)
  | [] => .ok none
  | frame :: outer =>
    match frame.lookup? name with
    | some slot => .ok (some ⟨distance.toUInt16, slot⟩)
    | none => do
      let distance ← outward distance frame
      findLocal name distance outer

/-- The local that holds the current element. -/
def findElement (distance : Nat) : List Frame → Except Fault (Option SlotRef)
  | [] => .ok none
  | frame :: outer =>
    match frame.state with
    | .transform slot => .ok (some ⟨distance.toUInt16, slot⟩)
    | _ => do
      let distance ← outward distance frame
      findElement distance outer

end QueryCompiler.Frame
