/-
The stack of open scopes.

Whoever opens a scope gets an identity for its frame and has to present it to close
the frame again, so scopes that are closed out of order are found at once.  The
stack answers the questions the lowering has about its surroundings: where `break`
and `continue` lead, which handlers a jump crosses, which slot a name or the current
element lives in.
-/
import QueryCompiler.Scopes.History
import QueryCompiler.Scopes.Search

namespace QueryCompiler

/-- The identity of a frame, given out when it is opened. -/
structure FrameId where
  serial : Nat
  scope : Scope
deriving DecidableEq

/-- The open scopes and their history. -/
structure ScopeStack where
  /-- The open frames, innermost first. -/
  frames : List Frame := []
  nextSerial : Nat := 0
  counts : ScopeCounts := {}
  /-- Everything that happened, if it is recorded. -/
  events : Option (Array ScopeEvent) := none

namespace ScopeStack

/-- An empty stack that records its history if `traced` is set. -/
def start (traced : Bool) : ScopeStack :=
  { events := if traced then some #[] else none }

def height (stack : ScopeStack) : Nat := stack.frames.length

/-- The recorded history. -/
def history (stack : ScopeStack) : List ScopeEvent :=
  (stack.events.getD #[]).toList

def record (stack : ScopeStack) (event : ScopeEvent) : ScopeStack :=
  { stack with events := stack.events.map fun events => events.push event }

/-! ### Opening and closing -/

/-- Open a scope. -/
def push (state : FrameState) : Action ScopeStack FrameId := fun stack =>
  let serial := stack.nextSerial
  let height := stack.height + 1
  let opened : ScopeStack := { stack with
    frames := ⟨serial, [], state⟩ :: stack.frames
    nextSerial := serial + 1
    counts := { stack.counts with
      pushes := stack.counts.pushes + 1
      maxHeight := max stack.counts.maxHeight height } }
  .done ⟨serial, state.scope⟩ (opened.record (.entered serial state.scope height))

/-- Close a scope, which has to be the innermost one. -/
def pop (id : FrameId) : Action ScopeStack Frame := fun stack =>
  match stack.frames with
  | [] => .failed (.closedOutOfOrder id.scope none) stack
  | frame :: outer =>
    if frame.serial = id.serial then
      let closed : ScopeStack := { stack with
        frames := outer
        counts := { stack.counts with pops := stack.counts.pops + 1 } }
      .done frame (closed.record (.left frame.serial frame.scope))
    else
      .failed (.closedOutOfOrder id.scope (some frame.scope)) stack

/-! ### Open frames -/

/-- The open frame with the given identity. -/
def frame? (stack : ScopeStack) (id : FrameId) : Option Frame :=
  stack.frames.find? fun frame => frame.serial == id.serial

/-- The open frame with the given identity, or the complaint that it is closed. -/
def frame (id : FrameId) : Action ScopeStack Frame := fun stack =>
  match stack.frame? id with
  | some frame => .done frame stack
  | none => .failed (.internal (.staleFrame id.scope id.serial)) stack

/-- Change the open frame with the given identity. -/
def update (id : FrameId) (change : FrameState → FrameState) : Action ScopeStack Unit :=
  fun stack =>
    match stack.frame? id with
    | some _ =>
      .done () { stack with
        frames := stack.frames.map fun frame =>
          if frame.serial = id.serial then frame.modify change else frame }
    | none => .failed (.internal (.staleFrame id.scope id.serial)) stack

/-- The innermost frame of a scope in the current function. -/
def enclosing (scope : Scope) (span : Span) : Action ScopeStack Frame := fun stack =>
  match Frame.innermost? scope stack.frames with
  | some frame => .done frame stack
  | none => .failed (.notEnclosed scope span) stack

/-- Change the innermost frame of a scope in the current function, if there is one. -/
def modifyEnclosing (scope : Scope) (change : FrameState → FrameState) (stack : ScopeStack) :
    ScopeStack :=
  { stack with frames := Frame.modifyInnermost scope change stack.frames }

/-- Count a `throw` on the handler that guards the current position. -/
def countThrow (stack : ScopeStack) : ScopeStack :=
  { stack with frames := Frame.countThrow stack.frames }

/-! ### Locals -/

/-- The next free slot of the current function. -/
def nextSlot? (stack : ScopeStack) : Option UInt16 :=
  (Frame.innermost? .function stack.frames).bind fun frame => frame.state.nextSlot?

/-- Take a slot of the current function without giving it a name. -/
def takeSlot (span : Span) : Action ScopeStack UInt16 := fun stack =>
  match stack.nextSlot? with
  | none => .failed (.notEnclosed .function span) stack
  | some slot =>
    if Frame.slotLimit ≤ slot.toNat then .failed (.slotsExhausted Frame.slotLimit span) stack
    else .done slot (stack.modifyEnclosing .function FrameState.takeSlot)

/-- Let a name stand for a slot in the innermost scope, if there is one. -/
def bindName (name : String) (slot : UInt16) (stack : ScopeStack) : ScopeStack :=
  match stack.frames with
  | [] => stack
  | frame :: outer => { stack with frames := frame.declare name slot :: outer }

/-- Declare a name in the innermost scope, with a slot of its own. -/
def declare (name : String) (span : Span) : Action ScopeStack UInt16 := do
  let slot ← takeSlot span
  Action.modify (bindName name slot)
  return slot

/-- The local a name stands for, if it stands for one. -/
def findLocal (name : String) : Action ScopeStack (Option SlotRef) := fun stack =>
  match Frame.findLocal name 0 stack.frames with
  | .ok found => .done found stack
  | .error fault => .fault fault

/-- The local that holds the current element. -/
def findElement (span : Span) : Action ScopeStack SlotRef := fun stack =>
  match Frame.findElement 0 stack.frames with
  | .ok (some found) => .done found stack
  | .ok none => .failed (.notEnclosed .transform span) stack
  | .error fault => .fault fault

end ScopeStack

end QueryCompiler
