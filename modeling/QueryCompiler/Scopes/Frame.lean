/-
Frames: what is remembered about a scope while it is open.
-/
import QueryCompiler.Assembly.Basic

namespace QueryCompiler

/-- What a frame remembers besides names, by the kind of its scope. -/
inductive FrameState where
  /-- A function of the program, and its next free slot.  Slots are never used twice. -/
  | function (id : Nat) (nextSlot : UInt16)
  /-- Where `continue` jumps to, the depth of the operand stack there and behind the loop, and the
  jumps of the `break`s so far. -/
  | loop (target : Position) (depth : Nat) (breaks : Array PendingJump)
  /-- Where the handler is installed, whether the code being written is still guarded by it, and
  how many `throw`s it has guarded so far. -/
  | handler (start : Position) (guarded : Bool) (throws : Nat)
  /-- Which arm is being written, and the jumps from the arms so far to the end. -/
  | branch (arm : Nat) (exits : Array PendingJump)
  | block
  /-- The slot that holds the current element. -/
  | transform (element : UInt16)
deriving DecidableEq

namespace FrameState

def scope : FrameState → Scope
  | function .. => .function
  | loop .. => .loop
  | handler .. => .handler
  | branch .. => .branch
  | block => .block
  | transform .. => .transform

/-- The next free slot of a function. -/
def nextSlot? : FrameState → Option UInt16
  | function _ nextSlot => some nextSlot
  | _ => none

/-- Where a loop starts over, and the depth of the operand stack there. -/
def loopEntry? : FrameState → Option (Position × Nat)
  | loop target depth _ => some (target, depth)
  | _ => none

/-- The jumps of the `break`s of a loop. -/
def breaks : FrameState → List PendingJump
  | loop _ _ breaks => breaks.toList
  | _ => []

/-- Whether the frame is that of a handler whose body is being written. -/
def isGuarding : FrameState → Bool
  | handler _ guarded _ => guarded
  | _ => false

/-- How many `throw`s a handler has guarded. -/
def throws : FrameState → Nat
  | handler _ _ throws => throws
  | _ => 0

/-- The jumps from the arms of a conditional to its end. -/
def exits : FrameState → List PendingJump
  | branch _ exits => exits.toList
  | _ => []

/-! ### Changes of a frame

Each of them leaves frames of other scopes as they are.
-/

def takeSlot : FrameState → FrameState
  | function id nextSlot => function id (nextSlot + 1)
  | state => state

def addBreak (label : PendingJump) : FrameState → FrameState
  | loop target depth breaks => loop target depth (breaks.push label)
  | state => state

def setGuarded (guarded : Bool) : FrameState → FrameState
  | handler start _ throws => handler start guarded throws
  | state => state

def countThrow : FrameState → FrameState
  | handler start guarded throws => handler start guarded (throws + 1)
  | state => state

def setArm (arm : Nat) : FrameState → FrameState
  | branch _ exits => branch arm exits
  | state => state

def addExit (label : PendingJump) : FrameState → FrameState
  | branch arm exits => branch arm (exits.push label)
  | state => state

end FrameState

/-- An open scope. -/
structure Frame where
  /-- The number of the frame, in the order of opening. -/
  serial : Nat
  /-- The locals declared in the scope, the most recent first.  A name may occur again, and then
  the first occurrence counts. -/
  bindings : List (String × UInt16)
  state : FrameState
deriving DecidableEq

namespace Frame

def scope (frame : Frame) : Scope := frame.state.scope

/-- The slot of a local declared in the scope. -/
def lookup? (frame : Frame) (name : String) : Option UInt16 :=
  frame.bindings.lookup name

def declare (frame : Frame) (name : String) (slot : UInt16) : Frame :=
  { frame with bindings := (name, slot) :: frame.bindings }

def modify (frame : Frame) (change : FrameState → FrameState) : Frame :=
  { frame with state := change frame.state }

end Frame

end QueryCompiler
