/-
Places in a function, and what surrounds them.

While a function is being written there is a place where the next instruction goes.
A `Spot` is all that the rules can see of it: its index, the depth of the operand
stack, whether control gets there from the instruction before, and the scopes.  What
a rule can see of the constructs around its node is in `Surroundings`: the handlers
that guard the code, and the loop that `break` and `continue` are about.

An `Image` is the finished function, together with the constants of its program.
Spots and surroundings belong to the time of writing, when jumps may still wait for
their targets; the layout of a query is said of the image, in which none does.
-/
import QueryCompiler.Proofs.Actions

namespace QueryCompiler

/-! ### Frames seen by names

Names and slots do not depend on what a frame remembers for the sake of jumps.
-/

/-- What a frame remembers for the sake of names. -/
def FrameState.bare : FrameState → FrameState
  | function id nextSlot => function id nextSlot
  | loop .. => loop ⟨0, 0⟩ 0 #[]
  | handler .. => handler ⟨0, 0⟩ false 0
  | branch .. => branch 0 #[]
  | block => block
  | transform element => transform element

/-- The frame without what it remembers for the sake of jumps. -/
def Frame.bare (frame : Frame) : Frame :=
  ⟨0, frame.bindings, frame.state.bare⟩

namespace Layout

/-! ### Spots -/

/-- A place where an instruction can go. -/
structure Spot where
  index : Nat
  depth : Nat
  reachable : Bool
  scopes : List Frame

namespace Spot

/-- The place after an instruction. -/
def step (a : Spot) (instruction : Instruction) : Spot :=
  { a with
    index := a.index + 1
    depth := a.depth - instruction.stackUse.pops + instruction.stackUse.pushes
    reachable := a.reachable && !instruction.op.isTerminal }

/-- The depth with which a jump from here arrives. -/
def taken (a : Spot) (op : Opcode) : Nat :=
  match op.branchUse? with
  | some use => a.depth - use.pops + use.pushes
  | none => a.depth

/-- The same place with a jump landing at it. -/
def land (a : Spot) (depth : Nat) : Spot :=
  { a with depth, reachable := true }

/-- The same place with jumps of these depths landing at it. -/
def landAll (a : Spot) (depths : List Nat) : Spot :=
  depths.foldl land a

theorem landAll_index (a : Spot) (depths : List Nat) : (a.landAll depths).index = a.index := by
  induction depths generalizing a with
  | nil => rfl
  | cons depth rest ih => exact ih (a.land depth)

theorem landAll_scopes (a : Spot) (depths : List Nat) : (a.landAll depths).scopes = a.scopes := by
  induction depths generalizing a with
  | nil => rfl
  | cons depth rest ih => exact ih (a.land depth)

theorem landAll_reachable {a : Spot} {depths : List Nat} :
    (a.landAll depths).reachable = true ↔ a.reachable = true ∨ depths ≠ [] := by
  induction depths generalizing a with
  | nil => simp [landAll]
  | cons depth rest ih =>
      have hland : ((a.land depth).landAll rest).reachable = true := ih.mpr (.inl rfl)
      exact ⟨fun _ => .inr (List.cons_ne_nil _ _), fun _ => hland⟩

/-- The same place with its depth taken to be another. -/
def reset (a : Spot) (depth : Nat) : Spot :=
  { a with depth }

/-- The same place inside a new scope. -/
def enter (a : Spot) (state : FrameState) : Spot :=
  { a with scopes := ⟨0, [], state.bare⟩ :: a.scopes }

/-- The same place outside the innermost scope. -/
def leave (a : Spot) : Spot :=
  { a with scopes := a.scopes.tail }

/-- The slot is the next one of the current function, and it has not run out of them. -/
def Frees (a : Spot) (slot : UInt16) : Prop :=
  (Frame.innermost? .function a.scopes).bind (fun frame => frame.state.nextSlot?) = some slot ∧
    slot.toNat < Frame.slotLimit

/-- The same place with a slot taken. -/
def takeSlot (a : Spot) : Spot :=
  { a with scopes := Frame.modifyInnermost .function FrameState.takeSlot a.scopes }

/-- The same place with a name declared in the innermost scope. -/
def declare (a : Spot) (name : String) (slot : UInt16) : Spot :=
  { a with scopes :=
      Frame.bindName name slot (Frame.modifyInnermost .function FrameState.takeSlot a.scopes) }

end Spot

/-! ### Surroundings -/

/-- The loop around a place: where it starts over, where it is left to, the depth of the operand
stack at both, and how many handlers guard the place but not the loop. -/
structure Loop where
  head : Nat
  exit : Nat
  level : Nat
  crossed : Nat

/-- The constructs around a place, as far as jumps out of them go. -/
structure Surroundings where
  /-- Where the handlers that guard the place are installed, innermost first. -/
  guards : List Nat := []
  loop? : Option Loop := none

namespace Surroundings

/-- The surroundings inside a loop. -/
def inLoop (s : Surroundings) (head exit level : Nat) : Surroundings :=
  { s with loop? := some ⟨head, exit, level, 0⟩ }

/-- The surroundings inside the shape of a transform, which no loop is left from. -/
def inTransform (s : Surroundings) : Surroundings :=
  { s with loop? := none }

/-- The surroundings inside the guarded body of a handler. -/
def guarded (s : Surroundings) (start : Nat) : Surroundings where
  guards := start :: s.guards
  loop? := s.loop?.map fun loop => { loop with crossed := loop.crossed + 1 }

/-- The surroundings inside a frame.  A loop is left to `exit`. -/
def inside (s : Surroundings) (exit : Nat) : FrameState → Surroundings
  | .function .. => {}
  | .loop target depth _ => s.inLoop target.index.toUInt32.toNat exit depth
  | .handler start true _ => s.guarded start.index
  | .transform _ => s.inTransform
  | _ => s

/-- The surroundings that open frames make, innermost first.  The loop, if there is one, is left
to `exit`. -/
def ofFrames (exit : Nat) : List Frame → Surroundings
  | [] => {}
  | frame :: outer => (ofFrames exit outer).inside exit frame.state

end Surroundings

/-! ### Images -/

/-- A finished function: its code, the depth its operand stack may reach, and the constants of its
program. -/
structure Image where
  code : Array Instruction
  maxStack : Nat
  constants : Array Constant

namespace Image

/-- The constant with a number. -/
def Holds (F : Image) (id : UInt32) (value : Constant) : Prop :=
  F.constants[id.toNat]? = some value

/-- An instruction stands between two places. -/
structure Writes (F : Image) (instruction : Instruction) (a b : Spot) : Prop where
  at_index : F.code[a.index]? = some instruction
  fits : a.depth ≤ F.maxStack
  next : b = a.step instruction

/-- A jump to `target` stands between two places. -/
def Jumps (F : Image) (op : Opcode) (target : Nat) (a b : Spot) : Prop :=
  ∃ word : UInt32, word.toNat = target ∧ F.Writes ⟨op, .target word⟩ a b

end Image

end Layout

end QueryCompiler
