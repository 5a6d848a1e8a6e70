/-
Rules for conditionals.

An arm that does not apply is jumped over.  An arm that was taken jumps to the end,
unless it is the last one or never comes to its own end.
-/
import QueryCompiler.Lowering.Rule

namespace QueryCompiler.Rule

open Workspace

/-- Both arms yield a value, and the one that is taken leaves it. -/
def ternary : Rule := fun lower node =>
  match node with
  | .ternary condition whenTrue whenFalse _ => do
    let ((), frame) ← within (.branch 0 #[]) fun id => do
      lower.value condition
      let otherwise ← jump .jumpIfFalse
      lower.value whenTrue
      if ← reachable then
        let exit ← jump .jump
        update id (FrameState.addExit exit)
      land otherwise
      update id (FrameState.setArm 1)
      lower.value whenFalse
    landAll frame.exits
  | _ => mismatch .ternary node

/-- The arms from number `arm` on.  `moreFollows` says that there is something after the last. -/
def ifArms (lower : Lower) (id : FrameId) (moreFollows : Bool) (arm : Nat) :
    List (Node × Node) → Action Workspace Unit
  | [] => pure ()
  | (condition, body) :: rest => do
    update id (FrameState.setArm arm)
    lower.value condition
    let next ← jump .jumpIfFalse
    lower.statement body
    let fallsOut ← reachable
    if (moreFollows || !rest.isEmpty) && fallsOut then
      let exit ← jump .jump
      update id (FrameState.addExit exit)
    land next
    ifArms lower id moreFollows (arm + 1) rest

/-- The arms are tried in order, and what follows them runs if none applies. -/
def ifChain : Rule := fun lower node =>
  match node with
  | .ifChain arms otherwise _ => do
    let ((), frame) ← within (.branch 0 #[]) fun id => do
      ifArms lower id otherwise.isSome 0 arms
      match otherwise with
      | some body =>
        update id (FrameState.setArm arms.length)
        lower.statement body
      | none => pure ()
    landAll frame.exits
  | _ => mismatch .ifChain node

end QueryCompiler.Rule
