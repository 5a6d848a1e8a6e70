/-
Actions: steps on a state that can fail.

An action on a state ends in one of three ways.  It is done and hands on a value and
the new state; it has failed with an error, and the state keeps whatever was done
before; or it ran into a fault, after which there is no state to speak of.  The
difference matters to whoever handles an error: the scopes a failed step had opened
are still there to be closed.
-/
import QueryCompiler.Failure.CompileError

namespace QueryCompiler

/-- How an action on a state `σ` ends. -/
inductive Outcome (σ α : Type) where
  | done (value : α) (state : σ)
  | failed (error : CompileError) (state : σ)
  | fault (fault : Fault)

/-- A step on a state `σ` with a value of type `α`. -/
def Action (σ α : Type) : Type := σ → Outcome σ α

namespace Action

variable {σ τ α β : Type}

/-- Do nothing but hand on a value. -/
def pure (value : α) : Action σ α := fun s => .done value s

/-- One action after another, unless the first does not get done. -/
def bind (first : Action σ α) (next : α → Action σ β) : Action σ β := fun s =>
  match first s with
  | .done value s => next value s
  | .failed error s => .failed error s
  | .fault fault => .fault fault

instance : Monad (Action σ) where
  pure := Action.pure
  bind := Action.bind

/-- Fail, leaving the state alone. -/
def fail (error : CompileError) : Action σ α := fun s => .failed error s

/-- Stop with a fault. -/
def raise (fault : Fault) : Action σ α := fun _ => .fault fault

/-- Look at the state. -/
def read (view : σ → α) : Action σ α := fun s => .done (view s) s

/-- Change the state. -/
def modify (change : σ → σ) : Action σ Unit := fun s => .done () (change s)

/-- Go on with a value, or stop with the fault met in computing it. -/
def ofWord (result : Except Fault α) : Action σ α :=
  match result with
  | .ok value => pure value
  | .error fault => raise fault

/-- Carry out an action and tell whether it failed instead of failing.  A fault is not caught. -/
def attempt (action : Action σ α) : Action σ (Except CompileError α) := fun s =>
  match action s with
  | .done value s => .done (.ok value) s
  | .failed error s => .done (.error error) s
  | .fault fault => .fault fault

/-- Go on with the value of an attempt, or fail the way it failed. -/
def ofResult (result : Except CompileError α) : Action σ α :=
  match result with
  | .ok value => pure value
  | .error error => fail error

/-! ### How actions run -/

theorem pure_apply (value : α) (s : σ) : (Pure.pure value : Action σ α) s = .done value s := rfl

theorem bind_apply (first : Action σ α) (next : α → Action σ β) (s : σ) :
    (first >>= next) s =
      match first s with
      | .done value s => next value s
      | .failed error s => .failed error s
      | .fault fault => .fault fault := rfl

theorem id_map_eq (action : Action σ α) : id <$> action = action := by
  funext s
  show (match action s with
    | .done value s => Outcome.done value s
    | .failed error s => .failed error s
    | .fault fault => .fault fault) = action s
  cases action s <;> rfl

instance : LawfulMonad (Action σ) :=
  LawfulMonad.mk' (Action σ) id_map_eq (fun _ _ => rfl) fun first second third => by
    funext s
    simp only [bind_apply]
    cases first s <;> rfl

end Action

end QueryCompiler
