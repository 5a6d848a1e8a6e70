/-
Assemblies that differ in source lines alone.

A `Relining` changes what an assembly has noted of source lines: the lines of the
instructions there are, the line of the next one, and whether lines are kept at all.  The
operations on an assembly do not look at any of this.  What they do to an assembly they
do to a relined one, and they fail with the same errors.  Such operations are `Blind`.

That an action does to a changed state what another does to the state itself is a notion
of its own.  The first then `Shows` the second, and chains of such actions do too.
-/
import QueryCompiler.Assembly.Basic
import QueryCompiler.Proofs.Parallel.Alteration

namespace QueryCompiler

/-- The outcome with another state and another error. -/
def Outcome.seen {σ τ α : Type} (state : σ → τ) (error : CompileError → CompileError) :
    Outcome σ α → Outcome τ α
  | .done x s => .done x (state s)
  | .failed cause s => .failed (error cause) (state s)
  | .fault cause => .fault cause

/-- The second action does to the view of a state what the first does to the state. -/
def Action.Shows {σ α : Type} (state : σ → σ) (error : CompileError → CompileError)
    (first second : Action σ α) : Prop :=
  ∀ s, second (state s) = (first s).seen state error

namespace Action.Shows

variable {σ α β : Type} {state : σ → σ} {error : CompileError → CompileError}

theorem pure (x : α) : Shows state error (Pure.pure x) (Pure.pure x) :=
  fun _ => rfl

theorem bind {first first' : Action σ α} {next next' : α → Action σ β}
    (hfirst : Shows state error first first') (hnext : ∀ x, Shows state error (next x) (next' x)) :
    Shows state error (first >>= next) (first' >>= next') := by
  intro s
  simp only [bind_apply, hfirst s]
  cases first s with
  | done x t => exact hnext x t
  | failed cause t => rfl
  | fault fault => rfl

theorem fail (cause : CompileError) :
    Shows state error (Action.fail cause : Action σ α) (Action.fail (error cause)) :=
  fun _ => rfl

theorem raise (fault : Fault) :
    Shows state error (Action.raise fault : Action σ α) (Action.raise fault) :=
  fun _ => rfl

theorem ofWord (result : Except Fault α) :
    Shows state error (Action.ofWord result) (Action.ofWord result) := by
  cases result with
  | ok x => exact pure x
  | error fault => exact raise fault

theorem read {view : σ → α} (h : ∀ s, view (state s) = view s) :
    Shows state error (Action.read view) (Action.read view) := by
  intro s
  rw [Action.read, Action.read, h]
  rfl

theorem modify {change change' : σ → σ} (h : ∀ s, change' (state s) = state (change s)) :
    Shows state error (Action.modify change) (Action.modify change') :=
  fun s => congrArg (Outcome.done ()) (h s)

theorem ite {p : Prop} [Decidable p] {first first' second second' : Action σ α}
    (hfirst : Shows state error first first') (hsecond : Shows state error second second') :
    Shows state error (if p then first else second) (if p then first' else second') := by
  split
  · exact hfirst
  · exact hsecond

end Action.Shows

/-- What becomes of the source lines of an assembly. -/
structure Relining where
  /-- What becomes of the lines of a function. -/
  lines : Array Nat → Array Nat
  /-- What becomes of the line of the next instruction. -/
  line : Nat → Nat
  /-- Whether lines are kept, given whether they were. -/
  keepLines : Bool → Bool
  lines_empty : lines #[] = #[]
  /-- It makes no difference whether lines are changed before or after another one is noted. -/
  lines_noted : ∀ (noted : Array Nat) (next : Nat) (keep : Bool),
    (if keepLines keep then (lines noted).push (line next) else lines noted) =
      lines (if keep then noted.push next else noted)

namespace Relining

variable {r : Relining}

/-- Every line becomes another. -/
def ofLine (line : Nat → Nat) : Relining where
  lines := Array.map line
  line := line
  keepLines := id
  lines_empty := Array.map_empty
  lines_noted noted next keep := by cases keep <;> simp

def routine (r : Relining) (routine : Routine) : Routine :=
  { routine with lines := r.lines routine.lines }

def code (r : Relining) (code : Assembly) : Assembly :=
  { code with
    routines := code.routines.map r.routine
    keepLines := r.keepLines code.keepLines
    line := r.line code.line }

/-! ### What can be seen of a relined assembly -/

theorem routine_start (params : UInt16) : r.routine (.start params) = .start params := by
  simp only [routine, Routine.start, r.lines_empty]

theorem code_current (code : Assembly) : (r.code code).current = r.routine code.current := by
  show ((code.routines.map r.routine).getD code.currentFunction (Routine.start 0)) = _
  rw [Assembly.current, Array.getD_eq_getD_getElem?, Array.getD_eq_getD_getElem?,
    Array.getElem?_map]
  cases code.routines[code.currentFunction]? with
  | none => exact (routine_start 0).symm
  | some routine => rfl

theorem code_depth (code : Assembly) : (r.code code).depth = code.depth := by
  rw [Assembly.depth, code_current]
  rfl

theorem code_reachable (code : Assembly) : (r.code code).reachable = code.reachable := by
  rw [Assembly.reachable, code_current]
  rfl

theorem code_position (code : Assembly) : (r.code code).position = code.position := by
  rw [Assembly.position, Assembly.length, code_current]
  rfl

theorem code_instruction (code : Assembly) (position : Position) :
    (r.code code).instruction? position = code.instruction? position := by
  unfold Assembly.instruction?
  show ((code.routines.map r.routine)[position.function]?.bind _) = _
  rw [Array.getElem?_map]
  cases code.routines[position.function]? <;> rfl

/-! ### Changes to a relined assembly -/

/-- What is done to a routine is done to the relined one. -/
theorem code_modify {change change' : Routine → Routine}
    (h : ∀ routine, change' (r.routine routine) = r.routine (change routine)) (code : Assembly)
    (function : Nat) :
    { r.code code with routines := (r.code code).routines.modify function change' } =
      r.code { code with routines := code.routines.modify function change } := by
  have hmap : (code.routines.map r.routine).modify function change' =
      (code.routines.modify function change).map r.routine := by
    refine Array.ext_getElem? fun i => ?_
    simp only [Array.getElem?_modify, Array.getElem?_map]
    split
    · cases code.routines[i]? with
      | none => rfl
      | some routine => exact congrArg some (h routine)
    · rfl
  exact congrArg (fun routines => Assembly.mk routines _ _ _ _ _) hmap

theorem code_modifyCurrent {change change' : Routine → Routine}
    (h : ∀ routine, change' (r.routine routine) = r.routine (change routine)) (code : Assembly) :
    (r.code code).modifyCurrent change' = r.code (code.modifyCurrent change) :=
  code_modify h code code.currentFunction

theorem code_reserveLocals (locals : UInt16) (code : Assembly) :
    (r.code code).reserveLocals locals = r.code (code.reserveLocals locals) := by
  refine code_modifyCurrent ?_ code
  exact fun _ => rfl

theorem code_resetDepth (depth : Nat) (code : Assembly) :
    (r.code code).resetDepth depth = r.code (code.resetDepth depth) := by
  refine code_modifyCurrent ?_ code
  exact fun _ => rfl

theorem routine_append (instruction : Instruction) (code : Assembly) (depth : Nat)
    (routine : Routine) :
    (r.routine routine).append instruction (r.code code).noted? depth =
      r.routine (routine.append instruction code.noted? depth) := by
  have hlines := r.lines_noted routine.lines code.line code.keepLines
  unfold Assembly.noted? Relining.code Relining.routine Routine.append
  cases hkeep : code.keepLines <;> cases hkept : r.keepLines code.keepLines <;> simp_all

/-! ### Programs -/

def program (r : Relining) (program : Program) : Program :=
  { program with
    functions := program.functions.map fun function =>
      { function with lines := r.lines function.lines } }

theorem toProgram_relined (code : Assembly) :
    (r.code code).toProgram = r.program code.toProgram := by
  have hfunctions : (code.routines.map r.routine).mapIdx Assembly.finish =
      (code.routines.mapIdx Assembly.finish).map fun function =>
        { function with lines := r.lines function.lines } := by
    refine Array.ext_getElem? fun g => ?_
    simp only [Array.getElem?_mapIdx, Array.getElem?_map, Option.map_map]
    rfl
  exact congrArg (fun functions => Program.mk functions _ _) hfunctions

end Relining

/-! ### Operations -/

namespace Assembly

open Relining

/-- The action does to a relined assembly what it does to the assembly.  Its errors are not about
the query either. -/
def Blind {α : Type} (action : Action Assembly α) : Prop :=
  ∀ (r : Relining) (a : Alteration), Action.Shows r.code (CompileError.alter a) action action

namespace Blind

theorem depth : Blind (Action.read Assembly.depth) :=
  fun _ _ => .read code_depth

theorem position : Blind (Action.read Assembly.position) :=
  fun _ _ => .read code_position

theorem reachable : Blind (Action.read Assembly.reachable) :=
  fun _ _ => .read code_reachable

theorem emit (op : Opcode) (operand : Operand) : Blind (Assembly.emit op operand) := by
  intro r a code
  simp only [Assembly.emit, code_depth, code_reachable, code_position]
  split
  · rfl
  · split
    · rfl
    · split
      · rfl
      · exact congrArg (Outcome.done _)
          (code_modifyCurrent (routine_append ⟨op, operand⟩ code _) code)

theorem constant (value : Constant) : Blind (Assembly.constant value) := by
  intro r a code
  have hpool : (r.code code).pool = code.pool := rfl
  simp only [Assembly.constant, hpool]
  cases hadd : code.pool.add value with
  | ok result => rfl
  | error error =>
      obtain ⟨-, -, rfl⟩ := Pool.of_add_error hadd
      rfl

theorem pushConstant (value : Constant) : Blind (Assembly.pushConstant value) :=
  fun r a => .bind (constant value r a) fun _ => emit _ _ r a

theorem jump (op : Opcode) : Blind (Assembly.jump op) := by
  intro r a code
  simp only [Assembly.jump, code_depth]
  split
  · rfl
  · split
    · rfl
    · rw [emit op .unaimed r a code]
      cases Assembly.emit op .unaimed code <;> rfl

theorem jumpBack (target : Position) (depth : Nat) : Blind (Assembly.jumpBack target depth) := by
  intro r a code
  have hcurrent : (r.code code).currentFunction = code.currentFunction := rfl
  simp only [Assembly.jumpBack, code_depth, code_reachable, hcurrent]
  split
  · rfl
  · split
    · rfl
    · exact emit .jump _ r a code

theorem aim (position : Position) (target : UInt32) : Blind (Assembly.aim position target) := by
  intro r a code
  simp only [Assembly.aim, code_instruction]
  cases code.instruction? position with
  | none => rfl
  | some instruction =>
      cases htarget : instruction.target? with
      | none => simp only [htarget]; rfl
      | some word =>
          simp only [htarget]
          refine congrArg (Outcome.done ()) (code_modify ?_ code position.function)
          exact fun _ => rfl

theorem join (label : PendingJump) : Blind (Assembly.join label) := by
  intro r a code
  simp only [Assembly.join, code_depth, code_reachable, code_position]
  split
  · rfl
  · refine congrArg (Outcome.done ()) (code_modifyCurrent ?_ code)
    exact fun _ => rfl

theorem land (label : PendingJump) : Blind (Assembly.land label) := by
  intro r a code
  simp only [Assembly.land, code_position]
  split
  · rfl
  · exact Action.Shows.bind (aim _ _ r a) (fun _ => join label r a) code

theorem resetDepth (depth : Nat) : Blind (Action.modify fun code => code.resetDepth depth) :=
  fun _ _ => .modify (code_resetDepth depth)

theorem reserveLocals (locals : UInt16) :
    Blind (Action.modify fun code => code.reserveLocals locals) :=
  fun _ _ => .modify (code_reserveLocals locals)

theorem addRegion (region : GuardedRegion) :
    Blind (Action.modify fun code => code.addRegion region) :=
  fun _ _ => .modify fun _ => rfl

theorem openFunction (params : UInt16) : Blind (Assembly.openFunction params) := by
  intro r a code
  simp only [Assembly.openFunction, Outcome.seen, Relining.code, Array.size_map, Array.map_push,
    routine_start]

theorem closeFunction (locals : UInt16) : Blind (Assembly.closeFunction locals) := by
  intro r a code
  have hopened : (r.code code).opened = code.opened := rfl
  unfold Assembly.closeFunction
  rw [hopened, code_reserveLocals]
  cases code.opened with
  | nil => rfl
  | cons id outer => cases outer <;> rfl

end Blind

end Assembly

end QueryCompiler
