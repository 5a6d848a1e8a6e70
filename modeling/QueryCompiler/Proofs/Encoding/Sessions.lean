/-
Programs under construction in anybody's hands.

An assembly is not only written by the rules: whoever has one can write, jump, land,
open and close functions in any order, and go on after an operation has failed.  An
`Operation` is one such call, and an assembly is `Reached` if some sequence of calls
leads to it without a fault.

Whatever the calls were, every instruction has an operand of the shape its opcode
carries.  It is checked when the instruction is written, and afterwards only targets
change, for other targets.
-/
import QueryCompiler.Assembly.Basic

namespace QueryCompiler

/-- The state that is left, if there is one, has a property. -/
def Outcome.Leaves {σ α : Type} (P : σ → Prop) : Outcome σ α → Prop
  | done _ s => P s
  | failed _ s => P s
  | fault _ => True

namespace Action

variable {σ α β : Type} {P : σ → Prop}

/-- Done or failed, the action leaves a state of which `P` holds, if it was given one. -/
def Keeps (P : σ → Prop) (action : Action σ α) : Prop :=
  ∀ s, P s → (action s).Leaves P

theorem Keeps.pure (value : α) : Keeps P (Pure.pure value : Action σ α) :=
  fun _ hs => hs

theorem Keeps.modify {change : σ → σ} (h : ∀ s, P s → P (change s)) :
    Keeps P (Action.modify change) :=
  fun s hs => h s hs

theorem Keeps.bind {first : Action σ α} {next : α → Action σ β} (hfirst : Keeps P first)
    (hnext : ∀ x, Keeps P (next x)) : Keeps P (first >>= next) := by
  intro s hs
  have hkeeps := hfirst s hs
  rw [bind_apply]
  cases hdone : first s with
  | done x t =>
      rw [hdone] at hkeeps
      exact hnext x t hkeeps
  | failed error t =>
      rw [hdone] at hkeeps
      exact hkeeps
  | fault fault => trivial

theorem Keeps.forM {each : β → Action σ Unit} (h : ∀ x, Keeps P (each x)) (xs : List β) :
    Keeps P (xs.forM each) := by
  induction xs with
  | nil => exact Keeps.pure ()
  | cons x rest ih => exact Keeps.bind (h x) fun _ => ih

end Action

/-! ### Calls -/

/-- A call of an assembly. -/
inductive Operation where
  | emit (op : Opcode) (operand : Operand)
  | pushConstant (value : Constant)
  | jump (op : Opcode)
  | jumpBack (target : Position) (depth : Nat)
  | aim (position : Position) (target : UInt32)
  | land (label : PendingJump)
  | landAll (labels : List PendingJump)
  | constant (value : Constant)
  | name (text : String)
  | openFunction (params : UInt16)
  | closeFunction (locals : UInt16)
  | reserveLocals (locals : UInt16)
  | resetDepth (depth : Nat)
  | moveToLine (line : Nat)
  | addRegion (region : GuardedRegion)

/-- Carry out a call, whatever it hands back. -/
def Operation.perform : Operation → Action Assembly Unit
  | emit op operand => do let _ ← Assembly.emit op operand
  | pushConstant value => do let _ ← Assembly.pushConstant value
  | jump op => do let _ ← Assembly.jump op
  | jumpBack target depth => do let _ ← Assembly.jumpBack target depth
  | aim position target => Assembly.aim position target
  | land label => Assembly.land label
  | landAll labels => Assembly.landAll labels
  | constant value => do let _ ← Assembly.constant value
  | name text => do let _ ← Assembly.name text
  | openFunction params => do let _ ← Assembly.openFunction params
  | closeFunction locals => do let _ ← Assembly.closeFunction locals
  | reserveLocals locals => Action.modify fun code => code.reserveLocals locals
  | resetDepth depth => Action.modify fun code => code.resetDepth depth
  | moveToLine line => Action.modify fun code => code.moveToLine line
  | addRegion region => Action.modify fun code => code.addRegion region

namespace Assembly

/-- The assembly after some calls, unless one of them runs into a fault.  A call that failed leaves
the assembly as far as it got, and the others follow all the same. -/
def after (assembly : Assembly) : List Operation → Option Assembly
  | [] => some assembly
  | operation :: rest =>
    match operation.perform assembly with
    | .done () next => next.after rest
    | .failed _ next => next.after rest
    | .fault _ => none

/-- Some calls lead from an empty program to the assembly. -/
def Reached (assembly : Assembly) : Prop :=
  ∃ keepLines calls, (start keepLines).after calls = some assembly

/-- What every call keeps is kept by any number of them. -/
theorem after_keeps {P : Assembly → Prop}
    (hcall : ∀ operation : Operation, Action.Keeps P operation.perform) {calls : List Operation}
    {assembly last : Assembly} (hfirst : P assembly) (h : assembly.after calls = some last) :
    P last := by
  induction calls generalizing assembly with
  | nil =>
      obtain rfl := Option.some.inj h
      exact hfirst
  | cons operation rest ih =>
      have hkept := hcall operation assembly hfirst
      rw [after] at h
      cases hperform : operation.perform assembly with
      | done u next =>
          rw [hperform] at hkept h
          exact ih hkept h
      | failed error next =>
          rw [hperform] at hkept h
          exact ih hkept h
      | fault fault =>
          rw [hperform] at h
          cases h

end Assembly

/-! ### The shapes of operands -/

/-- The operand has the shape that the opcode carries. -/
def Instruction.WellShaped (instruction : Instruction) : Prop :=
  instruction.operand.shape = instruction.op.shape

def Routine.WellShaped (routine : Routine) : Prop :=
  ∀ instruction ∈ routine.code, instruction.WellShaped

theorem forall_mem_modify {α : Type} {P : α → Prop} {xs : Array α} {i : Nat} {f : α → α}
    (hxs : ∀ x ∈ xs, P x) (hf : ∀ x, P x → P (f x)) : ∀ x ∈ xs.modify i f, P x := by
  intro x hx
  obtain ⟨j, hj⟩ := Array.mem_iff_getElem?.mp hx
  rw [Array.getElem?_modify] at hj
  split at hj
  · obtain ⟨y, hy, rfl⟩ := Option.map_eq_some_iff.mp hj
    exact hf y (hxs y (Array.mem_of_getElem? hy))
  · exact hxs x (Array.mem_of_getElem? hj)

namespace Assembly

def WellShaped (assembly : Assembly) : Prop :=
  ∀ routine ∈ assembly.routines, routine.WellShaped

theorem WellShaped.modifyCurrent {assembly : Assembly} {change : Routine → Routine}
    (h : assembly.WellShaped)
    (hchange : ∀ routine : Routine, routine.WellShaped → (change routine).WellShaped) :
    (assembly.modifyCurrent change).WellShaped :=
  forall_mem_modify h hchange

theorem emit_keeps_shapes (op : Opcode) (operand : Operand) :
    Action.Keeps WellShaped (emit op operand) := by
  intro assembly h
  simp only [emit]
  split
  · trivial
  · rename_i hshape
    split
    · trivial
    · split
      · trivial
      · refine h.modifyCurrent ?_
        intro routine hroutine instruction hmem
        rcases Array.mem_push.mp hmem with hold | rfl
        · exact hroutine instruction hold
        · have hsame : operand.shape = op.shape := Decidable.not_not.mp hshape
          exact hsame

theorem constant_keeps_shapes (value : Constant) : Action.Keeps WellShaped (constant value) := by
  intro assembly h
  simp only [constant]
  cases assembly.pool.add value <;> exact h

theorem jump_keeps_shapes (op : Opcode) : Action.Keeps WellShaped (jump op) := by
  intro assembly h
  simp only [jump]
  split
  · trivial
  · split
    · trivial
    · have hemit := emit_keeps_shapes op .unaimed assembly h
      cases hdone : emit op .unaimed assembly with
      | done position next =>
          rw [hdone] at hemit
          exact hemit
      | failed error next =>
          rw [hdone] at hemit
          exact hemit
      | fault fault => trivial

theorem jumpBack_keeps_shapes (target : Position) (depth : Nat) :
    Action.Keeps WellShaped (jumpBack target depth) := by
  intro assembly h
  simp only [jumpBack]
  split
  · exact h
  · split
    · exact h
    · exact emit_keeps_shapes .jump _ assembly h

/-- Only an instruction with a target is given another. -/
theorem aim_keeps_shapes (position : Position) (target : UInt32) :
    Action.Keeps WellShaped (aim position target) := by
  intro assembly h
  simp only [aim]
  split
  · exact h
  · rename_i instruction hfound
    split
    · exact h
    · rename_i index hindex
      have hshape : instruction.op.shape = .target := by
        obtain ⟨routine, hroutine, hcode⟩ := Option.bind_eq_some_iff.mp hfound
        have hold := h routine (Array.mem_of_getElem? hroutine) instruction
          (Array.mem_of_getElem? hcode)
        obtain ⟨op, operand⟩ := instruction
        cases operand <;> first | exact hold.symm | cases hindex
      intro routine hroutine
      obtain ⟨f, hf⟩ := Array.mem_iff_getElem?.mp hroutine
      rw [Array.getElem?_modify] at hf
      split at hf
      · rename_i heq
        obtain ⟨old, hold, rfl⟩ := Option.map_eq_some_iff.mp hf
        intro other hother
        obtain ⟨i, hi⟩ := Array.mem_iff_getElem?.mp hother
        simp only [Routine.aim, Array.getElem?_modify] at hi
        split at hi
        · rename_i hplace
          obtain ⟨same, hsame, rfl⟩ := Option.map_eq_some_iff.mp hi
          have hinstruction : same = instruction := by
            rw [instruction?, heq, hold, Option.bind_some, hplace, hsame] at hfound
            exact Option.some.inj hfound
          rw [hinstruction]
          exact hshape.symm
        · exact h old (Array.mem_of_getElem? hold) other (Array.mem_of_getElem? hi)
      · exact h routine (Array.mem_of_getElem? hf)

theorem join_keeps_shapes (label : PendingJump) : Action.Keeps WellShaped (join label) := by
  intro assembly h
  simp only [join]
  split
  · exact h
  · exact h.modifyCurrent fun _ hroutine => hroutine

theorem land_keeps_shapes (label : PendingJump) : Action.Keeps WellShaped (land label) := by
  intro assembly h
  simp only [land]
  split
  · exact h
  · exact (aim_keeps_shapes _ _).bind (fun _ => join_keeps_shapes label) assembly h

theorem openFunction_keeps_shapes (params : UInt16) :
    Action.Keeps WellShaped (openFunction params) := by
  intro assembly h routine hroutine
  rcases Array.mem_push.mp hroutine with hold | rfl
  · exact h routine hold
  · intro instruction hmem
    exact absurd hmem (Array.not_mem_empty instruction)

theorem closeFunction_keeps_shapes (locals : UInt16) :
    Action.Keeps WellShaped (closeFunction locals) := by
  intro assembly h
  have hreserved : (assembly.reserveLocals locals).WellShaped :=
    h.modifyCurrent fun _ hroutine => hroutine
  unfold closeFunction
  cases assembly.opened with
  | nil => exact h
  | cons id outer =>
      cases outer with
      | nil => exact h
      | cons next rest => exact hreserved

theorem perform_keeps_shapes (operation : Operation) :
    Action.Keeps WellShaped operation.perform := by
  cases operation with
  | emit op operand => exact (emit_keeps_shapes op operand).bind fun _ => .pure ()
  | pushConstant value =>
      have hpush : Action.Keeps WellShaped (pushConstant value) :=
        (constant_keeps_shapes value).bind fun _ => emit_keeps_shapes _ _
      exact hpush.bind fun _ => .pure ()
  | jump op => exact (jump_keeps_shapes op).bind fun _ => .pure ()
  | jumpBack target depth => exact (jumpBack_keeps_shapes target depth).bind fun _ => .pure ()
  | aim position target => exact aim_keeps_shapes position target
  | land label => exact land_keeps_shapes label
  | landAll labels => exact Action.Keeps.forM land_keeps_shapes labels
  | constant value => exact (constant_keeps_shapes value).bind fun _ => .pure ()
  | name text => exact (constant_keeps_shapes _).bind fun _ => .pure ()
  | openFunction params => exact (openFunction_keeps_shapes params).bind fun _ => .pure ()
  | closeFunction locals => exact (closeFunction_keeps_shapes locals).bind fun _ => .pure ()
  | reserveLocals | resetDepth =>
      exact .modify fun _ h => h.modifyCurrent fun _ hroutine => hroutine
  | moveToLine | addRegion => exact .modify fun _ h => h

/-- **In every assembly that calls lead to, operands have the shapes their opcodes carry.** -/
theorem Reached.wellShaped {assembly : Assembly} (h : assembly.Reached) : assembly.WellShaped := by
  obtain ⟨keepLines, calls, hcalls⟩ := h
  refine after_keeps perform_keeps_shapes ?_ hcalls
  intro routine hroutine instruction hmem
  obtain rfl : routine = Routine.start 0 := by simpa [start] using hroutine
  exact absurd hmem (Array.not_mem_empty instruction)

end Assembly

end QueryCompiler
