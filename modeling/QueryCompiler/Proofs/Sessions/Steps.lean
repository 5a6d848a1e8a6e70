/-
What calls of an assembly come down to.

There are many calls, and some of them do several things before they fail or get done.
But whatever a call does is a sequence of a few kinds of `Step`: something is noted that
concerns no function, the function that is being written is revised, a jump somewhere is
aimed, a function is opened or closed.  In a function an instruction of the right shape is
added, or the depth or the number of locals is set.

What every step keeps is therefore kept by every call, also by one that fails half-way.
-/
import Mathlib.Logic.Relation
import QueryCompiler.Proofs.Encoding.Sessions

namespace QueryCompiler

/-- One way to go on with a function, where instructions are given a line if there is one. -/
inductive Routine.Step (line? : Option Nat) (routine : Routine) : Routine → Prop
  | append {instruction : Instruction} (hshape : instruction.WellShaped) (depth : Nat) :
      Step line? routine (routine.append instruction line? depth)
  | setDepth (depth : Nat) : Step line? routine (routine.setDepth depth)
  | land (depth : Nat) : Step line? routine (routine.land depth)
  | reserve (locals : UInt16) : Step line? routine (routine.reserve locals)

namespace Assembly

/-- One way to go on with a program under construction. -/
inductive Step (code : Assembly) : Assembly → Prop
  | note (pool : Pool) (regions : Array GuardedRegion) (line : Nat) :
      Step code { code with pool, regions, line }
  | revise {change : Routine → Routine}
      (h : ∀ routine : Routine, routine.Step code.noted? (change routine)) :
      Step code (code.modifyCurrent change)
  | aim {position : Position} {instruction : Instruction} (target : UInt32)
      (hfound : code.instruction? position = some instruction)
      (hjump : instruction.target? ≠ none) :
      Step code { code with
        routines := code.routines.modify position.function fun routine =>
          routine.aim position.index target }
  | openFunction (params : UInt16) :
      Step code { code with
        routines := code.routines.push (Routine.start params)
        opened := code.routines.size :: code.opened }
  | close {id outer : Nat} {rest : List Nat} (hopened : code.opened = id :: outer :: rest) :
      Step code { code with opened := outer :: rest }

/-- Some steps, one after the other. -/
def Steps : Assembly → Assembly → Prop := Relation.ReflTransGen Step

theorem Steps.refl (code : Assembly) : Steps code code := Relation.ReflTransGen.refl

theorem Steps.tail {code code₁ code₂ : Assembly} (h : Steps code code₁) (h' : Step code₁ code₂) :
    Steps code code₂ := Relation.ReflTransGen.tail h h'

/-- **What every step keeps is kept by steps.** -/
theorem Steps.keeps {P : Assembly → Prop} (hstep : ∀ code code', Step code code' → P code → P code')
    {code code' : Assembly} (h : Steps code code') (hP : P code) : P code' := by
  induction h with
  | refl => exact hP
  | tail _ hlast ih => exact hstep _ _ hlast ih

/-! ### Calls -/

variable {base : Assembly}

theorem emit_steps (op : Opcode) (operand : Operand) :
    Action.Keeps (Steps base) (emit op operand) := by
  intro code h
  unfold emit
  dsimp only
  split
  · trivial
  · rename_i hshape
    have hsame : operand.shape = op.shape := Decidable.not_not.mp hshape
    have hshape : Instruction.WellShaped ⟨op, operand⟩ := hsame
    split
    · trivial
    · split
      · trivial
      · exact h.tail (.revise fun _ => .append hshape _)

theorem constant_steps (value : Constant) : Action.Keeps (Steps base) (constant value) := by
  intro code h
  unfold constant
  cases code.pool.add value with
  | ok added => exact h.tail (.note added.2 code.regions code.line)
  | error error => exact h

theorem pushConstant_steps (value : Constant) : Action.Keeps (Steps base) (pushConstant value) :=
  (constant_steps value).bind fun _ => emit_steps _ _

theorem jump_steps (op : Opcode) : Action.Keeps (Steps base) (jump op) := by
  intro code h
  unfold jump
  split
  · trivial
  · split
    · trivial
    · have hemit := emit_steps op .unaimed code h
      cases hdone : emit op .unaimed code <;> rw [hdone] at hemit <;> exact hemit

theorem jumpBack_steps (target : Position) (depth : Nat) :
    Action.Keeps (Steps base) (jumpBack target depth) := by
  intro code h
  unfold jumpBack
  split
  · exact h
  · split
    · exact h
    · exact emit_steps _ _ code h

theorem aim_steps (position : Position) (target : UInt32) :
    Action.Keeps (Steps base) (aim position target) := by
  intro code h
  unfold aim
  split
  · exact h
  · rename_i instruction hfound
    split
    · exact h
    · rename_i hjump
      exact h.tail (.aim target hfound (by rw [hjump]; exact Option.some_ne_none _))

theorem join_steps (label : PendingJump) : Action.Keeps (Steps base) (join label) := by
  intro code h
  unfold join
  split
  · exact h
  · exact h.tail (.revise fun _ => .land _)

theorem land_steps (label : PendingJump) : Action.Keeps (Steps base) (land label) := by
  intro code h
  unfold land
  dsimp only
  split
  · exact h
  · exact (aim_steps _ _).bind (fun _ => join_steps label) code h

theorem reserveLocals_steps (locals : UInt16) (code : Assembly) (h : Steps base code) :
    Steps base (code.reserveLocals locals) :=
  h.tail (.revise fun _ => .reserve locals)

theorem closeFunction_steps (locals : UInt16) :
    Action.Keeps (Steps base) (closeFunction locals) := by
  intro code h
  unfold closeFunction
  split
  · rename_i id outer rest hopened
    exact (reserveLocals_steps locals code h).tail (.close hopened)
  · exact h

/-- **Done or failed, a call has taken steps.** -/
theorem perform_steps (operation : Operation) : Action.Keeps (Steps base) operation.perform := by
  cases operation with
  | emit op operand => exact (emit_steps op operand).bind fun _ => .pure ()
  | pushConstant value => exact (pushConstant_steps value).bind fun _ => .pure ()
  | jump op => exact (jump_steps op).bind fun _ => .pure ()
  | jumpBack target depth => exact (jumpBack_steps target depth).bind fun _ => .pure ()
  | aim position target => exact aim_steps position target
  | land label => exact land_steps label
  | landAll labels => exact Action.Keeps.forM land_steps labels
  | constant value => exact (constant_steps value).bind fun _ => .pure ()
  | name text => exact (constant_steps _).bind fun _ => .pure ()
  | openFunction params =>
      have hopen : Action.Keeps (Steps base) (openFunction params) :=
        fun code h => h.tail (.openFunction params)
      exact hopen.bind fun _ => .pure ()
  | closeFunction locals => exact (closeFunction_steps locals).bind fun _ => .pure ()
  | reserveLocals locals => exact .modify (reserveLocals_steps locals)
  | resetDepth depth => exact .modify fun code h => h.tail (.revise fun _ => .setDepth depth)
  | moveToLine line => exact .modify fun code h => h.tail (.note code.pool code.regions line)
  | addRegion region =>
      exact .modify fun code h => h.tail (.note code.pool (code.regions.push region) code.line)

/-- Calls take steps, and nothing but steps. -/
theorem after_steps {calls : List Operation} {code last : Assembly}
    (h : code.after calls = some last) : Steps code last :=
  after_keeps perform_steps (.refl code) h

end Assembly

end QueryCompiler
