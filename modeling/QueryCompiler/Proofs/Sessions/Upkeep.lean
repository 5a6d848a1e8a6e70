/-
What holds of an assembly whoever writes it.

`Kept` is the invariant.  The open functions are listed from the inside out, each of them
opened after the one around it, and the last of them is the main function.  In every
function the depth does not exceed the greatest depth, the parameters are among the
locals, there is a line for every instruction or for none, and operands have the shapes
their opcodes carry.

What has been written stays where it is.  `Carries` says that every instruction of one
assembly is found at the same position of another, where at most its target has changed.

Both follow from what a single step does.  So they hold after any calls, in any order and
with any arguments, whether they got done or failed.
-/
import QueryCompiler.Proofs.Sessions.Steps

namespace QueryCompiler

/-! ### Functions -/

/-- The second instruction is the first one, maybe with another target. -/
inductive Instruction.Retargets : Instruction → Instruction → Prop
  | same (instruction : Instruction) : Retargets instruction instruction
  | aimed (op : Opcode) (target target' : UInt32) :
      Retargets ⟨op, .target target⟩ ⟨op, .target target'⟩

namespace Instruction.Retargets

variable {a b c : Instruction}

theorem trans (h : a.Retargets b) (h' : b.Retargets c) : a.Retargets c := by
  cases h with
  | same => exact h'
  | aimed op target target' =>
      cases h' with
      | same => exact .aimed op target target'
      | aimed _ _ target'' => exact .aimed op target target''

theorem aimedAt (h : a.target? ≠ none) (target : UInt32) : a.Retargets (a.aimedAt target) := by
  obtain ⟨op, operand⟩ := a
  cases operand with
  | target old => exact .aimed op old target
  | _ => exact absurd rfl h

theorem wellShaped (h : a.Retargets b) (ha : a.WellShaped) : b.WellShaped := by
  cases h with
  | same => exact ha
  | aimed => exact ha

end Instruction.Retargets

namespace Routine

/-- What holds of every function. -/
structure Kept (keepLines : Bool) (routine : Routine) : Prop where
  depth : routine.depth ≤ routine.maxDepth
  params : routine.params ≤ routine.locals
  lines : routine.lines.size = if keepLines then routine.code.size else 0
  shapes : routine.WellShaped

/-- Every instruction is still there, maybe with another target. -/
def Carries (routine routine' : Routine) : Prop :=
  ∀ (i : Nat) (instruction : Instruction), routine.code[i]? = some instruction →
    ∃ instruction', routine'.code[i]? = some instruction' ∧ instruction.Retargets instruction'

variable {keepLines : Bool} {routine routine' : Routine}

theorem start_kept (params : UInt16) : (start params).Kept keepLines where
  depth := Nat.le_refl 0
  params := UInt16.le_refl params
  lines := by cases keepLines <;> rfl
  shapes := fun _ hmem => absurd hmem (Array.not_mem_empty _)

theorem Carries.of_code (h : routine'.code = routine.code) : routine.Carries routine' :=
  fun _ instruction hi => ⟨instruction, by rw [h]; exact hi, .same instruction⟩

theorem Step.kept {line? : Option Nat} (hline : line?.isSome = keepLines)
    (h : routine.Step line? routine') (hkept : routine.Kept keepLines) :
    routine'.Kept keepLines := by
  cases h with
  | append hshape depth =>
      refine ⟨Nat.le_max_right _ _, hkept.params, ?_, ?_⟩
      · have hlines := hkept.lines
        subst hline
        cases line? with
        | none => exact hlines
        | some line => simpa [Routine.append] using hlines
      · intro instruction hmem
        rcases Array.mem_push.mp hmem with hold | rfl
        · exact hkept.shapes instruction hold
        · exact hshape
  | setDepth depth | land depth =>
      exact ⟨Nat.le_max_right _ _, hkept.params, hkept.lines, hkept.shapes⟩
  | reserve locals =>
      have hmore : routine.locals ≤ max routine.locals locals := by
        show routine.locals ≤ if routine.locals ≤ locals then locals else routine.locals
        split
        · assumption
        · exact UInt16.le_refl _
      exact ⟨hkept.depth, UInt16.le_trans hkept.params hmore, hkept.lines, hkept.shapes⟩

theorem Step.carries {line? : Option Nat} (h : routine.Step line? routine') :
    routine.Carries routine' := by
  cases h with
  | append hshape depth =>
      intro i instruction hi
      refine ⟨instruction, ?_, .same instruction⟩
      have hlt : i < routine.code.size := (Array.getElem?_eq_some_iff.mp hi).1
      show (routine.code.push _)[i]? = some instruction
      rw [Array.getElem?_push_lt hlt, ← Array.getElem?_eq_getElem hlt, hi]
  | setDepth | land | reserve => exact .of_code rfl

/-- Aiming a jump changes its target and nothing else. -/
theorem aim_retargets {index : Nat} {instruction : Instruction}
    (hfound : routine.code[index]? = some instruction) (hjump : instruction.target? ≠ none)
    (target : UInt32) {i : Nat} {old : Instruction} (hold : routine.code[i]? = some old) :
    ∃ new, (routine.aim index target).code[i]? = some new ∧ old.Retargets new := by
  have hget : (routine.aim index target).code[i]? =
      if index = i then routine.code[i]?.map (·.aimedAt target) else routine.code[i]? :=
    Array.getElem?_modify
  rw [hget, hold]
  by_cases hindex : index = i
  · subst hindex
    obtain rfl : old = instruction := Option.some.inj (hold.symm.trans hfound)
    exact ⟨old.aimedAt target, if_pos rfl, .aimedAt hjump target⟩
  · exact ⟨old, if_neg hindex, .same old⟩

theorem aim_carries {index : Nat} {instruction : Instruction}
    (hfound : routine.code[index]? = some instruction) (hjump : instruction.target? ≠ none)
    (target : UInt32) : routine.Carries (routine.aim index target) :=
  fun _ _ hold => aim_retargets hfound hjump target hold

theorem Kept.aim {index : Nat} {instruction : Instruction} (hkept : routine.Kept keepLines)
    (hfound : routine.code[index]? = some instruction) (hjump : instruction.target? ≠ none)
    (target : UInt32) : (routine.aim index target).Kept keepLines where
  depth := hkept.depth
  params := hkept.params
  lines := by
    rw [show (routine.aim index target).code.size = routine.code.size from Array.size_modify]
    exact hkept.lines
  shapes := by
    intro new hmem
    obtain ⟨i, hi⟩ := Array.mem_iff_getElem?.mp hmem
    have hlt : i < routine.code.size := by
      rw [← show (routine.aim index target).code.size = routine.code.size from Array.size_modify]
      exact (Array.getElem?_eq_some_iff.mp hi).1
    have hold : routine.code[i]? = some routine.code[i] := Array.getElem?_eq_getElem hlt
    obtain ⟨same, hsame, hretargets⟩ := aim_retargets hfound hjump target hold
    obtain rfl : new = same := Option.some.inj (hi.symm.trans hsame)
    exact hretargets.wellShaped (hkept.shapes _ (Array.getElem_mem hlt))

end Routine

/-! ### Programs -/

namespace Assembly

/-- What holds of every program under construction. -/
structure Kept (keepLines : Bool) (code : Assembly) : Prop where
  lines : code.keepLines = keepLines
  /-- The outermost of the open functions is the main function. -/
  main : code.opened.getLast? = some 0
  /-- The functions around an open function have been opened before it. -/
  ordered : code.opened.Pairwise (· > ·)
  inTable : ∀ function ∈ code.opened, function < code.routines.size
  functions : ∀ routine ∈ code.routines, routine.Kept keepLines

/-- Every instruction is still at its position, maybe with another target. -/
def Carries (code code' : Assembly) : Prop :=
  ∀ (position : Position) (instruction : Instruction),
    code.instruction? position = some instruction →
    ∃ instruction', code'.instruction? position = some instruction' ∧
      instruction.Retargets instruction'

variable {keepLines : Bool} {code code' code'' : Assembly}

theorem start_kept (keepLines : Bool) : (start keepLines).Kept keepLines where
  lines := rfl
  main := rfl
  ordered := List.pairwise_singleton _ 0
  inTable := by simp [start]
  functions := by
    intro routine hroutine
    obtain rfl : routine = Routine.start 0 := by simpa [start] using hroutine
    exact Routine.start_kept 0

theorem Carries.refl (code : Assembly) : code.Carries code :=
  fun _ instruction h => ⟨instruction, h, .same instruction⟩

theorem Carries.trans (h : code.Carries code') (h' : code'.Carries code'') :
    code.Carries code'' := by
  intro position instruction hfound
  obtain ⟨instruction', hfound', hretargets⟩ := h position instruction hfound
  obtain ⟨instruction'', hfound'', hretargets'⟩ := h' position instruction' hfound'
  exact ⟨instruction'', hfound'', hretargets.trans hretargets'⟩

/-- Functions that carry their code make a program that carries its own. -/
theorem Carries.of_routines (h : ∀ (f : Nat) (routine : Routine), code.routines[f]? = some routine →
    ∃ routine', code'.routines[f]? = some routine' ∧ routine.Carries routine') :
    code.Carries code' := by
  intro position instruction hfound
  obtain ⟨routine, hroutine, hcode⟩ := Option.bind_eq_some_iff.mp hfound
  obtain ⟨routine', hroutine', hcarries⟩ := h position.function routine hroutine
  obtain ⟨instruction', hcode', hretargets⟩ := hcarries position.index instruction hcode
  exact ⟨instruction', Option.bind_eq_some_iff.mpr ⟨routine', hroutine', hcode'⟩, hretargets⟩

/-- A change of one function that carries its code. -/
theorem Carries.modify {function : Nat} {change : Routine → Routine}
    (h : ∀ routine, code.routines[function]? = some routine → routine.Carries (change routine)) :
    code.Carries { code with routines := code.routines.modify function change } := by
  refine .of_routines fun f routine hroutine => ?_
  simp only [Array.getElem?_modify, hroutine, Option.map_some]
  by_cases hf : function = f
  · subst hf
    exact ⟨change routine, if_pos rfl, h routine hroutine⟩
  · exact ⟨routine, if_neg hf, .of_code rfl⟩

theorem Kept.modify {function : Nat} {change : Routine → Routine} (hkept : code.Kept keepLines)
    (h : ∀ routine, code.routines[function]? = some routine → routine.Kept keepLines →
      (change routine).Kept keepLines) :
    Kept keepLines { code with routines := code.routines.modify function change } where
  lines := hkept.lines
  main := hkept.main
  ordered := hkept.ordered
  inTable := by
    rw [Array.size_modify]
    exact hkept.inTable
  functions := by
    intro routine hroutine
    obtain ⟨f, hf⟩ := Array.mem_iff_getElem?.mp hroutine
    rw [Array.getElem?_modify] at hf
    split at hf
    · rename_i hfunction
      subst hfunction
      obtain ⟨old, hold, rfl⟩ := Option.map_eq_some_iff.mp hf
      exact h old hold (hkept.functions old (Array.mem_of_getElem? hold))
    · exact hkept.functions routine (Array.mem_of_getElem? hf)

/-- The jump that is found at a position stands in the function of the position. -/
theorem code_of_instruction? {position : Position} {instruction : Instruction}
    (hfound : code.instruction? position = some instruction) {routine : Routine}
    (hroutine : code.routines[position.function]? = some routine) :
    routine.code[position.index]? = some instruction := by
  rw [instruction?, hroutine] at hfound
  exact hfound

/-- **A step keeps what holds of every program under construction.** -/
theorem Step.kept (h : Step code code') (hkept : code.Kept keepLines) : code'.Kept keepLines := by
  cases h with
  | note => exact ⟨hkept.lines, hkept.main, hkept.ordered, hkept.inTable, hkept.functions⟩
  | revise hchange =>
      have hline : code.noted?.isSome = keepLines := by
        rw [noted?, hkept.lines]
        cases keepLines <;> rfl
      exact hkept.modify fun routine _ => (hchange routine).kept hline
  | aim target hfound hjump =>
      exact hkept.modify fun routine hroutine hold =>
        hold.aim (code_of_instruction? hfound hroutine) hjump target
  | openFunction params =>
      refine ⟨hkept.lines, ?_, List.pairwise_cons.mpr ⟨hkept.inTable, hkept.ordered⟩, ?_, ?_⟩
      · rw [List.getLast?_cons, hkept.main]
        rfl
      · intro function hfunction
        rw [Array.size_push]
        rcases List.mem_cons.mp hfunction with rfl | hold
        · exact Nat.lt_succ_self _
        · exact Nat.lt_succ_of_lt (hkept.inTable function hold)
      · intro routine hroutine
        rcases Array.mem_push.mp hroutine with hold | rfl
        · exact hkept.functions routine hold
        · exact Routine.start_kept params
  | @close id outer rest hopened =>
      obtain ⟨hlines, hmain, hordered, hinTable, hfunctions⟩ := hkept
      rw [hopened] at hmain hordered hinTable
      rw [List.getLast?_cons_cons] at hmain
      exact ⟨hlines, hmain, hordered.of_cons, fun function hfunction =>
        hinTable function (List.mem_cons_of_mem id hfunction), hfunctions⟩

/-- **A step leaves every instruction where it is.** -/
theorem Step.carries (h : Step code code') : code.Carries code' := by
  cases h with
  | note | close => exact .refl code
  | revise hchange => exact .modify fun routine _ => (hchange routine).carries
  | aim target hfound hjump =>
      exact .modify fun routine hroutine =>
        Routine.aim_carries (code_of_instruction? hfound hroutine) hjump target
  | openFunction params =>
      refine .of_routines fun f routine hroutine => ⟨routine, ?_, .of_code rfl⟩
      have hlt : f < code.routines.size := (Array.getElem?_eq_some_iff.mp hroutine).1
      show (code.routines.push _)[f]? = some routine
      rw [Array.getElem?_push_lt hlt, ← Array.getElem?_eq_getElem hlt, hroutine]

/-- **Steps keep what holds of every program under construction.** -/
theorem Steps.kept (h : Steps code code') (hkept : code.Kept keepLines) : code'.Kept keepLines :=
  h.keeps (fun _ _ hstep => hstep.kept) hkept

/-- **Steps leave every instruction where it is.** -/
theorem Steps.carries (h : Steps code code') : code.Carries code' :=
  h.keeps (fun _ _ hstep hcarries => hcarries.trans hstep.carries) (.refl code)

end Assembly

/-! ### Emissions -/

/-- The call gets done, has written an instruction and hands back its position. -/
inductive Operation.Emits (code : Assembly) :
    Operation → Position → Instruction → Assembly → Prop
  | emit {op : Opcode} {operand : Operand} {position : Position} {next : Assembly}
      (h : Assembly.emit op operand code = .done position next) :
      Emits code (.emit op operand) position ⟨op, operand⟩ next
  | pushConstant {value : Constant} {id : UInt32} {pooled : Assembly} {position : Position}
      {next : Assembly} (hid : Assembly.constant value code = .done id pooled)
      (h : Assembly.pushConstant value code = .done position next) :
      Emits code (.pushConstant value) position ⟨.loadConst, .const id⟩ next
  | jump {op : Opcode} {label : PendingJump} {next : Assembly}
      (h : Assembly.jump op code = .done label next) :
      Emits code (.jump op) label.position ⟨op, .unaimed⟩ next
  | jumpBack {target : Position} {depth : Nat} {position : Position} {next : Assembly}
      (h : Assembly.jumpBack target depth code = .done position next) :
      Emits code (.jumpBack target depth) position ⟨.jump, .target target.index.toUInt32⟩ next

namespace Assembly

variable {keepLines : Bool} {code next : Assembly} {position : Position} {instruction : Instruction}

theorem Kept.currentFunction_lt (hkept : code.Kept keepLines) :
    code.currentFunction < code.routines.size := by
  refine hkept.inTable code.currentFunction ?_
  unfold currentFunction
  cases hopened : code.opened with
  | nil =>
      have hmain := hkept.main
      rw [hopened] at hmain
      cases hmain
  | cons function outer => exact List.mem_cons_self

/-- An instruction stands at the position that its emission hands back. -/
theorem emit_instruction? {op : Opcode} {operand : Operand} (hkept : code.Kept keepLines)
    (h : emit op operand code = .done position next) :
    next.instruction? position = some ⟨op, operand⟩ := by
  have hroutine : code.routines[code.currentFunction]? = some code.current := by
    rw [current, Array.getD_eq_getD_getElem?, Array.getElem?_eq_getElem hkept.currentFunction_lt]
    rfl
  simp only [emit] at h
  split at h
  · cases h
  · split at h
    · cases h
    · split at h
      · cases h
      · obtain ⟨rfl, rfl⟩ := Outcome.done.inj h
        simp only [instruction?, modifyCurrent, Array.getElem?_modify]
        rw [show code.position.function = code.currentFunction from rfl, if_pos rfl, hroutine]
        exact Array.getElem?_push_size

theorem emit_of_jump {op : Opcode} {label : PendingJump} (h : jump op code = .done label next) :
    emit op .unaimed code = .done label.position next := by
  unfold jump at h
  split at h
  · cases h
  · split at h
    · cases h
    · split at h
      · rename_i hemit
        obtain ⟨rfl, rfl⟩ := Outcome.done.inj h
        exact hemit
      · cases h
      · cases h

theorem emit_of_jumpBack {target : Position} {depth : Nat}
    (h : jumpBack target depth code = .done position next) :
    emit .jump (.target target.index.toUInt32) code = .done position next := by
  unfold jumpBack at h
  split at h
  · cases h
  · split at h
    · cases h
    · exact h

/-- **What is written stands at the position that is handed back.** -/
theorem emits_instruction? {operation : Operation} (hkept : code.Kept keepLines)
    (h : operation.Emits code position instruction next) :
    next.instruction? position = some instruction := by
  cases h with
  | emit h => exact emit_instruction? hkept h
  | @pushConstant value id pooled _ _ hid h =>
      have hsteps : (constant value code).Leaves (Steps code) :=
        constant_steps value code (.refl code)
      rw [hid] at hsteps
      rw [pushConstant, Action.bind_apply, hid] at h
      exact emit_instruction? (hsteps.kept hkept) h
  | jump h => exact emit_instruction? hkept (emit_of_jump h)
  | jumpBack h => exact emit_instruction? hkept (emit_of_jumpBack h)

theorem emits_perform {operation : Operation} (h : operation.Emits code position instruction next) :
    operation.perform code = .done () next := by
  cases h with
  | emit h | pushConstant _ h | jump h | jumpBack h =>
      simp only [Operation.perform, Action.bind_apply, h]
      rfl

theorem after_append (code : Assembly) (calls calls' : List Operation) :
    code.after (calls ++ calls') = (code.after calls).bind (·.after calls') := by
  induction calls generalizing code with
  | nil => rfl
  | cons operation rest ih =>
      rw [List.cons_append, after, after]
      cases operation.perform code with
      | done | failed => exact ih _
      | fault => rfl

/-- **Whoever writes a program, it stays in order,** and an instruction that was written stays where
it was written, with the opcode and the operand it was written with; only targets may change, for
other targets. -/
theorem after_kept {calls : List Operation} {last : Assembly}
    (h : (start keepLines).after calls = some last) :
    last.Kept keepLines ∧
    ∀ (before rest : List Operation) (operation : Operation) (earlier next : Assembly)
      (position : Position) (instruction : Instruction),
      calls = before ++ operation :: rest → (start keepLines).after before = some earlier →
      operation.Emits earlier position instruction next →
      next.instruction? position = some instruction ∧
        ∃ instruction', last.instruction? position = some instruction' ∧
          instruction.Retargets instruction' := by
  have hkept := start_kept keepLines
  refine ⟨(after_steps h).kept hkept, ?_⟩
  intro before rest operation earlier next position instruction hcalls hbefore hemits
  have hnext : next.instruction? position = some instruction :=
    emits_instruction? ((after_steps hbefore).kept hkept) hemits
  have hrest : next.after rest = some last := by
    rw [hcalls, after_append, hbefore, Option.bind_some, after, emits_perform hemits] at h
    exact h
  exact ⟨hnext, (after_steps hrest).carries position instruction hnext⟩

/-- A jump over a function that is never finished properly: a loop that would leave it fails, the
main function cannot be closed, and the jump is aimed twice. -/
def clumsy : List Operation :=
  [.emit .pushTrue .none, .jump .jumpIfFalse, .moveToLine 3, .openFunction 2,
    .pushConstant (.int 7), .jumpBack ⟨0, 0⟩ 1, .closeFunction 3, .closeFunction 0,
    .aim ⟨0, 1⟩ 9, .aim ⟨0, 0⟩ 9, .land ⟨⟨0, 1⟩, 0⟩, .emit .pushNull .none]

theorem clumsy_kept : ∃ last, (start true).after clumsy = some last ∧ last.Kept true ∧
    last.instruction? ⟨0, 1⟩ = some ⟨.jumpIfFalse, .target 2⟩ ∧
    (Instruction.mk .jumpIfFalse .unaimed).Retargets ⟨.jumpIfFalse, .target 2⟩ := by
  have hview : ((start true).after clumsy).map (·.instruction? ⟨0, 1⟩) =
      some (some ⟨.jumpIfFalse, .target 2⟩) := by decide +kernel
  obtain ⟨last, hlast, hfound⟩ := Option.map_eq_some_iff.mp hview
  obtain ⟨hkept, hstays⟩ := after_kept hlast
  let earlier := (start true).modifyCurrent fun routine =>
    routine.append ⟨.pushTrue, .none⟩ (some 0) 1
  have hjump : jump .jumpIfFalse earlier = .done ⟨⟨0, 1⟩, 0⟩ (earlier.modifyCurrent fun routine =>
    routine.append ⟨.jumpIfFalse, .unaimed⟩ (some 0) 0) := rfl
  obtain ⟨-, instruction, hsame, hretargets⟩ := hstays [.emit .pushTrue .none] _ _ earlier _ _ _ rfl
    rfl (.jump hjump)
  obtain rfl := Option.some.inj (hfound.symm.trans hsame)
  exact ⟨last, hlast, hkept, hfound, hretargets⟩

end Assembly

end QueryCompiler
