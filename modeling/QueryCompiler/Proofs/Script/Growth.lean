/-
Code that only grows.

What had been written when a lowering started is never touched again: functions get
longer at their ends, and so do the constants and the guarded regions.  `Keeps` says so,
and it holds even of what a failure leaves behind.

The one thing that changes behind the end of a function is the target of a jump.  As
long as things go well it is known which jumps those can be.  `Pends base labels code`
says that since `base` code was added in which just the jumps of `labels` have no target
yet, and that every other target that was written is a place of its function.  Adding a
jump adds to the labels, and letting one land takes it off.
-/
import QueryCompiler.Proofs.Order.Openings

namespace QueryCompiler

/-- The target of the instruction, if it has one, is among the first places of a function or just
behind them. -/
def Instruction.Aimed (length : Nat) (instruction : Instruction) : Prop :=
  ∀ word, instruction.operand = .target word → ∃ target ≤ length, word = target.toUInt32

theorem Instruction.Aimed.mono {instruction : Instruction} {length longer : Nat}
    (h : instruction.Aimed length) (hle : length ≤ longer) : instruction.Aimed longer := by
  intro word hword
  obtain ⟨target, htarget, hw⟩ := h word hword
  exact ⟨target, Nat.le_trans htarget hle, hw⟩

/-- An operand of another shape has no target. -/
theorem Instruction.aimed_of_shape {op : Opcode} {operand : Operand} {length : Nat}
    (h : operand.shape ≠ .target) : (Instruction.mk op operand).Aimed length := by
  rintro word rfl
  exact absurd rfl h

/-- In a function of less than a word of instructions a jump with a target is told from one that
waits. -/
theorem Instruction.Aimed.ne_unaimed {instruction : Instruction} {length : Nat}
    (h : instruction.Aimed length) (hshort : length < 4294967295) :
    instruction.operand ≠ .unaimed := by
  intro hunaimed
  obtain ⟨target, htarget, hword⟩ := h _ hunaimed
  have hvalue := congrArg UInt32.toNat hword
  rw [show target.toUInt32.toNat = target from Nat.mod_eq_of_lt (by omega)] at hvalue
  have hlast : (4294967295 : UInt32).toNat = 4294967295 := rfl
  omega

/-- The label of a jump stands at the index. -/
abbrev PendingJump.index (label : PendingJump) : Nat := label.position.index

namespace Assembly

/-- **What was there stays:** functions other than the one that was being written are as they were,
and the code and the lines of that one, the constants and the guarded regions have only been added
to. -/
structure Keeps (base code : Assembly) : Prop where
  others : ∀ g routine, base.routines[g]? = some routine → g ≠ base.currentFunction →
    code.routines[g]? = some routine
  own : ∀ routine, base.routines[base.currentFunction]? = some routine → ∃ routine',
    code.routines[base.currentFunction]? = some routine' ∧
      routine.code.toList <+: routine'.code.toList ∧ routine.lines.toList <+: routine'.lines.toList
  constants : base.pool.constants.toList <+: code.pool.constants.toList
  regions : base.regions.toList <+: code.regions.toList

theorem Keeps.refl (base : Assembly) : base.Keeps base :=
  ⟨fun _ _ h _ => h, fun routine h => ⟨routine, h, List.prefix_refl _, List.prefix_refl _⟩,
    List.prefix_refl _, List.prefix_refl _⟩

theorem Keeps.trans {base mid code : Assembly} (h : base.Keeps mid)
    (hcurrent : mid.currentFunction = base.currentFunction) (h' : mid.Keeps code) :
    base.Keeps code where
  others g routine hg hne := h'.others g routine (h.others g routine hg hne) (hcurrent ▸ hne)
  own routine hroutine := by
    obtain ⟨routine₁, h₁, hcode₁, hlines₁⟩ := h.own routine hroutine
    rw [← hcurrent] at h₁ ⊢
    obtain ⟨routine₂, h₂, hcode₂, hlines₂⟩ := h'.own routine₁ h₁
    exact ⟨routine₂, h₂, hcode₁.trans hcode₂, hlines₁.trans hlines₂⟩
  constants := h.constants.trans h'.constants
  regions := h.regions.trans h'.regions

/-- Every function that was there has only been added to. -/
theorem Keeps.routine {base code : Assembly} (h : base.Keeps code) {g : Nat} {routine : Routine}
    (hg : base.routines[g]? = some routine) : ∃ routine', code.routines[g]? = some routine' ∧
      routine.code.toList <+: routine'.code.toList ∧
      routine.lines.toList <+: routine'.lines.toList := by
  by_cases hcurrent : g = base.currentFunction
  · subst hcurrent
    exact h.own routine hg
  · exact ⟨routine, h.others g routine hg hcurrent, List.prefix_refl _, List.prefix_refl _⟩

theorem Keeps.size {base code : Assembly} (h : base.Keeps code) :
    base.routines.size ≤ code.routines.size := by
  refine Nat.le_of_not_lt fun hlt => ?_
  obtain ⟨routine, hroutine, -⟩ := h.routine (Array.getElem?_eq_getElem hlt)
  rw [Array.getElem?_eq_none (Nat.le_refl _)] at hroutine
  cases hroutine

variable {base code : Assembly} {change : Routine → Routine}

theorem getElem?_current (h : code.currentFunction < code.routines.size) :
    code.routines[code.currentFunction]? = some code.current := by
  rw [current, Array.getD_eq_getD_getElem?, Array.getElem?_eq_getElem h]
  rfl

theorem modifyCurrent_current (h : code.currentFunction < code.routines.size)
    (change : Routine → Routine) : (code.modifyCurrent change).current = change code.current := by
  have hat : (code.modifyCurrent change).routines[code.currentFunction]? =
      some (change code.current) := by
    rw [modifyCurrent, Array.getElem?_modify, if_pos rfl, getElem?_current h]
    rfl
  show Array.getD _ code.currentFunction _ = _
  rw [Array.getD_eq_getD_getElem?, hat]
  rfl

/-- The function that is being written was changed behind what had been there. -/
theorem Keeps.modifyCurrent (h : base.Keeps code)
    (hcurrent : code.currentFunction = base.currentFunction)
    (hthere : base.currentFunction < base.routines.size)
    (hcode : base.current.code.toList <+: (change code.current).code.toList)
    (hlines : base.current.lines.toList <+: (change code.current).lines.toList) :
    base.Keeps (code.modifyCurrent change) where
  others g routine hg hne := by
    rw [Assembly.modifyCurrent, Array.getElem?_modify, if_neg (hcurrent ▸ Ne.symm hne)]
    exact h.others g routine hg hne
  own routine hroutine := by
    rw [getElem?_current hthere] at hroutine
    obtain rfl := Option.some.inj hroutine
    have hlt : code.currentFunction < code.routines.size :=
      hcurrent ▸ Nat.lt_of_lt_of_le hthere h.size
    refine ⟨change code.current, ?_, hcode, hlines⟩
    rw [Assembly.modifyCurrent, Array.getElem?_modify, if_pos hcurrent, ← hcurrent,
      getElem?_current hlt]
    rfl
  constants := h.constants
  regions := h.regions

/-! ### Jumps that wait -/

/-- **Code was added in which just the jumps of some labels wait,** all of them in the function that
is being written.  Every other target in it is a place of its function. -/
structure Pends (base : Assembly) (labels : List PendingJump) (code : Assembly) : Prop where
  there : base.currentFunction < base.routines.size
  keeps : base.Keeps code
  opened : code.opened = base.opened
  here : ∀ label ∈ labels, label.position.function = base.currentFunction ∧
    base.length ≤ label.index ∧ ∃ op, code.current.code[label.index]? = some ⟨op, .unaimed⟩
  apart : (labels.map PendingJump.index).Nodup
  aimed : ∀ i instruction, base.length ≤ i → code.current.code[i]? = some instruction →
    i ∉ labels.map PendingJump.index → instruction.Aimed code.length
  made : ∀ g routine, base.routines.size ≤ g → code.routines[g]? = some routine →
    ∀ instruction ∈ routine.code, instruction.Aimed routine.code.size

namespace Pends

variable {labels more : List PendingJump} {label : PendingJump} {mid : Assembly}

theorem refl (h : base.currentFunction < base.routines.size) : base.Pends [] base where
  there := h
  keeps := .refl base
  opened := rfl
  here := nofun
  apart := List.nodup_nil
  aimed i instruction hi hat _ := absurd (Array.getElem?_eq_some_iff.mp hat).1 (Nat.not_lt.mpr hi)
  made g routine hg hroutine := by
    rw [Array.getElem?_eq_none hg] at hroutine
    cases hroutine

theorem perm (h : base.Pends labels code) (hperm : labels.Perm more) : base.Pends more code :=
  { h with
    here := fun label hlabel => h.here label (hperm.mem_iff.mpr hlabel)
    apart := (hperm.map _).nodup_iff.mp h.apart
    aimed := fun i instruction hi hat hnot =>
      h.aimed i instruction hi hat fun hmem => hnot ((hperm.map _).mem_iff.mp hmem) }

theorem currentFunction (h : base.Pends labels code) :
    code.currentFunction = base.currentFunction := by
  rw [Assembly.currentFunction, h.opened]
  rfl

theorem current_lt (h : base.Pends labels code) :
    code.currentFunction < code.routines.size :=
  h.currentFunction ▸ Nat.lt_of_lt_of_le h.there h.keeps.size

/-- What had been written of the current function. -/
theorem own (h : base.Pends labels code) :
    base.current.code.toList <+: code.current.code.toList ∧
      base.current.lines.toList <+: code.current.lines.toList := by
  obtain ⟨routine, hroutine, hcode, hlines⟩ := h.keeps.own _ (getElem?_current h.there)
  rw [← h.currentFunction, getElem?_current h.current_lt] at hroutine
  obtain rfl := Option.some.inj hroutine
  exact ⟨hcode, hlines⟩

theorem length_le (h : base.Pends labels code) : base.length ≤ code.length := h.own.1.length_le

theorem lt_length (h : base.Pends labels code) (hlabel : label ∈ labels) :
    label.index < code.length := by
  obtain ⟨-, -, op, hat⟩ := h.here label hlabel
  exact (Array.getElem?_eq_some_iff.mp hat).1

/-- Nothing has been done to the functions there were, and those that were made wait for nothing. -/
theorem extend {code' : Assembly} (h : base.Pends labels code)
    (hsame : ∀ g < code.routines.size, code'.routines[g]? = code.routines[g]?)
    (hopened : code'.opened = code.opened)
    (hconstants : code.pool.constants.toList <+: code'.pool.constants.toList)
    (hregions : code.regions.toList <+: code'.regions.toList)
    (hmade : ∀ g routine, code.routines.size ≤ g → code'.routines[g]? = some routine →
      ∀ instruction ∈ routine.code, instruction.Aimed routine.code.size) :
    code'.current = code.current ∧ base.Pends labels code' := by
  have hcurrent : code'.current = code.current := by
    rw [Assembly.current, Assembly.current, Assembly.currentFunction, Assembly.currentFunction,
      hopened, Array.getD_eq_getD_getElem?, Array.getD_eq_getD_getElem?]
    exact congrArg (Option.getD · _) (hsame _ h.current_lt)
  have hlength : code'.length = code.length := by rw [Assembly.length, hcurrent]; rfl
  have hlt : ∀ g routine, code.routines[g]? = some routine → code'.routines[g]? = some routine :=
    fun g routine hg => (hsame g (Array.getElem?_eq_some_iff.mp hg).1).trans hg
  refine ⟨hcurrent, h.there, ⟨?_, ?_, h.keeps.constants.trans hconstants,
    h.keeps.regions.trans hregions⟩, hopened.trans h.opened, ?_, h.apart, ?_, ?_⟩
  · exact fun g routine hg hne => hlt g routine (h.keeps.others g routine hg hne)
  · intro routine hroutine
    obtain ⟨routine', hat, hgrown⟩ := h.keeps.own routine hroutine
    exact ⟨routine', hlt _ _ hat, hgrown⟩
  · rw [hcurrent]
    exact h.here
  · rw [hcurrent, hlength]
    exact h.aimed
  · intro g routine hg hroutine
    by_cases hold : g < code.routines.size
    · exact h.made g routine hg ((hsame g hold).symm.trans hroutine)
    · exact hmade g routine (Nat.le_of_not_lt hold) hroutine

/-- The function that is being written was changed behind what had been there. -/
theorem modifyCurrent (h : base.Pends labels code)
    (hcode : base.current.code.toList <+: (change code.current).code.toList)
    (hlines : code.current.lines.toList <+: (change code.current).lines.toList)
    (hhere : ∀ label ∈ more, label.position.function = base.currentFunction ∧
      base.length ≤ label.index ∧
        ∃ op, (change code.current).code[label.index]? = some ⟨op, .unaimed⟩)
    (hapart : (more.map PendingJump.index).Nodup)
    (haimed : ∀ i instruction, base.length ≤ i → (change code.current).code[i]? = some instruction →
      i ∉ more.map PendingJump.index → instruction.Aimed (change code.current).code.size) :
    base.Pends more (code.modifyCurrent change) := by
  have hcurrent := modifyCurrent_current h.current_lt change
  refine ⟨h.there, h.keeps.modifyCurrent h.currentFunction h.there hcode (h.own.2.trans hlines),
    h.opened, ?_, hapart, ?_, ?_⟩
  · rw [hcurrent]
    exact hhere
  · have hlength : (code.modifyCurrent change).length = (change code.current).code.size := by
      rw [Assembly.length, hcurrent]
    rw [hcurrent, hlength]
    exact haimed
  · intro g routine hg hroutine
    have hne : code.currentFunction ≠ g := by
      rw [h.currentFunction]
      exact Nat.ne_of_lt (Nat.lt_of_lt_of_le h.there hg)
    rw [Assembly.modifyCurrent, Array.getElem?_modify, if_neg hne] at hroutine
    exact h.made g routine hg hroutine

/-- A change that leaves the code alone. -/
theorem revise (h : base.Pends labels code)
    (hcode : (change code.current).code = code.current.code)
    (hlines : (change code.current).lines = code.current.lines) :
    base.Pends labels (code.modifyCurrent change) := by
  refine h.modifyCurrent ?_ (hlines ▸ List.prefix_refl _) ?_ h.apart ?_
  · rw [hcode]
    exact h.own.1
  · rw [hcode]
    exact h.here
  · rw [hcode]
    exact h.aimed

section

variable {instruction : Instruction} {line? : Option Nat} {depth : Nat}

theorem append_lines (routine : Routine) :
    routine.lines.toList <+: (routine.append instruction line? depth).lines.toList := by
  cases line? with
  | none => exact List.prefix_refl _
  | some line =>
      show _ <+: (routine.lines.push line).toList
      rw [Array.toList_push]
      exact List.prefix_append ..

theorem append_own (h : base.Pends labels code) : base.current.code.toList <+:
    (code.current.append instruction line? depth).code.toList := by
  show _ <+: (code.current.code.push instruction).toList
  rw [Array.toList_push]
  exact h.own.1.trans (List.prefix_append ..)

theorem append_here (h : base.Pends labels code) (hlabel : label ∈ labels) :
    label.position.function = base.currentFunction ∧ base.length ≤ label.index ∧ ∃ op,
      (code.current.append instruction line? depth).code[label.index]? = some ⟨op, .unaimed⟩ := by
  obtain ⟨hfunction, hindex, op, hat⟩ := h.here label hlabel
  refine ⟨hfunction, hindex, op, ?_⟩
  have hne : label.index ≠ code.current.code.size := Nat.ne_of_lt (h.lt_length hlabel)
  show (code.current.code.push instruction)[label.index]? = _
  rw [Array.getElem?_push, if_neg hne, hat]

/-- What stands before the end is aimed as before. -/
theorem append_aimed (h : base.Pends labels code) {i : Nat} {found : Instruction}
    (hi : base.length ≤ i)
    (hat : (code.current.append instruction line? depth).code[i]? = some found)
    (hnot : i ∉ labels.map PendingJump.index) :
    i = code.length ∧ found = instruction ∨ found.Aimed (code.length + 1) := by
  have hpush : (code.current.code.push instruction)[i]? = some found := hat
  rw [Array.getElem?_push] at hpush
  split at hpush
  · exact .inl ⟨‹_›, (Option.some.inj hpush).symm⟩
  · exact .inr ((h.aimed i found hi hpush hnot).mono (Nat.le_succ _))

/-- An instruction is added that waits for nothing. -/
theorem append (h : base.Pends labels code) (haimed : instruction.Aimed code.length) :
    base.Pends labels
      (code.modifyCurrent fun routine => routine.append instruction line? depth) := by
  refine h.modifyCurrent h.append_own (append_lines _) (fun _ => h.append_here) h.apart ?_
  intro i found hi hat hnot
  have hsize : (code.current.append instruction line? depth).code.size = code.length + 1 :=
    Array.size_push ..
  rw [hsize]
  rcases h.append_aimed hi hat hnot with ⟨-, rfl⟩ | hfound
  · exact haimed.mono (Nat.le_succ _)
  · exact hfound

/-- A jump is added that waits. -/
theorem wait (h : base.Pends labels code) {op : Opcode} {arriving : Nat} :
    base.Pends (⟨code.position, arriving⟩ :: labels)
      (code.modifyCurrent fun routine => routine.append ⟨op, .unaimed⟩ line? depth) := by
  refine h.modifyCurrent h.append_own (append_lines _) ?_ ?_ ?_
  · rintro label hlabel
    rcases List.mem_cons.mp hlabel with rfl | hold
    · refine ⟨h.currentFunction, h.length_le, op, ?_⟩
      exact Array.getElem?_push_size ..
    · exact h.append_here hold
  · refine List.nodup_cons.mpr ⟨?_, h.apart⟩
    intro hmem
    obtain ⟨label, hlabel, hindex⟩ := List.mem_map.mp hmem
    exact Nat.ne_of_lt (h.lt_length hlabel) hindex
  · intro i found hi hat hnot
    rw [List.map_cons, List.mem_cons, not_or] at hnot
    rcases h.append_aimed hi hat hnot.2 with ⟨hend, -⟩ | hfound
    · exact absurd hend hnot.1
    · have hsize : (code.current.append ⟨op, .unaimed⟩ line? depth).code.size = code.length + 1 :=
        Array.size_push ..
      exact hsize ▸ hfound

end

/-- A jump that waited is aimed at the end. -/
theorem aim (h : base.Pends (label :: more) code)
    (hcode : (change code.current).code =
      (code.current.aim label.index code.length.toUInt32).code)
    (hlines : (change code.current).lines = code.current.lines) :
    base.Pends more (code.modifyCurrent change) := by
  obtain ⟨-, hafter, -⟩ := h.here label List.mem_cons_self
  obtain ⟨hfresh, hapart⟩ := List.nodup_cons.mp h.apart
  have hat : ∀ i, (code.current.aim label.index code.length.toUInt32).code[i]? =
      if label.index = i then code.current.code[i]?.map (·.aimedAt code.length.toUInt32)
      else code.current.code[i]? := fun i => Array.getElem?_modify
  have hsize : (code.current.aim label.index code.length.toUInt32).code.size = code.length :=
    Array.size_modify ..
  refine h.modifyCurrent ?_ (hlines ▸ List.prefix_refl _) ?_ hapart ?_
  · rw [hcode, List.prefix_iff_getElem?]
    intro i hi
    have hi : i < base.length := hi
    have hold := List.prefix_iff_getElem?.mp h.own.1 i hi
    rw [Array.getElem?_toList] at hold ⊢
    rw [hat, if_neg (by omega)]
    exact hold
  · intro other hother
    obtain ⟨hfunction, hindex, op, hwaits⟩ := h.here other (List.mem_cons_of_mem _ hother)
    refine ⟨hfunction, hindex, op, ?_⟩
    rw [hcode, hat, if_neg, hwaits]
    intro hsame
    exact hfresh (hsame ▸ List.mem_map_of_mem hother)
  · intro i found hi hfound hnot
    rw [hcode] at hfound ⊢
    rw [hsize]
    rw [hat] at hfound
    split at hfound
    · obtain ⟨old, -, rfl⟩ := Option.map_eq_some_iff.mp hfound
      intro word hword
      exact ⟨code.length, Nat.le_refl _, (Operand.target.inj hword).symm⟩
    · refine h.aimed i found hi hfound ?_
      rw [List.map_cons, List.mem_cons, not_or]
      exact ⟨Ne.symm ‹_›, hnot⟩

/-- **One stretch of code after another.** -/
theorem trans (h : base.Pends labels mid) (h' : mid.Pends more code) :
    base.Pends (labels ++ more) code := by
  have hold : ∀ i < mid.length, code.current.code[i]? = mid.current.code[i]? := by
    intro i hi
    have hbelow := List.prefix_iff_getElem?.mp h'.own.1 i hi
    rw [Array.getElem?_toList] at hbelow
    rw [hbelow]
    exact (Array.getElem?_eq_getElem hi).symm
  refine ⟨h.there, h.keeps.trans h.currentFunction h'.keeps, h'.opened.trans h.opened,
    ?_, ?_, ?_, ?_⟩
  · intro label hlabel
    rcases List.mem_append.mp hlabel with hmem | hmem
    · obtain ⟨hfunction, hindex, op, hat⟩ := h.here label hmem
      exact ⟨hfunction, hindex, op, (hold _ (h.lt_length hmem)).trans hat⟩
    · obtain ⟨hfunction, hindex, hat⟩ := h'.here label hmem
      exact ⟨hfunction.trans h.currentFunction, Nat.le_trans h.length_le hindex, hat⟩
  · rw [List.map_append]
    refine List.nodup_append.mpr ⟨h.apart, h'.apart, ?_⟩
    intro i hi j hj hsame
    obtain ⟨label, hlabel, rfl⟩ := List.mem_map.mp hi
    obtain ⟨other, hother, rfl⟩ := List.mem_map.mp hj
    have hlt := h.lt_length hlabel
    have hge := (h'.here other hother).2.1
    omega
  · intro i instruction hi hat hnot
    rw [List.map_append, List.mem_append, not_or] at hnot
    by_cases hmid : i < mid.length
    · rw [hold i hmid] at hat
      exact (h.aimed i instruction hi hat hnot.1).mono h'.length_le
    · exact h'.aimed i instruction (Nat.le_of_not_lt hmid) hat hnot.2
  · intro g routine hg hroutine
    by_cases hmid : g < mid.routines.size
    · have hne : g ≠ mid.currentFunction := by
        rw [h.currentFunction]
        exact Nat.ne_of_gt (Nat.lt_of_lt_of_le h.there hg)
      have hsame := h'.keeps.others g _ (Array.getElem?_eq_getElem hmid) hne
      rw [hroutine] at hsame
      refine h.made g routine hg ?_
      rw [Array.getElem?_eq_getElem hmid]
      exact hsame.symm
    · exact h'.made g routine (Nat.le_of_not_lt hmid) hroutine

/-- The source line has no part in this. -/
theorem ofLines {line line' : Nat} (h : (base.moveToLine line).Pends labels code) :
    base.Pends labels (code.moveToLine line') :=
  ⟨h.there, ⟨h.keeps.others, h.keeps.own, h.keeps.constants, h.keeps.regions⟩, h.opened, h.here,
    h.apart, h.aimed, h.made⟩

end Pends

end Assembly

/-! ### Functions -/

section

variable {base : Assembly} {labels : List PendingJump} {ws inside : Workspace} {params : UInt16}

theorem opened_getElem? {g : Nat} (hg : g < ws.code.routines.size) :
    (Layout.opened ws params).code.routines[g]? = ws.code.routines[g]? := by
  simp only [Layout.opened, Array.getElem?_push, if_neg (Nat.ne_of_lt hg)]

/-- What had been written when a function was opened is still there, whatever has become of the
function. -/
theorem Assembly.Keeps.ofFunction {code : Assembly} (h : base.Keeps ws.code)
    (h' : (Layout.opened ws params).code.Keeps code) : base.Keeps code := by
  have hsame : ∀ (g : Nat) (routine : Routine), ws.code.routines[g]? = some routine →
      code.routines[g]? = some routine := by
    intro g routine hg
    have hlt := (Array.getElem?_eq_some_iff.mp hg).1
    exact h'.others g routine ((opened_getElem? hlt).trans hg) (Nat.ne_of_lt hlt)
  refine ⟨fun g routine hg hne => hsame g routine (h.others g routine hg hne), ?_,
    h.constants.trans h'.constants, h.regions.trans h'.regions⟩
  intro routine hroutine
  obtain ⟨routine', hat, hgrown⟩ := h.own routine hroutine
  exact ⟨routine', hsame _ _ hat, hgrown⟩

/-- **A function that was opened and closed again** leaves the others alone, and nothing waits in
it. -/
theorem Assembly.Pends.function (h : base.Pends labels ws.code) (locals : UInt16)
    (h' : (Layout.opened ws params).code.Pends [] inside.code) :
    (Layout.closed inside locals ws.code.opened).code.current = ws.code.current ∧
      base.Pends labels (Layout.closed inside locals ws.code.opened).code := by
  have hcurrent : inside.code.currentFunction = ws.code.routines.size := h'.currentFunction
  have hother : ∀ g, g ≠ ws.code.routines.size →
      (Layout.closed inside locals ws.code.opened).code.routines[g]? =
        inside.code.routines[g]? := by
    intro g hg
    show (inside.code.routines.modify inside.code.currentFunction _)[g]? = _
    rw [Array.getElem?_modify, hcurrent, if_neg (Ne.symm hg)]
  refine h.extend (fun g hg => ?_) rfl h'.keeps.constants h'.keeps.regions ?_
  · rw [hother g (Nat.ne_of_lt hg)]
    have hat := Array.getElem?_eq_getElem hg
    rw [hat]
    exact h'.keeps.others g _ ((opened_getElem? hg).trans hat) (Nat.ne_of_lt hg)
  · intro g routine hg hroutine instruction hinstruction
    by_cases hown : g = ws.code.routines.size
    · have hat : (inside.code.routines.modify inside.code.currentFunction
          fun routine => routine.reserve locals)[g]? = some routine := hroutine
      rw [Array.getElem?_modify, if_pos (hcurrent.trans hown.symm), hown, ← hcurrent,
        getElem?_current h'.current_lt] at hat
      obtain rfl := Option.some.inj hat
      obtain ⟨i, hi⟩ := Array.getElem?_of_mem hinstruction
      refine h'.aimed i instruction ?_ hi nofun
      rw [Assembly.length, show (Layout.opened ws params).code.current = Routine.start params by
        simp [Layout.opened, Assembly.current, Assembly.currentFunction]]
      exact Nat.zero_le i
    · rw [hother g hown] at hroutine
      refine h'.made g routine ?_ hroutine instruction hinstruction
      simp only [Layout.opened, Array.size_push]
      omega

end

end QueryCompiler
