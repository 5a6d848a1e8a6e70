/-
What stands in a function, apart from where its jumps lead.

Jumps are aimed after they are written, so the code of a function changes behind its
end.  The *text* of a function is what does not: every instruction, with the targets
of jumps left out.  Only the jump that installs a handler keeps its target, since it
is the handler table that speaks of it.

On a course the text of the current function gets longer at its end, and the texts of
the other functions stay as they are.  The one place where something is put in later
is the target of a handler, and `handler_text` says what comes of a whole handler.
-/
import QueryCompiler.Proofs.Progress.Lowering

namespace QueryCompiler

namespace Instruction

/-- The instruction without its target, unless it installs a handler. -/
def core (instruction : Instruction) : Instruction :=
  if instruction.op = .tryBegin then instruction
  else
    match instruction.operand with
    | .target _ => ⟨instruction.op, .unaimed⟩
    | _ => instruction

theorem core_op (instruction : Instruction) : instruction.core.op = instruction.op := by
  unfold core
  split
  · rfl
  · split <;> rfl

theorem core_tryBegin (operand : Operand) :
    core ⟨.tryBegin, operand⟩ = ⟨.tryBegin, operand⟩ := rfl

theorem core_of_target {op : Opcode} {word : UInt32} (h : op ≠ .tryBegin) :
    core ⟨op, .target word⟩ = ⟨op, .unaimed⟩ := by
  unfold core
  rw [if_neg h]

/-- Nothing but a target is ever left out. -/
theorem eq_of_core {instruction core' : Instruction} (h : instruction.core = core')
    (hkept : core'.op = .tryBegin ∨ core'.operand.shape ≠ .target) : instruction = core' := by
  obtain ⟨op, operand⟩ := instruction
  unfold core at h
  split at h
  · exact h
  · rename_i hop
    split at h
    · subst h
      rcases hkept with htry | hshape
      · exact absurd htry hop
      · exact absurd rfl hshape
    · exact h

/-- A jump has some target. -/
theorem target_of_core {instruction : Instruction} {op : Opcode}
    (h : instruction.core = ⟨op, .unaimed⟩) : ∃ target, instruction = ⟨op, .target target⟩ := by
  obtain ⟨op', operand⟩ := instruction
  unfold core at h
  split at h
  · exact ⟨_, h⟩
  · split at h
    · obtain rfl := congrArg Instruction.op h
      rename_i hoperand
      exact ⟨_, congrArg (Instruction.mk _) hoperand⟩
    · exact ⟨_, h⟩

/-- Aiming a jump that installs no handler leaves no trace. -/
theorem core_aimedAt_core (instruction : Instruction) (word : UInt32) :
    (instruction.core.aimedAt word).core = (instruction.aimedAt word).core := by
  unfold aimedAt
  rw [core_op]

end Instruction

namespace Assembly

/-- The text of a function. -/
def text (code : Assembly) (function : Nat) : List Instruction :=
  (code.routines.getD function (Routine.start 0)).code.toList.map Instruction.core

theorem text_current (code : Assembly) :
    code.text code.currentFunction = code.current.code.toList.map Instruction.core := rfl

theorem length_text (code : Assembly) :
    (code.text code.currentFunction).length = code.length := by
  rw [text_current, List.length_map, Array.length_toList]
  rfl

theorem text_of_routine {code code' : Assembly} {g : Nat}
    (h : code'.routines[g]? = code.routines[g]?) : code'.text g = code.text g := by
  unfold text
  rw [Array.getD_eq_getD_getElem?, Array.getD_eq_getD_getElem?, h]

theorem text_reserveLocals (code : Assembly) (locals : UInt16) (g : Nat) :
    (code.reserveLocals locals).text g = code.text g := by
  unfold text
  simp only [reserveLocals, modifyCurrent, Array.getD_eq_getD_getElem?, Array.getElem?_modify]
  split
  · cases code.routines[g]? <;> rfl
  · rfl

/-- The finished program has the functions that were opened. -/
theorem size_functions (code : Assembly) (locals : UInt16) :
    (code.reserveLocals locals).toProgram.functions.size = code.routines.size := by
  simp [toProgram, reserveLocals, modifyCurrent]

/-- The second program comes from the first by work on the current function, which is current in
both, and by adding functions. -/
structure Around (code code' : Assembly) : Prop where
  function : code'.currentFunction = code.currentFunction
  size : code.routines.size ≤ code'.routines.size
  others : ∀ g < code.routines.size, g ≠ code.currentFunction →
    code'.routines[g]? = code.routines[g]?

namespace Around

variable {code code₁ code₂ : Assembly}

theorem refl (code : Assembly) : Around code code :=
  ⟨rfl, Nat.le_refl _, fun _ _ _ => rfl⟩

theorem trans (h : Around code code₁) (h' : Around code₁ code₂) : Around code code₂ where
  function := h'.function.trans h.function
  size := Nat.le_trans h.size h'.size
  others g hg hne := by
    rw [h'.others g (Nat.lt_of_lt_of_le hg h.size) (by rw [h.function]; exact hne)]
    exact h.others g hg hne

theorem modifyCurrent (code : Assembly) (change : Routine → Routine) :
    Around code (code.modifyCurrent change) where
  function := rfl
  size := by simp [Assembly.modifyCurrent]
  others g _ hne := by
    simp only [Assembly.modifyCurrent, Array.getElem?_modify, if_neg (Ne.symm hne)]

theorem current_lt (h : Around code code₁) (hcurrent : code.currentFunction < code.routines.size) :
    code₁.currentFunction < code₁.routines.size := by
  rw [h.function]
  exact Nat.lt_of_lt_of_le hcurrent h.size

end Around

end Assembly

/-! ### Tables -/

/-- Nothing is lost in the word for a number that there is a word for. -/
theorem toNat_toUInt32 {n : Nat} (h : n < wordLimit) : n.toUInt32.toNat = n :=
  Nat.mod_eq_of_lt h

section Entries

variable {α : Type} {function : Nat} {entries : List (Nat × α)}

/-- The entries of a function, in a table for a whole program. -/
def entriesOf (function : Nat) (entries : List (Nat × α)) : List α :=
  entries.filterMap fun entry => if entry.1 = function then some entry.2 else none

theorem entriesOf_append (function : Nat) (entries more : List (Nat × α)) :
    entriesOf function (entries ++ more) = entriesOf function entries ++ entriesOf function more :=
  List.filterMap_append

theorem entriesOf_cons_self (function : Nat) (entry : α) (entries : List (Nat × α)) :
    entriesOf function ((function, entry) :: entries) = entry :: entriesOf function entries :=
  List.filterMap_cons_some (if_pos rfl)

theorem entriesOf_cons_of_ne {head : Nat × α} (h : head.1 ≠ function) :
    entriesOf function (head :: entries) = entriesOf function entries :=
  List.filterMap_cons_none (if_neg h)

theorem entriesOf_sublist (function : Nat) (entries : List (Nat × α)) :
    (entriesOf function entries).Sublist (entries.map Prod.snd) := by
  induction entries with
  | nil => exact .slnil
  | cons head rest ih =>
      by_cases hhead : head.1 = function
      · subst hhead
        rw [entriesOf_cons_self head.1 head.2 rest]
        exact ih.cons_cons head.2
      · rw [entriesOf_cons_of_ne hhead]
        exact ih.cons head.2

theorem mem_entriesOf {entry : α} :
    entry ∈ entriesOf function entries ↔ (function, entry) ∈ entries := by
  simp only [entriesOf, List.mem_filterMap, Option.ite_none_right_eq_some, Option.some.injEq]
  refine ⟨?_, fun h => ⟨_, h, rfl, rfl⟩⟩
  rintro ⟨⟨_, _⟩, hmem, rfl, rfl⟩
  exact hmem

theorem entriesOf_eq_nil (h : ∀ entry ∈ entries, entry.1 ≠ function) :
    entriesOf function entries = [] := by
  refine List.eq_nil_iff_forall_not_mem.mpr fun entry hentry => ?_
  exact h _ (mem_entriesOf.mp hentry) rfl

/-- Lists that are in order function by function are in order for any two entries of a function. -/
theorem pairwise_of_entriesOf {R : α → α → Prop} (h : ∀ g, (entriesOf g entries).Pairwise R) :
    entries.Pairwise fun entry later => entry.1 = later.1 → R entry.2 later.2 := by
  induction entries with
  | nil => exact .nil
  | cons head rest ih =>
      refine List.pairwise_cons.mpr ⟨?_, ih fun g => ?_⟩
      · intro later hlater hsame
        have hhead := h head.1
        rw [entriesOf_cons_self head.1 head.2 rest] at hhead
        exact (List.pairwise_cons.mp hhead).1 later.2
          (mem_entriesOf.mpr (by rw [hsame]; exact hlater))
      · exact (h g).sublist ((List.sublist_cons_self head rest).filterMap _)

end Entries

namespace Progress

open Workspace

variable {ws ws₁ ws' inside : Workspace}

/-! ### What is done to a text -/

theorem text_wrote (h : ws.code.currentFunction < ws.code.routines.size)
    (instruction : Instruction) :
    (ws.wrote instruction).code.text ws.code.currentFunction =
      ws.code.text ws.code.currentFunction ++ [instruction.core] := by
  refine ((ws.wrote instruction).code.text_current).trans ?_
  rw [wrote, revise_current h]
  simp only [Routine.append, Array.toList_push, List.map_append]
  rfl

theorem text_landed (h : ws.code.currentFunction < ws.code.routines.size) (label : PendingJump) :
    (ws.landed label).code.text ws.code.currentFunction =
      (ws.code.text ws.code.currentFunction).modify label.position.index fun instruction =>
        (instruction.aimedAt ws.code.length.toUInt32).core := by
  refine ((ws.landed label).code.text_current).trans ?_
  rw [landed, revise_current h, Assembly.text_current]
  simp only [Routine.land, Routine.setDepth, Routine.aim, Array.toList_modify]
  refine List.ext_getElem? fun i => ?_
  simp only [List.getElem?_map, List.getElem?_modify]
  cases ws.code.current.code.toList[i]? with
  | none => rfl
  | some instruction =>
      split
      · exact congrArg some (Instruction.core_aimedAt_core instruction _).symm
      · rfl

theorem length_wrote (h : ws.code.currentFunction < ws.code.routines.size)
    (instruction : Instruction) : (ws.wrote instruction).code.length = ws.code.length + 1 := by
  have htext := congrArg List.length (text_wrote h instruction)
  rw [List.length_append, ws.code.length_text] at htext
  exact ((ws.wrote instruction).code.length_text).symm.trans htext

theorem length_landed (h : ws.code.currentFunction < ws.code.routines.size) (label : PendingJump) :
    (ws.landed label).code.length = ws.code.length := by
  have htext := congrArg List.length (text_landed h label)
  rw [List.length_modify, ws.code.length_text] at htext
  exact ((ws.landed label).code.length_text).symm.trans htext

/-- A jump that lands leaves the text alone, unless it installs a handler. -/
theorem text_landed_jump (h : ws.code.currentFunction < ws.code.routines.size)
    {label : PendingJump} {op : Opcode} (hop : op ≠ .tryBegin)
    (hjump : (ws.code.text ws.code.currentFunction)[label.position.index]? = some ⟨op, .unaimed⟩) :
    (ws.landed label).code.text ws.code.currentFunction =
      ws.code.text ws.code.currentFunction := by
  rw [text_landed h]
  refine List.ext_getElem? fun i => ?_
  rw [List.getElem?_modify]
  split
  · rename_i hi
    rw [← hi, hjump]
    exact congrArg some (Instruction.core_of_target hop)
  · exact id_map _

/-- What stands in the program stands in the text. -/
theorem text_of_instruction {position : Position} {instruction : Instruction}
    (h : ws.code.instruction? position = some instruction) :
    (ws.code.text position.function)[position.index]? = some instruction.core := by
  obtain ⟨routine, hroutine, hcode⟩ := Option.bind_eq_some_iff.mp h
  unfold Assembly.text
  rw [Array.getD_eq_getD_getElem?, hroutine, Option.getD_some, List.getElem?_map,
    Array.getElem?_toList, hcode]
  rfl

theorem Follows.around (h : Follows ws ws') : ws.code.Around ws'.code :=
  ⟨h.currentFunction, h.size, h.others⟩

/-- The current function stays the same, and in its place. -/
theorem Follows.current_lt (h : Follows ws ws')
    (hcurrent : ws.code.currentFunction < ws.code.routines.size) :
    ws'.code.currentFunction < ws'.code.routines.size :=
  h.around.current_lt hcurrent

theorem opened_size (ws : Workspace) (params : UInt16) (state : FrameState) :
    ((Layout.opened ws params).entered state).code.routines.size = ws.code.routines.size + 1 := by
  simp [Layout.opened, entered]

/-- A function that has just been opened is the current one. -/
theorem opened_current_lt (ws : Workspace) (params : UInt16) (state : FrameState) :
    ((Layout.opened ws params).entered state).code.currentFunction <
      ((Layout.opened ws params).entered state).code.routines.size := by
  simp [Layout.opened, entered, Assembly.currentFunction]

/-- A step on the frames or on what is beside the code is no step on a text. -/
theorem Step.text (h : Step ws ws') (hcurrent : ws.code.currentFunction < ws.code.routines.size) :
    ws'.code.text ws.code.currentFunction = ws.code.text ws.code.currentFunction ∨
      ∃ instruction : Instruction, instruction.op.isPlain = true ∧
        ws'.code.text ws.code.currentFunction =
          ws.code.text ws.code.currentFunction ++ [instruction.core] := by
  cases h with
  | write hplain => exact .inr ⟨_, hplain, text_wrote hcurrent _⟩
  | pool | line | takeSlot | bind | note => exact .inl rfl
  | @land label op word hfunction hjump hplain =>
      have hop : op ≠ .tryBegin := by
        rintro rfl
        cases hplain
      have htext := text_of_instruction hjump
      rw [hfunction, Instruction.core_of_target hop] at htext
      exact .inl (text_landed_jump hcurrent hop htext)
  | reset depth =>
      refine .inl ((Assembly.text_current _).trans ?_)
      rw [revise_current hcurrent]
      rfl

/-! ### Handlers -/

/-- What the way over a catch path writes. -/
def escapeText : Option PendingJump → List Instruction
  | none => []
  | some _ => [⟨.tryEnd, .none⟩, ⟨.jump, .unaimed⟩]

theorem Escape.text {body escaped : Workspace} {exit : Option PendingJump}
    (h : Escape body exit escaped) (hcurrent : body.code.currentFunction < body.code.routines.size) :
    escaped.code.text body.code.currentFunction =
      body.code.text body.code.currentFunction ++ escapeText exit := by
  cases h with
  | none => exact (List.append_nil _).symm
  | jump hlabel =>
      have hcurrent' := (Follows.wrote body ⟨.tryEnd, .none⟩).current_lt hcurrent
      rw [show body.code.currentFunction = (body.wrote ⟨.tryEnd, .none⟩).code.currentFunction
        from rfl, text_wrote hcurrent', show (body.wrote ⟨.tryEnd, .none⟩).code.currentFunction =
        body.code.currentFunction from rfl, text_wrote hcurrent, List.append_assoc]
      rfl

/-- The jump over the catch path stands behind the instruction that leaves the handler. -/
theorem Escape.label_index {body escaped : Workspace} {label : PendingJump}
    (h : Escape body (some label) escaped)
    (hcurrent : body.code.currentFunction < body.code.routines.size) :
    label.position.index = body.code.length + 1 := by
  cases h with
  | jump hlabel =>
      rw [hlabel]
      exact length_wrote hcurrent _

theorem Catch.core {caught : Instruction} (h : Catch caught) : caught.core = caught := by
  cases h <;> rfl

/-- The catch path belongs to the function that the handler is in. -/
theorem catch_current {body escaped named : Workspace} {install : PendingJump}
    {exit : Option PendingJump} (hcurrent : ws.code.currentFunction < ws.code.routines.size)
    (hfollows : Follows ((ws.wrote ⟨.tryBegin, .unaimed⟩).entered
      (.handler install.position true 0)) body)
    (hescape : Escape body exit escaped)
    (hcode : named.code = (escaped.unguarded.landed install).code) :
    named.code.currentFunction = ws.code.currentFunction ∧
      named.code.currentFunction < named.code.routines.size := by
  have hbody := hfollows.current_lt ((Follows.wrote ws _).current_lt hcurrent)
  rw [hcode]
  exact ⟨hescape.follows.currentFunction.trans hfollows.currentFunction,
    (Follows.landed escaped.unguarded install).current_lt (hescape.follows.current_lt hbody)⟩

/-- The text up to the catch path: the handler is installed and aimed, and its body is followed by
the way over the catch path. -/
theorem guarded_text {body escaped : Workspace} {install : PendingJump}
    {exit : Option PendingJump} {guarded : List Instruction}
    (hcurrent : ws.code.currentFunction < ws.code.routines.size)
    (hinstall : install.position = ws.code.position)
    (hfollows : Follows ((ws.wrote ⟨.tryBegin, .unaimed⟩).entered
      (.handler install.position true 0)) body)
    (hbody : body.code.text ws.code.currentFunction =
      (ws.wrote ⟨.tryBegin, .unaimed⟩).code.text ws.code.currentFunction ++ guarded)
    (hescape : Escape body exit escaped) :
    body.code.length = ws.code.length + 1 + guarded.length ∧
      escaped.code.length = body.code.length + (escapeText exit).length ∧
      (escaped.unguarded.landed install).code.text ws.code.currentFunction =
        ws.code.text ws.code.currentFunction ++
          ⟨.tryBegin, .target escaped.code.length.toUInt32⟩ :: (guarded ++ escapeText exit) := by
  have hf : body.code.currentFunction = ws.code.currentFunction := hfollows.currentFunction
  have hf₁ : escaped.code.currentFunction = ws.code.currentFunction :=
    hescape.follows.currentFunction.trans hf
  have hlength : (ws.code.text ws.code.currentFunction).length = ws.code.length :=
    ws.code.length_text
  have hbodyCurrent : body.code.currentFunction < body.code.routines.size :=
    hfollows.current_lt ((Follows.wrote ws _).current_lt hcurrent)
  rw [text_wrote hcurrent, List.append_assoc] at hbody
  have hbodyLength : body.code.length = ws.code.length + 1 + guarded.length := by
    rw [← body.code.length_text, hf, hbody]
    simp [hlength]
    omega
  have hescaped := hescape.text hbodyCurrent
  rw [hf, hbody] at hescaped
  have hescapedLength : escaped.code.length = body.code.length + (escapeText exit).length := by
    rw [← escaped.code.length_text, hf₁, hescaped, hbodyLength]
    simp [hlength]
    omega
  refine ⟨hbodyLength, hescapedLength, ?_⟩
  have hland := @text_landed escaped.unguarded (hescape.follows.current_lt hbodyCurrent) install
  rw [show escaped.unguarded.code.currentFunction = ws.code.currentFunction from hf₁,
    show escaped.unguarded.code = escaped.code from rfl, hescaped, hinstall] at hland
  rw [hland]
  show List.modify _ ws.code.length _ = _
  rw [← hlength, List.append_assoc, List.modify_eq_take_cons_drop (by simp)]
  simp [Instruction.aimedAt, Instruction.core, Assembly.length]

/-- **The text of a handler:** the jump that installs it, aimed at the catch path; the body; the way
over the catch path; the instruction that puts the error away; and the rest of the catch path. -/
theorem handler_text {body escaped named last : Workspace} {install : PendingJump}
    {exit : Option PendingJump} {caught : Instruction} {frame : Frame}
    {guarded rest : List Instruction}
    (hcurrent : ws.code.currentFunction < ws.code.routines.size)
    (hinstall : install.position = ws.code.position)
    (hfollows : Follows ((ws.wrote ⟨.tryBegin, .unaimed⟩).entered
      (.handler install.position true 0)) body)
    (hbody : body.code.text ws.code.currentFunction =
      (ws.wrote ⟨.tryBegin, .unaimed⟩).code.text ws.code.currentFunction ++ guarded)
    (hescape : Escape body exit escaped)
    (hcode : named.code = (escaped.unguarded.landed install).code) (hcatch : Catch caught)
    (hfollows' : Follows (named.wrote caught) inside)
    (hinside : inside.code.text ws.code.currentFunction =
      (named.wrote caught).code.text ws.code.currentFunction ++ rest)
    (hlast : last = exit.elim (inside.left frame) (inside.left frame).landed) :
    last.code.text ws.code.currentFunction = inside.code.text ws.code.currentFunction ∧
      last.code.text ws.code.currentFunction = ws.code.text ws.code.currentFunction ++
        ⟨.tryBegin, .target escaped.code.length.toUInt32⟩ ::
          (guarded ++ (escapeText exit ++ caught :: rest)) := by
  obtain ⟨hbodyLength, -, hlanded⟩ := guarded_text hcurrent hinstall hfollows hbody hescape
  have hbodyCurrent : body.code.currentFunction < body.code.routines.size :=
    hfollows.current_lt ((Follows.wrote ws _).current_lt hcurrent)
  obtain ⟨hf, hcurrent₁⟩ := catch_current hcurrent hfollows hescape hcode
  have hcaught := text_wrote hcurrent₁ caught
  rw [hf, hcode, hlanded, hcatch.core] at hcaught
  have hinside : inside.code.text ws.code.currentFunction = ws.code.text ws.code.currentFunction ++
      ⟨.tryBegin, .target escaped.code.length.toUInt32⟩ ::
        (guarded ++ (escapeText exit ++ caught :: rest)) := by
    rw [hinside, hcaught]
    simp
  subst hlast
  cases exit with
  | none => exact ⟨rfl, hinside⟩
  | some label =>
      -- What lands behind the handler is the jump over the catch path.
      have hf₂ : inside.code.currentFunction = ws.code.currentFunction :=
        hfollows'.currentFunction.trans hf
      have hcurrent₂ : inside.code.currentFunction < inside.code.routines.size :=
        hfollows'.current_lt ((Follows.wrote named caught).current_lt hcurrent₁)
      have hjump : (inside.code.text inside.code.currentFunction)[label.position.index]? =
          some ⟨.jump, .unaimed⟩ := by
        let front := ws.code.text ws.code.currentFunction ++
          ⟨.tryBegin, .target escaped.code.length.toUInt32⟩ :: (guarded ++ [⟨.tryEnd, .none⟩])
        have hsplit : inside.code.text ws.code.currentFunction =
            front ++ ⟨.jump, .unaimed⟩ :: caught :: rest := by
          rw [hinside]
          simp [front, escapeText]
        have hindex : label.position.index = front.length := by
          rw [hescape.label_index hbodyCurrent, hbodyLength, ← ws.code.length_text]
          simp only [front, List.length_append, List.length_cons, List.length_nil]
          omega
        rw [hf₂, hsplit, hindex, List.getElem?_append_right (Nat.le_refl _), Nat.sub_self]
        rfl
      have hland := @text_landed_jump (inside.left frame) hcurrent₂ label .jump nofun hjump
      rw [show (inside.left frame).code = inside.code from rfl, hf₂] at hland
      exact ⟨hland, hland.trans hinside⟩

/-! ### Courses -/

/-- A lambda leaves one instruction in the text around it. -/
theorem lambda_text {params next : UInt16} {frame : Frame}
    (hcurrent : ws.code.currentFunction < ws.code.routines.size)
    (hfollows : Follows ((Layout.opened ws params).entered
      (.function ws.code.routines.size 0)) inside)
    (hsize : ws.code.routines.size ≤
      (Layout.closed (inside.left frame) next ws.code.opened).code.routines.size) :
    ((Layout.closed (inside.left frame) next ws.code.opened).wrote
      ⟨.makeLambda, .function ws.code.routines.size.toUInt32⟩).code.text ws.code.currentFunction =
      ws.code.text ws.code.currentFunction ++
        [⟨.makeLambda, .function ws.code.routines.size.toUInt32⟩] := by
  have hwrote := @text_wrote (Layout.closed (inside.left frame) next ws.code.opened)
    (Nat.lt_of_lt_of_le hcurrent hsize) ⟨.makeLambda, .function ws.code.routines.size.toUInt32⟩
  rw [show (Layout.closed (inside.left frame) next ws.code.opened).code.currentFunction =
    ws.code.currentFunction from rfl,
    Assembly.text_of_routine (hfollows.closed_others hcurrent)] at hwrote
  exact hwrote

/-- **On a course the text of the current function gets longer.** -/
theorem Course.text (h : Course ws ws')
    (hcurrent : ws.code.currentFunction < ws.code.routines.size) :
    ∃ written, ws'.code.text ws.code.currentFunction =
      ws.code.text ws.code.currentFunction ++ written := by
  induction h with
  | stay ws => exact ⟨[], (List.append_nil _).symm⟩
  | step h =>
      rcases h.text hcurrent with hsame | ⟨instruction, -, hwritten⟩
      · exact ⟨[], hsame.trans (List.append_nil _).symm⟩
      · exact ⟨[instruction.core], hwritten⟩
  | trans h h' ih ih' =>
      obtain ⟨written, hwritten⟩ := ih hcurrent
      obtain ⟨written', hwritten'⟩ := ih' (h.follows.current_lt hcurrent)
      rw [h.follows.currentFunction, hwritten, List.append_assoc] at hwritten'
      exact ⟨_, hwritten'⟩
  | @slot ws ws₁ op ref _ h _ ih =>
      obtain ⟨written, hwritten⟩ := ih hcurrent
      have hwrote := text_wrote (h.follows.current_lt hcurrent) ⟨op, .slot ref⟩
      rw [h.follows.currentFunction, hwritten, List.append_assoc] at hwrote
      exact ⟨_, hwrote⟩
  | scope _ _ _ ih => exact ih hcurrent
  | throw ws => exact ⟨_, @text_wrote (ws.reframe Frame.countThrow) hcurrent _⟩
  | @handler ws body escaped named inside last install exit caught frame outer hinstall hbody
      hescape _ hcode hcatch _ hhandler _ hlast ihbody _ _ ihhandler =>
      obtain ⟨hf, hcurrent₁⟩ := catch_current hcurrent hbody.follows hescape hcode
      obtain ⟨guarded, hguarded⟩ := ihbody ((Follows.wrote ws _).current_lt hcurrent)
      obtain ⟨rest, hrest⟩ := ihhandler ((Follows.wrote named caught).current_lt hcurrent₁)
      rw [show (named.wrote caught).code.currentFunction = _ from hf] at hrest
      have htext := handler_text hcurrent hinstall hbody.follows hguarded hescape hcode hcatch
        hhandler.follows hrest hlast
      exact ⟨_, htext.2⟩
  | lambda h hframes hnext _ =>
      exact ⟨_, lambda_text hcurrent h.follows (h.follows.closed _ hframes).1.size⟩

end Progress

end QueryCompiler
