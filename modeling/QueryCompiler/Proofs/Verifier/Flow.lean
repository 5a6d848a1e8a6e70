/-
Where control can go in a function.

From an instruction control goes on to the next one, or to the target of the
instruction if it can branch.  Both ways use the operand stack, and installing or
removing a handler shows in the stack of handlers.  A `Mark` is what is known of an
instruction when control gets there: how deep the operand stack is, and which
handlers are installed.

`Runs F X a hs b hs'` says that the code between two places can be marked so that
every way of going on from a marked instruction leads to an instruction with the right
mark, to the end, or out of the code to a place and a mark that `X` allows.  Code is
put together from such pieces: one after the other, with jumps that land at the end,
and with jumps back to the start.
-/
import QueryCompiler.Proofs.Layout.Laid

namespace QueryCompiler

/-! ### The control-flow graph -/

/-- The ways in which control can leave an instruction. -/
inductive Way where
  /-- On to the next instruction. -/
  | next
  /-- To the target of the instruction. -/
  | taken
deriving DecidableEq

/-- Where control goes from an instruction at an index, and how the operand stack has then been
used. -/
def Instruction.successor? (instruction : Instruction) (index : Nat) : Way → Option (Nat × StackUse)
  | .next => if instruction.op.isTerminal then none else some (index + 1, instruction.stackUse)
  | .taken =>
    match instruction.op.branchUse?, instruction.target? with
    | some use, some target => some (target.toNat, use)
    | _, _ => none

/-- The handlers that are installed once control has left an instruction at an index, each given
by the index of the instruction that installed it, innermost first. -/
def Opcode.handlersAfter (op : Opcode) (index : Nat) (way : Way) (handlers : List Nat) : List Nat :=
  match op, way with
  | .tryBegin, .next => index :: handlers
  | .tryEnd, _ => handlers.tail
  | _, _ => handlers

/-- Whether an opcode neither installs or removes handlers nor minds them. -/
def Opcode.unconcerned : Opcode → Bool
  | .tryBegin | .tryEnd | .ret => false
  | _ => true

theorem Opcode.handlersAfter_unconcerned {op : Opcode} (h : op.unconcerned = true) (index : Nat)
    (way : Way) (handlers : List Nat) : op.handlersAfter index way handlers = handlers := by
  cases op <;> first | rfl | cases h

/-- The instructions that control can get to from the first one. -/
inductive Reached (code : Array Instruction) : Nat → Prop
  | start : Reached code 0
  | step {i j : Nat} {instruction : Instruction} {way : Way} {use : StackUse}
      (before : Reached code i) (found : code[i]? = some instruction)
      (goes : instruction.successor? i way = some (j, use)) : Reached code j

namespace Layout

/-! ### Marks -/

/-- What is known of an instruction when control gets there. -/
structure Mark where
  /-- How many values are on the operand stack. -/
  depth : Nat
  /-- The installed handlers, innermost first. -/
  handlers : List Nat

/-- The mark with which control goes to an index when it leaves an instruction. -/
def Mark.after? (mark : Mark) (instruction : Instruction) (index : Nat) (way : Way) :
    Option (Nat × Mark) :=
  (instruction.successor? index way).map fun (goal, use) =>
    (goal, ⟨mark.depth - use.pops + use.pushes,
      instruction.op.handlersAfter index way mark.handlers⟩)

/-- An instruction can be executed with this mark. -/
structure Mark.Allows (mark : Mark) (maxStack : Nat) (instruction : Instruction) : Prop where
  pops : instruction.stackUse.pops ≤ mark.depth
  fits : mark.depth ≤ maxStack
  guarded : instruction.op = .tryEnd → mark.handlers ≠ []
  unguarded : instruction.op = .ret → mark.handlers = []

/-- The mark of a place at which these handlers are installed, if control gets there. -/
def Spot.mark (a : Spot) (handlers : List Nat) : Option Mark :=
  if a.reachable then some ⟨a.depth, handlers⟩ else none

theorem Spot.mark_unreachable {a : Spot} (h : a.reachable = false) (handlers : List Nat) :
    a.mark handlers = none := by
  rw [mark, h]
  rfl

theorem Spot.mark_eq_some {a : Spot} {handlers : List Nat} {mark : Mark} :
    a.mark handlers = some mark ↔ a.reachable = true ∧ mark = ⟨a.depth, handlers⟩ := by
  unfold Spot.mark
  cases a.reachable with
  | true => simp [eq_comm]
  | false => simp

theorem Spot.landAll_eq {a : Spot} {exits : List Nat} {depth : Nat} (hsome : exits ≠ [])
    (hexits : ∀ exit ∈ exits, exit = depth) : a.landAll exits = a.land depth := by
  induction exits generalizing a with
  | nil => exact absurd rfl hsome
  | cons exit rest ih =>
      obtain rfl : exit = depth := hexits exit (List.mem_cons_self ..)
      cases rest with
      | nil => rfl
      | cons second rest =>
          exact ih nofun fun exit' hmem => hexits exit' (List.mem_cons_of_mem _ hmem)

theorem Spot.landAll_depth {a : Spot} {exits : List Nat} (hexits : ∀ exit ∈ exits, exit = a.depth) :
    (a.landAll exits).depth = a.depth := by
  cases exits with
  | nil => rfl
  | cons exit rest =>
      rw [landAll_eq (List.cons_ne_nil exit rest) hexits]
      rfl

/-! ### Pieces of code -/

/-- The code from `lo` up to `hi` can be marked.  Control comes in with the mark `entry`, goes on
at the end with the mark `exit`, and leaves the code in the middle only as `X` allows.  Jumps that
control never gets to lead to such places too. -/
structure Piece (F : Image) (X : Nat → Mark → Prop) (lo hi : Nat) (entry exit : Option Mark)
    (marks : Nat → Option Mark) : Prop where
  ordered : lo ≤ hi
  entered : ∀ m, entry = some m → (lo < hi ∧ marks lo = some m) ∨ (lo = hi ∧ exit = some m)
  within : ∀ i m, marks i = some m → lo ≤ i ∧ i < hi ∧
    ∃ instruction, F.code[i]? = some instruction ∧ m.Allows F.maxStack instruction
  closed : ∀ i m instruction way j n, marks i = some m → F.code[i]? = some instruction →
    m.after? instruction i way = some (j, n) →
      marks j = some n ∨ (j = hi ∧ exit = some n) ∨ X j n
  aimed : ∀ i instruction target, lo ≤ i → i < hi → F.code[i]? = some instruction →
    instruction.target? = some target →
      target.toNat < hi ∨ (target.toNat = hi ∧ exit ≠ none) ∨ ∃ m, X target.toNat m

/-- The code between two places can be marked, with these handlers at the start and those at the
end. -/
def Runs (F : Image) (X : Nat → Mark → Prop) (a : Spot) (before : List Nat) (b : Spot)
    (after : List Nat) : Prop :=
  ∃ marks, Piece F X a.index b.index (a.mark before) (b.mark after) marks

/-- The places `X` allows, and one more if it is wanted. -/
def Also (wanted : Prop) (X : Nat → Mark → Prop) (goal : Nat) (mark : Mark) (j : Nat) (n : Mark) :
    Prop :=
  X j n ∨ (wanted ∧ j = goal ∧ n = mark)

theorem Also.old {wanted : Prop} {X : Nat → Mark → Prop} {goal j : Nat} {mark n : Mark}
    (h : X j n) : Also wanted X goal mark j n :=
  .inl h

theorem Also.new {wanted : Prop} {X : Nat → Mark → Prop} {goal : Nat} {mark : Mark}
    (h : wanted) : Also wanted X goal mark goal mark :=
  .inr ⟨h, rfl, rfl⟩

namespace Runs

variable {F : Image} {X Y : Nat → Mark → Prop} {a b c : Spot} {before middle after : List Nat}

theorem refl : Runs F X a before a before := by
  refine ⟨fun _ => none, Nat.le_refl _, ?_, ?_, ?_, ?_⟩
  · intro m h
    exact .inr ⟨rfl, h⟩
  · intro i m h
    cases h
  · intro i m instruction way j n h
    cases h
  · intro i instruction target hlo hhi
    exact absurd (Nat.lt_of_le_of_lt hlo hhi) (Nat.lt_irrefl _)

theorem mono (h : Runs F X a before b after) (hXY : ∀ j n, X j n → Y j n) :
    Runs F Y a before b after := by
  obtain ⟨marks, h⟩ := h
  refine ⟨marks, h.ordered, h.entered, h.within, ?_, ?_⟩
  · intro i m instruction way j n hm hfound hgoes
    rcases h.closed i m instruction way j n hm hfound hgoes with hin | hend | hout
    · exact .inl hin
    · exact .inr (.inl hend)
    · exact .inr (.inr (hXY j n hout))
  · intro i instruction target hlo hhi hfound htarget
    rcases h.aimed i instruction target hlo hhi hfound htarget with hin | hend | ⟨m, hout⟩
    · exact .inl hin
    · exact .inr (.inl hend)
    · exact .inr (.inr ⟨m, hXY _ _ hout⟩)

/-- Allow one more place. -/
theorem also {wanted : Prop} {goal : Nat} {mark : Mark} (h : Runs F X a before b after) :
    Runs F (Also wanted X goal mark) a before b after :=
  h.mono fun _ _ => Also.old

/-- One piece after another. -/
theorem append (h : Runs F X a before b middle) (h' : Runs F X b middle c after) :
    Runs F X a before c after := by
  obtain ⟨marks, h⟩ := h
  obtain ⟨marks', h'⟩ := h'
  have hab := h.ordered
  have hbc := h'.ordered
  have hfirst : ∀ j n, marks j = some n → (if j < b.index then marks j else marks' j) = some n := by
    intro j n hn
    rw [if_pos (h.within j n hn).2.1]
    exact hn
  have hsecond : ∀ j n, marks' j = some n →
      (if j < b.index then marks j else marks' j) = some n := by
    intro j n hn
    rw [if_neg (Nat.not_lt.mpr (h'.within j n hn).1)]
    exact hn
  refine ⟨fun i => if i < b.index then marks i else marks' i, by omega, ?_, ?_, ?_, ?_⟩
  · intro m hm
    rcases h.entered m hm with ⟨hlt, hin⟩ | ⟨heq, hend⟩
    · exact .inl ⟨by omega, hfirst _ _ hin⟩
    · rcases h'.entered m hend with ⟨hlt, hin⟩ | ⟨heq', hend'⟩
      · exact .inl ⟨by omega, heq ▸ hsecond _ _ hin⟩
      · exact .inr ⟨by omega, hend'⟩
  · intro i m hm
    split at hm
    · obtain ⟨hlo, hhi, hfound⟩ := h.within i m hm
      exact ⟨hlo, by omega, hfound⟩
    · obtain ⟨hlo, hhi, hfound⟩ := h'.within i m hm
      exact ⟨by omega, hhi, hfound⟩
  · intro i m instruction way j n hm hfound hgoes
    split at hm
    · rcases h.closed i m instruction way j n hm hfound hgoes with hin | ⟨rfl, hend⟩ | hout
      · exact .inl (hfirst j n hin)
      · rcases h'.entered n hend with ⟨hlt, hin⟩ | ⟨heq, hend'⟩
        · exact .inl (hsecond _ n hin)
        · exact .inr (.inl ⟨heq, hend'⟩)
      · exact .inr (.inr hout)
    · rcases h'.closed i m instruction way j n hm hfound hgoes with hin | hend | hout
      · exact .inl (hsecond j n hin)
      · exact .inr (.inl hend)
      · exact .inr (.inr hout)
  · intro i instruction target hlo hhi hfound htarget
    by_cases hi : i < b.index
    · rcases h.aimed i instruction target hlo hi hfound htarget with hin | ⟨heq, hend⟩ | hout
      · exact .inl (by omega)
      · obtain ⟨m, hm⟩ := Option.ne_none_iff_exists'.mp hend
        rcases h'.entered m hm with ⟨hlt, -⟩ | ⟨heq', hend'⟩
        · exact .inl (by omega)
        · exact .inr (.inl ⟨by omega, by rw [hend']; exact nofun⟩)
      · exact .inr (.inr hout)
    · exact h'.aimed i instruction target (by omega) hhi hfound htarget

/-- Jumps out of a piece land at its end. -/
theorem land {wanted : Prop} {depth : Nat}
    (h : Runs F (Also wanted X b.index ⟨depth, after⟩) a before b after)
    (hdepth : b.reachable = true → b.depth = depth) : Runs F X a before (b.land depth) after := by
  obtain ⟨marks, h⟩ := h
  have hend : ∀ n, b.mark after = some n → (b.land depth).mark after = some n := by
    intro n hn
    obtain ⟨hreachable, rfl⟩ := Spot.mark_eq_some.mp hn
    rw [hdepth hreachable]
    rfl
  refine ⟨marks, h.ordered, ?_, h.within, ?_, ?_⟩
  · intro m hm
    rcases h.entered m hm with hin | ⟨heq, hm⟩
    · exact .inl hin
    · exact .inr ⟨heq, hend m hm⟩
  · intro i m instruction way j n hm hfound hgoes
    rcases h.closed i m instruction way j n hm hfound hgoes with
      hin | ⟨heq, hn⟩ | hout | ⟨-, rfl, rfl⟩
    · exact .inl hin
    · exact .inr (.inl ⟨heq, hend n hn⟩)
    · exact .inr (.inr hout)
    · exact .inr (.inl ⟨rfl, rfl⟩)
  · intro i instruction target hlo hhi hfound htarget
    rcases h.aimed i instruction target hlo hhi hfound htarget with
      hin | ⟨heq, -⟩ | ⟨m, hout | ⟨-, heq, -⟩⟩
    · exact .inl hin
    · exact .inr (.inl ⟨heq, nofun⟩)
    · exact .inr (.inr ⟨m, hout⟩)
    · exact .inr (.inl ⟨heq, nofun⟩)

/-- Several jumps out of a piece land at its end, if there are any. -/
theorem landAll {exits : List Nat} {depth : Nat}
    (h : Runs F (Also (exits ≠ []) X b.index ⟨depth, after⟩) a before b after)
    (hexits : ∀ exit ∈ exits, exit = depth) (hdepth : b.reachable = true → b.depth = depth) :
    Runs F X a before (b.landAll exits) after := by
  cases exits with
  | nil =>
      refine h.mono fun j n hout => ?_
      rcases hout with hout | ⟨habsurd, -⟩
      · exact hout
      · exact absurd rfl habsurd
  | cons exit rest =>
      have hland : (b.landAll (exit :: rest)) = b.land depth := Spot.landAll_eq nofun hexits
      rw [hland]
      exact h.land hdepth

/-- Jumps out of a piece go back to its start. -/
theorem loop {wanted : Prop}
    (h : Runs F (Also wanted X a.index ⟨a.depth, before⟩) a before b after) :
    Runs F X a before b after := by
  obtain ⟨marks, h⟩ := h
  have haimed : ∀ i instruction target, a.index ≤ i → i < b.index →
      F.code[i]? = some instruction → instruction.target? = some target →
        target.toNat < b.index ∨ (target.toNat = b.index ∧ b.mark after ≠ none) ∨
          ∃ m, X target.toNat m := by
    intro i instruction target hlo hhi hfound htarget
    rcases h.aimed i instruction target hlo hhi hfound htarget with
      hin | hend | ⟨m, hout | ⟨-, heq, -⟩⟩
    · exact .inl hin
    · exact .inr (.inl hend)
    · exact .inr (.inr ⟨m, hout⟩)
    · exact .inl (by omega)
  by_cases hreachable : a.reachable = true
  · refine ⟨marks, h.ordered, h.entered, h.within, ?_, haimed⟩
    intro i m instruction way j n hm hfound hgoes
    rcases h.closed i m instruction way j n hm hfound hgoes with
      hin | hend | hout | ⟨-, rfl, rfl⟩
    · exact .inl hin
    · exact .inr (.inl hend)
    · exact .inr (.inr hout)
    · have hentry := h.entered _ (Spot.mark_eq_some.mpr ⟨hreachable, rfl⟩)
      rcases hentry with ⟨-, hin⟩ | hend
      · exact .inl hin
      · exact .inr (.inl hend)
  · -- Control never comes in, so nothing needs a mark.
    refine ⟨fun _ => none, h.ordered, ?_, ?_, ?_, haimed⟩
    · intro m hm
      exact absurd (Spot.mark_eq_some.mp hm).1 hreachable
    · intro i m hm
      cases hm
    · intro i m instruction way j n hm
      cases hm

/-- Past the end of a piece that control does not come out of, anything can be said. -/
theorem reset {depth : Nat} {after' : List Nat} (h : Runs F X a before b after)
    (hend : b.reachable = false) : Runs F X a before (b.reset depth) after' := by
  obtain ⟨marks, h⟩ := h
  have hmark : (b.reset depth).mark after' = b.mark after := by
    have hreset : (b.reset depth).reachable = false := hend
    rw [Spot.mark_unreachable hend, Spot.mark_unreachable hreset]
  refine ⟨marks, ?_⟩
  rw [hmark]
  exact h

/-! ### Single instructions -/

/-- An instruction that is allowed where it stands, and whose target is. -/
theorem single {instruction : Instruction} (h : F.Writes instruction a b)
    (hallows : a.reachable = true → Mark.Allows ⟨a.depth, before⟩ F.maxStack instruction)
    (hnext : b.reachable = true → after = instruction.op.handlersAfter a.index .next before)
    (htaken : ∀ target, instruction.target? = some target → ∃ use,
      instruction.op.branchUse? = some use ∧ X target.toNat
        ⟨a.depth - use.pops + use.pushes, instruction.op.handlersAfter a.index .taken before⟩) :
    Runs F X a before b after := by
  have hindex : b.index = a.index + 1 := by
    rw [h.next]
    rfl
  refine ⟨fun i => if i = a.index then a.mark before else none, by omega, ?_, ?_, ?_, ?_⟩
  · intro m hm
    exact .inl ⟨by omega, (if_pos rfl).trans hm⟩
  · intro i m hm
    split at hm
    · rename_i heq
      obtain ⟨hreachable, rfl⟩ := Spot.mark_eq_some.mp hm
      exact ⟨by omega, by omega, instruction, heq ▸ h.at_index, hallows hreachable⟩
    · cases hm
  · intro i m other way j n hm hfound hgoes
    split at hm
    · rename_i heq
      subst heq
      obtain ⟨hreachable, rfl⟩ := Spot.mark_eq_some.mp hm
      obtain rfl : instruction = other := Option.some.inj (h.at_index.symm.trans hfound)
      obtain ⟨⟨goal, use⟩, hsuccessor, heq⟩ := Option.map_eq_some_iff.mp hgoes
      obtain ⟨rfl, rfl⟩ := Prod.mk.inj heq
      cases way with
      | next =>
          simp only [Instruction.successor?] at hsuccessor
          split at hsuccessor
          · cases hsuccessor
          · rename_i hterminal
            obtain ⟨rfl, rfl⟩ := Prod.mk.inj (Option.some.inj hsuccessor)
            have hfalls : b.reachable = true := by
              rw [h.next]
              simp [Spot.step, hreachable, hterminal]
            refine .inr (.inl ⟨hindex.symm, Spot.mark_eq_some.mpr ⟨hfalls, ?_⟩⟩)
            rw [hnext hfalls, h.next]
            rfl
      | taken =>
          simp only [Instruction.successor?] at hsuccessor
          split at hsuccessor
          · rename_i use' target huse htarget
            obtain ⟨rfl, rfl⟩ := Prod.mk.inj (Option.some.inj hsuccessor)
            obtain ⟨use, huse', hout⟩ := htaken target htarget
            obtain rfl : use = use' := Option.some.inj (huse'.symm.trans huse)
            exact .inr (.inr hout)
          · cases hsuccessor
    · cases hm
  · intro i other target hlo hhi hfound htarget
    obtain rfl : i = a.index := by omega
    obtain rfl : instruction = other := Option.some.inj (h.at_index.symm.trans hfound)
    obtain ⟨use, -, hout⟩ := htaken target htarget
    exact .inr (.inr ⟨_, hout⟩)

/-- An instruction without a target that has nothing to do with handlers. -/
theorem write {instruction : Instruction} (h : F.Writes instruction a b)
    (hop : instruction.op.unconcerned = true) (htarget : instruction.target? = none)
    (hpops : instruction.stackUse.pops ≤ a.depth) : Runs F X a before b before := by
  refine single h (fun _ => ⟨hpops, h.fits, ?_, ?_⟩) (fun _ => ?_) ?_
  · intro heq
    rw [heq] at hop
    cases hop
  · intro heq
    rw [heq] at hop
    cases hop
  · exact (Opcode.handlersAfter_unconcerned hop ..).symm
  · intro target h
    rw [htarget] at h
    cases h

/-- A jump to a place that is allowed. -/
theorem jump {op : Opcode} {target : Nat} (h : F.Jumps op target a b)
    (hop : op.unconcerned = true) (hbranch : op.branchUse? ≠ none)
    (hpops : (op.stackUse 0).pops ≤ a.depth) (hout : X target ⟨a.taken op, before⟩) :
    Runs F X a before b before := by
  obtain ⟨word, rfl, h⟩ := h
  refine single h (fun _ => ⟨hpops, h.fits, ?_, ?_⟩) (fun _ => ?_) ?_
  · intro heq
    rw [show op = .tryEnd from heq] at hop
    cases hop
  · intro heq
    rw [show op = .ret from heq] at hop
    cases hop
  · exact (Opcode.handlersAfter_unconcerned hop ..).symm
  · intro target htarget
    obtain rfl : word = target := Option.some.inj htarget
    obtain ⟨use, huse⟩ := Option.ne_none_iff_exists'.mp hbranch
    refine ⟨use, huse, ?_⟩
    rw [Spot.taken, huse] at hout
    rw [Opcode.handlersAfter_unconcerned hop]
    exact hout

/-- A handler is installed.  Its catch path starts with the handlers as they were. -/
theorem install {target : Nat} (h : F.Jumps .tryBegin target a b)
    (hout : X target ⟨a.depth + 1, before⟩) : Runs F X a before b (a.index :: before) := by
  obtain ⟨word, rfl, h⟩ := h
  refine single h (fun _ => ⟨Nat.zero_le _, h.fits, nofun, nofun⟩) (fun _ => rfl) ?_
  intro target htarget
  obtain rfl : word = target := Option.some.inj htarget
  exact ⟨_, rfl, hout⟩

/-- The innermost handler is removed. -/
theorem remove {handler : Nat} (h : F.Writes ⟨.tryEnd, .none⟩ a b) :
    Runs F X a (handler :: before) b before :=
  single h (fun _ => ⟨Nat.zero_le _, h.fits, nofun, nofun⟩) (fun _ => rfl) nofun

/-- So many handlers are removed. -/
theorem unwind {count : Nat} (h : Unwinds F count a b) (hcount : count ≤ before.length) :
    Runs F X a before b (before.drop count) := by
  induction h generalizing before with
  | done => exact refl
  | next leaves rest ih =>
      cases before with
      | nil => exact absurd hcount (Nat.not_succ_le_zero _)
      | cons handler outer => exact (remove leaves).append (ih (Nat.le_of_succ_le_succ hcount))

/-- The function is left. -/
theorem ret (h : F.Writes ⟨.ret, .none⟩ a b) (hpops : 2 ≤ a.depth) : Runs F X a [] b after :=
  single h (fun _ => ⟨hpops, h.fits, nofun, fun _ => rfl⟩)
    (fun hfalls => by rw [h.next] at hfalls; simp [Spot.step, Opcode.isTerminal] at hfalls) nofun

end Runs

end Layout

end QueryCompiler
