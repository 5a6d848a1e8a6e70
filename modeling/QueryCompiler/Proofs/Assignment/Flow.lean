/-
Where control can get while a slot is unset.

A slot of a function is unset until something is stored in it.  That it is not read
while it is unset is shown by a set of instructions that control may get to before:
it holds the first instruction, no load from the slot is in it, and from an instruction
in it that does not store to the slot all ways lead to instructions in it.

`Unread F slot X lo hi entry exit` says that there is such a set for a piece of the
code.  Control may come in with the slot unset if `entry` holds; it may then go on at
the end, if `exit` holds, or leave the code in the middle for a place that `X` allows.
Code is put together from such pieces as it is in `Verifier/Flow`, but it does not
matter here how deep the operand stack is, nor whether control gets anywhere at all.
-/
import QueryCompiler.Proofs.Verifier.Flow

namespace QueryCompiler

/-! ### Ways from the first instruction -/

/-- Control can get to an instruction from the first one by way of others, given last one first. -/
inductive Visits (code : Array Instruction) : List Nat → Nat → Prop
  | start : Visits code [] 0
  | step {past : List Nat} {i j : Nat} {instruction : Instruction} {way : Way} {use : StackUse}
      (before : Visits code past i) (found : code[i]? = some instruction)
      (goes : instruction.successor? i way = some (j, use)) : Visits code (i :: past) j

namespace Layout

/-- The instruction that loads from a slot of the current function. -/
abbrev loadOf (slot : UInt16) : Instruction := ⟨.load, .slot ⟨0, slot⟩⟩

/-- The instruction that stores to a slot of the current function. -/
abbrev storeOf (slot : UInt16) : Instruction := ⟨.store, .slot ⟨0, slot⟩⟩

/-! ### Pieces of code -/

/-- In the code from `lo` up to `hi`, control gets to the `early` instructions at most while the
slot is unset, and none of them reads it. -/
structure Early (F : Image) (slot : UInt16) (X : Nat → Prop) (lo hi : Nat) (entry exit : Prop)
    (early : Nat → Prop) : Prop where
  ordered : lo ≤ hi
  entered : entry → (lo < hi ∧ early lo) ∨ (lo = hi ∧ exit)
  within : ∀ i, early i → lo ≤ i ∧ i < hi
  unread : ∀ i, early i → F.code[i]? ≠ some (loadOf slot)
  closed : ∀ i instruction way j use, early i → F.code[i]? = some instruction →
    instruction ≠ storeOf slot → instruction.successor? i way = some (j, use) →
      early j ∨ (j = hi ∧ exit) ∨ X j

/-- In the code from `lo` up to `hi` the slot is not read while it is unset, which it may be at the
start if `entry` holds, and at the end only if `exit` does. -/
def Unread (F : Image) (slot : UInt16) (X : Nat → Prop) (lo hi : Nat) (entry exit : Prop) : Prop :=
  ∃ early, Early F slot X lo hi entry exit early

/-- The places `X` allows, and one more if it is wanted. -/
def OrTo (wanted : Prop) (goal : Nat) (X : Nat → Prop) (j : Nat) : Prop :=
  X j ∨ (wanted ∧ j = goal)

namespace Unread

variable {F : Image} {slot : UInt16} {X Y : Nat → Prop} {lo mid hi : Nat}
  {entry middle exit wanted : Prop}

theorem refl (h : entry → exit) : Unread F slot X lo lo entry exit := by
  refine ⟨fun _ => False, Nat.le_refl _, ?_, ?_, ?_, ?_⟩
  · intro hentry
    exact .inr ⟨rfl, h hentry⟩
  · intro i hi
    exact hi.elim
  · intro i hi
    exact hi.elim
  · intro i instruction way j use hi
    exact hi.elim

/-- Once something was stored in the slot it is set for good. -/
theorem set (h : lo ≤ hi) (hentry : ¬ entry) : Unread F slot X lo hi entry exit := by
  refine ⟨fun _ => False, h, ?_, ?_, ?_, ?_⟩
  · intro habsurd
    exact absurd habsurd hentry
  · intro i hi
    exact hi.elim
  · intro i hi
    exact hi.elim
  · intro i instruction way j use hi
    exact hi.elim

theorem ordered (h : Unread F slot X lo hi entry exit) : lo ≤ hi := by
  obtain ⟨early, h⟩ := h
  exact h.ordered

/-- Jumps out of a piece may turn out to lead to its own start or end, where the slot may be unset
as well. -/
theorem redirect (h : Unread F slot X lo hi entry exit)
    (hX : ∀ j, X j → (j = lo ∧ entry) ∨ (j = hi ∧ exit) ∨ Y j) :
    Unread F slot Y lo hi entry exit := by
  obtain ⟨early, h⟩ := h
  refine ⟨early, h.ordered, h.entered, h.within, h.unread, ?_⟩
  intro i instruction way j use hearly hfound hstore hgoes
  rcases h.closed i instruction way j use hearly hfound hstore hgoes with hin | hend | hout
  · exact .inl hin
  · exact .inr (.inl hend)
  · rcases hX j hout with ⟨rfl, hentry⟩ | hend | hleft
    · exact (h.entered hentry).imp (fun hin => hin.2) .inl
    · exact .inr (.inl hend)
    · exact .inr (.inr hleft)

theorem mono (h : Unread F slot X lo hi entry exit) (hXY : ∀ j, X j → Y j) :
    Unread F slot Y lo hi entry exit :=
  h.redirect fun j hout => .inr (.inr (hXY j hout))

/-- Allow one more place. -/
theorem orTo {goal : Nat} (h : Unread F slot X lo hi entry exit) :
    Unread F slot (OrTo wanted goal X) lo hi entry exit :=
  h.mono fun _ => .inl

/-- Less may be known at the end. -/
theorem weaken (h : Unread F slot X lo hi entry middle) (hexit : middle → exit) :
    Unread F slot X lo hi entry exit := by
  obtain ⟨early, h⟩ := h
  refine ⟨early, h.ordered, ?_, h.within, h.unread, ?_⟩
  · intro hentry
    exact (h.entered hentry).imp_right fun hend => ⟨hend.1, hexit hend.2⟩
  · intro i instruction way j use hearly hfound hstore hgoes
    rcases h.closed i instruction way j use hearly hfound hstore hgoes with hin | hend | hout
    · exact .inl hin
    · exact .inr (.inl ⟨hend.1, hexit hend.2⟩)
    · exact .inr (.inr hout)

/-- More may be known at the start. -/
theorem strengthen (h : Unread F slot X lo hi middle exit) (hentry : entry → middle) :
    Unread F slot X lo hi entry exit := by
  obtain ⟨early, h⟩ := h
  exact ⟨early, h.ordered, fun he => h.entered (hentry he), h.within, h.unread, h.closed⟩

/-- What has nothing to do with the code still holds at the end. -/
theorem restrict (h : Unread F slot X lo hi entry exit) (fact : Prop) :
    Unread F slot X lo hi (entry ∧ fact) (exit ∧ fact) := by
  by_cases hfact : fact
  · exact (h.strengthen And.left).weaken fun hexit => ⟨hexit, hfact⟩
  · exact .set h.ordered fun hentry => hfact hentry.2

/-- One piece after another. -/
theorem append (h : Unread F slot X lo mid entry middle)
    (h' : Unread F slot X mid hi middle exit) : Unread F slot X lo hi entry exit := by
  obtain ⟨early, h⟩ := h
  obtain ⟨early', h'⟩ := h'
  have hlo := h.ordered
  have hhi := h'.ordered
  -- What gets to the end of the first piece gets to the start of the second.
  have hseam : middle → (early mid ∨ early' mid) ∨ (mid = hi ∧ exit) := by
    intro hmiddle
    exact (h'.entered hmiddle).imp_left fun hin => .inr hin.2
  refine ⟨fun i => early i ∨ early' i, by omega, ?_, ?_, ?_, ?_⟩
  · intro hentry
    rcases h.entered hentry with ⟨hlt, hin⟩ | ⟨rfl, hmiddle⟩
    · exact .inl ⟨by omega, .inl hin⟩
    · rcases h'.entered hmiddle with ⟨hlt, hin⟩ | hend
      · exact .inl ⟨hlt, .inr hin⟩
      · exact .inr hend
  · rintro i (hin | hin)
    · have hbounds := h.within i hin
      omega
    · have hbounds := h'.within i hin
      omega
  · rintro i (hin | hin)
    · exact h.unread i hin
    · exact h'.unread i hin
  · rintro i instruction way j use (hin | hin) hfound hstore hgoes
    · rcases h.closed i instruction way j use hin hfound hstore hgoes with
        hin | ⟨rfl, hmiddle⟩ | hout
      · exact .inl (.inl hin)
      · exact (hseam hmiddle).imp_right .inl
      · exact .inr (.inr hout)
    · rcases h'.closed i instruction way j use hin hfound hstore hgoes with hin | hend | hout
      · exact .inl (.inr hin)
      · exact .inr (.inl hend)
      · exact .inr (.inr hout)

/-- Jumps out of a piece land at its end. -/
theorem land (h : Unread F slot (OrTo wanted hi X) lo hi entry exit) (hwanted : wanted → exit) :
    Unread F slot X lo hi entry exit := by
  refine h.redirect fun j hout => ?_
  rcases hout with hout | ⟨hwant, heq⟩
  · exact .inr (.inr hout)
  · exact .inr (.inl ⟨heq, hwanted hwant⟩)

/-- Jumps out of a piece go back to its start. -/
theorem loop (h : Unread F slot (OrTo wanted lo X) lo hi entry exit) (hwanted : wanted → entry) :
    Unread F slot X lo hi entry exit := by
  refine h.redirect fun j hout => ?_
  rcases hout with hout | ⟨hwant, heq⟩
  · exact .inr (.inr hout)
  · exact .inl ⟨heq, hwanted hwant⟩

/-! ### Single instructions -/

/-- An instruction that does not read the slot while it may be unset, with what holds after it and
at its target. -/
theorem single {instruction : Instruction} (h : F.code[lo]? = some instruction)
    (hload : entry → instruction ≠ loadOf slot)
    (hnext : entry → instruction ≠ storeOf slot → instruction.op.isTerminal = false → exit)
    (htaken : ∀ target, instruction.target? = some target → entry → X target.toNat) :
    Unread F slot X lo (lo + 1) entry exit := by
  refine ⟨fun i => i = lo ∧ entry, Nat.le_succ _, ?_, ?_, ?_, ?_⟩
  · intro hentry
    exact .inl ⟨Nat.lt_succ_self _, rfl, hentry⟩
  · rintro i ⟨rfl, -⟩
    exact ⟨Nat.le_refl _, Nat.lt_succ_self _⟩
  · rintro i ⟨rfl, hentry⟩ hread
    exact hload hentry (Option.some.inj (h.symm.trans hread))
  · rintro i other way j use ⟨rfl, hentry⟩ hfound hstore hgoes
    obtain rfl : instruction = other := Option.some.inj (h.symm.trans hfound)
    cases way with
    | next =>
        simp only [Instruction.successor?] at hgoes
        split at hgoes
        · cases hgoes
        · rename_i hterminal
          obtain ⟨rfl, -⟩ := Prod.mk.inj (Option.some.inj hgoes)
          exact .inr (.inl ⟨rfl, hnext hentry hstore (Bool.eq_false_iff.mpr hterminal)⟩)
    | taken =>
        simp only [Instruction.successor?] at hgoes
        split at hgoes
        · rename_i target _ htarget
          obtain ⟨rfl, -⟩ := Prod.mk.inj (Option.some.inj hgoes)
          exact .inr (.inr (htaken _ htarget hentry))
        · cases hgoes

variable {a b : Spot}

/-- An instruction without a target that has nothing to do with the slot. -/
theorem write {op : Opcode} {operand : Operand} (h : F.Writes ⟨op, operand⟩ a b)
    (htarget : Instruction.target? ⟨op, operand⟩ = none) (hload : op ≠ .load) :
    Unread F slot X a.index b.index entry entry := by
  rw [h.next]
  refine single h.at_index (fun _ hread => hload (Instruction.mk.inj hread).1)
    (fun hentry _ _ => hentry) ?_
  intro target habsurd
  rw [htarget] at habsurd
  cases habsurd

/-- A load from a slot that is set. -/
theorem load {ref : SlotRef} (h : F.Writes ⟨.load, .slot ref⟩ a b)
    (hset : entry → ref ≠ ⟨0, slot⟩) : Unread F slot X a.index b.index entry entry := by
  rw [h.next]
  refine single h.at_index (fun hentry hread => hset hentry ?_) (fun hentry _ _ => hentry) nofun
  exact Operand.slot.inj (Instruction.mk.inj hread).2

/-- A store, after which the slot is set if it was the one that was stored to. -/
theorem store {target : UInt16} (h : F.Writes (storeOf target) a b)
    (hother : entry → target ≠ slot → exit) : Unread F slot X a.index b.index entry exit := by
  rw [h.next]
  refine single h.at_index (fun _ => nofun) (fun hentry hstore _ => hother hentry ?_) nofun
  rintro rfl
  exact hstore rfl

/-- A jump to a place that is allowed. -/
theorem jump {op : Opcode} {target : Nat} (h : F.Jumps op target a b)
    (hnext : entry → op.isTerminal = false → exit) (hout : entry → X target) :
    Unread F slot X a.index b.index entry exit := by
  obtain ⟨word, rfl, h⟩ := h
  rw [h.next]
  refine single h.at_index (fun _ => nofun) (fun hentry _ hgoes => hnext hentry hgoes) ?_
  intro target htarget hentry
  obtain rfl : word = target := Option.some.inj htarget
  exact hout hentry

theorem unwind {count : Nat} (h : Unwinds F count a b) :
    Unread F slot X a.index b.index entry entry := by
  induction h with
  | done => exact refl id
  | next leaves _ ih => exact (write leaves rfl (by decide)).append ih

end Unread

/-! ### Whole functions -/

/-- **On every way to a load from the slot something has been stored in it before,** if the slot is
not read while it is unset. -/
theorem Unread.stored {F : Image} {slot : UInt16} {exit : Prop} {past : List Nat} {i : Nat}
    (h : Unread F slot (fun _ => False) 0 F.code.size True exit) (hvisits : Visits F.code past i)
    (hload : F.code[i]? = some (loadOf slot)) :
    ∃ j ∈ past, F.code[j]? = some (storeOf slot) := by
  obtain ⟨early, h⟩ := h
  -- As long as nothing has been stored, control is at an early instruction.
  have hreached : ∀ past i, Visits F.code past i → i < F.code.size →
      (∃ j ∈ past, F.code[j]? = some (storeOf slot)) ∨ early i := by
    intro past i hvisits
    induction hvisits with
    | start =>
        intro hlt
        rcases h.entered trivial with hin | hend
        · exact .inr hin.2
        · omega
    | @step past i j instruction way use _ hfound hgoes ih =>
        intro hlt
        have hi := (Array.getElem?_eq_some_iff.mp hfound).1
        rcases ih hi with ⟨k, hk, hstored⟩ | hearly
        · exact .inl ⟨k, List.mem_cons_of_mem _ hk, hstored⟩
        · by_cases hstore : instruction = storeOf slot
          · exact .inl ⟨i, List.mem_cons_self, hstore ▸ hfound⟩
          · rcases h.closed i instruction way j use hearly hfound hstore hgoes with
              hin | ⟨heq, -⟩ | hout
            · exact .inr hin
            · omega
            · exact hout.elim
  have hi := (Array.getElem?_eq_some_iff.mp hload).1
  rcases hreached past i hvisits hi with hstored | hearly
  · exact hstored
  · exact absurd hload (h.unread i hearly)

end Layout

end QueryCompiler
