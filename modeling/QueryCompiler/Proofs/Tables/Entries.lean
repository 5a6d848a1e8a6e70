/-
The entries of a constant pool, and the numbers they are known by.

A pool that is asked for one constant after the other has an entry for each of them, in
the order in which they were first asked for, and the number of a constant is how many
others were asked for before it.  So what becomes of a new pool is known from the calls
alone: it is `Pool.holding` their constants, and it answers with `Pool.number`.  One call
takes the pool that holds a list to the pool that holds one constant more, and everything
else is an induction on the calls.

Constants are the same if they are the same data.  An integer is never a float, and floats
are told apart by their bits, so that the two zeros have a number each and a not-a-number
is found again, although as numbers the zeros are equal and a not-a-number equals nothing.
-/
import Mathlib.Data.Finset.Card
import QueryCompiler.Proofs.Tables.Text

namespace QueryCompiler

/-! ### First occurrences -/

section FirstOccurrences

variable {α : Type} [DecidableEq α]

theorem eraseDups_concat (l : List α) (a : α) :
    (l ++ [a]).eraseDups = if a ∈ l then l.eraseDups else l.eraseDups ++ [a] := by
  rw [List.eraseDups_append]
  by_cases hmem : a ∈ l
  · simp [List.removeAll, hmem]
  · simp [List.removeAll, List.eraseDups_cons, hmem]

theorem eraseDups_append_left (l more : List α) : l.eraseDups <+: (l ++ more).eraseDups := by
  rw [List.eraseDups_append]
  exact List.prefix_append _ _

theorem nodup_eraseDups (l : List α) : l.eraseDups.Nodup := by
  induction l using List.reverseRecOn with
  | nil => exact List.nodup_nil
  | append_singleton l a ih =>
      rw [eraseDups_concat]
      by_cases hmem : a ∈ l
      · rw [if_pos hmem]
        exact ih
      · rw [if_neg hmem, ← List.concat_eq_append]
        exact ih.concat fun h => hmem (List.mem_eraseDups.mp h)

theorem length_eraseDups (l : List α) : l.eraseDups.length = l.toFinset.card := by
  have hsame : l.eraseDups.toFinset = l.toFinset := by
    ext a
    simp only [List.mem_toFinset, List.mem_eraseDups]
  rw [← List.toFinset_card_of_nodup (nodup_eraseDups l), hsame]

/-- Before an element there are those that occur before it. -/
theorem idxOf_eraseDups {l : List α} {a : α} (h : a ∈ l) :
    l.eraseDups.idxOf a = (l.take (l.idxOf a)).toFinset.card := by
  have hlt : l.idxOf a < l.length := List.idxOf_lt_length_iff.mpr h
  have hfirst : a ∉ l.take (l.idxOf a) := by
    rw [List.mem_take_iff_idxOf_lt h]
    exact Nat.lt_irrefl _
  have hsplit : l.take (l.idxOf a) ++ [a] ++ l.drop (l.idxOf a + 1) = l := by
    rw [List.append_assoc, List.singleton_append]
    nth_rewrite 2 [← List.getElem_idxOf hlt]
    rw [← List.drop_eq_getElem_cons hlt, List.take_append_drop]
  have hinitial := eraseDups_append_left (l.take (l.idxOf a) ++ [a]) (l.drop (l.idxOf a + 1))
  rw [hsplit, eraseDups_concat, if_neg hfirst] at hinitial
  rw [← hinitial.idxOf_eq_of_mem (List.mem_append_right _ (List.mem_singleton_self a)),
    List.idxOf_append_of_notMem (fun hmem => hfirst (List.mem_eraseDups.mp hmem)),
    List.idxOf_cons_self, length_eraseDups, Nat.add_zero]

end FirstOccurrences

namespace Pool

variable {pool : Pool} {value other : Constant} {id : UInt32} {asked later : List Constant}

/-! ### Calls -/

/-- Ask a pool for constants, one after the other. -/
def addAll (pool : Pool) : List Constant → Except CompileError (List UInt32 × Pool)
  | [] => .ok ([], pool)
  | value :: rest => do
    let (id, pool) ← pool.add value
    let (ids, pool) ← pool.addAll rest
    return (id :: ids, pool)

theorem addAll_cons {next last : Pool} {ids : List UInt32} (hadd : pool.add value = .ok (id, next))
    (hrest : next.addAll later = .ok (ids, last)) :
    pool.addAll (value :: later) = .ok (id :: ids, last) := by
  simp only [addAll, hadd, hrest, bind, Except.bind, pure, Except.pure]

/-- The pool that has an entry for each of these constants, in the order of the list. -/
def holding (asked : List Constant) : Pool where
  constants := asked.eraseDups.toArray

/-- The number of a constant in such a pool. -/
def number (asked : List Constant) (value : Constant) : UInt32 :=
  (asked.eraseDups.idxOf value).toUInt32

theorem mem_holding : value ∈ (holding asked).constants ↔ value ∈ asked := by
  rw [holding, List.mem_toArray, List.mem_eraseDups]

theorem size_holding (asked : List Constant) : (holding asked).size = asked.toFinset.card := by
  rw [size, holding, List.size_toArray, length_eraseDups]

/-- Numbers are given for good. -/
theorem number_append (h : value ∈ asked) :
    number (asked ++ later) value = number asked value := by
  unfold number
  rw [(eraseDups_append_left asked later).idxOf_eq_of_mem (List.mem_eraseDups.mpr h)]

theorem card_le_of_append (hfew : (asked ++ later).toFinset.card ≤ limit) :
    asked.toFinset.card ≤ limit := by
  refine Nat.le_trans (Finset.card_le_card ?_) hfew
  rw [List.toFinset_append]
  exact Finset.subset_union_left

/-- **What one call does to a pool.** -/
theorem add_holding (hfew : (asked ++ [value]).toFinset.card ≤ limit) :
    (holding asked).add value =
      .ok (number (asked ++ [value]) value, holding (asked ++ [value])) := by
  by_cases hmem : value ∈ asked
  · have hsame : holding (asked ++ [value]) = holding asked := by
      unfold holding
      rw [eraseDups_concat, if_pos hmem]
    rw [add_of_mem (mem_holding.mpr hmem), number_append hmem, hsame, holding, number,
      List.idxOf_toArray]
  · have hlist : (asked ++ [value]).eraseDups = asked.eraseDups ++ [value] := by
      rw [eraseDups_concat, if_neg hmem]
    have hroom : ¬ limit ≤ (holding asked).size := by
      rw [← length_eraseDups, hlist, List.length_append, length_eraseDups] at hfew
      rw [size_holding]
      exact Nat.not_le.mpr hfew
    have hlast : (asked.eraseDups ++ [value]).idxOf value = asked.eraseDups.length := by
      rw [List.idxOf_append_of_notMem (fun h => hmem (List.mem_eraseDups.mp h)),
        List.idxOf_cons_self, Nat.add_zero]
    rw [add_of_not_mem (fun h => hmem (mem_holding.mp h)), if_neg hroom, number, holding, holding,
      hlist, hlast, size, List.size_toArray, List.push_toArray]

/-- **What calls do to a pool,** if there are numbers for all the constants.  The induction is on the
calls, and goes from the pool that each of them leaves. -/
theorem addAll_holding (hfew : (asked ++ later).toFinset.card ≤ limit) :
    (holding asked).addAll later =
      .ok (later.map (number (asked ++ later)), holding (asked ++ later)) := by
  induction later generalizing asked with
  | nil =>
      rw [List.append_nil]
      rfl
  | cons value rest ih =>
      rw [List.append_cons] at hfew ⊢
      have hnumber : number (asked ++ [value] ++ rest) value = number (asked ++ [value]) value :=
        number_append (List.mem_append_right _ (List.mem_singleton_self value))
      rw [List.map_cons, hnumber]
      exact addAll_cons (add_holding (card_le_of_append hfew)) (ih hfew)

theorem addAll_new (hfew : asked.toFinset.card ≤ limit) :
    ({} : Pool).addAll asked = .ok (asked.map (number asked), holding asked) := by
  show (holding []).addAll asked = _
  exact addAll_holding hfew

/-! ### Numbers -/

theorem toNat_number (hfew : asked.toFinset.card ≤ limit) (h : value ∈ asked) :
    (number asked value).toNat = asked.eraseDups.idxOf value := by
  have hlt : asked.eraseDups.idxOf value < asked.eraseDups.length :=
    List.idxOf_lt_length_iff.mpr (List.mem_eraseDups.mpr h)
  rw [length_eraseDups] at hlt
  exact toNat_toUInt32 (Nat.lt_of_lt_of_le hlt (Nat.le_trans hfew (by decide)))

theorem get?_number (hfew : asked.toFinset.card ≤ limit) (h : value ∈ asked) :
    (holding asked).get? (number asked value) = some value := by
  rw [get?, toNat_number hfew h, holding, List.getElem?_toArray]
  exact List.getElem?_idxOf (List.mem_eraseDups.mpr h)

theorem number_inj (hfew : asked.toFinset.card ≤ limit) (h : value ∈ asked) (h' : other ∈ asked) :
    number asked value = number asked other ↔ value = other := by
  constructor
  · intro hsame
    have hget := get?_number hfew h
    rw [hsame, get?_number hfew h'] at hget
    exact (Option.some.inj hget).symm
  · exact congrArg (number asked)

theorem number_take {n : Nat} (h : value ∈ asked.take n) :
    number asked value = number (asked.take n) value := by
  have happend : number (asked.take n ++ asked.drop n) value = number (asked.take n) value :=
    number_append h
  rw [List.take_append_drop] at happend
  exact happend

end Pool

end QueryCompiler
