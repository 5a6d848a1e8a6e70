/-
The index of a constant pool.

A pool with an index answers from the index, and adds to it along with the entries; the
index is keyed by mirrors of the constants.  That the two stay together is `Consistent`: a
key has a number in the index exactly if the entry with that number is a constant with that
key.  A new pool is consistent, and calls leave a consistent pool consistent.

What a consistent pool answers is what its entries alone would have answered.  That is shown
for one call, by whether the constant has an entry, and then for a list of calls by induction
(`addAll_follows`).  So the answers of a new pool are the numbers that are known of `Pool`.
-/
import QueryCompiler.Assembly.IndexedPool
import QueryCompiler.Proofs.Tables.Entries
import Std.Data.HashMap.Lemmas

namespace QueryCompiler

/-- Constants with the same key are the same data, floats being their bits. -/
theorem Constant.key_inj {value other : Constant} : value.key = other.key ↔ value = other := by
  refine ⟨fun hkey => ?_, congrArg Constant.key⟩
  cases value with
  | float x =>
      cases other with
      | float y =>
          have hbits : x.bits = y.bits := ConstantKey.float.inj hkey
          exact congrArg (fun bits => float ⟨bits⟩) hbits
      | _ => cases hkey
  | _ => cases other <;> simp_all [key]

namespace IndexedPool

variable {pool next : IndexedPool} {value other : Constant} {id : UInt32}
  {error : CompileError} {asked later : List Constant}

/-! ### The index and the entries -/

/-- The index finds the entry with a key, and nothing else, and there is a number for every
entry. -/
structure Consistent (pool : IndexedPool) : Prop where
  few : pool.size ≤ Pool.limit
  found : ∀ key id, pool.index[key]? = some id ↔
    ∃ value, pool.get? id = some value ∧ value.key = key

theorem new_consistent : Consistent {} where
  few := Nat.zero_le _
  found key id := by simp [get?]

/-- Numbers are words. -/
theorem toNat_number (h : pool.size ≤ Pool.limit) {index : Nat} (hindex : index ≤ pool.size) :
    index.toUInt32.toNat = index :=
  toNat_toUInt32 (Nat.lt_of_le_of_lt (Nat.le_trans hindex h) (by decide))

/-- **What the index says of a constant:** the place of its entry, if it has one. -/
theorem Consistent.index_key (h : pool.Consistent) (value : Constant) :
    pool.index[value.key]? =
      if value ∈ pool.constants then some (pool.constants.idxOf value).toUInt32 else none := by
  by_cases hmem : value ∈ pool.constants
  · have hlt : pool.constants.idxOf value < pool.constants.size :=
      Array.idxOf_lt_size_iff.mpr hmem
    rw [if_pos hmem]
    refine (h.found _ _).mpr ⟨value, ?_, rfl⟩
    rw [get?, toNat_number h.few (Nat.le_of_lt hlt), Array.getElem?_eq_getElem hlt]
    exact congrArg some (eq_of_beq (Array.findIdx_getElem (w := hlt)))
  · rw [if_neg hmem, Option.eq_none_iff_forall_ne_some]
    intro id hid
    obtain ⟨other, hget, hkey⟩ := (h.found _ _).mp hid
    rw [Constant.key_inj] at hkey
    exact hmem (hkey ▸ Array.mem_of_getElem? hget)

theorem Consistent.add_of_mem (h : pool.Consistent) (hmem : value ∈ pool.constants) :
    pool.add value = .ok ((pool.constants.idxOf value).toUInt32, pool) := by
  simp only [add, h.index_key, if_pos hmem]

theorem Consistent.add_of_not_mem (h : pool.Consistent) (hmem : value ∉ pool.constants) :
    pool.add value =
      if Pool.limit ≤ pool.size then .error (.poolFull Pool.limit)
      else .ok (pool.size.toUInt32, {
        constants := pool.constants.push value
        index := pool.index.insert value.key pool.size.toUInt32 }) := by
  simp only [add, h.index_key, if_neg hmem]

/-- **A new entry and its key go together.** -/
theorem Consistent.insert (h : pool.Consistent) (hmem : value ∉ pool.constants)
    (hroom : pool.size < Pool.limit) :
    Consistent {
      constants := pool.constants.push value
      index := pool.index.insert value.key pool.size.toUInt32 } where
  few := by
    rw [size, Array.size_push]
    exact hroom
  found key id := by
    have hlast : pool.size.toUInt32.toNat = pool.size := toNat_number h.few (Nat.le_refl _)
    have hnew : ∀ id, pool.index[value.key]? ≠ some id := by
      intro id hid
      rw [h.index_key, if_neg hmem] at hid
      cases hid
    simp only [get?, Array.getElem?_push, Std.HashMap.getElem?_insert, beq_iff_eq]
    constructor
    · intro hfound
      split at hfound
      · rename_i hkey
        obtain rfl := Option.some.inj hfound
        exact ⟨value, if_pos hlast, hkey⟩
      · obtain ⟨entry, hget, hkey⟩ := (h.found key id).mp hfound
        have hlt : id.toNat < pool.size := (Array.getElem?_eq_some_iff.mp hget).1
        exact ⟨entry, (if_neg (Nat.ne_of_lt hlt)).trans hget, hkey⟩
    · rintro ⟨entry, hget, rfl⟩
      split at hget
      · rename_i hid
        obtain rfl := Option.some.inj hget
        rw [if_pos rfl]
        exact congrArg some (UInt32.toNat_inj.mp (hlast.trans hid.symm))
      · have hold := (h.found entry.key id).mpr ⟨entry, hget, rfl⟩
        have hother : value.key ≠ entry.key := fun hkey => hnew id (hkey ▸ hold)
        rw [if_neg hother]
        exact hold

/-! ### Calls -/

/-- What a call on a pool with an index gives is what the entries alone give, and the pool that it
leaves is consistent. -/
def Follows {α : Type} (plain : Except CompileError (α × Pool)) :
    Except CompileError (α × IndexedPool) → Prop
  | .ok (answer, next) => next.Consistent ∧ plain = .ok (answer, next.unindexed)
  | .error error => plain = .error error

/-- **A pool with an index answers as its entries alone would.** -/
theorem Consistent.add_follows (h : pool.Consistent) (value : Constant) :
    Follows (pool.unindexed.add value) (pool.add value) := by
  by_cases hmem : value ∈ pool.constants
  · rw [h.add_of_mem hmem]
    exact ⟨h, Pool.add_of_mem hmem⟩
  · have hplain : pool.unindexed.add value = if Pool.limit ≤ pool.size then _ else _ :=
      Pool.add_of_not_mem hmem
    rw [h.add_of_not_mem hmem, hplain]
    split
    · exact rfl
    · rename_i hroom
      exact ⟨h.insert hmem (Nat.lt_of_not_le hroom), rfl⟩

/-- Ask a pool for constants, one after the other. -/
def addAll (pool : IndexedPool) : List Constant → Except CompileError (List UInt32 × IndexedPool)
  | [] => .ok ([], pool)
  | value :: rest => do
    let (id, pool) ← pool.add value
    let (ids, pool) ← pool.addAll rest
    return (id :: ids, pool)

/-- **So do any calls, one after the other.** -/
theorem Consistent.addAll_follows (h : pool.Consistent) (asked : List Constant) :
    Follows (pool.unindexed.addAll asked) (pool.addAll asked) := by
  induction asked generalizing pool with
  | nil => exact ⟨h, rfl⟩
  | cons value rest ih =>
      have hfirst := h.add_follows value
      rw [addAll, Pool.addAll]
      cases hadd : pool.add value with
      | error error =>
          rw [hadd] at hfirst
          rw [show pool.unindexed.add value = .error error from hfirst]
          exact rfl
      | ok answer =>
          obtain ⟨id, next⟩ := answer
          rw [hadd] at hfirst
          obtain ⟨hnext, hplain⟩ := hfirst
          have hrest := ih hnext
          rw [hplain]
          simp only [bind, Except.bind]
          cases hall : next.addAll rest with
          | error error =>
              rw [hall] at hrest
              rw [show next.unindexed.addAll rest = .error error from hrest]
              exact rfl
          | ok answers =>
              obtain ⟨ids, last⟩ := answers
              rw [hall] at hrest
              obtain ⟨hlast, hplain'⟩ := hrest
              rw [hplain']
              exact ⟨hlast, rfl⟩

/-- **What calls make of a new pool,** if there are numbers for all the constants. -/
theorem addAll_new (hfew : asked.toFinset.card ≤ Pool.limit) :
    ∃ pool, ({} : IndexedPool).addAll asked = .ok (asked.map (Pool.number asked), pool) ∧
      pool.Consistent ∧ pool.unindexed = Pool.holding asked := by
  have hfollows := new_consistent.addAll_follows asked
  have hplain : (unindexed {}).addAll asked = _ := Pool.addAll_new hfew
  rw [hplain] at hfollows
  cases hall : ({} : IndexedPool).addAll asked with
  | error error =>
      rw [hall] at hfollows
      cases hfollows
  | ok answers =>
      obtain ⟨ids, pool⟩ := answers
      rw [hall] at hfollows
      obtain ⟨hconsistent, hsame⟩ := hfollows
      obtain ⟨hids, hpool⟩ := Prod.mk.inj (Except.ok.inj hsame)
      exact ⟨pool, by rw [hids], hconsistent, hpool.symm⟩

/-- After the first calls the pool has given their numbers, and finds their constants. -/
theorem addAll_take (hfew : asked.toFinset.card ≤ Pool.limit) {n : Nat}
    (hvalue : value ∈ asked.take n) :
    ∃ earlier, ({} : IndexedPool).addAll (asked.take n) =
        .ok ((asked.map (Pool.number asked)).take n, earlier) ∧
      earlier.get? (Pool.number asked value) = some value := by
  have hsplit : asked.take n ++ asked.drop n = asked := List.take_append_drop n asked
  have hpart : (asked.take n).toFinset.card ≤ Pool.limit :=
    Pool.card_le_of_append (hsplit.symm ▸ hfew)
  obtain ⟨earlier, hrun, -, hentries⟩ := addAll_new hpart
  refine ⟨earlier, ?_, ?_⟩
  · rw [← List.map_take, List.map_congr_left fun _ h => Pool.number_take h]
    exact hrun
  · show earlier.unindexed.get? _ = _
    rw [hentries, Pool.number_take hvalue]
    exact Pool.get?_number hpart hvalue

/-! ### What calls are answered -/

/-- The call with this place in the list was for the constant, and was answered with the number. -/
def Call (asked : List Constant) (ids : List UInt32) (k : Nat) (value : Constant)
    (id : UInt32) : Prop :=
  asked[k]? = some value ∧ ids[k]? = some id

namespace Call

variable {i j : Nat} {id' : UInt32}

theorem eq_number (h : Call asked (asked.map (Pool.number asked)) i value id) :
    value ∈ asked ∧ id = Pool.number asked value := by
  obtain ⟨hvalue, hid⟩ := h
  rw [List.getElem?_map, hvalue] at hid
  exact ⟨List.mem_of_getElem? hvalue, (Option.some.inj hid).symm⟩

theorem eq_iff (hfew : asked.toFinset.card ≤ Pool.limit)
    (h : Call asked (asked.map (Pool.number asked)) i value id)
    (h' : Call asked (asked.map (Pool.number asked)) j other id') : id = id' ↔ value = other := by
  obtain ⟨hvalue, rfl⟩ := h.eq_number
  obtain ⟨hother, rfl⟩ := h'.eq_number
  exact Pool.number_inj hfew hvalue hother

end Call

/-- What a new pool has answered to calls, and what it has become. -/
structure Answered (asked : List Constant) (ids : List UInt32) (pool : IndexedPool) : Prop where
  length : ids.length = asked.length
  /-- The number of a constant is how many others were asked for before its first call. -/
  numbers : ∀ k value id, Call asked ids k value id →
    id.toNat = (asked.take (asked.idxOf value)).toFinset.card
  /-- Under its number a constant is found right after the call, and after any later one. -/
  found : ∀ k value id, Call asked ids k value id → ∀ n, k < n →
    ∃ earlier, ({} : IndexedPool).addAll (asked.take n) = .ok (ids.take n, earlier) ∧
      earlier.get? id = some value
  same : ∀ i j value other id id', Call asked ids i value id → Call asked ids j other id' →
    (id = id' ↔ value = other)
  /-- Of floats it is the bits that count. -/
  floats : ∀ i j x y id id', Call asked ids i (.float x) id → Call asked ids j (.float y) id' →
    (id = id' ↔ x.bits = y.bits)
  kinds : ∀ i j n x id id', Call asked ids i (.int n) id → Call asked ids j (.float x) id' →
    id ≠ id'
  size : pool.size = asked.toFinset.card
  order : pool.constants.toList = asked.eraseDups
  /-- The index and the entries have stayed together. -/
  consistent : pool.Consistent

theorem answered_of_entries (hfew : asked.toFinset.card ≤ Pool.limit)
    (hconsistent : pool.Consistent) (hentries : pool.unindexed = Pool.holding asked) :
    Answered asked (asked.map (Pool.number asked)) pool where
  length := List.length_map _
  numbers := by
    intro k value id hcall
    obtain ⟨hmem, rfl⟩ := hcall.eq_number
    rw [Pool.toNat_number hfew hmem, idxOf_eraseDups hmem]
  found := by
    intro k value id hcall n hn
    have hearly : value ∈ asked.take n :=
      List.mem_of_getElem? ((List.getElem?_take_of_lt hn).trans hcall.1)
    obtain ⟨-, rfl⟩ := hcall.eq_number
    exact addAll_take hfew hearly
  same := fun _ _ _ _ _ _ hcall hcall' => hcall.eq_iff hfew hcall'
  floats := by
    intro i j x y id id' hcall hcall'
    rw [hcall.eq_iff hfew hcall', Constant.float.injEq, Float64.mk.injEq]
  kinds := by
    intro i j n x id id' hcall hcall' hid
    cases (hcall.eq_iff hfew hcall').mp hid
  size := (congrArg Pool.size hentries).trans (Pool.size_holding asked)
  order := congrArg (fun entries : Pool => entries.constants.toList) hentries
  consistent := hconsistent

/-- **A new pool numbers constants in the order in which they are first asked for,** keeps to the
numbers it has given, and finds every constant through its index. -/
theorem addAll_answered (asked : List Constant) (hfew : asked.toFinset.card ≤ Pool.limit) :
    ∃ ids pool, ({} : IndexedPool).addAll asked = .ok (ids, pool) ∧ Answered asked ids pool := by
  obtain ⟨pool, hrun, hconsistent, hentries⟩ := addAll_new hfew
  exact ⟨_, pool, hrun, answered_of_entries hfew hconsistent hentries⟩

/-- Constants that look the same, or are equal as numbers, and some of them again. -/
def lookalikes : List Constant :=
  [.int 1, .float ⟨0x3ff0000000000000⟩, .string "1", .float ⟨0⟩, .float ⟨0x8000000000000000⟩,
    .float ⟨0x7ff8000000000000⟩, .float ⟨0x7ff8000000000001⟩, .float ⟨0⟩, .int 1,
    .float ⟨0x7ff8000000000001⟩]

theorem lookalikes_answered : lookalikes.toFinset.card ≤ Pool.limit ∧
    ∃ pool, ({} : IndexedPool).addAll lookalikes = .ok ([0, 1, 2, 3, 4, 5, 6, 3, 0, 6], pool) ∧
      Answered lookalikes [0, 1, 2, 3, 4, 5, 6, 3, 0, 6] pool := by
  have hfew : lookalikes.toFinset.card ≤ Pool.limit := by decide
  obtain ⟨ids, pool, hrun, hanswered⟩ := addAll_answered lookalikes hfew
  -- The hashes of the index cannot be computed here, but the numbers do not depend on them.
  have hids : lookalikes.map (Pool.number lookalikes) = [0, 1, 2, 3, 4, 5, 6, 3, 0, 6] := by
    decide +kernel
  obtain ⟨_, hnumbers, _⟩ := addAll_new hfew
  rw [hrun, hids] at hnumbers
  obtain ⟨rfl, -⟩ := Prod.mk.inj (Except.ok.inj hnumbers)
  exact ⟨hfew, pool, hrun, hanswered⟩

end IndexedPool

end QueryCompiler
