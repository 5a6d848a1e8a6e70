/-
The constant pool, shared by all functions of a program.

Equal constants share an entry, and entries are numbered in the order in which
they were first asked for, so the same query always gives the same pool.
-/
import QueryCompiler.Value.Constant
import QueryCompiler.Failure.CompileError

namespace QueryCompiler

/-- The constants of a program under construction. -/
structure Pool where
  constants : Array Constant := #[]

namespace Pool

/-- How many constants a program can number. -/
def limit : Nat := 4294967295

def size (pool : Pool) : Nat := pool.constants.size

/-- The constant with a given number. -/
def get? (pool : Pool) (id : UInt32) : Option Constant :=
  pool.constants[id.toNat]?

/-- The number of an entry equal to the constant, made on demand. -/
def add (pool : Pool) (constant : Constant) : Except CompileError (UInt32 × Pool) :=
  match pool.constants.findIdx? fun entry => decide (entry = constant) with
  | some index => .ok (index.toUInt32, pool)
  | none =>
    if limit ≤ pool.size then .error (.poolFull limit)
    else .ok (pool.size.toUInt32, { constants := pool.constants.push constant })

/-! ### What adding does -/

variable {pool pool' : Pool} {value : Constant} {id : UInt32} {error : CompileError}

/-- A constant that has an entry gets its number. -/
theorem add_of_mem (h : value ∈ pool.constants) :
    pool.add value = .ok ((pool.constants.idxOf value).toUInt32, pool) := by
  have hfound : pool.constants.findIdx? (fun entry => decide (entry = value)) =
      some (pool.constants.idxOf value) :=
    Array.findIdx?_eq_some_of_exists ⟨value, h, decide_eq_true rfl⟩
  simp only [add, hfound]

/-- A constant that has none gets the next number, if there is one. -/
theorem add_of_not_mem (h : value ∉ pool.constants) :
    pool.add value = if limit ≤ pool.size then .error (.poolFull limit)
      else .ok (pool.size.toUInt32, { constants := pool.constants.push value }) := by
  have hnone : pool.constants.findIdx? (fun entry => decide (entry = value)) = none := by
    rw [Array.findIdx?_eq_none_iff]
    intro entry hentry
    refine decide_eq_false ?_
    rintro rfl
    exact h hentry
  simp only [add, hnone]

/-- An answer is the number of an entry that was there, or that is the last one now. -/
theorem of_add_ok (h : pool.add value = .ok (id, pool')) :
    (∃ index : Nat, pool.constants[index]? = some value ∧ id = index.toUInt32 ∧ pool' = pool) ∨
      value ∉ pool.constants ∧ pool.size < limit ∧ id = pool.size.toUInt32 ∧
        pool' = { constants := pool.constants.push value } := by
  by_cases hmem : value ∈ pool.constants
  · rw [add_of_mem hmem] at h
    have hlt : pool.constants.idxOf value < pool.constants.size :=
      Array.idxOf_lt_size_iff.mpr hmem
    refine .inl ⟨pool.constants.idxOf value, ?_, ?_, ?_⟩
    · rw [Array.getElem?_eq_getElem hlt]
      exact congrArg some (eq_of_beq (Array.findIdx_getElem (w := hlt)))
    · exact (congrArg Prod.fst (Except.ok.inj h)).symm
    · exact (congrArg Prod.snd (Except.ok.inj h)).symm
  · rw [add_of_not_mem hmem] at h
    split at h
    · cases h
    · rename_i hroom
      exact .inr ⟨hmem, Nat.lt_of_not_le hroom, (congrArg Prod.fst (Except.ok.inj h)).symm,
        (congrArg Prod.snd (Except.ok.inj h)).symm⟩

/-- Entries stay where they are. -/
theorem add_keeps (h : pool.add value = .ok (id, pool')) {i : Nat} {entry : Constant}
    (hentry : pool.constants[i]? = some entry) : pool'.constants[i]? = some entry := by
  rcases of_add_ok h with ⟨-, -, -, rfl⟩ | ⟨-, -, -, rfl⟩
  · exact hentry
  · have hlt : i < pool.constants.size := (Array.getElem?_eq_some_iff.mp hentry).1
    rw [Array.getElem?_push, if_neg (Nat.ne_of_lt hlt)]
    exact hentry

/-- There is no answer only if the constant is new and the pool is full. -/
theorem of_add_error (h : pool.add value = .error error) :
    value ∉ pool.constants ∧ limit ≤ pool.size ∧ error = .poolFull limit := by
  by_cases hmem : value ∈ pool.constants
  · rw [add_of_mem hmem] at h
    cases h
  · rw [add_of_not_mem hmem] at h
    split at h
    · rename_i hfull
      exact ⟨hmem, hfull, (Except.error.inj h).symm⟩
    · cases h

end Pool

end QueryCompiler
