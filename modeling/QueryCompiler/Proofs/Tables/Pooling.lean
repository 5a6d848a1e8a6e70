/-
Constants in the order in which code mentions them.

A constant gets its number when it is first asked for, and it is asked for by the
instruction that is written next.  So whoever reads the code from the start, with the
code of every function at the place where it is made, meets the constants in the order
of their numbers.  `Reads` is such a reading, and `Numbered` says that in a list of
numbers each new one is the next one.

Targets, slots and counts have nothing to do with this.  What is left of a function
without them are its *mentions*: the instructions about constants and functions.  A
lowering `Adds` mentions to the current function and constants to the pool, and what it
adds can be read with the numbers it adds.
-/
import Mathlib.Data.List.Nodup
import QueryCompiler.Proofs.Encoding.Sessions
import QueryCompiler.Proofs.Order.Rules
import QueryCompiler.Proofs.Parallel.Rules
import QueryCompiler.Proofs.Tables.Family

namespace QueryCompiler

/-! ### Reading code -/

/-- The constants an instruction is about, in order. -/
def Operand.constants : Operand → List UInt32
  | const id => [id]
  | hint key value => [key, value]
  | none | target _ | slot _ | count _ | function _ => []

/-- Code is read with the constants it is about.  Where a function is made, its code is read
first. -/
inductive Reads (table : Nat → Option (List Instruction)) :
    List Instruction → List UInt32 → Prop
  | done : Reads table [] []
  | makes {id : UInt32} {inner rest : List Instruction} {ids later : List UInt32}
      (hinner : table id.toNat = some inner) (hids : Reads table inner ids)
      (hrest : Reads table rest later) :
      Reads table (⟨.makeLambda, .function id⟩ :: rest) (ids ++ later)
  | reads {instruction : Instruction} {rest : List Instruction} {later : List UInt32}
      (hop : instruction.op ≠ .makeLambda) (hrest : Reads table rest later) :
      Reads table (instruction :: rest) (instruction.operand.constants ++ later)

namespace Reads

variable {table table' : Nat → Option (List Instruction)} {code more : List Instruction}
  {ids other : List UInt32}

/-- **There is one way to read code.** -/
theorem unique (h : Reads table code ids) (h' : Reads table code other) : other = ids := by
  induction h generalizing other with
  | done =>
      cases h'
      rfl
  | makes hinner _ _ ih ih' =>
      cases h' with
      | makes hinner' hids' hrest' =>
          obtain rfl := Option.some.inj (hinner.symm.trans hinner')
          rw [ih hids', ih' hrest']
      | reads hop => exact absurd rfl hop
  | reads hop _ ih =>
      cases h' with
      | makes => exact absurd rfl hop
      | reads _ hrest' => rw [ih hrest']

theorem append (h : Reads table code ids) (h' : Reads table more other) :
    Reads table (code ++ more) (ids ++ other) := by
  induction h with
  | done => exact h'
  | makes hinner hids _ _ ih =>
      rw [List.append_assoc]
      exact .makes hinner hids ih
  | reads hop _ ih =>
      rw [List.append_assoc]
      exact .reads hop ih

/-- Functions that are added to the table do not matter to what could be read without them. -/
theorem mono (h : Reads table code ids)
    (htable : ∀ g inner, table g = some inner → table' g = some inner) :
    Reads table' code ids := by
  induction h with
  | done => exact .done
  | makes hinner _ _ ih ih' => exact .makes (htable _ _ hinner) ih ih'
  | reads hop _ ih => exact .reads hop ih

theorem one {instruction : Instruction} (hop : instruction.op ≠ .makeLambda) :
    Reads table [instruction] instruction.operand.constants := by
  have h : Reads table [instruction] (instruction.operand.constants ++ []) := reads hop .done
  rw [List.append_nil] at h
  exact h

end Reads

/-- With `n` numbers known, those of the list are known or the next one, and `m` are known in the
end. -/
inductive Numbered : Nat → List Nat → Nat → Prop
  | done (n : Nat) : Numbered n [] n
  | old {n i m : Nat} {rest : List Nat} (hold : i < n) (hrest : Numbered n rest m) :
      Numbered n (i :: rest) m
  | new {n m : Nat} {rest : List Nat} (hrest : Numbered (n + 1) rest m) :
      Numbered n (n :: rest) m

namespace Numbered

variable {n m k : Nat} {ids more : List Nat}

theorem append (h : Numbered n ids m) (h' : Numbered m more k) : Numbered n (ids ++ more) k := by
  induction h with
  | done => exact h'
  | old hold _ ih => exact .old hold (ih h')
  | new _ ih => exact .new (ih h')

/-- **The numbers occur for the first time in their order.** -/
theorem firsts (h : Numbered n ids m) : (List.range n ++ ids).eraseDups = List.range m := by
  induction h with
  | done n =>
      rw [List.append_nil]
      induction n with
      | zero => rfl
      | succ n ih => simp [List.range_succ, List.eraseDups_append, List.eraseDups_cons, ih,
          List.removeAll]
  | @old n i m rest hold _ ih =>
      rw [List.eraseDups_append] at ih ⊢
      rw [← ih]
      congr 2
      simp [List.removeAll, hold]
  | @new n m rest _ ih =>
      rw [List.range_succ, List.append_assoc] at ih
      exact ih

end Numbered

/-! ### The pool -/

/-- On the way from one pool to another these numbers were asked for. -/
structure Pool.Gives (pool pool' : Pool) (ids : List UInt32) : Prop where
  kept : pool.constants.toList <+: pool'.constants.toList
  few : pool.size ≤ limit → pool'.size ≤ limit
  distinct : pool.constants.toList.Nodup → pool'.constants.toList.Nodup
  numbered : pool.size ≤ limit → Numbered pool.size (ids.map UInt32.toNat) pool'.size

namespace Pool

variable {pool pool₁ pool₂ : Pool} {ids more : List UInt32} {value : Constant} {id : UInt32}

theorem Gives.trans (h : Gives pool pool₁ ids) (h' : Gives pool₁ pool₂ more) :
    Gives pool pool₂ (ids ++ more) where
  kept := h.kept.trans h'.kept
  few hfew := h'.few (h.few hfew)
  distinct hdistinct := h'.distinct (h.distinct hdistinct)
  numbered hfew := by
    rw [List.map_append]
    exact (h.numbered hfew).append (h'.numbered (h.few hfew))

/-- A constant keeps its number. -/
theorem get?_of_prefix (h : pool.constants.toList <+: pool₁.constants.toList)
    (hget : pool.get? id = some value) : pool₁.get? id = some value := by
  obtain ⟨added, hadded⟩ := h
  unfold Pool.get? at hget ⊢
  rw [← Array.getElem?_toList] at hget ⊢
  rw [← hadded, List.getElem?_append_left (List.getElem?_eq_some_iff.mp hget).1]
  exact hget

/-- **A constant that is asked for has the number of an entry, or the next one.** -/
theorem add_gives (h : pool.add value = .ok (id, pool₁)) : Gives pool pool₁ [id] := by
  rcases of_add_ok h with ⟨index, hentry, rfl, rfl⟩ | ⟨hnew, hlt, rfl, rfl⟩
  · refine ⟨List.prefix_refl _, fun h => h, fun h => h, fun hfew => .old ?_ (.done _)⟩
    have hlt : index < pool₁.size := (Array.getElem?_eq_some_iff.mp hentry).1
    rw [toNat_toUInt32 (Nat.lt_of_lt_of_le hlt (Nat.le_trans hfew (by decide)))]
    exact hlt
  · have hsize : Pool.size { constants := pool.constants.push value } = pool.size + 1 := by
      simp [Pool.size]
    refine ⟨?_, fun _ => by rw [hsize]; exact hlt, fun hdistinct => ?_, fun _ => ?_⟩
    · rw [Array.toList_push]
      exact List.prefix_append _ _
    · rw [Array.toList_push, List.nodup_append]
      refine ⟨hdistinct, List.nodup_singleton _, ?_⟩
      intro entry hentry other hother
      rw [List.mem_singleton.mp hother]
      rintro rfl
      exact hnew (Array.mem_toList_iff.mp hentry)
    · rw [List.map_singleton, toNat_toUInt32 (Nat.lt_trans hlt (by decide)), hsize]
      exact .new (.done _)

theorem add_get? (h : pool.add value = .ok (id, pool₁)) (hfew : pool.size ≤ limit) :
    pool₁.get? id = some value :=
  (Layout.add_ok hfew h).1

end Pool

/-! ### Mentions -/

/-- The instructions of a function that are about constants and functions, in order. -/
def Routine.mentions (routine : Routine) : List Instruction :=
  routine.code.toList.filter fun instruction => !instruction.operand.isOwn

namespace Routine

theorem mentions_append {instruction : Instruction} (h : instruction.operand.isOwn = false)
    (routine : Routine) (line? : Option Nat) (depth : Nat) :
    (routine.append instruction line? depth).mentions = routine.mentions ++ [instruction] := by
  simp [mentions, append, h]

theorem mentions_append_own {instruction : Instruction} (h : instruction.operand.isOwn = true)
    (routine : Routine) (line? : Option Nat) (depth : Nat) :
    (routine.append instruction line? depth).mentions = routine.mentions := by
  simp [mentions, append, h]

/-- Aiming a jump changes no mention. -/
theorem mentions_aim {routine : Routine} {i : Nat} {instruction : Instruction}
    (h : routine.code[i]? = some instruction) (hown : instruction.operand.isOwn = true)
    (word : UInt32) : (routine.aim i word).mentions = routine.mentions :=
  filter_aim h (by rw [hown]; rfl) rfl

end Routine

/-- The constants an instruction is about are of the kinds it can be about. -/
def Instruction.Typed (pool : Pool) (instruction : Instruction) : Prop :=
  match instruction.operand with
  | .const id => ∃ value, pool.get? id = some value ∧
    if instruction.op = .loadConst then value.isPooled = true else ∃ text, value = .string text
  | .hint key value =>
    (∃ text, pool.get? key = some (.string text)) ∧ ∃ constant, pool.get? value = some constant
  | _ => True

theorem Instruction.Typed.later {pool pool' : Pool} {instruction : Instruction} {ids : List UInt32}
    (h : instruction.Typed pool) (hgives : pool.Gives pool' ids) : instruction.Typed pool' := by
  obtain ⟨op, operand⟩ := instruction
  cases operand with
  | const id =>
      obtain ⟨value, hvalue, hkind⟩ := h
      exact ⟨value, Pool.get?_of_prefix hgives.kept hvalue, hkind⟩
  | hint key value =>
      obtain ⟨⟨text, htext⟩, constant, hconstant⟩ := h
      exact ⟨⟨text, Pool.get?_of_prefix hgives.kept htext⟩, constant,
        Pool.get?_of_prefix hgives.kept hconstant⟩
  | _ => trivial

namespace Assembly

variable {code code₁ code₂ : Assembly}

/-- The mentions of a function. -/
def mentions? (code : Assembly) (function : Nat) : Option (List Instruction) :=
  code.routines[function]?.map Routine.mentions

/-- The mentions of the functions from a number on. -/
def mentionsFrom (code : Assembly) (first function : Nat) : Option (List Instruction) :=
  if first ≤ function then code.mentions? function else none

theorem mentions?_modifyCurrent_of_ne (code : Assembly) (change : Routine → Routine) {g : Nat}
    (h : g ≠ code.currentFunction) :
    (code.modifyCurrent change).mentions? g = code.mentions? g := by
  simp only [mentions?, modifyCurrent, Array.getElem?_modify, if_neg (Ne.symm h)]

theorem mentions?_modifyCurrent (code : Assembly) (change : Routine → Routine) :
    (code.modifyCurrent change).mentions? code.currentFunction =
      code.routines[code.currentFunction]?.map fun routine => (change routine).mentions := by
  simp only [mentions?, modifyCurrent, Array.getElem?_modify, if_true, Option.map_map]
  rfl

/-- Numbers mean something: that of the current function, those of constants, and those in
instructions. -/
structure Tidy (code : Assembly) : Prop where
  current : code.currentFunction < code.routines.size
  few : code.pool.size ≤ Pool.limit
  distinct : code.pool.constants.toList.Nodup
  shapes : code.WellShaped
  typed : ∀ g mentions, code.mentions? g = some mentions →
    ∀ instruction ∈ mentions, instruction.Typed code.pool

/-- What is added to a program on the way to another: mentions in the current function, which can
be read with the numbers that are added, and functions that are complete. -/
structure Adds (code code' : Assembly) : Prop where
  opened : code'.opened = code.opened
  size : code.routines.size ≤ code'.routines.size
  others : ∀ g < code.routines.size, g ≠ code.currentFunction →
    code'.mentions? g = code.mentions? g
  pool : code.pool.constants.toList <+: code'.pool.constants.toList
  tidy : code.Tidy → code'.Tidy
  written : ∃ written,
    (∀ before, code.mentions? code.currentFunction = some before →
      code'.mentions? code.currentFunction = some (before ++ written)) ∧
    (code.Tidy → code'.routines.size ≤ wordLimit → ∃ ids,
      Reads (code'.mentionsFrom code.routines.size) written ids ∧
        Numbered code.pool.size (ids.map UInt32.toNat) code'.pool.size)

namespace Adds

theorem currentFunction (h : Adds code code₁) : code₁.currentFunction = code.currentFunction := by
  unfold Assembly.currentFunction
  rw [h.opened]

/-- The functions that were made on the way to a program are in every program that comes after. -/
theorem mentionsFrom_later (h : Adds code₁ code₂) {first : Nat}
    (hfirst : code₁.currentFunction < first) {g : Nat} {mentions : List Instruction}
    (hg : code₁.mentionsFrom first g = some mentions) :
    code₂.mentionsFrom first g = some mentions := by
  unfold mentionsFrom at hg ⊢
  split at hg
  · rename_i hle
    rw [if_pos hle, h.others g, hg]
    · obtain ⟨_, hroutine, -⟩ := Option.map_eq_some_iff.mp hg
      exact (Array.getElem?_eq_some_iff.mp hroutine).1
    · omega
  · cases hg

theorem trans (h : Adds code code₁) (h' : Adds code₁ code₂) : Adds code code₂ where
  opened := h'.opened.trans h.opened
  size := Nat.le_trans h.size h'.size
  others g hg hne := by
    rw [h'.others g (Nat.lt_of_lt_of_le hg h.size) (by rw [h.currentFunction]; exact hne),
      h.others g hg hne]
  pool := h.pool.trans h'.pool
  tidy htidy := h'.tidy (h.tidy htidy)
  written := by
    obtain ⟨written, hkept, hreads⟩ := h.written
    obtain ⟨written', hkept', hreads'⟩ := h'.written
    rw [h.currentFunction] at hkept'
    refine ⟨written ++ written', fun before hbefore => ?_, fun htidy hwords => ?_⟩
    · rw [hkept' _ (hkept before hbefore), List.append_assoc]
    · obtain ⟨ids, hids, hnumbers⟩ := hreads htidy (Nat.le_trans h'.size hwords)
      obtain ⟨ids', hids', hnumbers'⟩ := hreads' (h.tidy htidy) hwords
      refine ⟨ids ++ ids', .append (hids.mono fun g inner hg => ?_)
        (hids'.mono fun g inner hg => ?_), ?_⟩
      · refine h'.mentionsFrom_later ?_ hg
        rw [h.currentFunction]
        exact htidy.current
      · -- A function that is new at the second start is new at the first.
        unfold mentionsFrom at hg ⊢
        split at hg
        · rename_i hle
          rw [if_pos (Nat.le_trans h.size hle)]
          exact hg
        · cases hg
      · rw [List.map_append]
        exact hnumbers.append hnumbers'

/-- Nothing is added by a change that concerns neither mentions nor constants. -/
theorem quiet (hopened : code₁.opened = code.opened)
    (hsize : code₁.routines.size = code.routines.size)
    (hmentions : ∀ g, code₁.mentions? g = code.mentions? g)
    (hpool : code₁.pool = code.pool) (hshapes : code.WellShaped → code₁.WellShaped) :
    Adds code code₁ := by
  refine ⟨hopened, Nat.le_of_eq hsize.symm, fun g _ _ => hmentions g, ?_, fun htidy => ?_, [], ?_,
    fun _ _ => ⟨[], .done, ?_⟩⟩
  · simp only [hpool, List.prefix_rfl]
  · refine ⟨?_, ?_, ?_, hshapes htidy.shapes, ?_⟩
    · rw [hsize, Assembly.currentFunction, hopened]
      exact htidy.current
    · rw [hpool]
      exact htidy.few
    · rw [hpool]
      exact htidy.distinct
    · intro g mentions hg
      rw [hpool]
      exact htidy.typed g mentions (by rw [← hmentions, hg])
  · intro before hbefore
    rw [hmentions, hbefore, List.append_nil]
  · rw [hpool]
    exact .done _

theorem refl (code : Assembly) : Adds code code :=
  quiet rfl rfl (fun _ => rfl) rfl fun h => h

/-- Another source line is no addition. -/
theorem moveToLine (code : Assembly) (line : Nat) : Adds code (code.moveToLine line) :=
  quiet rfl rfl (fun _ => rfl) rfl fun h => h

/-! ### Steps -/

/-- Work on the current function that leaves its mentions alone. -/
theorem revise {change : Routine → Routine}
    (hmentions : ∀ routine, code.routines[code.currentFunction]? = some routine →
      (change routine).mentions = routine.mentions)
    (hshapes : code.WellShaped → (code.modifyCurrent change).WellShaped) :
    Adds code (code.modifyCurrent change) := by
  refine quiet rfl (by simp [modifyCurrent]) (fun g => ?_) rfl hshapes
  by_cases hg : g = code.currentFunction
  · rw [hg, mentions?_modifyCurrent]
    unfold mentions?
    cases hroutine : code.routines[code.currentFunction]? with
    | none => rfl
    | some routine => exact congrArg some (hmentions routine hroutine)
  · exact code.mentions?_modifyCurrent_of_ne change hg

/-- **An instruction is written for the constants that were asked for just before.** -/
theorem mention {pool : Pool} {instruction : Instruction} (line? : Option Nat) (depth : Nat)
    (hgives : code.pool.Gives pool instruction.operand.constants)
    (hown : instruction.operand.isOwn = false) (hop : instruction.op ≠ .makeLambda)
    (hshape : instruction.WellShaped)
    (htyped : code.pool.size ≤ Pool.limit → instruction.Typed pool) :
    Adds code ({ code with pool }.modifyCurrent fun routine =>
      routine.append instruction line? depth) := by
  have hsize : ({ code with pool }.modifyCurrent fun routine =>
      routine.append instruction line? depth).routines.size = code.routines.size := by
    simp [modifyCurrent]
  have hothers : ∀ g ≠ code.currentFunction, ({ code with pool }.modifyCurrent fun routine =>
      routine.append instruction line? depth).mentions? g = code.mentions? g :=
    fun g hg => mentions?_modifyCurrent_of_ne { code with pool } _ hg
  have hcurrent : ({ code with pool }.modifyCurrent fun routine =>
      routine.append instruction line? depth).mentions? code.currentFunction =
        (code.mentions? code.currentFunction).map (· ++ [instruction]) := by
    refine (mentions?_modifyCurrent { code with pool } _).trans ?_
    unfold mentions?
    rw [Option.map_map]
    exact Option.map_congr fun routine _ => routine.mentions_append hown line? depth
  refine ⟨rfl, Nat.le_of_eq hsize.symm, fun g _ hg => hothers g hg, hgives.kept, fun htidy => ?_,
    [instruction], ?_, fun htidy _ => ⟨_, .one hop, hgives.numbered htidy.few⟩⟩
  · refine ⟨?_, hgives.few htidy.few, hgives.distinct htidy.distinct, ?_, ?_⟩
    · rw [hsize]
      exact htidy.current
    · have hpooled : { code with pool }.WellShaped := htidy.shapes
      refine hpooled.modifyCurrent fun routine hroutine other hother => ?_
      rcases Array.mem_push.mp hother with hold | rfl
      · exact hroutine other hold
      · exact hshape
    · intro g mentions hg other hother
      by_cases hsame : g = code.currentFunction
      · rw [hsame, hcurrent] at hg
        obtain ⟨before, hbefore, rfl⟩ := Option.map_eq_some_iff.mp hg
        rcases List.mem_append.mp hother with hold | hnew
        · exact (htidy.typed _ before hbefore other hold).later hgives
        · rw [List.mem_singleton.mp hnew]
          exact htyped htidy.few
      · rw [hothers g hsame] at hg
        exact (htidy.typed g mentions hg other hother).later hgives
  · intro before hbefore
    rw [hcurrent, hbefore]
    rfl

end Adds

end Assembly

/-! ### Functions -/

namespace Progress

open Workspace Assembly Instruction

variable {ws inside : Workspace} {params locals : UInt16}

/-- A function that has just been opened mentions nothing. -/
theorem opened_mentions (ws : Workspace) (params : UInt16) (g : Nat) :
    (Layout.opened ws params).code.mentions? g =
      if g = ws.code.routines.size then some [] else ws.code.mentions? g := by
  simp only [mentions?, Layout.opened, Array.getElem?_push]
  split <;> rfl

theorem opened_tidy (h : ws.code.Tidy) (params : UInt16) : (Layout.opened ws params).code.Tidy where
  current := by simp [Layout.opened, currentFunction]
  few := h.few
  distinct := h.distinct
  shapes := openFunction_keeps_shapes params ws.code h.shapes
  typed g mentions hg := by
    rw [opened_mentions] at hg
    split at hg
    · obtain rfl := Option.some.inj hg
      exact List.forall_mem_nil _
    · exact h.typed g mentions hg

/-- What a function leaves is the instruction that makes it. -/
theorem closed_mentions (inside : Workspace) (locals : UInt16) (opened : List Nat) (g : Nat) :
    (Layout.closed inside locals opened).code.mentions? g = inside.code.mentions? g := by
  simp only [Layout.closed, mentions?, reserveLocals, modifyCurrent, Array.getElem?_modify]
  split
  · rw [Option.map_map]
    rfl
  · rfl

/-- The function around it gets the instruction that makes it. -/
theorem made_mentions (ws inside : Workspace) (locals : UInt16) (id : Nat) :
    ((Layout.closed inside locals ws.code.opened).wrote (making id)).code.mentions?
        ws.code.currentFunction =
      (inside.code.mentions? ws.code.currentFunction).map (· ++ [making id]) := by
  rw [← closed_mentions inside locals ws.code.opened]
  refine (mentions?_modifyCurrent (Layout.closed inside locals ws.code.opened).code _).trans ?_
  unfold mentions?
  rw [Option.map_map]
  exact Option.map_congr fun routine _ => routine.mentions_append rfl _ _

theorem made_mentions_of_ne {g : Nat} (hg : g ≠ ws.code.currentFunction) (inside : Workspace)
    (locals : UInt16) (id : Nat) :
    ((Layout.closed inside locals ws.code.opened).wrote (making id)).code.mentions? g =
      inside.code.mentions? g := by
  rw [← closed_mentions inside locals ws.code.opened]
  exact mentions?_modifyCurrent_of_ne (Layout.closed inside locals _).code _ hg

theorem made_size (ws inside : Workspace) (locals : UInt16) (id : Nat) :
    ((Layout.closed inside locals ws.code.opened).wrote (making id)).code.routines.size =
      inside.code.routines.size := by
  simp [Layout.closed, wrote, revise, reserveLocals, modifyCurrent]

theorem made_tidy {id : Nat} (h : inside.code.Tidy)
    (hcurrent : ws.code.currentFunction < inside.code.routines.size) :
    ((Layout.closed inside locals ws.code.opened).wrote (making id)).code.Tidy := by
  refine ⟨?_, h.few, h.distinct, ?_, ?_⟩
  · rw [made_size]
    exact hcurrent
  · have hreserved : (inside.code.reserveLocals locals).WellShaped :=
      h.shapes.modifyCurrent fun _ hroutine => hroutine
    have hclosed : (Layout.closed inside locals ws.code.opened).code.WellShaped := hreserved
    refine hclosed.modifyCurrent fun routine hroutine instruction hmem => ?_
    rcases Array.mem_push.mp hmem with hold | rfl
    · exact hroutine instruction hold
    · rfl
  · intro g mentions hg instruction hmem
    by_cases hf : g = ws.code.currentFunction
    · rw [hf, made_mentions] at hg
      obtain ⟨before, hold, rfl⟩ := Option.map_eq_some_iff.mp hg
      rcases List.mem_append.mp hmem with hmem | hmem
      · exact h.typed _ before hold instruction hmem
      · rw [List.mem_singleton.mp hmem]
        trivial
    · rw [made_mentions_of_ne hf] at hg
      exact h.typed g mentions hg instruction hmem

/-- **A function is read where it is made.** -/
theorem lambda_adds (h : Adds (Layout.opened ws params).code inside.code) :
    Adds ws.code ((Layout.closed inside locals ws.code.opened).wrote
      (making ws.code.routines.size)).code := by
  have hbefore : ∀ g < ws.code.routines.size, inside.code.mentions? g = ws.code.mentions? g := by
    intro g hg
    rw [h.others g, opened_mentions, if_neg (Nat.ne_of_lt hg)]
    · simp only [Layout.opened, Array.size_push]
      omega
    · exact Nat.ne_of_lt hg
  have hsize : ws.code.routines.size + 1 ≤ inside.code.routines.size := by
    simpa [Layout.opened] using h.size
  have hsame := made_size ws inside locals ws.code.routines.size
  refine ⟨rfl, by omega, fun g hg hne => ?_, h.pool, fun htidy => ?_,
    [making ws.code.routines.size], fun before hmentions => ?_, fun htidy hwords => ?_⟩
  · rw [made_mentions_of_ne hne, hbefore g hg]
  · exact made_tidy (h.tidy (opened_tidy htidy params))
      (Nat.lt_of_lt_of_le htidy.current (Nat.le_of_succ_le hsize))
  · have hlt : ws.code.currentFunction < ws.code.routines.size := by
      obtain ⟨_, hroutine, -⟩ := Option.map_eq_some_iff.mp hmentions
      exact (Array.getElem?_eq_some_iff.mp hroutine).1
    rw [made_mentions, hbefore _ hlt, hmentions]
    rfl
  · obtain ⟨written, hwritten, hreads⟩ := h.written
    rw [hsame] at hwords
    obtain ⟨ids, hids, hnumbers⟩ := hreads (opened_tidy htidy params) hwords
    have hlt := htidy.current
    have hword : ws.code.routines.size.toUInt32.toNat = ws.code.routines.size :=
      toNat_toUInt32 (by omega)
    have hinner : inside.code.mentions? ws.code.routines.size = some written :=
      hwritten [] ((opened_mentions ws params _).trans (if_pos rfl))
    refine ⟨ids ++ [], .makes ?_ (hids.mono fun g inner hg => ?_) .done, ?_⟩
    · rw [hword, mentionsFrom, if_pos (Nat.le_refl _), made_mentions_of_ne (Nat.ne_of_gt hlt),
        hinner]
    · unfold mentionsFrom at hg ⊢
      split at hg
      · rename_i hle
        simp only [Layout.opened, Array.size_push] at hle
        rw [if_pos (by omega), made_mentions_of_ne (by omega), hg]
      · cases hg
    · rw [List.append_nil]
      exact hnumbers

end Progress

/-! ### Lowering -/

/-- Whenever the action gets done, it has added something. -/
def Adding {α : Type} (action : Action Workspace α) : Prop :=
  ∀ ⦃ws : Workspace⦄ ⦃x : α⦄ ⦃ws' : Workspace⦄, action ws = .done x ws' → ws.code.Adds ws'.code

namespace Adding

open Workspace Assembly

variable {α β : Type}

theorem bind {first : Action Workspace α} {next : α → Action Workspace β} (hfirst : Adding first)
    (hnext : ∀ x, Adding (next x)) : Adding (first >>= next) := by
  intro ws y ws' h
  obtain ⟨x, ws₁, hdone, hdone'⟩ := Action.bind_done.mp h
  exact (hfirst hdone).trans (hnext x hdone')

theorem pure (x : α) : Adding (Pure.pure x : Action Workspace α) := by
  intro ws y ws' h
  obtain ⟨-, rfl⟩ := Action.pure_done.mp h
  exact .refl _

theorem fail (error : CompileError) : Adding (Action.fail error : Action Workspace α) := by
  intro ws y ws' h
  exact absurd h Action.not_fail_done

theorem raise (fault : Fault) : Adding (Action.raise fault : Action Workspace α) := by
  intro ws y ws' h
  exact absurd h Action.not_raise_done

theorem ite {p : Prop} [Decidable p] {first second : Action Workspace α} (hfirst : Adding first)
    (hsecond : Adding second) : Adding (if p then first else second) := by
  split
  · exact hfirst
  · exact hsecond

theorem ofWord (result : Except Fault α) : Adding (Action.ofWord result) := by
  intro ws y ws' h
  obtain ⟨-, rfl⟩ := Action.ofWord_done.mp h
  exact .refl _

/-- Whatever is done to the scopes adds nothing. -/
theorem onScopes (action : Action ScopeStack α) : Adding (Workspace.onScopes action) := by
  intro ws y ws' h
  obtain ⟨_, -, rfl⟩ := onScopes_done.mp h
  exact .refl _

theorem within (state : FrameState) {body : FrameId → Action Workspace α}
    (h : ∀ id, Adding (body id)) : Adding (Workspace.within state body) := by
  rintro ws ⟨y, last⟩ ws' hdone
  obtain ⟨inside, frame, outer, hbody, -, -, -, rfl⟩ := within_done hdone
  have hadds : (ws.entered state).code.Adds inside.code := h _ hbody
  exact hadds

/-- Looking at the code adds nothing. -/
theorem read (view : Assembly → α) : Adding (Workspace.onCode (Action.read view)) := by
  intro ws y ws' h
  obtain ⟨_, hread, rfl⟩ := onCode_done.mp h
  obtain ⟨-, rfl⟩ := Action.read_done.mp hread
  exact .refl _

theorem resetDepth (depth : Nat) : Adding (Workspace.resetDepth depth) := by
  intro ws y ws' h
  rw [resetDepth_done h]
  exact .revise (fun _ _ => rfl) fun hshapes => hshapes.modifyCurrent fun _ hroutine => hroutine

theorem reserveLocals (locals : UInt16) :
    Adding (Workspace.onCode (Action.modify fun code => code.reserveLocals locals)) := by
  intro ws y ws' h
  obtain ⟨_, hmodify, rfl⟩ := onCode_done.mp h
  rw [Action.modify_done] at hmodify
  subst hmodify
  exact .revise (fun _ _ => rfl) fun hshapes => hshapes.modifyCurrent fun _ hroutine => hroutine

theorem addRegion (region : GuardedRegion) : Adding (Workspace.addRegion region) := by
  intro ws y ws' h
  obtain ⟨_, hadd, rfl⟩ := onCode_done.mp h
  rw [Action.modify_done] at hadd
  subst hadd
  exact .quiet rfl rfl (fun _ => rfl) rfl fun hshapes => hshapes

theorem shape_of_emitWith {op : Opcode} {operand : Operand} {ws ws' : Workspace} {u : Unit}
    (h : Workspace.emitWith op operand ws = .done u ws') :
    Instruction.WellShaped ⟨op, operand⟩ := by
  simp only [Workspace.emitWith, Action.bind_done, onCode_done, Assembly.emit] at h
  obtain ⟨_, _, ⟨_, hemit, -⟩, -⟩ := h
  split at hemit
  · cases hemit
  · rename_i hshape
    have hsame : operand.shape = op.shape := Decidable.not_not.mp hshape
    exact hsame

theorem emitWith (op : Opcode) {operand : Operand} (hown : operand.isOwn = true) :
    Adding (Workspace.emitWith op operand) := by
  intro ws y ws' h
  have hshape := shape_of_emitWith h
  obtain ⟨-, rfl⟩ := emitWith_done h
  refine .revise (fun routine _ => routine.mentions_append_own hown _ _) fun hshapes => ?_
  refine hshapes.modifyCurrent fun routine hroutine instruction hmem => ?_
  rcases Array.mem_push.mp hmem with hold | rfl
  · exact hroutine instruction hold
  · exact hshape

theorem jump (op : Opcode) : Adding (Workspace.jump op) := by
  intro ws label ws' h
  obtain ⟨_, -, -, -, hemit⟩ := jump_done h
  exact emitWith op rfl hemit

theorem jumpBack (target : Position) (depth : Nat) : Adding (Workspace.jumpBack target depth) := by
  intro ws u ws' h
  exact emitWith .jump rfl (jumpBack_done h).2

/-- What lands is a jump. -/
theorem jump_of_land {label : PendingJump} {ws ws' : Workspace} {u : Unit}
    (h : Workspace.land label ws = .done u ws') :
    ∃ instruction, ws.code.instruction? label.position = some instruction ∧
      instruction.operand.isOwn = true := by
  obtain ⟨code, hland, -⟩ := onCode_done.mp h
  simp only [Assembly.land] at hland
  split at hland
  · cases hland
  · obtain ⟨_, aimed, haim, -⟩ := Action.bind_done.mp hland
    simp only [Assembly.aim] at haim
    split at haim
    · cases haim
    · rename_i instruction hat
      split at haim
      · cases haim
      · rename_i word htarget
        refine ⟨instruction, hat, ?_⟩
        obtain ⟨op, operand⟩ := instruction
        cases operand <;> first | rfl | cases htarget

theorem land (label : PendingJump) : Adding (Workspace.land label) := by
  intro ws u ws' h
  obtain ⟨code, hland, rfl⟩ := onCode_done.mp h
  obtain ⟨hfunction, -, hlanded⟩ := land_done h
  obtain ⟨instruction, hat, hown⟩ := jump_of_land h
  have hshapes := land_keeps_shapes label ws.code
  rw [hland] at hshapes
  obtain rfl : code = (ws.landed label).code := congrArg Workspace.code hlanded
  refine .revise (fun routine hroutine => ?_) hshapes
  rw [Assembly.instruction?, hfunction, hroutine, Option.bind_some] at hat
  exact Routine.mentions_aim hat hown _

/-- An instruction is written after the constants it is about were asked for. -/
theorem mentioned {op : Opcode} {operand : Operand} {pool : Pool} {ws ws₁ ws' : Workspace}
    {u : Unit}
    (hemit : Workspace.emitWith op operand ws₁ = .done u ws')
    (hgives : ws.code.pool.Gives pool operand.constants) (hcode : ws₁.code = { ws.code with pool })
    (hown : operand.isOwn = false) (hop : op.shape ≠ .function)
    (htyped : ws.code.pool.size ≤ Pool.limit → Instruction.Typed pool ⟨op, operand⟩) :
    ws.code.Adds ws'.code := by
  have hshape := shape_of_emitWith hemit
  obtain ⟨-, rfl⟩ := emitWith_done hemit
  obtain ⟨code, scopes, underway⟩ := ws₁
  obtain rfl : code = _ := hcode
  refine .mention _ _ hgives hown ?_ hshape htyped
  rintro rfl
  exact hop rfl

theorem pushConstant {value : Constant} (hvalue : value.isPooled = true) :
    Adding (Workspace.pushConstant value) := by
  intro ws u ws' h
  obtain ⟨id, pool, hadd, hemit⟩ := pushConstant_done h
  exact mentioned hemit (Pool.add_gives hadd) rfl rfl nofun fun hfew =>
    ⟨value, Pool.add_get? hadd hfew, hvalue⟩

/-- The name an instruction is about is a text. -/
theorem typed_name {op : Opcode} (hop : op ≠ .loadConst) {pool pool' : Pool} {text : String}
    {id : UInt32} (hadd : pool.add (.string text) = .ok (id, pool'))
    (hfew : pool.size ≤ Pool.limit) :
    Instruction.Typed pool' ⟨op, .const id⟩ := by
  refine ⟨_, Pool.add_get? hadd hfew, ?_⟩
  rw [if_neg hop]
  exact ⟨text, rfl⟩

/-- An instruction about a constant makes no function. -/
theorem shape_of_const {op : Opcode} {id : UInt32} {ws ws' : Workspace} {u : Unit}
    (h : Workspace.emitWith op (.const id) ws = .done u ws') : op.shape ≠ .function := by
  have hshape : OperandShape.const = op.shape := shape_of_emitWith h
  rw [← hshape]
  nofun

theorem emitName {op : Opcode} (text : String) (hop : op ≠ .loadConst) :
    Adding (Workspace.emitName op text) := by
  intro ws u ws' h
  obtain ⟨id, pool, hadd, hemit⟩ := emitName_done h
  exact mentioned hemit (Pool.add_gives hadd) rfl rfl (shape_of_const hemit) (typed_name hop hadd)

theorem emitImport {op : Opcode} (path : String) (binding : Name) (hop : op ≠ .loadConst) :
    Adding (Workspace.emitImport op path binding) := by
  intro ws slot ws' h
  simp only [Workspace.emitImport, Action.bind_done, Action.pure_done] at h
  obtain ⟨id, _, hname, slot', ws₂, hdeclare, _, _, hemit, -, rfl⟩ := h
  obtain ⟨pool, hadd, rfl⟩ := constant_done hname
  obtain ⟨_, -, rfl⟩ := onScopes_done.mp hdeclare
  exact mentioned hemit (Pool.add_gives hadd) rfl rfl (shape_of_const hemit) (typed_name hop hadd)

theorem emitHint (name : String) (value : Constant) : Adding (Workspace.emitHint name value) := by
  intro ws u ws' h
  simp only [Workspace.emitHint, Action.bind_done] at h
  obtain ⟨key, _, hname, id, _, hvalue, hemit⟩ := h
  obtain ⟨pool, hadd, rfl⟩ := constant_done hname
  obtain ⟨pool', hadd', rfl⟩ := constant_done hvalue
  have hgives := Pool.add_gives hadd
  have hgives' := Pool.add_gives hadd'
  refine mentioned hemit (hgives.trans hgives') rfl rfl nofun fun hfew => ?_
  exact ⟨⟨name, Pool.get?_of_prefix hgives'.kept (Pool.add_get? hadd hfew)⟩, value,
    Pool.add_get? hadd' (hgives.few hfew)⟩

theorem emitIdent (name : String) : Adding (Workspace.emitIdent name) := by
  refine .bind (.onScopes _) fun found => ?_
  cases found with
  | some ref => exact .emitWith _ rfl
  | none => exact .emitName name nofun

/-- The function that is closed is the one that is being written. -/
theorem closed_id {locals : UInt16} {last id : Nat} {outer : List Nat} {ws ws' : Workspace}
    (hopened : ws.code.opened = id :: outer)
    (h : Workspace.onCode (Assembly.closeFunction locals) ws = .done last ws') : last = id := by
  obtain ⟨code, hclose, -⟩ := onCode_done.mp h
  unfold Assembly.closeFunction at hclose
  rw [hopened] at hclose
  cases outer with
  | nil => cases hclose
  | cons next rest =>
      simp only [Outcome.done.injEq] at hclose
      exact hclose.1.symm

theorem emitClosure (arity : UInt16) {body : Action Workspace Unit} (h : Adding body) :
    Adding (Workspace.emitClosure arity body) := by
  intro ws u ws' hdone
  simp only [Workspace.emitClosure, Action.bind_done] at hdone
  obtain ⟨function, ws₁, hopen, ⟨_, last⟩, _, hwithin, id, ws₂, hclose, hemit⟩ := hdone
  obtain ⟨inside, frame, outer, hbody, -, -, rfl, rfl⟩ := within_done hwithin
  obtain ⟨code, hcode, rfl⟩ := onCode_done.mp hopen
  simp only [Assembly.openFunction, Outcome.done.injEq] at hcode
  obtain ⟨rfl, rfl⟩ := hcode
  have hadds : ((Layout.opened ws arity).entered (.function ws.code.routines.size 0)).code.Adds
      inside.code := h hbody
  have hinside : (Layout.opened ws arity).code.Adds (inside.left frame).code := hadds
  have hopened : (inside.left frame).code.opened = ws.code.routines.size :: ws.code.opened :=
    hinside.opened
  obtain rfl := closed_id hopened hclose
  obtain rfl := Layout.closeFunction_done hopened hclose
  obtain ⟨-, rfl⟩ := emitWith_done hemit
  exact Progress.lambda_adds hinside

end Adding

variable {a : Alteration} {α : Type}

/-- **A rule adds what the lowering of the parts adds, and what it mentions itself.** -/
theorem Matched.adding {action action' : Lower → Action Workspace α} (h : Matched a action action')
    {lower : Lower} (hlower : ∀ node, Adding (lower node)) : Adding (action lower) := by
  induction h with
  | pure x => exact .pure x
  | bind _ _ ihfirst ihnext => exact ihfirst.bind ihnext
  | part node => exact hlower node
  | fail error => exact .fail error
  | ofWord result => exact .ofWord result
  | within state _ ih => exact .within state ih
  | depth | position | reachable => exact .read _
  | guardsWithin | findLocal | findElement | takeSlot | declare | update | addBreak | countThrow =>
      exact .onScopes _
  | enclosingLoop span =>
      refine .bind (.onScopes _) fun frame => ?_
      cases frame.state.loopEntry? with
      | some entry => exact .pure entry
      | none => exact .fail _
  | emitWith op hown => exact .emitWith op hown
  | pushConstant hvalue => exact .pushConstant hvalue
  | emitName text hop => exact .emitName text hop
  | emitIdent name => exact .emitIdent name
  | emitHint name value => exact .emitHint name value
  | emitImport path binding hop => exact .emitImport path binding hop
  | emitClosure arity _ ih => exact .emitClosure arity ih
  | jump op => exact .jump op
  | jumpBack target depth => exact .jumpBack target depth
  | land label => exact .land label
  | resetDepth depth => exact .resetDepth depth
  | addRegion region => exact .addRegion region

namespace Adding

theorem checkScopes (construct : Construct) (height pushes : Nat) :
    Adding (Contract.checkScopes construct height pushes) := by
  refine .bind (.onScopes _) fun heightNow => .bind (.onScopes _) fun pushesNow => ?_
  cases construct.scope? with
  | some scope =>
      have hopened : Adding
          (if pushesNow ≤ pushes then Action.raise (.scopeNotOpened construct scope)
            else Pure.pure ()) := .ite (.raise _) (.pure ())
      exact .ite (.bind (.raise _) fun _ => hopened) hopened
  | none => exact .ite (.bind (.raise _) fun _ => .pure ()) (.pure ())

theorem check (settings : Settings) (node : Node) (height pushes start : Nat) :
    Adding (Contract.check settings node height pushes start) := by
  have hdepth : ∀ expected, Adding (Contract.checkDepth settings node expected) :=
    fun _ => .bind (.read _) fun _ => .ite (.fail _) (.pure _)
  refine .bind (.checkScopes _ _ _) fun _ => ?_
  unfold Contract.checkBalance
  cases node.construct.balance with
  | diverges => exact .resetDepth _
  | value => exact .bind (.ofWord _) fun _ => hdepth _
  | effect => exact hdepth _

/-- Supervision adds nothing of its own. -/
theorem supervise (settings : Settings) (node : Node) {lowering : Action Workspace Unit}
    (h : Adding lowering) : Adding (Contract.supervise settings node lowering) := by
  intro ws u ws' hdone
  rw [Contract.supervise_apply] at hdone
  split at hdone
  · rename_i inside hlowering
    have hcheck : (inside.code.moveToLine ws.code.line).Adds ws'.code :=
      check settings node _ _ _ hdone
    have hrule := h hlowering
    have hmoved := Assembly.Adds.moveToLine ws.code (Contract.startLine settings node ws.code.line)
    exact ((hmoved.trans hrule).trans (.moveToLine inside.code _)).trans hcheck
  · cases hdone
  · cases hdone

end Adding

/-- **Lowering adds what it writes, however deep the tree may be.** -/
theorem lowerWithin_adding (settings : Settings) (room : Nat) (node : Node) :
    Adding (lowerWithin .standard settings room node) := by
  induction room generalizing node with
  | zero =>
      intro ws u ws' h
      simp only [lowerWithin, Action.bind_done, Action.not_fail_done, and_false, exists_false] at h
  | succ room ih =>
      intro ws u ws' h
      simp only [lowerWithin, Action.bind_done, Action.ofResult_done] at h
      obtain ⟨rule, _, ⟨hrule, rfl⟩, h⟩ := h
      obtain rfl : Rule.standard node.construct = rule := Except.ok.inj hrule
      have hadds := (Rule.standard_carries (a := .keep) node).adding ih
      exact Adding.supervise settings node hadds h

end QueryCompiler
