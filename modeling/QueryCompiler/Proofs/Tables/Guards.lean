/-
Guarded ranges in a text.

`Guarded` is a small grammar of texts with handlers in them: a text is guarded if it is
put together from single instructions and whole handlers, and the grammar keeps the
list of the handlers, the inner ones first, and the number of `throw`s that none of them
guards.  A handler has a *guard*: where it is installed, where the guarded range ends,
where its catch path starts, and how many `throw`s it guards itself.

Everything the handler table of a program is said to tell about its code is a fact
about guarded texts, by induction on the grammar.
-/
import Mathlib.Order.Interval.Finset.Nat
import QueryCompiler.Proofs.Tables.Text

namespace QueryCompiler

/-- A handler in the text of a function. -/
structure Guard where
  start : Nat
  stop : Nat
  catchAt : Nat
  /-- The `throw`s it guards, those left out that a handler inside guards. -/
  throws : Nat

namespace Guard

/-- The index lies between the installation of the handler and the end of its range. -/
def Covers (guard : Guard) (i : Nat) : Prop :=
  guard.start < i ∧ i < guard.stop

instance (guard : Guard) (i : Nat) : Decidable (guard.Covers i) :=
  inferInstanceAs (Decidable (_ ∧ _))

/-- How the range of a handler may lie to that of one that comes later in the table: they have
nothing in common, or it is inside. -/
def Before (guard later : Guard) : Prop :=
  guard.stop ≤ later.start ∨ later.stop ≤ guard.start ∨
    later.start < guard.start ∧ guard.stop ≤ later.stop

end Guard

/-- The way over a catch path: there is none, or the handler is left and the catch path skipped. -/
def Escapes (code : List Instruction) (stop catchAt : Nat) : Prop :=
  catchAt = stop ∨ catchAt = stop + 2 ∧ code[stop]? = some ⟨.tryEnd, .none⟩ ∧
    code[stop + 1]? = some ⟨.jump, .unaimed⟩

/-- A stretch of a text, with the handlers in it and the number of `throw`s outside of them. -/
inductive Guarded (code : List Instruction) : Nat → Nat → List Guard → Nat → Prop
  | nil (a : Nat) : Guarded code a a [] 0
  | plain {a : Nat} {instruction : Instruction} (h : code[a]? = some instruction)
      (htry : instruction.op ≠ .tryBegin) (hthrow : instruction.op ≠ .throw) :
      Guarded code a (a + 1) [] 0
  | throw {a : Nat} (h : code[a]? = some ⟨.throw, .none⟩) : Guarded code a (a + 1) [] 1
  | append {a b c loose loose' : Nat} {guards guards' : List Guard}
      (h : Guarded code a b guards loose) (h' : Guarded code b c guards' loose') :
      Guarded code a c (guards ++ guards') (loose + loose')
  | handler {a b c d throws loose : Nat} {caught : Instruction} {inner after : List Guard}
      (hinstall : code[a]? = some ⟨.tryBegin, .target c.toUInt32⟩)
      (hbody : Guarded code (a + 1) b inner throws) (hescape : Escapes code b c)
      (hcaught : code[c]? = some caught) (hcatch : Progress.Catch caught)
      (hrest : Guarded code (c + 1) d after loose) :
      Guarded code a d (inner ++ (after ++ [⟨a, b, c, throws⟩])) loose

/-- How many `throw`s of a range lie inside none of the handlers. -/
def looseThrows (code : List Instruction) (guards : List Guard) (a b : Nat) : Nat :=
  ((Finset.Ico a b).filter fun i =>
    code[i]?.map Instruction.op = some .throw ∧ ∀ guard ∈ guards, ¬ guard.Covers i).card

variable {code code' : List Instruction} {a b c loose : Nat} {guards guards' : List Guard}

theorem looseThrows_append (hab : a ≤ b) (hbc : b ≤ c) :
    looseThrows code guards a c = looseThrows code guards a b + looseThrows code guards b c := by
  unfold looseThrows
  rw [← Finset.Ico_union_Ico_eq_Ico hab hbc, Finset.filter_union, Finset.card_union_of_disjoint]
  exact Finset.disjoint_filter_filter (Finset.Ico_disjoint_Ico_consecutive a b c)

/-- Only the handlers that cover something of the range matter. -/
theorem looseThrows_congr (h : ∀ (guard : Guard) (i : Nat), a ≤ i → i < b → guard.Covers i →
    (guard ∈ guards ↔ guard ∈ guards')) :
    looseThrows code guards a b = looseThrows code guards' a b := by
  unfold looseThrows
  congr 1
  refine Finset.filter_congr fun i hi => and_congr_right fun _ => ?_
  obtain ⟨hai, hib⟩ := Finset.mem_Ico.mp hi
  refine forall_congr' fun guard => ⟨fun hloose hmem hcovers => ?_, fun hloose hmem hcovers => ?_⟩
  · exact hloose ((h guard i hai hib hcovers).mpr hmem) hcovers
  · exact hloose ((h guard i hai hib hcovers).mp hmem) hcovers

theorem looseThrows_eq_zero (h : ∀ i, a ≤ i → i < b →
    code[i]?.map Instruction.op = some .throw → ∃ guard ∈ guards, guard.Covers i) :
    looseThrows code guards a b = 0 := by
  refine Finset.card_eq_zero.mpr (Finset.filter_eq_empty_iff.mpr ?_)
  rintro i hi ⟨hthrow, hcovered⟩
  obtain ⟨hai, hib⟩ := Finset.mem_Ico.mp hi
  obtain ⟨guard, hguard, hcovers⟩ := h i hai hib hthrow
  exact hcovered guard hguard hcovers

theorem Escapes.le {stop catchAt : Nat} (h : Escapes code stop catchAt) : stop ≤ catchAt := by
  rcases h with rfl | ⟨rfl, -⟩ <;> omega

/-- The way over a catch path neither throws nor installs a handler. -/
theorem Escapes.op {stop catchAt i : Nat} {op : Opcode} (h : Escapes code stop catchAt)
    (hstop : stop ≤ i) (hi : i < catchAt) (hop : code[i]?.map Instruction.op = some op) :
    op = .tryEnd ∨ op = .jump := by
  rcases h with rfl | ⟨rfl, hend, hjump⟩
  · omega
  · obtain rfl | rfl : i = stop ∨ i = stop + 1 := by omega
    · rw [hend] at hop
      exact .inl (Option.some.inj hop).symm
    · rw [hjump] at hop
      exact .inr (Option.some.inj hop).symm

theorem Progress.Catch.op {caught : Instruction} (h : Catch caught) :
    caught.op = .pop ∨ caught.op = .store := by
  cases h with
  | drop => exact .inl rfl
  | store => exact .inr rfl

/-- Neither the way over a catch path nor its first instruction throws or installs a handler. -/
theorem Escapes.idle {stop catchAt i : Nat} {op : Opcode} {caught : Instruction}
    (h : Escapes code stop catchAt) (hcaught : code[catchAt]? = some caught)
    (hcatch : Progress.Catch caught) (hstop : stop ≤ i) (hi : i ≤ catchAt)
    (hop : code[i]?.map Instruction.op = some op) : op ≠ .throw ∧ op ≠ .tryBegin := by
  rcases Nat.eq_or_lt_of_le hi with rfl | hlt
  · rw [hcaught] at hop
    obtain rfl : caught.op = op := Option.some.inj hop
    rcases hcatch.op with hpop | hstore
    · rw [hpop]
      exact ⟨nofun, nofun⟩
    · rw [hstore]
      exact ⟨nofun, nofun⟩
  · rcases h.op hstop hlt hop with rfl | rfl <;> exact ⟨nofun, nofun⟩

namespace Guarded

theorem le (h : Guarded code a b guards loose) : a ≤ b := by
  induction h with
  | nil => exact Nat.le_refl _
  | plain | throw => exact Nat.le_succ _
  | append _ _ ih ih' => exact Nat.le_trans ih ih'
  | handler _ _ hescape _ _ _ ihbody ihrest =>
      have hle := hescape.le
      omega

/-- Only what stands in the stretch matters. -/
theorem congr (h : Guarded code a b guards loose)
    (hsame : ∀ i, a ≤ i → i < b → code'[i]? = code[i]?) : Guarded code' a b guards loose := by
  induction h with
  | nil a => exact .nil a
  | plain h htry hthrow =>
      exact .plain ((hsame _ (Nat.le_refl _) (Nat.lt_succ_self _)).trans h) htry hthrow
  | throw h => exact .throw ((hsame _ (Nat.le_refl _) (Nat.lt_succ_self _)).trans h)
  | append h h' ih ih' =>
      have hle := h.le
      have hle' := h'.le
      exact .append (ih fun i hi hi' => hsame i hi (by omega))
        (ih' fun i hi hi' => hsame i (by omega) hi')
  | handler hinstall hbody hescape hcaught hcatch hrest ihbody ihrest =>
      have hle := hbody.le
      have hle' := hrest.le
      have hle'' := hescape.le
      refine .handler ((hsame _ (Nat.le_refl _) (by omega)).trans hinstall)
        (ihbody fun i hi hi' => hsame i (by omega) (by omega)) ?_
        ((hsame _ (by omega) (by omega)).trans hcaught) hcatch
        (ihrest fun i hi hi' => hsame i (by omega) hi')
      rcases hescape with heq | ⟨heq, hend, hjump⟩
      · exact .inl heq
      · exact .inr ⟨heq, (hsame _ (by omega) (by omega)).trans hend,
          (hsame _ (by omega) (by omega)).trans hjump⟩

/-- The parts of a handler come in order, and all of it lies in the stretch. -/
theorem bounds (h : Guarded code a b guards loose) :
    ∀ guard ∈ guards, a ≤ guard.start ∧ guard.start < guard.stop ∧
      guard.stop ≤ guard.catchAt ∧ guard.catchAt < b := by
  induction h with
  | nil | plain | throw => exact nofun
  | append h h' ih ih' =>
      have hle := h.le
      have hle' := h'.le
      simp only [List.mem_append]
      rintro guard (hmem | hmem)
      · have hbounds := ih guard hmem
        omega
      · have hbounds := ih' guard hmem
        omega
  | handler _ hbody hescape _ _ hrest ihbody ihrest =>
      have hle := hbody.le
      have hle' := hrest.le
      have hle'' := hescape.le
      simp only [List.mem_append, List.mem_singleton]
      rintro guard (hmem | hmem | rfl)
      · have hbounds := ihbody guard hmem
        omega
      · have hbounds := ihrest guard hmem
        omega
      · dsimp only
        omega

/-- A handler covers nothing outside of the stretch it lies in. -/
theorem covers_within (h : Guarded code a b guards loose) {guard : Guard} (hmem : guard ∈ guards)
    {i : Nat} (hcovers : guard.Covers i) : a < i ∧ i < b := by
  have hbounds := h.bounds guard hmem
  unfold Guard.Covers at hcovers
  omega

/-- Every handler of the list stands in the text. -/
theorem stands (h : Guarded code a b guards loose) :
    ∀ guard ∈ guards, code[guard.start]? = some ⟨.tryBegin, .target guard.catchAt.toUInt32⟩ ∧
      Escapes code guard.stop guard.catchAt ∧
      ∃ caught, code[guard.catchAt]? = some caught ∧ Progress.Catch caught := by
  induction h with
  | nil | plain | throw => exact nofun
  | append _ _ ih ih' =>
      simp only [List.mem_append]
      rintro guard (hmem | hmem)
      · exact ih guard hmem
      · exact ih' guard hmem
  | handler hinstall _ hescape hcaught hcatch _ ihbody ihrest =>
      simp only [List.mem_append, List.mem_singleton]
      rintro guard (hmem | hmem | rfl)
      · exact ihbody guard hmem
      · exact ihrest guard hmem
      · exact ⟨hinstall, hescape, _, hcaught, hcatch⟩

/-- Every handler of the text is in the list. -/
theorem installed (h : Guarded code a b guards loose) {i : Nat} (hai : a ≤ i) (hib : i < b)
    (hi : code[i]?.map Instruction.op = some .tryBegin) : ∃ guard ∈ guards, guard.start = i := by
  induction h with
  | nil => omega
  | plain h htry _ =>
      obtain rfl : _ = i := Nat.le_antisymm hai (Nat.le_of_lt_succ hib)
      rw [h] at hi
      exact absurd (Option.some.inj hi) htry
  | throw h =>
      obtain rfl : _ = i := Nat.le_antisymm hai (Nat.le_of_lt_succ hib)
      rw [h] at hi
      cases hi
  | @append _ b _ _ _ _ _ _ _ ih ih' =>
      rcases Nat.lt_or_ge i b with hlt | hge
      · obtain ⟨guard, hguard, hstart⟩ := ih hai hlt
        exact ⟨guard, List.mem_append_left _ hguard, hstart⟩
      · obtain ⟨guard, hguard, hstart⟩ := ih' hge hib
        exact ⟨guard, List.mem_append_right _ hguard, hstart⟩
  | @handler a b c d throws _ caught inner after _ _ hescape hcaught hcatch _ ihbody ihrest =>
      rcases Nat.eq_or_lt_of_le hai with rfl | hlt
      · exact ⟨⟨a, b, c, throws⟩, by simp, rfl⟩
      rcases Nat.lt_or_ge i b with hbody | hbody
      · obtain ⟨guard, hguard, hstart⟩ := ihbody hlt hbody
        exact ⟨guard, List.mem_append_left _ hguard, hstart⟩
      rcases Nat.lt_or_ge c i with hrest | hcaughtAt
      · obtain ⟨guard, hguard, hstart⟩ := ihrest hrest hib
        exact ⟨guard, List.mem_append_right _ (List.mem_append_left _ hguard), hstart⟩
      · exact absurd rfl (hescape.idle hcaught hcatch hbody hcaughtAt hi).2

/-- **Of two handlers the inner one comes first in the list.** -/
theorem nested (h : Guarded code a b guards loose) : guards.Pairwise Guard.Before := by
  induction h with
  | nil | plain | throw => exact .nil
  | append h h' ih ih' =>
      refine List.pairwise_append.mpr ⟨ih, ih', fun guard hguard later hlater => .inl ?_⟩
      have hbounds := h.bounds guard hguard
      have hbounds' := h'.bounds later hlater
      omega
  | handler _ hbody hescape _ _ hrest ihbody ihrest =>
      have hle := hescape.le
      refine List.pairwise_append.mpr ⟨ihbody, List.pairwise_append.mpr
        ⟨ihrest, List.pairwise_singleton _ _, ?_⟩, ?_⟩
      · intro guard hguard later hlater
        obtain rfl := List.mem_singleton.mp hlater
        have hbounds := hrest.bounds guard hguard
        refine .inr (.inl ?_)
        dsimp only
        omega
      · simp only [List.mem_append, List.mem_singleton]
        rintro guard hguard later (hlater | rfl)
        · have hbounds := hbody.bounds guard hguard
          have hbounds' := hrest.bounds later hlater
          exact .inl (by omega)
        · have hbounds := hbody.bounds guard hguard
          refine .inr (.inr ?_)
          dsimp only
          omega

/-- **The `throw`s that are counted outside of all handlers are those that lie outside.** -/
theorem loose_eq (h : Guarded code a b guards loose) :
    loose = looseThrows code guards a b := by
  induction h with
  | nil a =>
      refine (looseThrows_eq_zero fun i hi hi' => ?_).symm
      omega
  | plain h _ hthrow =>
      refine (looseThrows_eq_zero fun i hi hi' hop => ?_).symm
      obtain rfl : _ = i := Nat.le_antisymm hi (Nat.le_of_lt_succ hi')
      rw [h] at hop
      exact absurd (Option.some.inj hop) hthrow
  | throw h =>
      unfold looseThrows
      rw [Nat.Ico_succ_singleton, Finset.filter_true_of_mem]
      · rfl
      · intro i hi
        obtain rfl := Finset.mem_singleton.mp hi
        exact ⟨by rw [h]; rfl, nofun⟩
  | append h h' ih ih' =>
      rw [looseThrows_append h.le h'.le, ih, ih']
      congr 1
      · refine looseThrows_congr fun guard i hi hi' hcovers => ?_
        refine ⟨List.mem_append_left _, fun hmem => ?_⟩
        rcases List.mem_append.mp hmem with hmem | hmem
        · exact hmem
        · have hwithin := h'.covers_within hmem hcovers
          omega
      · refine looseThrows_congr fun guard i hi hi' hcovers => ?_
        refine ⟨List.mem_append_right _, fun hmem => ?_⟩
        rcases List.mem_append.mp hmem with hmem | hmem
        · have hwithin := h.covers_within hmem hcovers
          omega
        · exact hmem
  | @handler a b c d throws _ caught inner after hinstall hbody hescape hcaught hcatch hrest _
      ihrest =>
      have hle := hescape.le
      have hle' := hbody.le
      have hsplit : a ≤ c + 1 := by omega
      rw [looseThrows_append hsplit hrest.le, looseThrows_eq_zero, ihrest, Nat.zero_add]
      · -- On the catch path only the handlers of the catch path count.
        refine looseThrows_congr fun guard i hi hi' hcovers => ?_
        simp only [List.mem_append, List.mem_singleton]
        refine ⟨fun hmem => .inr (.inl hmem), ?_⟩
        rintro (hmem | hmem | rfl)
        · have hwithin := hbody.covers_within hmem hcovers
          omega
        · exact hmem
        · unfold Guard.Covers at hcovers
          dsimp only at hcovers
          omega
      · -- Up to there what throws is in the body.
        intro i hi hi' hop
        refine ⟨⟨a, b, c, throws⟩, by simp, ?_⟩
        rcases Nat.eq_or_lt_of_le hi with rfl | hlt
        · rw [hinstall] at hop
          cases hop
        rcases Nat.lt_or_ge i b with hin | hout
        · exact ⟨hlt, hin⟩
        · exact absurd rfl (hescape.idle hcaught hcatch hout (Nat.le_of_lt_succ hi') hop).1

/-- Where nothing is written nothing is counted. -/
theorem loose_eq_zero (h : Guarded code a a guards loose) : loose = 0 := by
  rw [h.loose_eq]
  exact looseThrows_eq_zero fun i hi hi' => absurd hi (Nat.not_le.mpr hi')

/-- What a handler counts itself does not depend on handlers that start outside of its range. -/
theorem inner_congr {guard : Guard} {part all : List Guard} (hpart : part ⊆ all)
    (hall : ∀ other ∈ all,
      other ∈ part ∨ other.start ≤ guard.start ∨ guard.stop ≤ other.start) :
    looseThrows code (part.filter fun inner => guard.start < inner.start) (guard.start + 1)
        guard.stop =
      looseThrows code (all.filter fun inner => guard.start < inner.start) (guard.start + 1)
        guard.stop := by
  refine looseThrows_congr fun inner i hi hi' hcovers => ?_
  simp only [List.mem_filter, decide_eq_true_eq]
  refine and_congr_left fun hafter => ⟨fun hmem => hpart hmem, fun hmem => ?_⟩
  rcases hall inner hmem with hmem | hbefore | hbehind
  · exact hmem
  · omega
  · unfold Guard.Covers at hcovers
    omega

/-- **A handler counts the `throw`s in its range that no handler inside it covers.** -/
theorem throws_eq (h : Guarded code a b guards loose) :
    ∀ guard ∈ guards, guard.throws =
      looseThrows code (guards.filter fun inner => guard.start < inner.start) (guard.start + 1)
        guard.stop := by
  induction h with
  | nil | plain | throw => exact nofun
  | append h h' ih ih' =>
      simp only [List.mem_append]
      rintro guard (hmem | hmem)
      · have hbounds := h.bounds guard hmem
        rw [ih guard hmem]
        refine inner_congr (List.subset_append_left _ _) fun other hother => ?_
        rcases List.mem_append.mp hother with hother | hother
        · exact .inl hother
        · have hbounds' := h'.bounds other hother
          exact .inr (.inr (by omega))
      · have hbounds := h'.bounds guard hmem
        rw [ih' guard hmem]
        refine inner_congr (List.subset_append_right _ _) fun other hother => ?_
        rcases List.mem_append.mp hother with hother | hother
        · have hbounds' := h.bounds other hother
          exact .inr (.inl (by omega))
        · exact .inl hother
  | @handler a b c d throws _ caught inner after hinstall hbody hescape hcaught hcatch hrest ihbody
      ihrest =>
      have hle := hescape.le
      have hle' := hbody.le
      have hsub : after ⊆ inner ++ (after ++ [⟨a, b, c, throws⟩]) := by simp
      simp only [List.mem_append, List.mem_singleton]
      rintro guard (hmem | hmem | rfl)
      · have hbounds := hbody.bounds guard hmem
        rw [ihbody guard hmem]
        refine inner_congr (List.subset_append_left _ _) ?_
        simp only [List.mem_append, List.mem_singleton]
        rintro other (hother | hother | rfl)
        · exact .inl hother
        · have hbounds' := hrest.bounds other hother
          exact .inr (.inr (by omega))
        · exact .inr (.inl (by dsimp only; omega))
      · have hbounds := hrest.bounds guard hmem
        rw [ihrest guard hmem]
        refine inner_congr hsub ?_
        simp only [List.mem_append, List.mem_singleton]
        rintro other (hother | hother | rfl)
        · have hbounds' := hbody.bounds other hother
          exact .inr (.inl (by omega))
        · exact .inl hother
        · exact .inr (.inl (by dsimp only; omega))
      · -- The handler itself counts what its body leaves over.
        dsimp only
        rw [hbody.loose_eq]
        refine looseThrows_congr fun other i hi hi' hcovers => ?_
        simp only [List.mem_filter, List.mem_append, List.mem_singleton, decide_eq_true_eq]
        refine ⟨fun hother => ⟨.inl hother, (hbody.bounds other hother).1⟩, ?_⟩
        rintro ⟨hother | hother | rfl, hafter⟩
        · exact hother
        · have hwithin := hrest.covers_within hother hcovers
          omega
        · exact absurd hafter (Nat.lt_irrefl _)

end Guarded

end QueryCompiler
