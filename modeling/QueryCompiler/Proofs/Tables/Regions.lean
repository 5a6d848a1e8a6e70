/-
What the handler table of a program tells.

A whole program is one course, so its functions are guarded texts and its table lists
their handlers, in words.  As long as indices fit into words nothing is lost, and the
table describes the code (`Program.ListsHandlers`): one region for every handler, in
the order in which they nest, with the `throw`s each of them guards itself.
-/
import QueryCompiler.Proofs.Tables.Records

namespace QueryCompiler

/-! ### The table and the code -/

namespace Program

/-- The `throw`s that a region of a function guards itself: those strictly between its ends that do
not lie strictly between the ends of a region that starts after it. -/
def guardedThrows (program : Program) (function : CompiledFunction) (region : GuardedRegion) :
    Nat :=
  ((Finset.Ioo region.start.toNat region.stop.toNat).filter fun i =>
    function.code[i]?.map Instruction.op = some .throw ∧
    ∀ inner ∈ program.regions.toList, inner.function = region.function →
      region.start < inner.start → ¬ (inner.start.toNat < i ∧ i < inner.stop.toNat)).card

/-- A region tells what stands in its function. -/
structure Describes (program : Program) (function : CompiledFunction) (region : GuardedRegion) :
    Prop where
  installs : function.code[region.start.toNat]? = some ⟨.tryBegin, .target region.catchAt⟩
  ordered : region.start < region.stop ∧ region.stop ≤ region.catchAt
  /-- A body that comes to its end leaves the handler and jumps over the catch path. -/
  leaves : region.catchAt = region.stop ∨ region.catchAt.toNat = region.stop.toNat + 2 ∧
    function.code[region.stop.toNat]? = some ⟨.tryEnd, .none⟩ ∧
    ∃ target, function.code[region.stop.toNat + 1]? = some ⟨.jump, .target target⟩
  /-- The catch path starts by dropping or storing the error. -/
  catches : function.code[region.catchAt.toNat]? = some ⟨.pop, .none⟩ ∨
    ∃ slot, function.code[region.catchAt.toNat]? = some ⟨.store, .slot ⟨0, slot⟩⟩
  counts : region.throws.toNat = program.guardedThrows function region

/-- The table of regions describes the handlers of the program, all of them and each one once. -/
structure ListsHandlers (program : Program) : Prop where
  described : ∀ region ∈ program.regions.toList, ∃ function,
    program.functions[region.function.toNat]? = some function ∧ program.Describes function region
  complete : ∀ (g : Nat) (function : CompiledFunction) (i : Nat) (operand : Operand),
    program.functions[g]? = some function → function.code[i]? = some ⟨.tryBegin, operand⟩ →
    ∃ region ∈ program.regions.toList, region.function.toNat = g ∧ region.start.toNat = i
  distinct : program.regions.toList.Pairwise fun region later =>
    region.function = later.function → region.start ≠ later.start
  /-- Two ranges of a function have nothing in common, or the one that comes first in the table is
  inside the other. -/
  nested : program.regions.toList.Pairwise fun region later =>
    region.function = later.function →
      region.stop ≤ later.start ∨ later.stop ≤ region.start ∨
        later.start < region.start ∧ region.stop ≤ later.stop

end Program

namespace Program

open Progress

/-! ### Words -/

/-- The handlers of a program, each with the function it is in: so they are listed in the table, and
so they stand in the code. -/
structure Handlers (program : Program) (entries : List (Nat × Guard)) : Prop where
  regions : program.regions.toList = entries.map fun entry => entry.2.region entry.1
  places : ∀ entry ∈ entries, entry.1 < program.functions.size
  guarded : ∀ (g : Nat) (function : CompiledFunction), program.functions[g]? = some function →
    ∃ loose, Guarded (function.code.toList.map Instruction.core) 0 function.code.size
      (entriesOf g entries) loose

/-- There are words for the functions of the program and for the indices into its code. -/
structure FitsWords (program : Program) : Prop where
  functions : program.functions.size ≤ wordLimit
  code : ∀ function ∈ program.functions, function.code.size < wordLimit

end Program

/-- Nothing is lost in the words of a region if the code it describes is short enough. -/
theorem Guard.region_words (guard : Guard) (g : Nat) {size : Nat} (hsize : size < wordLimit)
    (hbounds : 0 ≤ guard.start ∧ guard.start < guard.stop ∧ guard.stop ≤ guard.catchAt ∧
      guard.catchAt < size) :
    (guard.region g).start.toNat = guard.start ∧ (guard.region g).stop.toNat = guard.stop ∧
      (guard.region g).catchAt.toNat = guard.catchAt :=
  ⟨toNat_toUInt32 (by omega), toNat_toUInt32 (by omega), toNat_toUInt32 (by omega)⟩

/-- An instruction of a text is that of the code, but for the target of a jump. -/
theorem core_at {code : Array Instruction} {i : Nat} {core : Instruction}
    (h : (code.toList.map Instruction.core)[i]? = some core) :
    ∃ instruction, code[i]? = some instruction ∧ instruction.core = core := by
  rw [List.getElem?_map, Option.map_eq_some_iff] at h
  simpa only [Array.getElem?_toList] using h

theorem looseThrows_le (code : List Instruction) (guards : List Guard) (a b : Nat) :
    looseThrows code guards a b ≤ b - a :=
  (Finset.card_filter_le _ _).trans_eq (Nat.card_Ico a b)

namespace Program.Handlers

open Progress

variable {program : Program} {entries : List (Nat × Guard)} {function : CompiledFunction}
  {g g' : Nat} {guard guard' : Guard}

/-- The function a handler is in. -/
theorem function_of_mem (h : program.Handlers entries) (hmem : (g, guard) ∈ entries) :
    ∃ function, program.functions[g]? = some function :=
  ⟨_, Array.getElem?_eq_getElem (h.places _ hmem)⟩

/-- The words of a region stand for what the handler has there. -/
theorem words (h : program.Handlers entries) (hfits : program.FitsWords)
    (hmem : (g, guard) ∈ entries) :
    (guard.region g).start.toNat = guard.start ∧ (guard.region g).stop.toNat = guard.stop ∧
      (guard.region g).catchAt.toNat = guard.catchAt := by
  obtain ⟨function, hfunction⟩ := h.function_of_mem hmem
  obtain ⟨loose, hguarded⟩ := h.guarded g function hfunction
  exact guard.region_words g (hfits.code function (Array.mem_of_getElem? hfunction))
    (hguarded.bounds guard (mem_entriesOf.mpr hmem))

theorem region_function (h : program.Handlers entries) (hfits : program.FitsWords)
    (hmem : (g, guard) ∈ entries) : (guard.region g).function.toNat = g :=
  toNat_toUInt32 (Nat.lt_of_lt_of_le (h.places _ hmem) hfits.functions)

/-- Regions that name the same function are in the same function. -/
theorem function_eq (h : program.Handlers entries) (hfits : program.FitsWords)
    (hmem : (g, guard) ∈ entries) (hmem' : (g', guard') ∈ entries)
    (hsame : (guard.region g).function = (guard'.region g').function) : g = g' := by
  have hwords := congrArg UInt32.toNat hsame
  rwa [h.region_function hfits hmem, h.region_function hfits hmem'] at hwords

/-- The `throw`s that a handler counts are those that its region guards. -/
theorem guardedThrows_eq (h : program.Handlers entries) (hfits : program.FitsWords)
    (hfunction : program.functions[g]? = some function) (hmem : (g, guard) ∈ entries) :
    program.guardedThrows function (guard.region g) = guard.throws := by
  obtain ⟨loose, hguarded⟩ := h.guarded g function hfunction
  obtain ⟨hstart, hstop, -⟩ := h.words hfits hmem
  rw [hguarded.throws_eq guard (mem_entriesOf.mpr hmem), guardedThrows, looseThrows, hstart, hstop]
  congr 1
  have hop : Instruction.op ∘ Instruction.core = Instruction.op := funext Instruction.core_op
  ext i
  simp only [Finset.mem_filter, Finset.mem_Ioo, Finset.mem_Ico, h.regions, List.forall_mem_map,
    List.mem_filter, decide_eq_true_eq, List.getElem?_map, Option.map_map, hop,
    Array.getElem?_toList]
  refine and_congr Iff.rfl (and_congr Iff.rfl ⟨?_, ?_⟩)
  · rintro hloose inner ⟨hinner, hafter⟩ hcovers
    have hmem' := mem_entriesOf.mp hinner
    obtain ⟨hstart', hstop', -⟩ := h.words hfits hmem'
    refine hloose (g, inner) hmem' rfl ?_ ?_
    · rw [UInt32.lt_iff_toNat_lt, hstart, hstart']
      exact hafter
    · rw [hstart', hstop']
      exact hcovers
  · rintro hloose ⟨g', inner⟩ hmem' hsame hafter hcovers
    obtain rfl := h.function_eq hfits hmem' hmem hsame
    obtain ⟨hstart', hstop', -⟩ := h.words hfits hmem'
    rw [UInt32.lt_iff_toNat_lt, hstart, hstart'] at hafter
    rw [hstart', hstop'] at hcovers
    exact hloose inner ⟨mem_entriesOf.mpr hmem', hafter⟩ hcovers

/-- A handler is described by its region. -/
theorem describes (h : program.Handlers entries) (hfits : program.FitsWords)
    (hfunction : program.functions[g]? = some function) (hmem : (g, guard) ∈ entries) :
    program.Describes function (guard.region g) := by
  obtain ⟨loose, hguarded⟩ := h.guarded g function hfunction
  have hguard := mem_entriesOf.mpr hmem
  have hbounds := hguarded.bounds guard hguard
  obtain ⟨hinstall, hescape, caught, hcaught, hcatch⟩ := hguarded.stands guard hguard
  obtain ⟨hstart, hstop, hcatchAt⟩ := h.words hfits hmem
  refine ⟨?_, ?_, ?_, ?_, ?_⟩
  · obtain ⟨instruction, hat, hcore⟩ := core_at hinstall
    rw [hstart, hat, Instruction.eq_of_core hcore (.inl rfl)]
    rfl
  · rw [UInt32.lt_iff_toNat_lt, UInt32.le_iff_toNat_le, hstart, hstop, hcatchAt]
    exact ⟨hbounds.2.1, hbounds.2.2.1⟩
  · rcases hescape with hnone | ⟨hskip, hend, hjump⟩
    · exact .inl (congrArg Nat.toUInt32 hnone)
    · obtain ⟨leave, hleave, hleaveCore⟩ := core_at hend
      obtain ⟨jump, hjumpAt, hjumpCore⟩ := core_at hjump
      rw [Instruction.eq_of_core hleaveCore (.inr nofun)] at hleave
      rw [hcatchAt, hstop]
      refine .inr ⟨hskip, hleave, ?_⟩
      obtain ⟨target, rfl⟩ := Instruction.target_of_core hjumpCore
      exact ⟨target, hjumpAt⟩
  · obtain ⟨instruction, hat, hcore⟩ := core_at hcaught
    rw [hcatchAt, hat]
    cases hcatch with
    | drop => exact .inl (congrArg some (Instruction.eq_of_core hcore (.inr nofun)))
    | store slot => exact .inr ⟨slot, congrArg some (Instruction.eq_of_core hcore (.inr nofun))⟩
  · -- There are no more `throw`s than instructions, so there is a word for their number.
    rw [h.guardedThrows_eq hfits hfunction hmem]
    refine toNat_toUInt32 ?_
    rw [hguarded.throws_eq guard hguard]
    have hle := looseThrows_le (function.code.toList.map Instruction.core)
      ((entriesOf g entries).filter fun inner => guard.start < inner.start) (guard.start + 1)
      guard.stop
    have hshort := hfits.code function (Array.mem_of_getElem? hfunction)
    omega

/-- Every region is that of a handler and describes it. -/
theorem described (h : program.Handlers entries) (hfits : program.FitsWords)
    {region : GuardedRegion} (hregion : region ∈ program.regions.toList) :
    ∃ function, program.functions[region.function.toNat]? = some function ∧
      program.Describes function region := by
  rw [h.regions] at hregion
  obtain ⟨⟨g, guard⟩, hmem, rfl⟩ := List.mem_map.mp hregion
  obtain ⟨function, hfunction⟩ := h.function_of_mem hmem
  refine ⟨function, ?_, h.describes hfits hfunction hmem⟩
  rw [h.region_function hfits hmem]
  exact hfunction

/-- Whatever installs a handler starts a region. -/
theorem complete (h : program.Handlers entries) (hfits : program.FitsWords) {i : Nat}
    {operand : Operand} (hfunction : program.functions[g]? = some function)
    (hat : function.code[i]? = some ⟨.tryBegin, operand⟩) :
    ∃ region ∈ program.regions.toList, region.function.toNat = g ∧ region.start.toNat = i := by
  obtain ⟨loose, hguarded⟩ := h.guarded g function hfunction
  have hlt : i < function.code.size := (Array.getElem?_eq_some_iff.mp hat).1
  have hinstalls : (function.code.toList.map Instruction.core)[i]?.map Instruction.op =
      some .tryBegin := by
    rw [List.getElem?_map, Array.getElem?_toList, hat]
    rfl
  obtain ⟨guard, hguard, rfl⟩ := hguarded.installed (Nat.zero_le i) hlt hinstalls
  have hmem := mem_entriesOf.mp hguard
  refine ⟨guard.region g, ?_, h.region_function hfits hmem, (h.words hfits hmem).1⟩
  rw [h.regions]
  exact List.mem_map.mpr ⟨(g, guard), hmem, rfl⟩

/-- The entries are in the order in which handlers nest. -/
theorem entries_before (h : program.Handlers entries) : entries.Pairwise fun entry later =>
    entry.1 = later.1 → entry.2.Before later.2 := by
  refine pairwise_of_entriesOf fun g => ?_
  rcases Nat.lt_or_ge g program.functions.size with hlt | hge
  · obtain ⟨loose, hguarded⟩ := h.guarded g _ (Array.getElem?_eq_getElem hlt)
    exact hguarded.nested
  · have hnone : entriesOf g entries = [] := by
      refine entriesOf_eq_nil fun entry hmem => ?_
      exact Nat.ne_of_lt (Nat.lt_of_lt_of_le (h.places entry hmem) hge)
    rw [hnone]
    exact .nil

/-- Of two regions of a function the one that comes first is inside the other or apart from it. -/
theorem nested (h : program.Handlers entries) (hfits : program.FitsWords) :
    program.regions.toList.Pairwise fun region later => region.function = later.function →
      region.stop ≤ later.start ∨ later.stop ≤ region.start ∨
        later.start < region.start ∧ region.stop ≤ later.stop := by
  rw [h.regions, List.pairwise_map]
  refine h.entries_before.imp_of_mem ?_
  rintro ⟨g, guard⟩ ⟨g', later⟩ hmem hmem' hbefore hsame
  obtain rfl := h.function_eq hfits hmem hmem' hsame
  obtain ⟨hstart, hstop, -⟩ := h.words hfits hmem
  obtain ⟨hstart', hstop', -⟩ := h.words hfits hmem'
  simp only [UInt32.lt_iff_toNat_lt, UInt32.le_iff_toNat_le, hstart, hstop, hstart', hstop']
  exact hbefore rfl

/-- No two regions of a function start at the same place, since neither of them is empty. -/
theorem distinct (h : program.Handlers entries) (hfits : program.FitsWords) :
    program.regions.toList.Pairwise fun region later =>
      region.function = later.function → region.start ≠ later.start := by
  refine (h.nested hfits).imp_of_mem ?_
  intro region later hregion hlater hnested hsame hstart
  obtain ⟨_, -, hregion⟩ := h.described hfits hregion
  obtain ⟨_, -, hlater⟩ := h.described hfits hlater
  have hordered := hregion.ordered.1
  have hordered' := hlater.ordered.1
  have hnested := hnested hsame
  rw [hstart] at hordered hnested
  simp only [UInt32.lt_iff_toNat_lt, UInt32.le_iff_toNat_le] at hordered hordered' hnested
  omega

end Program.Handlers

namespace Compiler

open Progress

/-- The functions of a program that compiles are guarded texts, and its table lists their
handlers. -/
theorem compile_handlers {compiler : Compiler} {root : Node} {program : Program}
    (hregistry : compiler.registry = .standard) (h : compiler.compile root = .ok program) :
    ∃ entries, program.Handlers entries := by
  obtain ⟨inside, frame, outer, hcourse, hframes, rfl⟩ := compile_course hregistry h
  obtain ⟨entries, loose, hrecords⟩ := hcourse.records Nat.zero_lt_one
  have hzero : inside.code.currentFunction = 0 := hrecords.additions.function
  have hsize := inside.code.size_functions (frame.state.nextSlot?.getD 0)
  refine ⟨entries, hrecords.additions.regions, ?_, ?_⟩
  · intro entry hentry
    rw [hsize]
    have hpos : 0 < inside.code.routines.size := hrecords.additions.size
    rcases hrecords.additions.places entry hentry with hplace | hplace
    · have hplace : entry.1 = 0 := hplace
      omega
    · exact hplace.2
  · intro g function hfunction
    have hlt := (Array.getElem?_eq_some_iff.mp hfunction).1
    rw [hsize] at hlt
    simp only [Assembly.toProgram, Array.getElem?_mapIdx, Option.map_eq_some_iff] at hfunction
    obtain ⟨routine, hroutine, rfl⟩ := hfunction
    have htext : inside.code.text g = routine.code.toList.map Instruction.core := by
      rw [← inside.code.text_reserveLocals (frame.state.nextSlot?.getD 0), Assembly.text,
        Array.getD_eq_getD_getElem?, hroutine]
      rfl
    have hlength : (inside.code.text g).length = routine.code.size := by
      rw [htext, List.length_map, Array.length_toList]
    show ∃ loose, Guarded (routine.code.toList.map Instruction.core) 0 routine.code.size _ loose
    rw [← hlength, ← htext]
    rcases Nat.eq_zero_or_pos g with rfl | hpos
    · have hmain := hrecords.current
      rw [← inside.code.length_text, hzero] at hmain
      exact ⟨loose, hmain⟩
    · exact hrecords.additions.made g hpos hlt

/-- **The handler table of a compiled program describes its code exactly.**  Functions and indices
are words in the table, so there must be words for all of them. -/
theorem compile_listsHandlers {compiler : Compiler} {root : Node} {program : Program}
    (hregistry : compiler.registry = .standard) (h : compiler.compile root = .ok program)
    (hfunctions : program.functions.size ≤ wordLimit)
    (hshort : ∀ function ∈ program.functions, function.code.size < wordLimit) :
    program.ListsHandlers := by
  obtain ⟨entries, hhandlers⟩ := compile_handlers hregistry h
  have hfits : program.FitsWords := ⟨hfunctions, hshort⟩
  refine ⟨?_, ?_, hhandlers.distinct hfits, hhandlers.nested hfits⟩
  · intro region hregion
    exact hhandlers.described hfits hregion
  · intro g function i operand hfunction hat
    exact hhandlers.complete hfits hfunction hat

/-- A query with a handler in a handler and one in a lambda, and a `throw` on each catch path. -/
def fallbacks : Node :=
  .tryCatch
    (.block [
      .tryCatch (.throwWith 1 (.literal .null {}) {}) none (.throwWith 2 (.literal .null {}) {}) {},
      .run (.lambda [] (.tryCatch (.run (.param "p" {}) {}) none (.block [] {}) {}) {}) {}] {})
    (some ⟨"e", {}⟩) (.throwWith 3 (.ident "e" {}) {}) {}

theorem fallbacks_compiles : (compile {} fallbacks).toOption.map (fun program =>
    (program.functions.toList.map fun function => function.code.size, program.regions)) =
    some ([15, 9], #[⟨0, 1, 5, 5, 1⟩, ⟨1, 0, 3, 5, 0⟩, ⟨0, 0, 11, 11, 1⟩]) := by
  decide +kernel

theorem fallbacks_listed : ∃ program, compile {} fallbacks = .ok program ∧
    program.regions = #[⟨0, 1, 5, 5, 1⟩, ⟨1, 0, 3, 5, 0⟩, ⟨0, 0, 11, 11, 1⟩] ∧
    program.functions.size ≤ wordLimit ∧
    (∀ function ∈ program.functions, function.code.size < wordLimit) ∧ program.ListsHandlers := by
  obtain ⟨program, hcompile, hseen⟩ := compiles_of_view fallbacks_compiles
  obtain ⟨hsizes, hregions⟩ := Prod.mk.inj hseen
  have hfunctions : program.functions.size ≤ wordLimit := by
    have hlength := congrArg List.length hsizes
    rw [List.length_map, Array.length_toList] at hlength
    rw [hlength]
    decide
  have hshort : ∀ function ∈ program.functions, function.code.size < wordLimit := by
    intro function hfunction
    have hmem : function.code.size ∈ [15, 9] := by
      rw [← hsizes]
      exact List.mem_map_of_mem (Array.mem_toList_iff.mpr hfunction)
    have hall : ∀ size ∈ [15, 9], size < wordLimit := by decide
    exact hall _ hmem
  exact ⟨program, hcompile, hregions, hfunctions, hshort,
    compile_listsHandlers rfl hcompile hfunctions hshort⟩

end Compiler

end QueryCompiler
