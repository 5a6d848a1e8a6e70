/-
The constant table of a program.

A program that compiles has the constants it needs and no others, each of them once.
`Program.ListsConstants` says so from the side of the code: whoever reads it meets the
constants in the order of the table, and finds under each number a constant of the kind
that the instruction is about.

What a lowering adds was said of mentions.  Here the mentions of all functions are put
back into their code, where the instructions about other things contribute nothing to a
reading.
-/
import QueryCompiler.Proofs.Tables.Pooling

namespace QueryCompiler

namespace Program

/-- The code of a function. -/
def code? (program : Program) (function : Nat) : Option (List Instruction) :=
  program.functions[function]?.map fun function => function.code.toList

/-- The constant table is in the order of the code, and has what the code is about. -/
structure ListsConstants (program : Program) : Prop where
  /-- There is one way to read the main function, and it meets the constants for the first time in
  the order of their numbers. -/
  order : ∃ main ids, program.code? 0 = some main ∧
    (∀ other, Reads program.code? main other ↔ other = ids) ∧
    (ids.map UInt32.toNat).eraseDups = List.range program.constants.size
  used : ∀ i < program.constants.size, ∃ function ∈ program.functions,
    ∃ instruction ∈ function.code, ∃ id ∈ instruction.operand.constants, id.toNat = i
  known : ∀ function ∈ program.functions, ∀ instruction ∈ function.code,
    ∀ id ∈ instruction.operand.constants, id.toNat < program.constants.size
  distinct : program.constants.toList.Nodup
  /-- What is loaded is an integer, a float or a text. -/
  loads : ∀ function ∈ program.functions, ∀ instruction ∈ function.code,
    instruction.op = .loadConst → ∃ id value, instruction.operand = .const id ∧
      program.constant? id = some value ∧ value.isPooled = true
  names : ∀ function ∈ program.functions, ∀ instruction ∈ function.code,
    instruction.op ∈ [.loadGlobal, .loadParam, .getMember, .put, .importModule, .importResource] →
    ∃ id text, instruction.operand = .const id ∧ program.constant? id = some (.string text)
  hints : ∀ function ∈ program.functions, ∀ instruction ∈ function.code,
    instruction.op = .hint → ∃ key value text, instruction.operand = .hint key value ∧
      program.constant? key = some (.string text)
  /-- Null and the truth values are nothing but the values of hints. -/
  rare : ∀ function ∈ program.functions, ∀ instruction ∈ function.code,
    ∀ id ∈ instruction.operand.constants, ∀ value, program.constant? id = some value →
      value.isPooled = false → ∃ key, key ≠ id ∧ instruction = ⟨.hint, .hint key id⟩

end Program

/-! ### From mentions to code -/

namespace Reads

variable {table table' : Nat → Option (List Instruction)} {code rest : List Instruction}
  {ids : List UInt32}

/-- Instructions about neither constants nor functions contribute nothing. -/
theorem skip (hown : ∀ instruction ∈ code, instruction.operand.isOwn = true)
    (hshapes : ∀ instruction ∈ code, instruction.WellShaped) (h : Reads table rest ids) :
    Reads table (code ++ rest) ids := by
  induction code with
  | nil => exact h
  | cons instruction code ih =>
      obtain ⟨hhead, htail⟩ := List.forall_mem_cons.mp hown
      obtain ⟨hshape, hshapes⟩ := List.forall_mem_cons.mp hshapes
      have hnone : instruction.operand.constants = [] := by
        cases hoperand : instruction.operand <;> first | rfl | (rw [hoperand] at hhead; cases hhead)
      have hop : instruction.op ≠ .makeLambda := by
        obtain ⟨op, operand⟩ := instruction
        rintro rfl
        cases operand with
        | function => cases hhead
        | _ => cases hshape
      have hreads := reads hop (ih htail hshapes)
      rw [hnone] at hreads
      exact hreads

/-- **What is read in the mentions is read in the code.** -/
theorem of_mentions {mentions : List Instruction}
    (htable : ∀ g inner, table g = some inner → ∃ code, table' g = some code ∧
      code.filter (fun instruction => !instruction.operand.isOwn) = inner ∧
      ∀ instruction ∈ code, instruction.WellShaped)
    (h : Reads table mentions ids)
    (hcode : code.filter (fun instruction => !instruction.operand.isOwn) = mentions)
    (hshapes : ∀ instruction ∈ code, instruction.WellShaped) : Reads table' code ids := by
  induction h generalizing code with
  | done =>
      rw [← List.append_nil code]
      refine skip (fun instruction hmem => ?_) hshapes .done
      simpa using List.filter_eq_nil_iff.mp hcode instruction hmem
  | makes hinner _ _ ih ih' =>
      obtain ⟨before, after, rfl, hbefore, -, hafter⟩ := List.filter_eq_cons_iff.mp hcode
      rw [List.forall_mem_append, List.forall_mem_cons] at hshapes
      obtain ⟨inner, hat, hfilter, hinnershapes⟩ := htable _ _ hinner
      exact skip (fun instruction hmem => by simpa using hbefore instruction hmem) hshapes.1
        (.makes hat (ih hfilter hinnershapes) (ih' hafter hshapes.2.2))
  | reads hop _ ih =>
      obtain ⟨before, after, rfl, hbefore, -, hafter⟩ := List.filter_eq_cons_iff.mp hcode
      rw [List.forall_mem_append, List.forall_mem_cons] at hshapes
      exact skip (fun instruction hmem => by simpa using hbefore instruction hmem) hshapes.1
        (.reads hop (ih hafter hshapes.2.2))

/-- Whatever is read stands in some code. -/
theorem stands (h : Reads table code ids) {id : UInt32} (hid : id ∈ ids) :
    ∃ instruction, (instruction ∈ code ∨ ∃ g inner, table g = some inner ∧ instruction ∈ inner) ∧
      id ∈ instruction.operand.constants := by
  induction h with
  | done => cases hid
  | makes hinner _ _ ih ih' =>
      rcases List.mem_append.mp hid with hmem | hmem
      · obtain ⟨instruction, hplace, hin⟩ := ih hmem
        refine ⟨instruction, .inr ?_, hin⟩
        rcases hplace with hmem | hmade
        · exact ⟨_, _, hinner, hmem⟩
        · exact hmade
      · obtain ⟨instruction, hplace, hin⟩ := ih' hmem
        exact ⟨instruction, hplace.imp_left (List.mem_cons_of_mem _), hin⟩
  | reads _ _ ih =>
      rcases List.mem_append.mp hid with hmem | hmem
      · exact ⟨_, .inl List.mem_cons_self, hmem⟩
      · obtain ⟨instruction, hplace, hin⟩ := ih hmem
        exact ⟨instruction, hplace.imp_left (List.mem_cons_of_mem _), hin⟩

end Reads

namespace Assembly

variable {code : Assembly}

theorem start_tidy (keepLines : Bool) : (start keepLines).Tidy where
  current := Nat.zero_lt_one
  few := Nat.zero_le _
  distinct := List.nodup_nil
  shapes := by
    intro routine hroutine instruction hmem
    rw [Array.mem_singleton.mp hroutine] at hmem
    exact absurd hmem (Array.not_mem_empty _)
  typed g mentions hg := by
    cases g with
    | zero =>
        obtain rfl := Option.some.inj hg
        exact List.forall_mem_nil _
    | succ g => cases hg

/-- The mentions of a function are those in its code. -/
theorem code?_of_mentions {g : Nat} {mentions : List Instruction}
    (h : code.mentions? g = some mentions) :
    ∃ routine, code.routines[g]? = some routine ∧
      code.toProgram.code? g = some routine.code.toList ∧
      routine.code.toList.filter (fun instruction => !instruction.operand.isOwn) = mentions := by
  obtain ⟨routine, hroutine, hmentions⟩ := Option.map_eq_some_iff.mp h
  refine ⟨routine, hroutine, ?_, hmentions⟩
  simp only [Program.code?, toProgram, Array.getElem?_mapIdx, hroutine, Option.map_some]
  rfl

/-- Every instruction of the program comes from the routine it was written into. -/
theorem routine_of_mem {function : CompiledFunction} {instruction : Instruction}
    (hfunction : function ∈ code.toProgram.functions)
    (hmem : instruction ∈ function.code) :
    ∃ (g : Nat) (routine : Routine), code.routines[g]? = some routine ∧
      instruction ∈ routine.code := by
  obtain ⟨g, hat⟩ := Array.getElem?_of_mem hfunction
  simp only [toProgram, Array.getElem?_mapIdx, Option.map_eq_some_iff] at hat
  obtain ⟨routine, hroutine, rfl⟩ := hat
  exact ⟨g, routine, hroutine, hmem⟩

/-- The instructions of a tidy program have operands of their shapes, and the constants they are
about are of their kinds. -/
theorem Tidy.instructions (h : code.Tidy) {function : CompiledFunction} {instruction : Instruction}
    (hfunction : function ∈ code.toProgram.functions)
    (hmem : instruction ∈ function.code) :
    instruction.WellShaped ∧ instruction.Typed code.pool := by
  obtain ⟨g, routine, hroutine, hmem⟩ := routine_of_mem hfunction hmem
  refine ⟨h.shapes routine (Array.mem_of_getElem? hroutine) instruction hmem, ?_⟩
  cases hown : instruction.operand.isOwn with
  | true =>
      obtain ⟨op, operand⟩ := instruction
      cases operand <;> trivial
  | false =>
      refine h.typed g routine.mentions (by rw [mentions?, hroutine]; rfl) instruction ?_
      exact List.mem_filter.mpr ⟨Array.mem_toList_iff.mpr hmem, by rw [hown]; rfl⟩

/-- A program that was built up by adding to an empty one can be read, and the numbers that are read
are new in their order. -/
theorem Adds.reads {keepLines : Bool} (h : Adds (start keepLines) code)
    (hwords : code.routines.size ≤ wordLimit) :
    ∃ main ids, code.toProgram.code? 0 = some main ∧
      Reads code.toProgram.code? main ids ∧
      (ids.map UInt32.toNat).eraseDups = List.range code.pool.size := by
  have hshapes : ∀ (g : Nat) (routine : Routine), code.routines[g]? = some routine →
      ∀ instruction ∈ routine.code.toList, instruction.WellShaped := by
    intro g routine hroutine instruction hmem
    exact (h.tidy (start_tidy keepLines)).shapes routine (Array.mem_of_getElem? hroutine)
      instruction (Array.mem_toList_iff.mp hmem)
  obtain ⟨written, hwritten, hreads⟩ := h.written
  obtain ⟨ids, hids, hnumbers⟩ := hreads (start_tidy keepLines) hwords
  obtain ⟨main, hmain, hcode, hfilter⟩ := code?_of_mentions (hwritten [] rfl)
  refine ⟨_, ids, hcode, hids.of_mentions (fun g inner hg => ?_) hfilter (hshapes 0 main hmain),
    hnumbers.firsts⟩
  unfold mentionsFrom at hg
  split at hg
  · obtain ⟨routine, hroutine, hcode, hfilter⟩ := code?_of_mentions hg
    exact ⟨_, hcode, hfilter, hshapes g routine hroutine⟩
  · cases hg

end Assembly

/-! ### The kinds of constants -/

namespace Instruction.Typed

variable {pool : Pool} {instruction : Instruction} {id : UInt32}

/-- Every constant an instruction is about is in the pool. -/
theorem known (h : instruction.Typed pool) (hid : id ∈ instruction.operand.constants) :
    ∃ value, pool.get? id = some value := by
  obtain ⟨op, operand⟩ := instruction
  cases operand with
  | const id' =>
      obtain ⟨value, hvalue, -⟩ := h
      exact ⟨value, List.mem_singleton.mp hid ▸ hvalue⟩
  | hint key value =>
      obtain ⟨⟨text, htext⟩, hconstant⟩ := h
      rcases List.mem_pair.mp hid with rfl | rfl
      · exact ⟨_, htext⟩
      · exact hconstant
  | none | target | slot | count | function => cases hid

/-- What is loaded is one of the constants that the pool is there for. -/
theorem loads (h : instruction.Typed pool) (hshape : instruction.WellShaped)
    (hop : instruction.op = .loadConst) : ∃ id value, instruction.operand = .const id ∧
      pool.get? id = some value ∧ value.isPooled = true := by
  obtain ⟨op, operand⟩ := instruction
  obtain rfl : op = .loadConst := hop
  cases operand with
  | const id =>
      obtain ⟨value, hvalue, hkind⟩ := h
      exact ⟨id, value, rfl, hvalue, hkind⟩
  | none | hint | target | slot | count | function => cases hshape

/-- Whatever else has a constant as its operand is about a name. -/
theorem names (h : instruction.Typed pool) (hshape : instruction.WellShaped)
    (hconst : instruction.op.shape = .const) (hop : instruction.op ≠ .loadConst) :
    ∃ id text, instruction.operand = .const id ∧ pool.get? id = some (.string text) := by
  obtain ⟨op, operand⟩ := instruction
  have hsame : operand.shape = .const := hshape.trans hconst
  cases operand with
  | const id =>
      obtain ⟨value, hvalue, hkind⟩ := h
      rw [if_neg hop] at hkind
      obtain ⟨text, rfl⟩ := hkind
      exact ⟨id, text, rfl, hvalue⟩
  | none | hint | target | slot | count | function => cases hsame

/-- The key of a hint is a text. -/
theorem hints (h : instruction.Typed pool) (hshape : instruction.WellShaped)
    (hop : instruction.op = .hint) : ∃ key value text, instruction.operand = .hint key value ∧
      pool.get? key = some (.string text) := by
  obtain ⟨op, operand⟩ := instruction
  obtain rfl : op = .hint := hop
  cases operand with
  | hint key value =>
      obtain ⟨⟨text, htext⟩, -⟩ := h
      exact ⟨key, value, text, rfl, htext⟩
  | none | const | target | slot | count | function => cases hshape

/-- A constant that is not pooled for its own sake is the value of a hint. -/
theorem rare {constant : Constant} (h : instruction.Typed pool) (hshape : instruction.WellShaped)
    (hid : id ∈ instruction.operand.constants) (hget : pool.get? id = some constant)
    (hrare : constant.isPooled = false) :
    ∃ key, key ≠ id ∧ instruction = ⟨.hint, .hint key id⟩ := by
  have hother : ∀ {other : UInt32} {value : Constant}, pool.get? other = some value →
      value.isPooled = true → other ≠ id := by
    rintro other value hvalue hpooled rfl
    obtain rfl := Option.some.inj (hget.symm.trans hvalue)
    rw [hpooled] at hrare
    cases hrare
  obtain ⟨op, operand⟩ := instruction
  cases operand with
  | const id' =>
      obtain ⟨value, hvalue, hkind⟩ := h
      refine absurd (List.mem_singleton.mp hid).symm (hother hvalue ?_)
      split at hkind
      · exact hkind
      · obtain ⟨text, rfl⟩ := hkind
        rfl
  | hint key value =>
      -- The key is a text, so it is the value that is rare.
      obtain ⟨⟨text, htext⟩, -⟩ := h
      have hkey : key ≠ id := hother htext rfl
      obtain rfl : op = .hint := by cases op <;> first | rfl | cases hshape
      rcases List.mem_pair.mp hid with rfl | rfl
      · exact absurd rfl hkey
      · exact ⟨key, hkey, rfl⟩
  | none | target | slot | count | function => cases hid

end Instruction.Typed

namespace Assembly

variable {code : Assembly}

/-- Whatever is read of a program stands in one of its functions. -/
theorem stands_of_reads {main : List Instruction} {ids : List UInt32} {id : UInt32}
    (hmain : code.toProgram.code? 0 = some main) (hread : Reads code.toProgram.code? main ids)
    (hid : id ∈ ids) : ∃ function ∈ code.toProgram.functions, ∃ instruction ∈ function.code,
      id ∈ instruction.operand.constants := by
  obtain ⟨instruction, hplace, hin⟩ := hread.stands hid
  obtain ⟨g, inner, hinner, hmem⟩ : ∃ g inner,
      code.toProgram.code? g = some inner ∧ instruction ∈ inner := by
    rcases hplace with hmem | hmade
    · exact ⟨0, main, hmain, hmem⟩
    · exact hmade
  obtain ⟨function, hfunction, rfl⟩ := Option.map_eq_some_iff.mp hinner
  exact ⟨function, Array.mem_of_getElem? hfunction, instruction, Array.mem_toList_iff.mp hmem, hin⟩

/-- **A program that was built up by adding to an empty one lists its constants in order.** -/
theorem Adds.listsConstants {keepLines : Bool} (h : Adds (start keepLines) code)
    (hwords : code.routines.size ≤ wordLimit) :
    code.toProgram.ListsConstants := by
  obtain ⟨main, ids, hmain, hread, hfirsts⟩ := h.reads hwords
  have htidy := h.tidy (start_tidy keepLines)
  have hshapes : ∀ function ∈ code.toProgram.functions, ∀ instruction ∈ function.code,
      instruction.WellShaped := fun _ hfunction _ hmem => (htidy.instructions hfunction hmem).1
  have htyped : ∀ function ∈ code.toProgram.functions, ∀ instruction ∈ function.code,
      instruction.Typed code.pool := fun _ hfunction _ hmem =>
    (htidy.instructions hfunction hmem).2
  refine ⟨⟨main, ids, hmain, fun other => ⟨hread.unique, ?_⟩, hfirsts⟩, ?_, ?_, htidy.distinct, ?_,
    ?_, ?_, ?_⟩
  · rintro rfl
    exact hread
  · intro i hi
    have hmem : i ∈ (ids.map UInt32.toNat).eraseDups := by
      rw [hfirsts]
      exact List.mem_range.mpr hi
    obtain ⟨id, hid, rfl⟩ := List.mem_map.mp (List.mem_eraseDups.mp hmem)
    obtain ⟨function, hfunction, instruction, hmem, hin⟩ := stands_of_reads hmain hread hid
    exact ⟨function, hfunction, instruction, hmem, id, hin, rfl⟩
  · intro function hfunction instruction hmem id hid
    obtain ⟨value, hvalue⟩ := (htyped function hfunction instruction hmem).known hid
    exact (Array.getElem?_eq_some_iff.mp hvalue).1
  · intro function hfunction instruction hmem hop
    exact (htyped function hfunction instruction hmem).loads
      (hshapes function hfunction instruction hmem) hop
  · intro function hfunction instruction hmem hop
    have hname : instruction.op.shape = .const ∧ instruction.op ≠ .loadConst := by
      simp only [List.mem_cons, List.not_mem_nil, or_false] at hop
      rcases hop with hop | hop | hop | hop | hop | hop <;> rw [hop] <;> exact ⟨rfl, nofun⟩
    exact (htyped function hfunction instruction hmem).names
      (hshapes function hfunction instruction hmem) hname.1 hname.2
  · intro function hfunction instruction hmem hop
    exact (htyped function hfunction instruction hmem).hints
      (hshapes function hfunction instruction hmem) hop
  · intro function hfunction instruction hmem id hid value hvalue hrare
    exact (htyped function hfunction instruction hmem).rare
      (hshapes function hfunction instruction hmem) hid hvalue hrare

end Assembly

namespace Compiler

variable {compiler : Compiler} {root : Node} {program : Program}

theorem lowerMain_adding (hregistry : compiler.registry = .standard) (root : Node) :
    Adding (compiler.lowerMain root) := by
  unfold lowerMain lower
  rw [hregistry]
  refine .bind (.within _ fun _ => ?_) fun result => .bind (.onScopes _) fun height =>
    .ite (.bind (.fail _) fun _ => .reserveLocals _) (.reserveLocals _)
  exact (Matched.body (a := .keep) root).adding (lowerWithin_adding _ _)

/-- A query that compiles was built up from an empty program. -/
theorem compile_adds (hregistry : compiler.registry = .standard)
    (h : compiler.compile root = .ok program) :
    ∃ code, (Assembly.start compiler.settings.lineInfo).Adds code ∧ program = code.toProgram := by
  obtain ⟨ws, hlower, rfl⟩ := Layout.compile_done h
  exact ⟨ws.code, lowerMain_adding hregistry root hlower, rfl⟩

/-- **The constant table of a compiled program is in the order of its code.**  Functions are words
in the code, so there must be words for all of them. -/
theorem compile_listsConstants (hregistry : compiler.registry = .standard)
    (h : compiler.compile root = .ok program) (hwords : program.functions.size ≤ wordLimit) :
    program.ListsConstants := by
  obtain ⟨code, hadds, rfl⟩ := compile_adds hregistry h
  exact hadds.listsConstants (by simpa [Assembly.toProgram] using hwords)

/-- A query with a hint, and with a lambda that shares a constant with the code around it. -/
def greeting : Node :=
  .block [
    .hint "cached" (.bool true) {},
    .varDecl ⟨"greet", {}⟩ (.lambda [⟨"name", {}⟩]
      (.binary .add (.literal (.string "hello") {}) (.ident "name" {}) {}) {}) {},
    .run (.call (.ident "greet" {}) [.member (.param "user" {}) "name" {}] {}) {},
    .returnWith 1 (some (.literal (.string "hello") {})) {}]
    {}

theorem greeting_compiles : (compile {} greeting).toOption.map (fun program =>
    (program.functions.size, program.constants.toList)) =
    some (2, [.string "cached", .bool true, .int 0, .string "hello", .string "user",
      .string "name", .int 1]) := by
  decide +kernel

theorem greeting_listsConstants : ∃ program, compile {} greeting = .ok program ∧
    program.functions.size ≤ wordLimit ∧ program.constants.size = 7 ∧ program.ListsConstants := by
  obtain ⟨program, hcompile, hseen⟩ := compiles_of_view greeting_compiles
  obtain ⟨hsize, hconstants⟩ := Prod.mk.inj hseen
  have hwords : program.functions.size ≤ wordLimit := by
    rw [hsize]
    decide
  refine ⟨program, hcompile, hwords, ?_, compile_listsConstants rfl hcompile hwords⟩
  rw [← Array.length_toList, hconstants]
  rfl

end Compiler

end QueryCompiler
