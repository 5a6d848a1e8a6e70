/-
Lines belong to nodes.

With lines kept, every instruction of a program has the line of the node whose rule wrote
it, or if that has none, of the nearest node around it that has one.  What is written for
no node, and what has no such node around it, is at line zero.

A table of owners tells for every instruction who wrote it.  It is found by numbering the
lineages of the query and signing with the numbers: a number can be looked up again, and
the signatures of any other kind, lines among them, can be computed from it.
-/
import QueryCompiler.Proofs.Lines.Signing

namespace QueryCompiler

/-- The lines of all functions. -/
def Program.lines (program : Program) : Array (Array Nat) :=
  program.functions.map fun function => function.lines

theorem Relining.ofLine_lines (line : Nat → Nat) (program : Program) :
    ((ofLine line).program program).lines = program.lines.map (Array.map line) := by
  simp only [Program.lines, Relining.program, Array.map_map]
  rfl

theorem Relining.ofLine_withoutLines (line : Nat → Nat) (program : Program) :
    ((ofLine line).program program).withoutLines = program.withoutLines := by
  simp only [Program.withoutLines, Relining.program, Array.map_map]
  rfl

namespace Compiler

variable {settings : Settings} {sign sign' : Lineage → Nat} {root : Node} {program : Program}

/-- The lineages there are: those of the nodes of the query, and that of no node. -/
def lineages (settings : Settings) (root : Node) : List Lineage :=
  [] :: Lineage.within settings.maxDepth [] root

/-- The lineage at a place in the list, or that of no node. -/
def numbered (settings : Settings) (root : Node) (i : Nat) : Lineage :=
  (lineages settings root).getD i []

theorem rooted_numbered (i : Nat) : (numbered settings root i).Rooted root := by
  unfold numbered
  rw [List.getD_eq_getElem?_getD]
  cases hfound : (lineages settings root)[i]? with
  | none => exact .nobody
  | some lineage =>
      rcases List.mem_cons.mp (List.mem_of_getElem? hfound) with rfl | hmem
      · exact .nobody
      · exact Lineage.rooted_of_within .root lineage hmem

theorem exists_numbering (settings : Settings) (root : Node) : ∃ number : Lineage → Nat,
    ∀ lineage ∈ lineages settings root, numbered settings root (number lineage) = lineage := by
  classical
  refine ⟨(lineages settings root).idxOf, fun lineage hmem => ?_⟩
  rw [numbered, List.getD_eq_getElem?_getD, List.getElem?_idxOf hmem, Option.getD_some]

/-! ### Signed programs -/

/-- What compiles is signed with lines. -/
theorem signed_of_compile (hlines : settings.lineInfo = true)
    (h : compile ⟨.standard, settings⟩ root = .ok program) :
    signed settings Lineage.line root = some program := by
  obtain ⟨ws, hlower, rfl⟩ := Layout.compile_done h
  unfold signed
  rw [signMain_line hlines, hlower]

theorem signed_congr (h : ∀ lineage ∈ lineages settings root, sign' lineage = sign lineage) :
    signed settings sign' root = signed settings sign root := by
  unfold signed
  rw [signMain_congr (h [] List.mem_cons_self)
    fun lineage hmem => h lineage (List.mem_cons_of_mem _ hmem)]

/-- **Signatures that are changed give lines that are changed in the same way.** -/
theorem signed_relined (change : Nat → Nat) :
    signed settings (change ∘ sign) root =
      (signed settings sign root).map (Relining.ofLine change).program := by
  let ws : Workspace := start ⟨.standard, settings⟩ false
  have hcode : (Relining.ofLine change).code ws.code = ws.code.moveToLine (change 0) := by
    simp [ws, start, Relining.code, Assembly.start, Relining.routine_start, Assembly.moveToLine,
      Relining.ofLine]
  -- Signing sets the line first of all, so the line at the start does not matter.
  have hstart : signMain settings (change ∘ sign) root ws =
      signMain settings (change ∘ sign) root ((Relining.ofLine change).workspace id ws) := by
    rw [Relining.workspace, hcode]
    rfl
  have hmain := hstart.trans (signMain_relined change root ws)
  unfold signed
  rw [hmain]
  cases signMain settings sign root ws with
  | done u ws' => exact congrArg some ((Relining.ofLine change).toProgram_relined ws'.code)
  | failed error ws' => rfl
  | fault fault => rfl

/-! ### Owners -/

/-- The table tells who wrote the instructions of a program: whatever lineages are signed with, the
signatures are those of the owners. -/
def Attributes (settings : Settings) (root : Node) (program : Program)
    (owners : Array (Array Lineage)) : Prop :=
  ∀ sign : Lineage → Nat, ∃ program', signed settings sign root = some program' ∧
    program'.withoutLines = program.withoutLines ∧ program'.lines = owners.map (Array.map sign)

/-- **Every instruction that is written has an owner in the query.** -/
theorem exists_owners (hlines : settings.lineInfo = true)
    (h : compile ⟨.standard, settings⟩ root = .ok program) :
    ∃ owners : Array (Array Lineage), Attributes settings root program owners ∧
      ∀ table ∈ owners, ∀ lineage ∈ table, lineage.Rooted root := by
  obtain ⟨number, hnumber⟩ := exists_numbering settings root
  have hsigned : ∀ sign : Lineage → Nat, signed settings sign root =
      (signed settings number root).map
        (Relining.ofLine (sign ∘ numbered settings root)).program := by
    intro sign
    rw [← signed_relined]
    exact signed_congr fun lineage hmem => congrArg sign (hnumber lineage hmem).symm
  obtain ⟨program₀, hprogram₀, hprogram⟩ := Option.map_eq_some_iff.mp
    ((hsigned Lineage.line).symm.trans (signed_of_compile hlines h))
  refine ⟨program₀.lines.map (Array.map (numbered settings root)), fun sign => ?_, ?_⟩
  · refine ⟨(Relining.ofLine (sign ∘ numbered settings root)).program program₀, ?_, ?_, ?_⟩
    · rw [hsigned, hprogram₀, Option.map_some]
    · rw [← hprogram, Relining.ofLine_withoutLines, Relining.ofLine_withoutLines]
    · simp only [Relining.ofLine_lines, Array.map_map, Function.comp_def]
  · intro table htable lineage hmem
    obtain ⟨numbers, -, rfl⟩ := Array.mem_map.mp htable
    obtain ⟨i, -, rfl⟩ := Array.mem_map.mp hmem
    exact rooted_numbered i

/-- **Lines belong to nodes.**  With lines kept, every instruction of a program has a line, and that
is the line of the nearest node that has one, among the node whose rule wrote the instruction and
the nodes around it.  Without, there are no lines. -/
theorem compile_attributes_lines (h : compile ⟨.standard, settings⟩ root = .ok program) :
    (settings.lineInfo = true → ∃ owners : Array (Array Lineage),
      Attributes settings root program owners ∧
      (∀ table ∈ owners, ∀ lineage ∈ table, lineage.Rooted root) ∧
      (∀ function ∈ program.functions, function.lines.size = function.code.size) ∧
      program.lines = owners.map (Array.map Lineage.line)) ∧
    (settings.lineInfo = false → ∀ function ∈ program.functions, function.lines = #[]) := by
  constructor
  · intro hlines
    obtain ⟨owners, hattributes, hrooted⟩ := exists_owners hlines h
    refine ⟨owners, hattributes, hrooted, fun function hfunction => ?_, ?_⟩
    · rw [lines_size h hfunction, hlines, if_pos rfl]
    · obtain ⟨program', hsigned, -, hown⟩ := hattributes Lineage.line
      obtain rfl := Option.some.inj ((signed_of_compile hlines h).symm.trans hsigned)
      exact hown
  · intro hlines function hfunction
    refine Array.size_eq_zero_iff.mp ?_
    rw [lines_size h hfunction, hlines]
    rfl

/-- A query with some nodes that have no line, a lambda and values that are dropped. -/
def scattered : Node :=
  .block [
    .varDecl ⟨"total", ⟨2, 5, 5⟩⟩ (.list [.literal (.int 1) .synthetic] ⟨3, 13, 3⟩) .synthetic,
    .run (.lambda [⟨"x", ⟨5, 2, 1⟩⟩]
        (.block [.run (.ident "x" ⟨7, 3, 1⟩) .synthetic] ⟨6, 1, 8⟩) ⟨5, 1, 20⟩) ⟨4, 1, 21⟩]
    .synthetic

theorem scattered_compiles : (compile {} scattered).toOption.map Program.lines =
    some #[#[3, 3, 3, 0, 5, 4, 0, 0, 0], #[7, 6, 5, 5, 5]] := by
  decide +kernel

/-- How far the owners of the instructions are from the outside. -/
theorem scattered_signed : (signed {} List.length scattered).map Program.lines =
    some #[#[3, 4, 3, 2, 3, 2, 0, 0, 0], #[6, 5, 3, 3, 3]] := by
  decide +kernel

theorem scattered_attributes_lines : ∃ program, compile {} scattered = .ok program ∧
    program.lines = #[#[3, 3, 3, 0, 5, 4, 0, 0, 0], #[7, 6, 5, 5, 5]] ∧
    ∃ owners : Array (Array Lineage),
      owners.map (Array.map List.length) = #[#[3, 4, 3, 2, 3, 2, 0, 0, 0], #[6, 5, 3, 3, 3]] ∧
      (∀ table ∈ owners, ∀ lineage ∈ table, lineage.Rooted scattered) ∧
      program.lines = owners.map (Array.map Lineage.line) := by
  obtain ⟨program, hcompile, hlines⟩ := compiles_of_view scattered_compiles
  obtain ⟨owners, hattributes, hrooted, -, hown⟩ := (compile_attributes_lines hcompile).1 rfl
  obtain ⟨program', hsigned, -, hlengths⟩ := hattributes List.length
  have hlengths' := scattered_signed
  rw [hsigned, Option.map_some, hlengths] at hlengths'
  exact ⟨program, hcompile, hlines, owners, Option.some.inj hlengths', hrooted, hown⟩

end Compiler

end QueryCompiler
