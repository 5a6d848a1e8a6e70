/-
The names of variables do not matter.

A program has slots where the query has variables, so other names for the variables give
the same program.  The names have to be told apart as before, and a name that stands for
no local must stay as it is: its value comes from outside, and the program has the name.
-/
import Mathlib.Logic.Equiv.Basic
import QueryCompiler.Proofs.Parallel.Mirror

namespace QueryCompiler

namespace View

/-- Variables have other names, and everything is in its place. -/
def ofNames (rename : String → String) (h : Function.Injective rename) : View where
  place := id
  rename := rename
  injective := h
  lines := true
  placed _ := rfl

variable {rename : String → String} (hinjective : Function.Injective rename)

theorem ofNames_compiler (compiler : Compiler) :
    (ofNames rename hinjective).compiler compiler = compiler := by
  simp only [View.compiler, View.settings, ofNames, Bool.and_true]

theorem ofNames_program (program : Program) :
    (ofNames rename hinjective).program program = program := by
  simp only [View.program, ofNames, if_true, Array.map_id']

end View

namespace Compiler

variable {compiler : Compiler} {root : Node} {program : Program} {rename : String → String}

/-- **Variables can have other names.**  A query that compiles still compiles when its variables are
renamed, and to the same program, if the names are told apart as before and those of globals
stay. -/
theorem compile_renamed (hregistry : compiler.registry = .standard)
    (hinjective : Function.Injective rename) (h : compiler.compile root = .ok program)
    (hglobals : ∀ name ∈ program.globals, rename name = name) :
    compiler.compile (root.renamed rename) = .ok program := by
  let v := View.ofNames rename hinjective
  unfold compile at h ⊢
  cases hrun : compiler.run false root with
  | error failure =>
      rw [hrun] at h
      cases h
  | ok result =>
      rw [hrun] at h
      obtain rfl : result.1 = program := Except.ok.inj h
      have hrecognised : v.Recognises (compiler.run false root) := by
        rw [hrun]
        exact hglobals
      have hseen := v.run_seen hregistry false root hrecognised
      rw [View.ofNames_compiler, hrun] at hseen
      have hrenamed : compiler.run false (root.renamed rename) =
          .ok (v.program result.1, v.scopes result.2) := hseen
      rw [hrenamed, View.ofNames_program]
      rfl

/-- A query in which `x` is a variable, another one in a loop, and a parameter, `item` is the
variable of the loop and another one after it, and `print` comes from outside. -/
def shadowing : Node :=
  .block [
    .varDecl ⟨"x", {}⟩ (.literal (.int 1) {}) {},
    .forEach ⟨"item", {}⟩ (.list [.ident "x" {}] {})
      (.block [
        .varDecl ⟨"x", {}⟩ (.binary .add (.ident "x" {}) (.ident "item" {}) {}) {},
        .run (.call (.ident "print" {}) [.ident "x" {}] {}) {}] {}) {},
    .varDecl ⟨"item", {}⟩ (.ident "x" {}) {},
    .run (.lambda [⟨"x", {}⟩]
      (.call (.ident "print" {}) [.ident "x" {}, .ident "item" {}] {}) {}) {}]
    {}

theorem shadowing_compiles : (compile {} shadowing).toOption.map (fun program =>
    (program.functions.size, program.globals)) = some (2, ["print", "print"]) := by
  decide +kernel

theorem shadowing_renamed : ∃ program, compile {} shadowing = .ok program ∧
    (∀ name ∈ program.globals, Equiv.swap "x" "item" name = name) ∧
    compile {} (shadowing.renamed (Equiv.swap "x" "item")) = .ok program := by
  obtain ⟨program, hcompile, hseen⟩ := compiles_of_view shadowing_compiles
  have hglobals : ∀ name ∈ program.globals, Equiv.swap "x" "item" name = name := by
    rw [(Prod.mk.inj hseen).2]
    decide
  exact ⟨program, hcompile, hglobals,
    compile_renamed rfl (Equiv.swap "x" "item").injective hcompile hglobals⟩

end Compiler

end QueryCompiler
