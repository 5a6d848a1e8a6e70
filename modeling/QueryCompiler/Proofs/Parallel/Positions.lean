/-
Positions in the text do not matter.

Where things stand in the text of a query is written into the lines of a program and into
errors, and nowhere else.  So two queries that differ in positions alone are compiled
alike: either both fail, with errors that differ in positions alone, or both give programs
that differ in lines alone, and as lines are not encoded these have the same bytes.

Both queries are compared with the query without positions, compiled without lines.  Its
compilation is seen in those of the two.
-/
import QueryCompiler.Machine.Digest
import QueryCompiler.Proofs.Encoding.Decoder
import QueryCompiler.Proofs.Parallel.Mirror

namespace QueryCompiler

/-- Two compilations end alike: both fail, with errors that agree, or both give programs that differ
in lines alone, and so have the same bytes and the same fingerprint, whichever digest of the bytes
is taken for it. -/
inductive Alike (agree : CompileError → CompileError → Prop) :
    Except Failure Program → Except Failure Program → Prop
  | failed {error error' : CompileError} (herror : agree error error') :
      Alike agree (.error (.error error)) (.error (.error error'))
  | compiled {program program' : Program} (hcode : program.withoutLines = program'.withoutLines)
      (hbytes : program.encode = program'.encode)
      (hfingerprint : ∀ digest : List UInt8 → UInt64,
        digest program.encode = digest program'.encode) :
      Alike agree (.ok program) (.ok program')

/-- Lines are not encoded. -/
theorem Program.encode_withoutLines (program : Program) :
    program.withoutLines.encode = program.encode := by
  have hfunctions : program.withoutLines.functions.toList.flatMap CompiledFunction.encode =
      program.functions.toList.flatMap CompiledFunction.encode := by
    rw [withoutLines, Array.toList_map, List.flatMap_map]
    rfl
  unfold encode
  rw [hfunctions, withoutLines, Array.size_map]

namespace Alike

variable {agree agree' : CompileError → CompileError → Prop}

theorem ofCode {program program' : Program}
    (hcode : program.withoutLines = program'.withoutLines) :
    Alike agree (.ok program) (.ok program') := by
  have hbytes : program.encode = program'.encode := by
    rw [← program.encode_withoutLines, hcode, program'.encode_withoutLines]
  exact .compiled hcode hbytes fun digest => congrArg digest hbytes

theorem mono {result result' : Except Failure Program} (h : Alike agree result result')
    (hagree : ∀ error error', agree error error' → agree' error error') :
    Alike agree' result result' := by
  cases h with
  | failed herror => exact .failed (hagree _ _ herror)
  | compiled hcode hbytes hfingerprint => exact .compiled hcode hbytes hfingerprint

/-- The digest that programs are told apart by is one of them. -/
theorem fingerprint_eq {program program' : Program}
    (h : Alike agree (.ok program) (.ok program')) :
    program.fingerprint = program'.fingerprint := by
  cases h with
  | compiled hcode hbytes hfingerprint => exact hfingerprint (Digest.ofBytes 0)

end Alike

namespace View

/-- Things are at other places, and no lines are seen. -/
def ofPlaces (place : Span → Span) : View where
  place := place
  rename := id
  injective := Function.injective_id
  lines := false
  placed h := absurd h Bool.false_ne_true

variable {place : Span → Span} {compiler : Compiler}

theorem ofPlaces_program (program : Program) :
    (ofPlaces place).program program = program.withoutLines := rfl

/-- As names stay as they are, every compilation is seen. -/
theorem ofPlaces_run (place : Span → Span) (hregistry : compiler.registry = .standard)
    (traced : Bool) (root : Node) :
    ((ofPlaces place).compiler compiler).run false (root.alter ⟨place, id⟩) =
      (ofPlaces place).result (compiler.run traced root) := by
  have hrecognised : (ofPlaces place).Recognises (compiler.run traced root) := by
    cases compiler.run traced root with
    | ok result => exact fun _ _ => rfl
    | error failure => exact fun _ => rfl
  have hseen := (ofPlaces place).run_seen hregistry traced root hrecognised
  rw [show (traced && (ofPlaces place).lines) = false from Bool.and_false traced] at hseen
  exact hseen

/-- **Compilations that are seen in the same way end alike,** unless they are at fault. -/
theorem alike_of_seen {result result' : Except Failure (Program × ScopeStack)}
    (hseen : (ofPlaces place).result result = (ofPlaces place).result result')
    (hfault : ∀ fault, result ≠ .error (.fault fault)) :
    Alike (fun error error' => error.alter ⟨place, id⟩ = error'.alter ⟨place, id⟩)
      (result.map Prod.fst) (result'.map Prod.fst) := by
  rcases result with (error | fault) | ⟨program, scopes⟩
  · rcases result' with (error' | fault') | ⟨program', scopes'⟩
    · exact .failed (Failure.error.inj (Except.error.inj hseen))
    · cases hseen
    · cases hseen
  · exact absurd rfl (hfault fault)
  · rcases result' with (error' | fault') | ⟨program', scopes'⟩
    · cases hseen
    · cases hseen
    · have hcode : (ofPlaces place).program program = (ofPlaces place).program program' :=
        (Prod.mk.inj (Except.ok.inj hseen)).1
      rw [ofPlaces_program, ofPlaces_program] at hcode
      exact .ofCode hcode

end View

namespace Compiler

variable {compiler : Compiler} {query query' : Node}

/-- **Queries that differ in positions alone are compiled alike.** -/
theorem compile_alike_of_unplaced (hregistry : compiler.registry = .standard)
    (hdepth : compiler.settings.maxDepth ≤ 65535) (h : query.unplaced = query'.unplaced) :
    Alike (fun error error' => error.unplaced = error'.unplaced)
      (compiler.compile query) (compiler.compile query') := by
  refine View.alike_of_seen ?_ (run_ne_fault hregistry hdepth false query)
  calc (View.ofPlaces fun _ => .synthetic).result (compiler.run false query)
    _ = ((View.ofPlaces fun _ => .synthetic).compiler compiler).run false query.unplaced :=
      (View.ofPlaces_run _ hregistry false query).symm
    _ = ((View.ofPlaces fun _ => .synthetic).compiler compiler).run false query'.unplaced := by
      rw [h]
    _ = (View.ofPlaces fun _ => .synthetic).result (compiler.run false query') :=
      View.ofPlaces_run _ hregistry false query'

/-- A query whose text starts at a line.  Line zero stands for no position at all. -/
def totalAt (line : Nat) : Node :=
  .block [
    .varDecl ⟨"total", ⟨line, 5, 5⟩⟩ (.literal (.int 1) ⟨line, 13, 1⟩) ⟨line, 1, 13⟩,
    .returnWith 0 (some (.ident "total" ⟨line + 1, 8, 5⟩)) ⟨line + 1, 1, 12⟩]
    ⟨line, 1, 26⟩

theorem totalAt_alike : (totalAt 0).unplaced = (totalAt 3).unplaced ∧
    (compile {} (totalAt 0)).toOption ≠ (compile {} (totalAt 3)).toOption ∧
    Alike (fun error error' => error.unplaced = error'.unplaced)
      (compile {} (totalAt 0)) (compile {} (totalAt 3)) := by
  have hunplaced : (totalAt 0).unplaced = (totalAt 3).unplaced := rfl
  exact ⟨hunplaced, by decide +kernel, compile_alike_of_unplaced rfl (by decide) hunplaced⟩

end Compiler

end QueryCompiler
