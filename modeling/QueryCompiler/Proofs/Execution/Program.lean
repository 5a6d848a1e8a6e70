/-
A compiled query does what the interpreter says.

The main function is the body of the query.  A query that completes normally comes to
the end of its code, and there the body returns zero.  One that is left in another
way has ended its run, or it has raised an error that no handler takes up.  It cannot
leave a loop, because there is none around it.
-/
import QueryCompiler.Proofs.Execution.Control

namespace QueryCompiler

/-- A host that knows nothing but truth values.  The nth question is answered with the nth of
them, whether it asks for a parameter or for an item. -/
def Host.ofOracle (oracle : Nat → Bool) : Host Constant where
  constant := id
  emptyList := .null
  push list _ := list
  emptyObject := .null
  put object _ _ := object
  closure _ := .null
  imported _ _ := .null
  unary _ operand := operand
  binary _ left _ := left
  iterator source := source
  raised code _ := code
  truthy value := value = .bool true
  answer history := .bool (oracle (history.length - 1))
  gives history := oracle (history.length - 1)

namespace Layout

variable {V : Type} {F : Image} {host : Host V} {a b : Spot} {locals : SlotRef → V}
  {history history' : List (Event V)} {completion : Completion V}

/-- The code of a query that completes normally ends with the instructions that return zero. -/
theorem body_returns {root : Node} (hroot : root.IsStructured) (h : Laid F {} (.body root) a b)
    (hstops : b.reachable = false)
    (hnormal : ∀ c, Laid F {} (.node root) a c →
      Concludes F host {} c ⟨a.index, [], locals, [], history⟩ .normal history') :
    Halts F host ⟨a.index, [], locals, [], history⟩
      (.returned (host.constant (.int 0)) (host.constant .null)) history' := by
  cases h with
  | bodyValue kind _ _ _ _ => exact absurd kind (structured_balance hroot)
  | bodyFalls _ ofNode _ holds push null leave =>
      obtain ⟨-, locals', hsteps⟩ := hnormal _ ofNode
      have hpushed := hsteps.trans (push.goes (holds.onConstant _))
      exact ⟨_, hpushed.trans (null.goes rfl), leave.step, rfl⟩
  | bodyEnds _ ofNode _ =>
      obtain ⟨hfalls, -⟩ := hnormal _ ofNode
      exact absurd (hfalls.symm.trans hstops) nofun
  | bodyNever _ ofNode =>
      obtain ⟨hfalls, -⟩ := hnormal _ ofNode
      exact absurd (hfalls.symm.trans hstops) nofun

/-- What the body of a function lays out is the node itself. -/
theorem body_node {root : Node} (hroot : root.IsStructured) (h : Laid F {} (.body root) a b) :
    ∃ c, Laid F {} (.node root) a c := by
  cases h with
  | bodyValue kind _ _ _ _ => exact absurd kind (structured_balance hroot)
  | bodyFalls _ ofNode _ _ _ _ _ => exact ⟨_, ofNode⟩
  | bodyEnds _ ofNode _ => exact ⟨_, ofNode⟩
  | bodyNever _ ofNode => exact ⟨_, ofNode⟩

/-- An error that no handler takes up ends the run. -/
theorem throw_halts {index : Nat} {code data : V} {rest : List V}
    (h : F.code[index]? = some ⟨.throw, .none⟩) :
    F.step host ⟨index, data :: code :: rest, locals, [], history⟩ = .halts (.threw code data) := by
  rw [Image.step, h]
  rfl

/-- The body of a query ends as the query completes. -/
theorem body_halts {root : Node} {fuel : Nat} (hroot : root.IsStructured)
    (h : Laid F {} (.body root) a b) (hfalls : a.reachable = true) (hstops : b.reachable = false)
    (hexec : execute host fuel (.statement root) history = some (completion, history')) :
    ∃ ending, completion.ending? host = some ending ∧
      Halts F host ⟨a.index, [], locals, [], history⟩ ending history' := by
  have stage : Stage {} a [] := ⟨hfalls, (fun loop hloop => nomatch hloop), rfl⟩
  have hconcludes : ∀ c, Laid F {} (.node root) a c →
      Concludes F host {} c ⟨a.index, [], locals, [], history⟩ completion history' := by
    intro c ofNode
    have hlaid : Laid F {} (.statement root) a c := .plain (structured_balance hroot) ofNode
    exact follows F host fuel hexec ⟨hroot, hlaid⟩ stage [] locals trivial
  obtain ⟨c, ofNode⟩ := body_node hroot h
  cases completion with
  | normal => exact ⟨_, rfl, body_returns hroot h hstops hconcludes⟩
  | breaks =>
      obtain ⟨loop, -, hloop, -⟩ := hconcludes c ofNode
      cases hloop
  | continues =>
      obtain ⟨loop, -, hloop, -⟩ := hconcludes c ofNode
      cases hloop
  | returned code data => exact ⟨_, rfl, hconcludes c ofNode⟩
  | exited code data => exact ⟨_, rfl, hconcludes c ofNode⟩
  | threw code data =>
      obtain ⟨index, locals', above, hthrow, hsteps⟩ := hconcludes c ofNode
      exact ⟨_, rfl, _, hsteps, throw_halts hthrow, rfl⟩

/-- **A compiled query ends as the interpreter says, and asks what the interpreter asks.**  The
host is any, so also one that draws its answers from a sequence of truth values: the histories are
the same, and so is what was drawn. -/
theorem compile_preserves_control {compiler : Compiler} {root : Node} {program : Program}
    {main : CompiledFunction} (hregistry : compiler.registry = .standard)
    (hcompile : compiler.compile root = .ok program) (hmain : program.main? = some main)
    (hshort : main.code.size < wordLimit) (hroot : root.IsStructured) (host : Host V) {fuel : Nat}
    (hexec : execute host fuel (.statement root) [] = some (completion, history))
    (locals : SlotRef → V) :
    ∃ ending, completion.ending? host = some ending ∧
      Halts (.ofFunction program main) host ⟨0, [], locals, [], []⟩ ending history := by
  obtain ⟨body, scopes, b, hbody, hlaid, -⟩ := compile_laid hregistry hcompile hmain hshort
  obtain rfl := hbody rfl
  have hverified := hlaid.verified (fun loop hloop => nomatch hloop) rfl
  exact body_halts hroot hlaid rfl hverified.balanced hexec

/-- Items are tried until one is found, and every failure is caught. -/
def errand : Node :=
  .block
    [.forEach ⟨"item", {}⟩ (.param "items" {})
      (.tryCatch
        (.ifChain [(.param "found" {}, .breakLoop {})]
          (some (.throwWith 7 (.param "why" {}) {})) {})
        none (.continueLoop {}) {}) {},
      .returnWith 3 none {}] {}

theorem errand_mainSize : mainSize? errand = some 19 := by
  decide +kernel

theorem errand_structured : errand.IsStructured := by
  refine .block ?_
  intro statement hmem
  rcases List.mem_cons.mp hmem with rfl | hmem
  · refine .forEach ⟨_, _, rfl⟩ (.tryCatch (.ifChain ?_ ?_ ?_) .continueLoop)
    · intro arm harm
      obtain rfl := List.mem_singleton.mp harm
      exact ⟨_, _, rfl⟩
    · intro arm harm
      obtain rfl := List.mem_singleton.mp harm
      exact .breakLoop
    · intro node hnode
      obtain rfl := Option.some.inj hnode
      exact .throwWith ⟨_, _, rfl⟩
  · obtain rfl := List.mem_singleton.mp hmem
    exact .returnWith nofun

/-- The first item is not the one that is looked for. -/
theorem errand_returns : ∃ program main, compile errand = .ok program ∧
    program.main? = some main ∧ main.code.size < wordLimit ∧
      Halts (.ofFunction program main) (.ofOracle fun n => n != 2)
        ⟨0, [], fun _ => .null, [], []⟩ (.returned (.int 3) .null)
        [.param "found", .next (.bool true), .param "why", .param "found", .next (.bool true),
          .param "items"] := by
  obtain ⟨program, main, hcompile, hmain, hsize⟩ := compiles_of_mainSize errand_mainSize
  have hshort : main.code.size < wordLimit := by
    rw [hsize]
    decide
  have hexec : execute (.ofOracle fun n => n != 2) 9 (.statement errand) [] =
      some (.returned 3 .null, [.param "found", .next (.bool true), .param "why", .param "found",
        .next (.bool true), .param "items"]) := by
    decide +kernel
  obtain ⟨ending, hending, hhalts⟩ :=
    compile_preserves_control rfl hcompile hmain hshort errand_structured _ hexec fun _ => .null
  obtain rfl := Option.some.inj hending
  exact ⟨program, main, hcompile, hmain, hshort, hhalts⟩

end Layout

end QueryCompiler
