/-
Locals of a compiled program are set before they are read.

A function starts with nothing set but its parameters, which are all that can be found
in it there.  From then on what can be found is set, as long as the tree is tidy: then the
code of the body does not read a slot while it is unset, and on every way to a load a
store has been passed.  In a tree that is not tidy a name can be found where control gets
to around its declaration, and the slot is read although nothing was ever stored there.
-/
import QueryCompiler.Proofs.Assignment.Origin
import QueryCompiler.Proofs.Assignment.Phrases

namespace QueryCompiler

open Layout

/-- On every way from the first instruction to one that loads a local of the function itself, the
local is a parameter or something has been stored in it before. -/
def CompiledFunction.SetsLocals (function : CompiledFunction) : Prop :=
  ∀ (past : List Nat) (i : Nat) (slot : UInt16), Visits function.code past i →
    function.code[i]? = some (loadOf slot) →
      slot < function.params ∨ ∃ j ∈ past, function.code[j]? = some (storeOf slot)

/-- Whether a tree is tidy can be seen on a walk through its nodes. -/
theorem Node.Tidy.of_walk {root : Node} (h : (root.walk.all fun entry =>
    entry.1.alternatives.all fun part => !part.declares) = true) : root.Tidy := by
  intro node hnode part hpart
  obtain ⟨depth, hwalk⟩ := hnode.mem_walk
  have hentry := Array.all_eq_true_iff_forall_mem.mp h (node, depth) hwalk
  have hundeclared := List.all_eq_true.mp hentry part hpart
  simpa using hundeclared

namespace Compiler

/-- **In a program compiled from a tidy tree every local is set before it is read.** -/
theorem compile_setsLocals {compiler : Compiler} {root : Node} {program : Program}
    (hregistry : compiler.registry = .standard) (htidy : root.Tidy)
    (h : compiler.compile root = .ok program) {function : CompiledFunction}
    (hfunction : function ∈ program.functions) (hshort : function.code.size < wordLimit) :
    function.SetsLocals := by
  obtain ⟨body, scopes, b, hbody, hshows, hlaid, hend⟩ :=
    compile_stems hregistry h hfunction hshort
  intro past i slot hvisits hload
  by_cases hparam : slot < function.params
  · exact .inl hparam
  have hunset : ¬ Spot.Shows ⟨0, 0, true, scopes⟩ slot := fun hshown => hparam (hshows slot hshown)
  have hspared : Spares (.ofFunction program function) slot {} body.declares
      ⟨0, 0, true, scopes⟩ b :=
    hlaid.spared (htidy.occurs hbody)
  have hunread := hspared.unread
  rw [hend] at hunread
  -- There is no loop around a function, so nothing jumps out of it.
  have hstays : ∀ j, Surroundings.Ways {} (¬ Spot.Shows ⟨0, 0, true, scopes⟩ slot) j → False := by
    rintro j ⟨-, loop, hloop, -⟩
    cases hloop
  exact .inr (((hunread.mono hstays).strengthen fun _ => hunset).stored hvisits hload)

/-- The main function of a compiled query, to be computed: its parameters and its code. -/
def mainCode? (program : Program) : Option (UInt16 × Array Instruction) :=
  program.main?.map fun function => (function.params, function.code)

theorem compiles_of_mainCode {root : Node} {params : UInt16} {code : Array Instruction}
    (h : (compile {} root).toOption.map mainCode? = some (some (params, code))) :
    ∃ program function, compile {} root = .ok program ∧ function ∈ program.functions ∧
      function.params = params ∧ function.code = code := by
  obtain ⟨program, hcompile, hseen⟩ := compiles_of_view h
  obtain ⟨function, hmain, hfunction⟩ := Option.map_eq_some_iff.mp hseen
  obtain ⟨hparams, hcode⟩ := Prod.mk.inj hfunction
  exact ⟨program, function, hcompile, Array.mem_of_getElem? hmain, hparams, hcode⟩

/-- A variable that is set before a conditional, changed in one arm and read after it. -/
def settledVariable : Node :=
  .block [.varDecl ⟨"x", {}⟩ (.literal (.int 1) {}) {},
    .ifChain [(.param "p" {}, .block [.varDecl ⟨"y", {}⟩ (.ident "x" {}) {},
      .assign ⟨"x", {}⟩ (.ident "y" {}) {}] {})] none {},
    .run (.ident "x" {}) {}] {}

theorem settledVariable_setsLocals : ∃ program function, compile {} settledVariable = .ok program ∧
    settledVariable.Tidy ∧ function ∈ program.functions ∧ function.code.size < wordLimit ∧
    function.code[8]? = some (loadOf 0) ∧ function.SetsLocals := by
  have hview : (compile {} settledVariable).toOption.map mainCode? = some (some (0,
      #[⟨.loadConst, .const 0⟩, storeOf 0, ⟨.loadParam, .const 1⟩, ⟨.jumpIfFalse, .target 8⟩,
        loadOf 0, storeOf 1, loadOf 1, storeOf 0, loadOf 0, ⟨.pop, .none⟩, ⟨.loadConst, .const 2⟩,
        ⟨.pushNull, .none⟩, ⟨.ret, .none⟩])) := by decide +kernel
  have htidy : settledVariable.Tidy := .of_walk (by decide +kernel)
  obtain ⟨program, function, hcompile, hmem, -, hcode⟩ := compiles_of_mainCode hview
  have hshort : function.code.size < wordLimit := by
    rw [hcode]
    decide
  exact ⟨program, function, hcompile, htidy, hmem, hshort, by rw [hcode]; rfl,
    compile_setsLocals rfl htidy hcompile hmem hshort⟩

/-- A variable that is declared as one arm of a conditional and read as the other one. -/
def armVariable : Node :=
  .ifChain [(.param "p" {}, .varDecl ⟨"x", {}⟩ (.literal (.int 1) {}) {})]
    (some (.run (.ident "x" {}) {})) {}

/-- Both arms share a scope, so the name is found in the second one, where nothing has been stored
in its slot. -/
theorem armVariable_unset : ∃ program function, compile {} armVariable = .ok program ∧
    function ∈ program.functions ∧ function.params = 0 ∧ Visits function.code [1, 0] 5 ∧
    function.code[5]? = some (loadOf 0) ∧ ¬ function.SetsLocals := by
  have hview : (compile {} armVariable).toOption.map mainCode? = some (some (0,
      #[⟨.loadParam, .const 0⟩, ⟨.jumpIfFalse, .target 5⟩, ⟨.loadConst, .const 1⟩, storeOf 0,
        ⟨.jump, .target 7⟩, loadOf 0, ⟨.pop, .none⟩, ⟨.loadConst, .const 2⟩, ⟨.pushNull, .none⟩,
        ⟨.ret, .none⟩])) := by decide +kernel
  obtain ⟨program, function, hcompile, hmem, hparams, hcode⟩ := compiles_of_mainCode hview
  have hload : function.code[5]? = some (loadOf 0) := by rw [hcode]; rfl
  have hvisits : Visits function.code [1, 0] 5 := by
    have hparam : function.code[0]? = some ⟨.loadParam, .const 0⟩ := by rw [hcode]; rfl
    have hskip : function.code[1]? = some ⟨.jumpIfFalse, .target 5⟩ := by rw [hcode]; rfl
    have hnext : Instruction.successor? ⟨.loadParam, .const 0⟩ 0 .next = some (1, ⟨0, 1⟩) := rfl
    have htaken : Instruction.successor? ⟨.jumpIfFalse, .target 5⟩ 1 .taken =
        some (5, ⟨1, 0⟩) := rfl
    exact .step (.step .start hparam hnext) hskip htaken
  refine ⟨program, function, hcompile, hmem, hparams, hvisits, hload, fun hsets => ?_⟩
  rcases hsets [1, 0] 5 0 hvisits hload with hparam | ⟨j, hj, hstore⟩
  · rw [hparams] at hparam
    exact absurd hparam (by decide)
  · rw [hcode] at hstore
    rcases List.mem_pair.mp hj with rfl | rfl <;> cases hstore

end Compiler

end QueryCompiler
