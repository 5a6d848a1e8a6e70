/-
What holds in every function of a compiled program, whichever way control goes.

A function is the body of a node, its code can be marked from its first instruction
to its last, and control does not come out at the end.  The marks give one depth of
the operand stack and one stack of handlers to every instruction that control gets
to, and these are what a verifier that walks the control-flow graph would find.
-/
import QueryCompiler.Proofs.Layout.Program
import QueryCompiler.Proofs.Verifier.Phrases

namespace QueryCompiler

/-! ### What is verified -/

/-- Every instruction that control gets to has one depth of the operand stack, and nothing can go
wrong with it. -/
structure CompiledFunction.StackSafe (function : CompiledFunction) (depthAt : Nat → Nat) :
    Prop where
  start : depthAt 0 = 0
  /-- All ways to an instruction bring its depth. -/
  agrees : ∀ (i : Nat) (instruction : Instruction) (way : Way) (j : Nat) (use : StackUse),
    Reached function.code i → function.code[i]? = some instruction →
      instruction.successor? i way = some (j, use) →
      depthAt j = depthAt i - use.pops + use.pushes
  /-- There is enough on the stack, whichever way control goes. -/
  pops : ∀ (i : Nat) (instruction : Instruction) (use : StackUse),
    Reached function.code i → function.code[i]? = some instruction →
      use = instruction.stackUse ∨ instruction.op.branchUse? = some use → use.pops ≤ depthAt i
  fits : ∀ i, Reached function.code i → depthAt i ≤ function.maxStack.toNat
  /-- Control stays in the code. -/
  inside : ∀ i, Reached function.code i → i < function.code.size
  /-- Every jump is aimed at an instruction, also where control does not get to. -/
  aimed : ∀ (i : Nat) (instruction : Instruction) (target : UInt32),
    function.code[i]? = some instruction →
    instruction.target? = some target →
      instruction.operand ≠ .unaimed ∧ target.toNat < function.code.size

/-- Every instruction that control gets to has one stack of handlers. -/
structure CompiledFunction.HandlerSafe (function : CompiledFunction)
    (handlersAt : Nat → List Nat) : Prop where
  start : handlersAt 0 = []
  /-- All ways to an instruction bring its handlers. -/
  agrees : ∀ (i : Nat) (instruction : Instruction) (way : Way) (j : Nat) (use : StackUse),
    Reached function.code i → function.code[i]? = some instruction →
      instruction.successor? i way = some (j, use) →
      handlersAt j = instruction.op.handlersAfter i way (handlersAt i)
  /-- A handler is only removed when there is one. -/
  removes : ∀ i operand, Reached function.code i → function.code[i]? = some ⟨.tryEnd, operand⟩ →
    handlersAt i ≠ []
  /-- The function is not left while a handler is installed. -/
  returns : ∀ i operand, Reached function.code i → function.code[i]? = some ⟨.ret, operand⟩ →
    handlersAt i = []

namespace Layout

/-! ### Marks of a whole function -/

section

variable {F : Image} {marks : Nat → Option Mark}

/-- The code of a function can be marked, with nothing there at the start and no way to the end. -/
abbrev Marked (F : Image) (marks : Nat → Option Mark) : Prop :=
  Piece F (fun _ _ => False) 0 F.code.size (some ⟨0, []⟩) none marks

theorem Piece.start (h : Marked F marks) : marks 0 = some ⟨0, []⟩ := by
  rcases h.entered _ rfl with ⟨-, hm⟩ | ⟨-, hend⟩
  · exact hm
  · cases hend

/-- The mark of an instruction goes along every edge of the graph. -/
theorem Piece.step (h : Marked F marks) {i j : Nat} {m : Mark} {instruction : Instruction}
    {way : Way} {use : StackUse} (hm : marks i = some m) (hfound : F.code[i]? = some instruction)
    (hgoes : instruction.successor? i way = some (j, use)) :
    marks j = some ⟨m.depth - use.pops + use.pushes,
      instruction.op.handlersAfter i way m.handlers⟩ := by
  have hafter : m.after? instruction i way = some (j, ⟨m.depth - use.pops + use.pushes,
      instruction.op.handlersAfter i way m.handlers⟩) := by
    rw [Mark.after?, hgoes]
    rfl
  rcases h.closed i m instruction way j _ hm hfound hafter with hin | ⟨-, hend⟩ | hout
  · exact hin
  · cases hend
  · exact hout.elim

/-- Every instruction that control gets to has a mark. -/
theorem Piece.reached (h : Marked F marks) {i : Nat} (hi : Reached F.code i) :
    ∃ m, marks i = some m := by
  induction hi with
  | start => exact ⟨_, h.start⟩
  | step before found goes ih =>
      obtain ⟨m, hm⟩ := ih
      exact ⟨_, h.step hm found goes⟩

theorem Piece.allows (h : Marked F marks) {i : Nat} {m : Mark} {instruction : Instruction}
    (hm : marks i = some m) (hfound : F.code[i]? = some instruction) :
    m.Allows F.maxStack instruction := by
  obtain ⟨-, -, other, hother, hallows⟩ := h.within i m hm
  obtain rfl : instruction = other := Option.some.inj (hfound.symm.trans hother)
  exact hallows

end

/-- **Every function of a compiled program can be marked.** -/
theorem compile_marked {compiler : Compiler} {root : Node} {program : Program}
    (hregistry : compiler.registry = .standard) (h : compiler.compile root = .ok program)
    {function : CompiledFunction} (hfunction : function ∈ program.functions)
    (hshort : function.code.size < wordLimit) :
    ∃ marks, Marked (.ofFunction program function) marks := by
  obtain ⟨g, hg⟩ := Array.mem_iff_getElem?.mp hfunction
  obtain ⟨body, scopes, b, -, hlaid, hend⟩ := compile_laid hregistry h hg hshort
  have hverified := hlaid.verified (fun loop hloop => nomatch hloop) rfl
  have hstops : b.reachable = false := hverified.balanced
  obtain ⟨marks, hpiece⟩ := hverified.runs
  rw [hend, Spot.mark_unreachable hstops] at hpiece
  refine ⟨marks, hpiece.ordered, hpiece.entered, hpiece.within, ?_, ?_⟩
  · intro i m instruction way j n hm hfound hgoes
    rcases hpiece.closed i m instruction way j n hm hfound hgoes with hin | hout | ⟨loop, hloop, -⟩
    · exact .inl hin
    · exact .inr (.inl hout)
    · cases hloop
  · intro i instruction target hlo hhi hfound htarget
    rcases hpiece.aimed i instruction target hlo hhi hfound htarget with
      hin | hout | ⟨m, loop, hloop, -⟩
    · exact .inl hin
    · exact .inr (.inl hout)
    · cases hloop

/-- A jump takes as much from the stack as the same instruction does when it goes on. -/
theorem branchUse_pops {op : Opcode} {use : StackUse} {n : UInt16} (h : op.branchUse? = some use) :
    use.pops = (op.stackUse n).pops := by
  unfold Opcode.branchUse? at h
  split at h
  all_goals first | (obtain rfl := Option.some.inj h; rfl) | cases h

/-! ### Stack and handler safety -/

/-- **Every function of a compiled program passes the stack verifier.** -/
theorem compile_stackSafe {compiler : Compiler} {root : Node} {program : Program}
    (hregistry : compiler.registry = .standard) (h : compiler.compile root = .ok program)
    {function : CompiledFunction} (hfunction : function ∈ program.functions)
    (hshort : function.code.size < 4294967295) : ∃ depthAt, function.StackSafe depthAt := by
  obtain ⟨marks, hmarks⟩ :=
    compile_marked hregistry h hfunction (Nat.lt_of_lt_of_le hshort (Nat.le_succ _))
  have hdepth : ∀ i m, marks i = some m → ((marks i).elim 0 Mark.depth) = m.depth := by
    intro i m hm
    rw [hm]
    rfl
  refine ⟨fun i => (marks i).elim 0 Mark.depth, hdepth 0 _ hmarks.start, ?_, ?_, ?_, ?_, ?_⟩
  · intro i instruction way j use hi hfound hgoes
    obtain ⟨m, hm⟩ := hmarks.reached hi
    rw [hdepth i m hm]
    exact hdepth j _ (hmarks.step hm hfound hgoes)
  · intro i instruction use hi hfound huse
    obtain ⟨m, hm⟩ := hmarks.reached hi
    have hallows := hmarks.allows hm hfound
    rw [hdepth i m hm]
    rcases huse with rfl | hbranch
    · exact hallows.pops
    · refine Nat.le_trans (Nat.le_of_eq ?_) hallows.pops
      rw [Instruction.stackUse]
      split
      · exact branchUse_pops hbranch
      · exact branchUse_pops hbranch
  · intro i hi
    obtain ⟨m, hm⟩ := hmarks.reached hi
    obtain ⟨-, -, instruction, -, hallows⟩ := hmarks.within i m hm
    rw [hdepth i m hm]
    exact hallows.fits
  · intro i hi
    obtain ⟨m, hm⟩ := hmarks.reached hi
    exact (hmarks.within i m hm).2.1
  · intro i instruction target hfound htarget
    have hi : i < function.code.size := (Array.getElem?_eq_some_iff.mp hfound).1
    have hinside : target.toNat < function.code.size := by
      rcases hmarks.aimed i instruction target (Nat.zero_le _) hi hfound htarget with
        hin | ⟨-, hend⟩ | ⟨m, hout⟩
      · exact hin
      · exact absurd rfl hend
      · exact hout.elim
    refine ⟨fun hunaimed => ?_, hinside⟩
    rw [Instruction.target?, hunaimed] at htarget
    obtain rfl := Option.some.inj htarget
    exact absurd hinside (Nat.not_lt.mpr (Nat.le_of_lt hshort))

/-- The size of the main function of a compiled query, to be computed. -/
def mainSize? (root : Node) : Option Nat :=
  (compile root).toOption.bind fun program =>
    program.main?.map fun function => function.code.size

theorem compiles_of_mainSize {root : Node} {size : Nat} (h : mainSize? root = some size) :
    ∃ program function, compile root = .ok program ∧ program.main? = some function ∧
      function.code.size = size := by
  unfold mainSize? at h
  cases hcompile : compile root with
  | error failure =>
      rw [hcompile] at h
      cases h
  | ok program =>
      rw [hcompile] at h
      obtain ⟨function, hmain, hsize⟩ := Option.map_eq_some_iff.mp h
      exact ⟨program, function, rfl, hmain, hsize⟩

/-- A loop that is left from inside a handler. -/
def guardedBreak : Node :=
  .whileLoop (.param "p" {}) (.tryCatch (.breakLoop {}) none (.block [] {}) {}) {}

theorem guardedBreak_mainSize : mainSize? guardedBreak = some 10 := by
  decide +kernel

theorem guardedBreak_stackSafe : ∃ program function, compile guardedBreak = .ok program ∧
    function ∈ program.functions ∧ function.code.size < 4294967295 ∧
      ∃ depthAt, function.StackSafe depthAt := by
  obtain ⟨program, function, hcompile, hmain, hsize⟩ := compiles_of_mainSize guardedBreak_mainSize
  have hmem : function ∈ program.functions := Array.mem_of_getElem? hmain
  have hshort : function.code.size < 4294967295 := by omega
  exact ⟨program, function, hcompile, hmem, hshort, compile_stackSafe rfl hcompile hmem hshort⟩

/-- **In every function of a compiled program handlers are installed and removed in good order.** -/
theorem compile_handlerSafe {compiler : Compiler} {root : Node} {program : Program}
    (hregistry : compiler.registry = .standard) (h : compiler.compile root = .ok program)
    {function : CompiledFunction} (hfunction : function ∈ program.functions)
    (hshort : function.code.size < wordLimit) : ∃ handlersAt, function.HandlerSafe handlersAt := by
  obtain ⟨marks, hmarks⟩ := compile_marked hregistry h hfunction hshort
  have hhandlers : ∀ i m, marks i = some m → ((marks i).elim [] Mark.handlers) = m.handlers := by
    intro i m hm
    rw [hm]
    rfl
  refine ⟨fun i => (marks i).elim [] Mark.handlers, hhandlers 0 _ hmarks.start, ?_, ?_, ?_⟩
  · intro i instruction way j use hi hfound hgoes
    obtain ⟨m, hm⟩ := hmarks.reached hi
    rw [hhandlers i m hm]
    exact hhandlers j _ (hmarks.step hm hfound hgoes)
  · intro i operand hi hfound
    obtain ⟨m, hm⟩ := hmarks.reached hi
    rw [hhandlers i m hm]
    exact (hmarks.allows hm hfound).guarded rfl
  · intro i operand hi hfound
    obtain ⟨m, hm⟩ := hmarks.reached hi
    rw [hhandlers i m hm]
    exact (hmarks.allows hm hfound).unguarded rfl

theorem guardedBreak_handlerSafe : ∃ program function, compile guardedBreak = .ok program ∧
    function ∈ program.functions ∧ function.code.size < wordLimit ∧
      ∃ handlersAt, function.HandlerSafe handlersAt := by
  obtain ⟨program, function, hcompile, hmain, hsize⟩ := compiles_of_mainSize guardedBreak_mainSize
  have hmem : function ∈ program.functions := Array.mem_of_getElem? hmain
  have hshort : function.code.size < wordLimit := by
    rw [hsize]
    decide
  exact ⟨program, function, hcompile, hmem, hshort, compile_handlerSafe rfl hcompile hmem hshort⟩

end Layout

end QueryCompiler
