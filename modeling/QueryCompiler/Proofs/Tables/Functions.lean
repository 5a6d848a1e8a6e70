/-
The function table of a program.

A whole program is one trail, which starts in an empty main function.  Its functions are
the family of that function, and its loads and stores are about locals of ancestors.  As
long as there are words for all functions, the table is what `Program.WellLinked` says: a
tree with the main function at its root, in which every function has one parent, and in
which everything a function refers to is there.
-/
import QueryCompiler.Proofs.Tables.Slots

namespace QueryCompiler

namespace Program

/-- The function table is a tree, and references lead to where there is something. -/
structure WellLinked (program : Program) : Prop where
  ids : ∀ (i : Nat) (function : CompiledFunction),
    program.functions[i]? = some function → function.id = i
  main : ∃ main, program.main? = some main ∧ main.params = 0
  /-- Every other function is made at one place, by a function before it. -/
  parent : ∀ child, 1 ≤ child → child < program.functions.size →
    ∃ position, program.MakesAt position child ∧ position.function < child ∧
      ∀ other, program.MakesAt other child → other = position
  /-- Whatever makes a function makes one of the table. -/
  makes : ∀ (g : Nat) (function : CompiledFunction) (i : Nat) (instruction : Instruction),
    program.functions[g]? = some function →
    function.code[i]? = some instruction → instruction.op = .makeLambda →
    ∃ child, 1 ≤ child ∧ child < program.functions.size ∧ program.MakesAt ⟨g, i⟩ child
  /-- A function makes its children in the order of their numbers. -/
  increasing : ∀ g i j child later, i < j → program.MakesAt ⟨g, i⟩ child →
    program.MakesAt ⟨g, j⟩ later → child < later
  locals : ∀ function ∈ program.functions,
    function.params ≤ function.locals ∧ function.locals.toNat ≤ Frame.slotLimit
  /-- A load or a store is about a local of an ancestor. -/
  slots : ∀ (g : Nat) (function : CompiledFunction), program.functions[g]? = some function →
    ∀ instruction ∈ function.code, instruction.op = .load ∨ instruction.op = .store →
      program.Resolves g instruction.operand

end Program

/-! ### Finished functions -/

theorem lambdasOf_references (code : List Instruction) :
    lambdasOf (code.filter fun instruction => instruction.op.isReference) = lambdasOf code := by
  unfold lambdasOf
  rw [List.filter_filter]
  refine List.filter_congr fun instruction _ => ?_
  by_cases h : instruction.op = .makeLambda
  · simp [h, Opcode.isReference]
  · simp [h]

/-- A finished function is what its sketch tells, and the main function has got its locals. -/
theorem Assembly.function_sketch {code : Assembly} {locals : UInt16} {g : Nat}
    {function : CompiledFunction}
    (h : (code.reserveLocals locals).toProgram.functions[g]? = some function) :
    function.id = g ∧ (g = code.currentFunction → locals ≤ function.locals) ∧
      ∃ sketch, code.sketch? g = some sketch ∧ function.params = sketch.params ∧
        sketch.locals ≤ function.locals ∧
        function.code.toList.filter (fun instruction => instruction.op.isReference) =
          sketch.references := by
  simp only [toProgram, Array.getElem?_mapIdx, Option.map_eq_some_iff] at h
  obtain ⟨routine, hroutine, rfl⟩ := h
  have hsketch : (code.reserveLocals locals).sketch? g = some routine.sketch :=
    congrArg (Option.map Routine.sketch) hroutine
  by_cases hg : g = code.currentFunction
  · subst hg
    rw [code.sketch?_reserveLocals] at hsketch
    obtain ⟨sketch, hat, hreserved⟩ := Option.map_eq_some_iff.mp hsketch
    have hlocals : (sketch.reserve locals).locals = routine.locals :=
      congrArg Sketch.locals hreserved
    refine ⟨rfl, fun _ => ?_, sketch, hat, congrArg Sketch.params hreserved.symm, ?_,
      congrArg Sketch.references hreserved.symm⟩
    · exact UInt16.le_trans (sketch.le_reserve locals) (UInt16.le_of_eq hlocals)
    · exact UInt16.le_trans (sketch.locals_le_reserve locals) (UInt16.le_of_eq hlocals)
  · rw [reserveLocals, sketch?_modifyCurrent_of_ne hg] at hsketch
    exact ⟨rfl, fun hsame => absurd hsame hg, _, hsketch, rfl, UInt16.le_refl _, rfl⟩

/-- What the main function has become is the program. -/
theorem Progress.Becomes.finished {ws inside : Workspace} {frame : Frame} {outer : List Frame}
    (hopened : ws.code.opened = [0]) (hmain : 0 < ws.code.routines.size)
    (hempty : ws.scopes.frames = [])
    (hfollows : Follows (ws.entered (.function 0 0)) inside)
    (hframes : inside.scopes.frames = frame :: outer) :
    Becomes inside (inside.code.reserveLocals (frame.state.nextSlot?.getD 0)).toProgram := by
  have hinside : inside.code.opened = [0] := hfollows.opened.trans hopened
  have hcurrent : inside.code.currentFunction = 0 := congrArg (List.headD · 0) hinside
  have hfunction : ∀ g < inside.code.routines.size, ∃ function,
      (inside.code.reserveLocals (frame.state.nextSlot?.getD 0)).toProgram.functions[g]? =
        some function := by
    intro g hg
    exact ⟨_, Array.getElem?_eq_getElem (by rw [inside.code.size_functions]; exact hg)⟩
  obtain ⟨next, hstate, houter⟩ := hfollows.function_frame hframes
  have hfunctions : Frame.functions inside.scopes.frames = [(0, next)] := by
    rw [hempty] at houter
    rw [hframes, Frame.functions_cons, hstate, List.forall₂_nil_left_iff.mp houter]
    rfl
  refine ⟨by rw [hfunctions, hinside]; rfl, by rw [hinside]; exact .singleton 0, ?_, ?_⟩
  · intro g sketch hsketch
    obtain ⟨function, hat⟩ := hfunction g (Assembly.lt_of_sketch? hsketch)
    obtain ⟨-, -, sketch', hsketch', -, hlocals, hcode⟩ := Assembly.function_sketch hat
    obtain rfl := Option.some.inj (hsketch.symm.trans hsketch')
    refine ⟨function, hat, hlocals, fun instruction hmem => ?_⟩
    rw [← hcode] at hmem
    exact Array.mem_toList_iff.mp (List.mem_filter.mp hmem).1
  · rw [hfunctions]
    refine List.forall_mem_singleton.mpr ?_
    obtain ⟨function, hat⟩ := hfunction 0 (Nat.lt_of_lt_of_le hmain hfollows.size)
    obtain ⟨-, hroom, -⟩ := Assembly.function_sketch hat
    refine ⟨function, hat, ?_⟩
    have hroom := hroom hcurrent.symm
    rw [hstate] at hroom
    exact hroom

namespace Program

open Instruction

/-! ### Trees of functions -/

/-- The functions of a program but the main one, each behind its parent.  Functions know their
numbers, have room for their parameters and make their children. -/
structure Lineage (program : Program) (children : List (Nat × Nat)) : Prop where
  nonempty : 0 < program.functions.size
  ids : children.map Prod.snd = List.range' 1 (program.functions.size - 1)
  places : ∀ child ∈ children, child.1 < child.2
  functions : ∀ (g : Nat) (function : CompiledFunction), program.functions[g]? = some function →
    function.id = g ∧ function.params ≤ function.locals ∧ (g = 0 → function.params = 0) ∧
      lambdasOf function.code.toList = (entriesOf g children).map making

variable {program : Program} {children : List (Nat × Nat)}

namespace Lineage

theorem lambdas (h : program.Lineage children) {g : Nat} {function : CompiledFunction}
    (hfunction : program.functions[g]? = some function) :
    lambdasOf function.code.toList = (entriesOf g children).map making :=
  (h.functions g function hfunction).2.2.2

theorem child_bounds (h : program.Lineage children) {g child : Nat} (hmem : (g, child) ∈ children) :
    1 ≤ child ∧ child < program.functions.size := by
  have hchild : child ∈ children.map Prod.snd := List.mem_map.mpr ⟨_, hmem, rfl⟩
  rw [h.ids, List.mem_range'_1] at hchild
  omega

/-- What makes a function is listed with its child. -/
theorem listed (h : program.Lineage children) {g i : Nat} {function : CompiledFunction}
    {instruction : Instruction} (hfunction : program.functions[g]? = some function)
    (hat : function.code[i]? = some instruction) (hop : instruction.op = .makeLambda) :
    ∃ child, (g, child) ∈ children ∧ instruction = making child := by
  have hmem : instruction ∈ lambdasOf function.code.toList :=
    List.mem_filter.mpr ⟨Array.mem_toList_iff.mpr (Array.mem_of_getElem? hat), by simp [hop]⟩
  rw [h.lambdas hfunction] at hmem
  obtain ⟨child, hchild, rfl⟩ := List.mem_map.mp hmem
  exact ⟨child, mem_entriesOf.mp hchild, rfl⟩

/-- The word for a child is the child. -/
theorem word (h : program.Lineage children) (hwords : program.functions.size ≤ wordLimit)
    {g child : Nat} (hmem : (g, child) ∈ children) : child.toUInt32.toNat = child :=
  toNat_toUInt32 (Nat.lt_of_lt_of_le (h.child_bounds hmem).2 hwords)

theorem mem_of_makesAt (h : program.Lineage children)
    (hwords : program.functions.size ≤ wordLimit) {position : Position} {child : Nat}
    (hmakes : program.MakesAt position child) : (position.function, child) ∈ children := by
  obtain ⟨function, id, hfunction, hat, rfl⟩ := hmakes
  obtain ⟨child, hmem, hmaking⟩ := h.listed hfunction hat rfl
  obtain rfl : id = child.toUInt32 := Operand.function.inj (congrArg Instruction.operand hmaking)
  rw [h.word hwords hmem]
  exact hmem

theorem makesAt_of_mem (h : program.Lineage children)
    (hwords : program.functions.size ≤ wordLimit) {g child : Nat} (hmem : (g, child) ∈ children) :
    ∃ index, program.MakesAt ⟨g, index⟩ child := by
  have hlt : g < program.functions.size :=
    Nat.lt_trans (h.places _ hmem) (h.child_bounds hmem).2
  have hfunction := Array.getElem?_eq_getElem hlt
  have hmaking : making child ∈ lambdasOf (program.functions[g]).code.toList := by
    rw [h.lambdas hfunction]
    exact List.mem_map_of_mem (mem_entriesOf.mpr hmem)
  obtain ⟨index, hindex⟩ := Array.getElem?_of_mem
    (Array.mem_toList_iff.mp (List.mem_filter.mp hmaking).1)
  exact ⟨index, _, _, hfunction, hindex, h.word hwords hmem⟩

/-- A function makes its children in the order of their numbers. -/
theorem increasing (h : program.Lineage children) (hwords : program.functions.size ≤ wordLimit)
    {g i j child later : Nat} (hij : i < j) (hchild : program.MakesAt ⟨g, i⟩ child)
    (hlater : program.MakesAt ⟨g, j⟩ later) : child < later := by
  obtain ⟨function, id, hfunction, hat, rfl⟩ := hchild
  obtain ⟨function', id', hfunction', hat', rfl⟩ := hlater
  obtain rfl := Option.some.inj (hfunction.symm.trans hfunction')
  have horder : (entriesOf g children).Pairwise (· < ·) := by
    refine List.Pairwise.sublist (entriesOf_sublist g children) ?_
    rw [h.ids]
    exact List.pairwise_lt_range'
  have hpairs : (lambdasOf function.code.toList).Pairwise fun a b => ∀ id id' : UInt32,
      a.operand = .function id → b.operand = .function id' → id.toNat < id'.toNat := by
    rw [h.lambdas hfunction, List.pairwise_map]
    refine horder.imp_of_mem ?_
    rintro child later hchild hlater hlt _ _ ⟨⟩ ⟨⟩
    rw [h.word hwords (mem_entriesOf.mp hchild), h.word hwords (mem_entriesOf.mp hlater)]
    exact hlt
  rw [lambdasOf, List.pairwise_filter, List.pairwise_iff_getElem] at hpairs
  obtain ⟨hi, hget⟩ := Array.getElem?_eq_some_iff.mp hat
  obtain ⟨hj, hget'⟩ := Array.getElem?_eq_some_iff.mp hat'
  rw [← Array.getElem_toList] at hget hget'
  exact hpairs i j hi hj hij (by rw [hget]; rfl) (by rw [hget']; rfl) id id' (by rw [hget])
    (by rw [hget'])

/-- A function is made at one place. -/
theorem place_unique (h : program.Lineage children) (hwords : program.functions.size ≤ wordLimit)
    {position position' : Position} {child : Nat} (hmakes : program.MakesAt position child)
    (hmakes' : program.MakesAt position' child) : position = position' := by
  have hnodup : (children.map Prod.snd).Nodup := by
    rw [h.ids]
    exact List.nodup_range'
  obtain ⟨g, i⟩ := position
  obtain ⟨g', j⟩ := position'
  obtain rfl : g = g' := congrArg Prod.fst (List.inj_on_of_nodup_map hnodup
    (h.mem_of_makesAt hwords hmakes) (h.mem_of_makesAt hwords hmakes') rfl)
  rcases Nat.lt_trichotomy i j with hlt | rfl | hlt
  · exact absurd (h.increasing hwords hlt hmakes hmakes') (Nat.lt_irrefl _)
  · rfl
  · exact absurd (h.increasing hwords hlt hmakes' hmakes) (Nat.lt_irrefl _)

end Lineage

end Program

namespace Compiler

open Progress Instruction

variable {compiler : Compiler} {root : Node} {program : Program}

/-- **The functions of a program that compiles are a family,** with the main one at its head. -/
theorem compile_lineage (hregistry : compiler.registry = .standard)
    (h : compiler.compile root = .ok program) : ∃ children, program.Lineage children := by
  obtain ⟨inside, frame, outer, hcourse, hframes, rfl⟩ := compile_course hregistry h
  obtain ⟨children, hfamily⟩ := (hcourse.trail Nat.zero_lt_one).family Nat.zero_lt_one
  have hsize := inside.code.size_functions (frame.state.nextSlot?.getD 0)
  refine ⟨children, ?_, ?_, fun child hchild => (hfamily.places child hchild).1, ?_⟩
  · rw [hsize]
    exact hfamily.size
  · rw [hsize]
    exact hfamily.ids
  · intro g function hfunction
    obtain ⟨hid, -, sketch, hsketch, hparams, hlocals, hcode⟩ := Assembly.function_sketch hfunction
    rw [hparams, ← lambdasOf_references, hcode]
    rcases Nat.eq_zero_or_pos g with rfl | hpos
    · -- The main function was there at the start, and without code.
      obtain ⟨written, hwritten, hlambdas⟩ := hfamily.kept 0 ⟨0, 0, []⟩ rfl
      obtain rfl := Option.some.inj (hsketch.symm.trans hwritten)
      exact ⟨hid, UInt16.zero_le, fun _ => rfl, hlambdas⟩
    · obtain ⟨hle, hlambdas⟩ := hfamily.made g sketch hpos hsketch
      exact ⟨hid, UInt16.le_trans hle hlocals, fun hzero => absurd hzero (Nat.ne_of_gt hpos),
        hlambdas⟩

/-- **The loads and stores of a program that compiles are about locals of ancestors.** -/
theorem compile_resolves (hregistry : compiler.registry = .standard)
    (h : compiler.compile root = .ok program) (hwords : program.functions.size ≤ wordLimit)
    {g : Nat} {function : CompiledFunction} (hfunction : program.functions[g]? = some function)
    {instruction : Instruction} (hmem : instruction ∈ function.code)
    (hop : instruction.op = .load ∨ instruction.op = .store) :
    program.Resolves g instruction.operand := by
  obtain ⟨inside, frame, outer, hcourse, hframes, rfl⟩ := compile_course hregistry h
  have hmain : 0 < (compiler.start false).code.routines.size := Nat.zero_lt_one
  have hprogram := Becomes.finished rfl hmain rfl hcourse.follows hframes
  obtain ⟨-, -, sketch, hsketch, -, -, hcode⟩ := Assembly.function_sketch hfunction
  have hrefers : Refers inside.code g instruction := by
    refine ⟨sketch, hsketch, ?_⟩
    rw [← hcode]
    refine List.mem_filter.mpr ⟨Array.mem_toList_iff.mpr hmem, ?_⟩
    rcases hop with hop | hop <;> rw [hop] <;> rfl
  have hdeclared : Frame.Declared ((compiler.start false).entered
      (.function 0 0)).scopes.frames := nofun
  rcases (hcourse.trail Nat.zero_lt_one).resolves Nat.zero_lt_one hdeclared hprogram hwords hop
    hrefers with hbefore | hresolves
  · -- Nothing stands in the empty main function.
    obtain ⟨sketch, hsketch, hmem⟩ := hbefore
    cases g with
    | zero =>
        obtain rfl := Option.some.inj hsketch
        cases hmem
    | succ g => cases hsketch
  · exact hresolves

/-- **The function table of a compiled program is well linked.**  Functions are words in the code,
so there must be words for all of them. -/
theorem compile_wellLinked (hregistry : compiler.registry = .standard)
    (h : compiler.compile root = .ok program) (hwords : program.functions.size ≤ wordLimit) :
    program.WellLinked := by
  obtain ⟨children, hlineage⟩ := compile_lineage hregistry h
  refine ⟨fun i function hat => (hlineage.functions i function hat).1, ?_, ?_, ?_, ?_, ?_, ?_⟩
  · have hmain := Array.getElem?_eq_getElem hlineage.nonempty
    exact ⟨_, hmain, (hlineage.functions 0 _ hmain).2.2.1 rfl⟩
  · intro child hpos hlt
    have hchild : child ∈ children.map Prod.snd := by
      rw [hlineage.ids, List.mem_range'_1]
      omega
    obtain ⟨⟨g, _⟩, hmem, rfl⟩ := List.mem_map.mp hchild
    obtain ⟨index, hmakes⟩ := hlineage.makesAt_of_mem hwords hmem
    refine ⟨⟨g, index⟩, hmakes, hlineage.places _ hmem, ?_⟩
    exact fun other hother => hlineage.place_unique hwords hother hmakes
  · intro g function i instruction hfunction hat hop
    obtain ⟨child, hmem, rfl⟩ := hlineage.listed hfunction hat hop
    obtain ⟨hpos, hlt⟩ := hlineage.child_bounds hmem
    exact ⟨child, hpos, hlt, function, _, hfunction, hat, hlineage.word hwords hmem⟩
  · exact fun g i j child later => hlineage.increasing hwords
  · intro function hmem
    obtain ⟨g, hat⟩ := Array.getElem?_of_mem hmem
    exact ⟨(hlineage.functions g function hat).2.1, Nat.le_of_lt_succ function.locals.toNat_lt⟩
  · exact fun g function hfunction instruction hmem hop =>
      compile_resolves hregistry h hwords hfunction hmem hop

/-- A query with a lambda in a lambda, both of which use what is declared around them, and another
one behind them. -/
def counters : Node :=
  .block [
    .varDecl ⟨"total", {}⟩ (.literal (.int 0) {}) {},
    .run (.lambda [⟨"step", {}⟩]
      (.run (.lambda [] (.assign ⟨"total", {}⟩
        (.binary .add (.ident "total" {}) (.ident "step" {}) {}) {}) {}) {}) {}) {},
    .run (.transform .each (.param "p" {}) (.lambda [⟨"x", {}⟩] (.run (.current {}) {}) {}) {}) {}]
    {}

theorem counters_compiles : (compile {} counters).toOption.map (fun program =>
    program.functions.toList.map fun function => (function.params, function.locals)) =
    some [(0, 3), (1, 1), (0, 0), (1, 1)] := by
  decide +kernel

theorem counters_wellLinked : ∃ program, compile {} counters = .ok program ∧
    program.functions.size = 4 ∧ program.functions.size ≤ wordLimit ∧ program.WellLinked := by
  obtain ⟨program, hcompile, hseen⟩ := compiles_of_view counters_compiles
  have hsize : program.functions.size = 4 := by
    have hlength := congrArg List.length hseen
    rwa [List.length_map, Array.length_toList] at hlength
  have hwords : program.functions.size ≤ wordLimit := by
    rw [hsize]
    decide
  exact ⟨program, hcompile, hsize, hwords, compile_wellLinked rfl hcompile hwords⟩

end Compiler

end QueryCompiler
