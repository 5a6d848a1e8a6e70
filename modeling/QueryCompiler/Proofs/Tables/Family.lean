/-
Which function makes which.

A function gets its number when it is opened, and the instruction that makes it is
written when it is closed, into the function around it.  So every function but the main
one has one parent, which comes before it in the table, and a function makes its
children in the order of their numbers.

Along a trail this is a matter of the functions that are added: `Family` lists them, each
with its parent, and says that the functions make the children listed for them and
nothing else.
-/
import QueryCompiler.Proofs.Tables.Trail

namespace QueryCompiler

/-- The instruction that makes a function. -/
def Instruction.making (id : Nat) : Instruction :=
  ⟨.makeLambda, .function id.toUInt32⟩

namespace Sketch

/-- The sketch with some more references. -/
def extend (sketch : Sketch) (written : List Instruction) : Sketch :=
  { sketch with references := sketch.references ++ written }

theorem extend_nil (sketch : Sketch) : sketch.extend [] = sketch :=
  congrArg (Sketch.mk _ _) (List.append_nil _)

theorem extend_extend (sketch : Sketch) (written more : List Instruction) :
    (sketch.extend written).extend more = sketch.extend (written ++ more) :=
  congrArg (Sketch.mk _ _) (List.append_assoc ..)

end Sketch

/-- The instructions among these that make functions. -/
def lambdasOf (code : List Instruction) : List Instruction :=
  code.filter fun instruction => instruction.op = .makeLambda

theorem lambdasOf_append (code more : List Instruction) :
    lambdasOf (code ++ more) = lambdasOf code ++ lambdasOf more :=
  List.filter_append ..

theorem Assembly.sketch?_isSome_iff {code : Assembly} {g : Nat} :
    (code.sketch? g).isSome ↔ g < code.routines.size := by
  simp [sketch?]

/-- There are as many functions as there are sketches. -/
theorem Assembly.size_of_sketches {code code' : Assembly}
    (h : ∀ g, code'.sketch? g = code.sketch? g) : code'.routines.size = code.routines.size := by
  have hlt : ∀ g, g < code'.routines.size ↔ g < code.routines.size := by
    intro g
    rw [← sketch?_isSome_iff, ← sketch?_isSome_iff, h]
  exact Nat.le_antisymm (Nat.le_of_not_lt fun hless => Nat.lt_irrefl _ ((hlt _).mp hless))
    (Nat.le_of_not_lt fun hless => Nat.lt_irrefl _ ((hlt _).mpr hless))

namespace Progress

open Workspace Instruction

/-! ### Families -/

/-- The functions that were added on the way from one program to another, each behind its parent.
The parent makes its children with the references it has got, in order. -/
structure Family (code code' : Assembly) (children : List (Nat × Nat)) : Prop where
  function : code'.currentFunction = code.currentFunction
  size : code.routines.size ≤ code'.routines.size
  ids : children.map Prod.snd =
    List.range' code.routines.size (code'.routines.size - code.routines.size)
  places : ∀ child ∈ children, child.1 < child.2 ∧
    (child.1 = code.currentFunction ∨ code.routines.size ≤ child.1)
  /-- A function that was there has got some references. -/
  kept : ∀ g sketch, code.sketch? g = some sketch → ∃ written,
    code'.sketch? g = some (sketch.extend written) ∧
      lambdasOf written = (entriesOf g children).map making
  /-- A function that was added is complete, and has room for its parameters. -/
  made : ∀ g sketch, code.routines.size ≤ g → code'.sketch? g = some sketch →
    sketch.params ≤ sketch.locals ∧
      lambdasOf sketch.references = (entriesOf g children).map making

variable {code code₁ code₂ : Assembly} {children more : List (Nat × Nat)}

namespace Family

/-- Who is listed was not there before and is now. -/
theorem child_bounds (h : Family code code₁ children) {child : Nat × Nat}
    (hchild : child ∈ children) :
    code.routines.size ≤ child.2 ∧ child.2 < code₁.routines.size := by
  have hmem := List.mem_map_of_mem (f := Prod.snd) hchild
  have hsize := h.size
  rw [h.ids, List.mem_range'_1] at hmem
  omega

theorem idle (hfunction : code₁.currentFunction = code.currentFunction)
    (hsketches : ∀ g, code₁.sketch? g = code.sketch? g) : Family code code₁ [] where
  function := hfunction
  size := Nat.le_of_eq (Assembly.size_of_sketches hsketches).symm
  ids := by
    rw [Assembly.size_of_sketches hsketches, Nat.sub_self]
    rfl
  places := List.forall_mem_nil _
  kept g sketch h := ⟨[], by rw [hsketches, h, sketch.extend_nil], rfl⟩
  made g sketch hg h := by
    rw [hsketches] at h
    exact absurd (Assembly.lt_of_sketch? h) (Nat.not_lt.mpr hg)

theorem trans (h : Family code code₁ children) (h' : Family code₁ code₂ more) :
    Family code code₂ (children ++ more) where
  function := h'.function.trans h.function
  size := Nat.le_trans h.size h'.size
  ids := by
    have hsize := h.size
    have hsize' := h'.size
    obtain ⟨k, hk⟩ := Nat.exists_eq_add_of_le hsize
    obtain ⟨k', hk'⟩ := Nat.exists_eq_add_of_le hsize'
    rw [List.map_append, h.ids, h'.ids, hk', hk, Nat.add_sub_cancel_left, Nat.add_sub_cancel_left,
      List.range'_append_1, Nat.add_assoc, Nat.add_sub_cancel_left]
  places child hchild := by
    rcases List.mem_append.mp hchild with hmem | hmem
    · exact h.places child hmem
    · obtain ⟨hlt, hplace⟩ := h'.places child hmem
      have hsize := h.size
      rw [h.function] at hplace
      exact ⟨hlt, hplace.imp_right (Nat.le_trans hsize)⟩
  kept g sketch hsketch := by
    obtain ⟨written, hwritten, hlambdas⟩ := h.kept g sketch hsketch
    obtain ⟨written', hwritten', hlambdas'⟩ := h'.kept g _ hwritten
    refine ⟨written ++ written', hwritten'.trans ?_, ?_⟩
    · rw [sketch.extend_extend]
    · rw [lambdasOf_append, hlambdas, hlambdas', entriesOf_append, List.map_append]
  made g sketch hg hsketch := by
    rw [entriesOf_append, List.map_append]
    rcases Nat.lt_or_ge g code₁.routines.size with hold | hnew
    · -- A function that was complete before has got nothing but references.
      obtain ⟨sketch₁, hsketch₁⟩ := Option.isSome_iff_exists.mp
        (Assembly.sketch?_isSome_iff.mpr hold)
      obtain ⟨hparams, hlambdas⟩ := h.made g sketch₁ hg hsketch₁
      obtain ⟨written, hwritten, hlambdas'⟩ := h'.kept g sketch₁ hsketch₁
      obtain rfl := Option.some.inj (hsketch.symm.trans hwritten)
      refine ⟨hparams, ?_⟩
      rw [Sketch.extend, lambdasOf_append, hlambdas, hlambdas']
    · have hnone : entriesOf g children = [] := by
        refine entriesOf_eq_nil fun child hchild => ?_
        have hlt := (h.places child hchild).1
        have hbound := (h.child_bounds hchild).2
        omega
      rw [hnone]
      exact h'.made g sketch hnew hsketch

end Family

variable {ws ws₁ ws' inside : Workspace}

/-! ### Trails -/

/-- What a reference adds to the sketches. -/
theorem wrote_sketch {instruction : Instruction} (h : instruction.op.isReference = true) (g : Nat) :
    (ws.wrote instruction).code.sketch? g = if g = ws.code.currentFunction
      then (ws.code.sketch? g).map (·.write instruction) else ws.code.sketch? g := by
  split
  · rename_i hg
    subst hg
    exact Assembly.sketch?_modifyCurrent fun routine _ => routine.sketch_append_reference h _ _
  · rename_i hg
    exact Assembly.sketch?_modifyCurrent_of_ne hg

/-- A load or a store makes no function. -/
theorem Family.slot {op : Opcode} {ref : SlotRef} (hop : op = .load ∨ op = .store) :
    Family ws.code (ws.wrote ⟨op, .slot ref⟩).code [] := by
  have hreference : op.isReference = true := by rcases hop with rfl | rfl <;> rfl
  have hsize : (ws.wrote ⟨op, .slot ref⟩).code.routines.size = ws.code.routines.size := by
    simp [wrote, revise, Assembly.modifyCurrent]
  refine ⟨rfl, Nat.le_of_eq hsize.symm, ?_, List.forall_mem_nil _, ?_, ?_⟩
  · rw [hsize, Nat.sub_self]
    rfl
  · intro g sketch hsketch
    rw [wrote_sketch hreference, hsketch]
    split
    · refine ⟨[⟨op, .slot ref⟩], rfl, ?_⟩
      rcases hop with rfl | rfl <;> rfl
    · exact ⟨[], congrArg some sketch.extend_nil.symm, rfl⟩
  · intro g sketch hg hsketch
    exact absurd (Assembly.lt_of_sketch? hsketch) (by omega)

/-- What is left of a lambda in the sketches: its function with the slots it took, and the
instruction that makes it. -/
theorem lambda_sketch {params : UInt16} (next : UInt16) (frame : Frame)
    (hcurrent : ws.code.currentFunction < ws.code.routines.size)
    (hfollows : Follows ((Layout.opened ws params).entered
      (.function ws.code.routines.size 0)) inside) (g : Nat) :
    ((Layout.closed (inside.left frame) next ws.code.opened).wrote
        (making ws.code.routines.size)).code.sketch? g =
      if g = ws.code.currentFunction
        then (inside.code.sketch? g).map (·.write (making ws.code.routines.size))
      else if g = ws.code.routines.size then (inside.code.sketch? g).map (·.reserve next)
      else inside.code.sketch? g := by
  have hinside : inside.code.currentFunction = ws.code.routines.size := hfollows.currentFunction
  have hclosed : (Layout.closed (inside.left frame) next ws.code.opened).code.sketch? g =
      if g = ws.code.routines.size then (inside.code.sketch? g).map (·.reserve next)
      else inside.code.sketch? g := by
    split
    · rename_i hg
      rw [hg, ← hinside]
      exact inside.code.sketch?_reserveLocals next
    · rename_i hg
      exact Assembly.sketch?_modifyCurrent_of_ne fun hsame => hg (hsame.trans hinside)
  rw [wrote_sketch rfl, hclosed]
  show (if g = ws.code.currentFunction then _ else _) = _
  by_cases hg : g = ws.code.currentFunction
  · rw [if_pos hg, if_pos hg, if_neg (by omega)]
  · rw [if_neg hg, if_neg hg]

/-- The sketches inside a lambda that has just been opened. -/
theorem opened_sketch (ws : Workspace) (params : UInt16) (g : Nat) :
    (Layout.opened ws params).code.sketch? g =
      if g = ws.code.routines.size then some ⟨params, params, []⟩ else ws.code.sketch? g := by
  simp only [Assembly.sketch?, Layout.opened, Array.getElem?_push]
  split <;> rfl

section Lambda

variable {params : UInt16} (next : UInt16) (frame : Frame)

/-- The children that are listed inside a lambda are of its function or of later ones. -/
theorem Family.inside_places (h : Family ((Layout.opened ws params).entered
      (.function ws.code.routines.size 0)).code inside.code children) {child : Nat × Nat}
    (hchild : child ∈ children) : child.1 < child.2 ∧ ws.code.routines.size ≤ child.1 := by
  obtain ⟨hlt, hplace⟩ := h.places child hchild
  refine ⟨hlt, ?_⟩
  rcases hplace with hown | hlater
  · exact Nat.le_of_eq hown.symm
  · rw [opened_size] at hlater
    exact Nat.le_of_succ_le hlater

/-- What a lambda leaves in the functions around it is the instruction that makes it. -/
theorem Family.lambda_kept (hcurrent : ws.code.currentFunction < ws.code.routines.size)
    (hfollows : Follows ((Layout.opened ws params).entered
      (.function ws.code.routines.size 0)) inside)
    (h : Family ((Layout.opened ws params).entered (.function ws.code.routines.size 0)).code
      inside.code children) {g : Nat} {sketch : Sketch} (hg : ws.code.sketch? g = some sketch) :
    ∃ written, ((Layout.closed (inside.left frame) next ws.code.opened).wrote
        (making ws.code.routines.size)).code.sketch? g = some (sketch.extend written) ∧
      lambdasOf written = (entriesOf g
        ((ws.code.currentFunction, ws.code.routines.size) :: children)).map making := by
  have hlt := Assembly.lt_of_sketch? hg
  have hnone : entriesOf g children = [] :=
    entriesOf_eq_nil fun child hchild => Nat.ne_of_gt
      (Nat.lt_of_lt_of_le hlt (h.inside_places hchild).2)
  obtain ⟨written, hwritten, hlambdas⟩ := h.kept g sketch
    ((opened_sketch ws params g).trans (by rw [if_neg (Nat.ne_of_lt hlt)]; exact hg))
  rw [hnone] at hlambdas
  rw [lambda_sketch next frame hcurrent hfollows, hwritten]
  by_cases hf : g = ws.code.currentFunction
  · rw [if_pos hf]
    refine ⟨written ++ [making ws.code.routines.size], ?_, ?_⟩
    · exact congrArg some (Sketch.extend_extend _ _ _)
    · rw [lambdasOf_append, hlambdas, ← hf, entriesOf_cons_self, hnone]
      rfl
  · rw [if_neg hf, if_neg (Nat.ne_of_lt hlt)]
    refine ⟨written, rfl, ?_⟩
    rw [entriesOf_cons_of_ne (Ne.symm hf), hnone]
    exact hlambdas

/-- The function of a lambda and those inside it are complete. -/
theorem Family.lambda_made (hcurrent : ws.code.currentFunction < ws.code.routines.size)
    (hfollows : Follows ((Layout.opened ws params).entered
      (.function ws.code.routines.size 0)) inside)
    (h : Family ((Layout.opened ws params).entered (.function ws.code.routines.size 0)).code
      inside.code children) {g : Nat} {sketch : Sketch} (hg : ws.code.routines.size ≤ g)
    (hat : ((Layout.closed (inside.left frame) next ws.code.opened).wrote
      (making ws.code.routines.size)).code.sketch? g = some sketch) :
    sketch.params ≤ sketch.locals ∧ lambdasOf sketch.references = (entriesOf g
      ((ws.code.currentFunction, ws.code.routines.size) :: children)).map making := by
  have hf : ws.code.currentFunction ≠ g := by omega
  rw [lambda_sketch next frame hcurrent hfollows, if_neg hf.symm] at hat
  rw [entriesOf_cons_of_ne hf]
  rcases Nat.eq_or_lt_of_le hg with rfl | hlater
  · -- The function of the lambda itself, which started with nothing but its parameters.
    obtain ⟨written, hwritten, hlambdas⟩ := h.kept _ _
      ((opened_sketch ws params _).trans (if_pos rfl))
    rw [if_pos rfl, hwritten] at hat
    obtain rfl := Option.some.inj hat
    exact ⟨Sketch.locals_le_reserve ⟨params, params, _⟩ next, hlambdas⟩
  · rw [if_neg (Nat.ne_of_gt hlater)] at hat
    exact h.made g sketch (by rw [opened_size]; exact hlater) hat

/-- **A lambda adds its function to the children of the current one.** -/
theorem Family.lambda (hcurrent : ws.code.currentFunction < ws.code.routines.size)
    (hfollows : Follows ((Layout.opened ws params).entered
      (.function ws.code.routines.size 0)) inside)
    (h : Family ((Layout.opened ws params).entered (.function ws.code.routines.size 0)).code
      inside.code children) :
    Family ws.code ((Layout.closed (inside.left frame) next ws.code.opened).wrote
      (making ws.code.routines.size)).code
      ((ws.code.currentFunction, ws.code.routines.size) :: children) := by
  have hsize : ((Layout.closed (inside.left frame) next ws.code.opened).wrote
      (making ws.code.routines.size)).code.routines.size = inside.code.routines.size := by
    simp [Layout.closed, left, wrote, revise, Assembly.reserveLocals, Assembly.modifyCurrent]
  have hle := h.size
  have hids := h.ids
  rw [opened_size] at hle hids
  refine ⟨rfl, by omega, ?_, ?_, fun _ _ hg => h.lambda_kept next frame hcurrent hfollows hg,
    fun _ _ hg hat => h.lambda_made next frame hcurrent hfollows hg hat⟩
  · rw [List.map_cons, hids, hsize, show inside.code.routines.size - ws.code.routines.size =
      inside.code.routines.size - (ws.code.routines.size + 1) + 1 by omega, List.range'_succ]
  · refine List.forall_mem_cons.mpr ⟨⟨hcurrent, .inl rfl⟩, fun child hchild => ?_⟩
    obtain ⟨hlt, hplace⟩ := h.inside_places hchild
    exact ⟨hlt, .inr hplace⟩

end Lambda

/-- **Along a trail the functions that are added make a family.** -/
theorem Trail.family (h : Trail ws ws')
    (hcurrent : ws.code.currentFunction < ws.code.routines.size) :
    ∃ children, Family ws.code ws'.code children := by
  induction h with
  | idle h => exact ⟨[], .idle h.currentFunction h.sketches⟩
  | trans h _ ih ih' =>
      obtain ⟨children, hfamily⟩ := ih hcurrent
      obtain ⟨more, hfamily'⟩ := ih' (h.follows.current_lt hcurrent)
      exact ⟨_, hfamily.trans hfamily'⟩
  | bind ws name hslot => exact ⟨[], .idle rfl fun _ => rfl⟩
  | slot _ _ hop ih =>
      obtain ⟨children, hfamily⟩ := ih hcurrent
      exact ⟨_, hfamily.trans (.slot hop)⟩
  | scope _ _ _ _ ih => exact ih hcurrent
  | lambda h _ _ ih =>
      obtain ⟨children, hfamily⟩ := ih (opened_current_lt _ _ _)
      exact ⟨_, hfamily.lambda _ _ hcurrent h.follows⟩

end Progress

end QueryCompiler
