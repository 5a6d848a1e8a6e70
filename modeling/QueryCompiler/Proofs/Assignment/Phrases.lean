/-
The code of every phrase reads only what is set.

What can be found from a place is set when control gets there.  A phrase `Spares` a slot
if it keeps this up: where the slot can not be found at its start it may be unset, and
then it may be so wherever it can not be found, but it is not read there.  Where paths
meet, the slots that can be found are those that can be found on all of them.  For most
constructs this is because of the scope that their parts have; where parts share one
with what is run in their place it is because the tree is tidy.

Jumps out of a phrase are those of `break` and `continue`.  From wherever they are
taken, more can be found there than at the start and after the end of the loop.
-/
import QueryCompiler.Proofs.Assignment.Visible
import QueryCompiler.Proofs.Assignment.Flow

namespace QueryCompiler.Layout

/-! ### What is said of a phrase -/

/-- Where `break` and `continue` lead, if they are taken while something may be unset. -/
def Surroundings.Ways (s : Surroundings) (unset : Prop) (j : Nat) : Prop :=
  unset ∧ ∃ loop, s.loop? = some loop ∧ (j = loop.head ∨ j = loop.exit)

/-- The code between two places does not read the slot while it is unset, which it may be wherever
it can not be found; and what can be found there was `declares`-d in between or before. -/
structure Spares (F : Image) (slot : UInt16) (s : Surroundings) (declares : Bool) (a b : Spot) :
    Prop where
  scopes : Spot.Widens declares a b
  unread : Unread F slot (s.Ways (¬ a.Shows slot)) a.index b.index (¬ a.Shows slot)
    (¬ b.Shows slot)

namespace Phrase

/-- The phrase declares a name in the scope in which it stands. -/
def declares : Phrase → Bool
  | rule tree | node tree | statement tree | body tree => tree.declares
  | statements nodes => nodes.any Node.declares
  | arms _ _ _ entries => entries.any fun arm => arm.2.declares
  | _ => false

/-- The nodes of the phrase are tidy. -/
def Tidy : Phrase → Prop
  | rule tree | node tree | value tree | statement tree | body tree => tree.Tidy
  | result _ data => ∀ tree ∈ data, tree.Tidy
  | values nodes | statements nodes | items nodes => ∀ tree ∈ nodes, tree.Tidy
  | fields entries => ∀ entry ∈ entries, entry.2.Tidy
  | arms moreFollows _ _ entries => (∀ arm ∈ entries, arm.1.Tidy ∧ arm.2.Tidy) ∧
    ∀ body ∈ Node.armBodies moreFollows entries, body.declares = false

/-- The code of the phrase reads only what is set.  After the arms of a conditional nothing is set
that was not before, and those that come to their end jump to `finish`. -/
def Spared (F : Image) (slot : UInt16) (s : Surroundings) (a b : Spot) : Phrase → Prop
  | arms _ finish _ entries =>
    Spot.Widens (entries.any fun arm => arm.2.declares) a b ∧
      Unread F slot (OrTo (¬ a.Shows slot) finish (s.Ways (¬ a.Shows slot))) a.index b.index
        (¬ a.Shows slot) (¬ a.Shows slot)
  | phrase => Spares F slot s phrase.declares a b

end Phrase

section

variable {F : Image} {slot : UInt16} {s : Surroundings} {a b c d e f g h i j k l m n : Spot}
  {declares declares' : Bool}

/-! ### Jumps out of phrases -/

namespace Surroundings

variable {unset other : Prop} {goal : Nat}

theorem Ways.mono (h : s.Ways unset goal) (himp : unset → other) : s.Ways other goal :=
  ⟨himp h.1, h.2⟩

/-- Nothing jumps out of the shape of a transform. -/
theorem not_ways_inTransform : ¬ s.inTransform.Ways unset goal := by
  rintro ⟨-, loop, hloop, -⟩
  cases hloop

/-- Inside a loop there is one way to start it over and one to leave it. -/
theorem Ways.inLoop {X : Nat → Prop} {head exit level : Nat}
    (h : (s.inLoop head exit level).Ways unset goal) :
    OrTo unset exit (OrTo unset head X) goal := by
  obtain ⟨hunset, loop, hloop, hgoal⟩ := h
  obtain rfl := Option.some.inj hloop
  rcases hgoal with rfl | rfl
  · exact .inl (.inr ⟨hunset, rfl⟩)
  · exact .inr ⟨hunset, rfl⟩

/-- A handler makes no difference to where the loop around it starts and ends. -/
theorem Ways.guarded {start : Nat} (h : (s.guarded start).Ways unset goal) : s.Ways unset goal := by
  obtain ⟨hunset, loop, hloop, hgoal⟩ := h
  obtain ⟨outer, houter, rfl⟩ := Option.map_eq_some_iff.mp hloop
  exact ⟨hunset, outer, houter, hgoal⟩

end Surroundings

/-! ### Scopes along instructions -/

theorem Image.Writes.views {instruction : Instruction} (h : F.Writes instruction a b) :
    b.views = a.views := by
  rw [h.next]
  rfl

theorem Image.Jumps.views {op : Opcode} {target : Nat} (h : F.Jumps op target a b) :
    b.views = a.views := by
  obtain ⟨word, -, h⟩ := h
  exact h.views

theorem Leaves.views {wanted : Bool} {finish : Nat} {exits : List Nat}
    (h : Leaves F wanted finish exits a b) : b.views = a.views := by
  cases h with
  | jumps falls jump => exact jump.views
  | stays ends => rfl

theorem Escapes.views {finish : Nat} {exits : List Nat} (h : Escapes F finish exits a b) :
    b.views = a.views := by
  cases h with
  | jumps falls leaves jump => exact jump.views.trans leaves.views
  | stays ends => rfl

theorem Unwinds.views {count : Nat} (h : Unwinds F count a b) : b.views = a.views := by
  induction h with
  | done => rfl
  | next leaves _ ih => exact ih.trans leaves.views

/-- The way from the end of an arm is open at most while something is unset. -/
theorem Leaves.unread {X : Nat → Prop} {unset : Prop} {wanted : Bool} {finish : Nat}
    {exits : List Nat} (h : Leaves F wanted finish exits a b) :
    Unread F slot (OrTo unset finish X) a.index b.index unset unset := by
  cases h with
  | jumps falls jump => exact .jump jump (fun hunset _ => hunset) fun hunset => .inr ⟨hunset, rfl⟩
  | stays ends => exact .refl id

theorem Escapes.unread {X : Nat → Prop} {unset : Prop} {finish : Nat} {exits : List Nat}
    (h : Escapes F finish exits a b) :
    Unread F slot (OrTo unset finish X) a.index b.index unset unset := by
  cases h with
  | jumps falls leaves jump =>
      exact (Unread.write leaves rfl (by decide)).append
        (.jump jump (fun hunset _ => hunset) fun hunset => .inr ⟨hunset, rfl⟩)
  | stays ends => exact .refl id

/-- An arm is run if its condition holds.  Both at its end and where the next one starts, the slot
may be unset if it was at the start. -/
theorem Unread.arm {X : Nat → Prop} {unset : Prop} {wanted : Bool} {finish : Nat} {exits : List Nat}
    (condition : Unread F slot X a.index b.index unset unset)
    (skip : F.Jumps .jumpIfFalse e.index b c) (body : Unread F slot X c.index d.index unset unset)
    (leaves : Leaves F wanted finish exits d e) :
    Unread F slot (OrTo unset finish X) a.index e.index unset unset := by
  have hskip : Unread F slot (OrTo unset e.index (OrTo unset finish X)) b.index c.index unset
      unset := .jump skip (fun hunset _ => hunset) fun hunset => .inr ⟨hunset, rfl⟩
  have hend : Unread F slot (OrTo unset e.index (OrTo unset finish X)) d.index e.index unset
      unset := leaves.unread.orTo
  exact (((condition.orTo.orTo.append hskip).append body.orTo.orTo).append hend).land id

namespace Spares

/-! ### One after the other -/

theorem refl : Spares F slot s declares a a :=
  ⟨.of_eq rfl, .refl id⟩

theorem append (h : Spares F slot s declares a b) (h' : Spares F slot s declares' b c) :
    Spares F slot s (declares || declares') a c where
  scopes := h.scopes.trans h'.scopes
  unread := h.unread.append <| h'.unread.mono fun _ hway =>
    hway.mono fun hunset hslot => hunset (h.scopes.shows hslot)

/-- What comes after declares nothing. -/
theorem before (h : Spares F slot s declares a b) (h' : Spares F slot s false b c) :
    Spares F slot s declares a c := by
  have happend := h.append h'
  rwa [Bool.or_false] at happend

theorem write {op : Opcode} {operand : Operand} (h : F.Writes ⟨op, operand⟩ a b)
    (htarget : Instruction.target? ⟨op, operand⟩ = none) (hload : op ≠ .load) :
    Spares F slot s declares a b where
  scopes := .of_eq h.views
  unread := by
    rw [Spot.shows_eq h.views]
    exact .write h htarget hload

/-- What comes after an instruction. -/
theorem after {op : Opcode} {operand : Operand} (h : Spares F slot s declares b c)
    (hwrite : F.Writes ⟨op, operand⟩ a b) (htarget : Instruction.target? ⟨op, operand⟩ = none)
    (hload : op ≠ .load) : Spares F slot s declares a c := by
  have hfirst : Spares F slot s false a b := .write hwrite htarget hload
  exact hfirst.append h

theorem undeclared (h : Spares F slot s declares a b) (hnone : declares = false) :
    Spares F slot s false a b := by
  rwa [hnone] at h

/-- A load from a slot that can be found. -/
theorem load {ref : SlotRef} (h : F.Writes ⟨.load, .slot ref⟩ a b)
    (hfound : (ref.depth.toNat, ref.slot) ∈ Frame.slots 0 a.scopes) :
    Spares F slot s declares a b where
  scopes := .of_eq h.views
  unread := by
    rw [Spot.shows_eq h.views]
    refine .load h fun hunset hself => hunset ?_
    subst hself
    exact hfound

/-- A store to the slot of a name that is declared with it. -/
theorem declare {name : String} {target : UInt16}
    (h : F.Writes (storeOf target) (a.declare name target) b) : Spares F slot s true a b where
  scopes := ⟨[target], nofun, h.views.trans (a.declare_views name target)⟩
  unread := by
    have hstore : Unread F slot (s.Ways (¬ a.Shows slot)) (a.declare name target).index b.index
        (¬ a.Shows slot) (¬ b.Shows slot) := by
      rw [Spot.shows_eq h.views]
      refine .store h fun hunset hother hslot => ?_
      rcases Spot.declare_shows hslot with heq | hshows
      · exact hother heq.symm
      · exact hunset hshows
    exact hstore

/-- A part seen from an earlier place, from which the slot can be found if it can be found at its
start.  At its end no more has to be known. -/
theorem seen (h : Spares F slot s declares b c) (hb : b.Shows slot = a.Shows slot) :
    Unread F slot (s.Ways (¬ a.Shows slot)) b.index c.index (¬ a.Shows slot) (¬ a.Shows slot) := by
  have hunread := h.unread
  rw [hb] at hunread
  refine hunread.weaken fun hunset hslot => hunset (h.scopes.shows ?_)
  rwa [hb]

/-- A part with the same scopes at its end. -/
theorem of_same (hviews : b.views = a.views)
    (h : Unread F slot (s.Ways (¬ a.Shows slot)) a.index b.index (¬ a.Shows slot)
      (¬ a.Shows slot)) : Spares F slot s declares a b where
  scopes := .of_eq hviews
  unread := by rwa [Spot.shows_eq hviews]

/-- A part that ends with leaving a scope. -/
theorem leave {exits : List Nat} (hviews : b.leave.views = a.views)
    (h : Unread F slot (s.Ways (¬ a.Shows slot)) a.index b.index (¬ a.Shows slot)
      (¬ a.Shows slot)) : Spares F slot s declares a (b.leave.landAll exits) := by
  refine .of_same ?_ ?_
  · rw [Spot.landAll_views, hviews]
  · rw [Spot.landAll_index]
    exact h

/-! ### Expressions -/

theorem logical {op : LogicalOperator} (ofLeft : Spares F slot s false a b)
    (dup : F.Writes ⟨.dup, .none⟩ b c) (skip : F.Jumps op.skip f.index c d)
    (pop : F.Writes ⟨.pop, .none⟩ d e) (ofRight : Spares F slot s false e f) :
    Spares F slot s declares a (f.land (c.taken op.skip)) := by
  have hb : b.views = a.views := ofLeft.scopes.views
  have he : e.views = a.views := pop.views.trans (skip.views.trans (dup.views.trans hb))
  have hf : f.views = a.views := ofRight.scopes.views.trans he
  have hskip : Unread F slot (OrTo (¬ a.Shows slot) f.index (s.Ways (¬ a.Shows slot))) c.index
      d.index (¬ a.Shows slot) (¬ a.Shows slot) :=
    .jump skip (fun hunset _ => hunset) fun hunset => .inr ⟨hunset, rfl⟩
  have hleft := ((ofLeft.seen rfl).append (.write dup rfl (by decide))).orTo.append hskip
  have hright : Unread F slot (s.Ways (¬ a.Shows slot)) d.index f.index (¬ a.Shows slot)
      (¬ a.Shows slot) :=
    (Unread.write pop rfl (by decide)).append (ofRight.seen (Spot.shows_eq he))
  exact .of_same hf ((hleft.append hright.orTo).land id)

theorem ternary {exits : List Nat}
    (ofCondition : Spares F slot s false (a.enter (.branch 0 #[])) b)
    (skip : F.Jumps .jumpIfFalse e.index b c) (ofTrue : Spares F slot s false c d)
    (leaves : Leaves F true f.index exits d e)
    (ofFalse : Spares F slot s false (e.land (b.taken .jumpIfFalse)) f) :
    Spares F slot s declares a (f.leave.landAll exits) := by
  have hstart : (a.enter (.branch 0 #[])).Shows slot = a.Shows slot := Spot.enter_shows_eq nofun rfl
  have hc : c.views = (a.enter (.branch 0 #[])).views := skip.views.trans ofCondition.scopes.views
  have he : (e.land (b.taken .jumpIfFalse)).views = (a.enter (.branch 0 #[])).views :=
    leaves.views.trans (ofTrue.scopes.views.trans hc)
  have hf : f.views = (a.enter (.branch 0 #[])).views := ofFalse.scopes.views.trans he
  have htrue := Unread.arm (ofCondition.seen hstart) skip
    (ofTrue.seen ((Spot.shows_eq hc).trans hstart)) leaves
  have hfalse := ofFalse.seen ((Spot.shows_eq he).trans hstart)
  exact .leave (Spot.leave_views_of_enter hf) ((htrue.append hfalse.orTo).land id)

/-- The shape of a transform is not left by `break` or `continue`, and the element is set in it. -/
theorem shape {X : Nat → Prop} {element : UInt16}
    (ofShape : Spares F slot s.inTransform false (b.enter (.transform element)) c)
    (hb : b.views = a.views) :
    Unread F slot X b.index c.index (¬ a.Shows slot ∧ element ≠ slot) (¬ a.Shows slot) := by
  have hscope : (FrameState.transform element).scope ≠ .function := nofun
  have hinside : (b.enter (.transform element)).Shows slot ↔ element = slot ∨ a.Shows slot := by
    rw [Spot.enter_shows hscope, Spot.shows_eq hb]
    exact or_congr_left Option.some_inj
  have hstart : (¬ (b.enter (.transform element)).Shows slot) =
      (¬ a.Shows slot ∧ element ≠ slot) := by
    rw [hinside, not_or, and_comm]
  have hshape := ofShape.seen rfl
  rw [hstart] at hshape
  exact (hshape.mono fun _ hway => absurd hway Surroundings.not_ways_inTransform).weaken And.left

theorem transformSingle {element : UInt16} (ofSource : Spares F slot s false a.takeSlot b)
    (store : F.Writes ⟨.store, .slot ⟨0, element⟩⟩ b c)
    (ofShape : Spares F slot s.inTransform false (c.enter (.transform element)) d) :
    Spares F slot s declares a d.leave := by
  have hb : b.views = a.views := ofSource.scopes.views.trans a.takeSlot_views
  have hc : c.views = a.views := store.views.trans hb
  have hsource := ofSource.seen (Spot.shows_eq a.takeSlot_views)
  have hstore : Unread F slot (s.Ways (¬ a.Shows slot)) b.index c.index (¬ a.Shows slot)
      (¬ a.Shows slot ∧ element ≠ slot) := .store store fun hunset hother => ⟨hunset, hother⟩
  exact .of_same (ofShape.scopes.leave.trans hc)
    ((hsource.append hstore).append (ofShape.shape hc))

theorem transformEach {collected element : UInt16}
    (new : F.Writes ⟨.newList, .none⟩ a.takeSlot.takeSlot b)
    (keep : F.Writes ⟨.store, .slot ⟨0, collected⟩⟩ b c)
    (ofSource : Spares F slot s false c d) (start : F.Writes ⟨.iterStart, .none⟩ d e)
    (next : F.Jumps .iterNext l.index e f) (store : F.Writes ⟨.store, .slot ⟨0, element⟩⟩ f g)
    (load : F.Writes ⟨.load, .slot ⟨0, collected⟩⟩ g h)
    (ofShape : Spares F slot s.inTransform false (h.enter (.transform element)) i)
    (push : F.Writes ⟨.push, .none⟩ i.leave j) (drop : F.Writes ⟨.pop, .none⟩ j k)
    (again : F.Jumps .jump e.index k l)
    (done : F.Writes ⟨.pop, .none⟩ (l.land (e.taken .iterNext)) m)
    (yields : F.Writes ⟨.load, .slot ⟨0, collected⟩⟩ m n) :
    Spares F slot s declares a n := by
  have hc : c.views = a.views := by
    rw [keep.views, new.views, Spot.takeSlot_views, Spot.takeSlot_views]
  have he : e.views = a.views := start.views.trans (ofSource.scopes.views.trans hc)
  have hh : h.views = a.views := load.views.trans (store.views.trans (next.views.trans he))
  have hi : i.leave.views = a.views := ofShape.scopes.leave.trans hh
  have hn : n.views = a.views := by
    rw [yields.views, done.views]
    exact again.views.trans (drop.views.trans (push.views.trans hi))
  -- From the first store on, the slot is unset only if it is not the one that collects.
  let unset : Prop := ¬ a.Shows slot ∧ slot ≠ collected
  let X : Nat → Prop := s.Ways (¬ a.Shows slot)
  let Y : Nat → Prop := OrTo unset e.index (OrTo unset l.index X)
  have hkeep : Unread F slot X a.index c.index (¬ a.Shows slot) unset :=
    (Unread.write new rfl (by decide)).append
      (.store keep fun hunset hother => ⟨hunset, hother.symm⟩)
  have hsource : Unread F slot X c.index e.index unset unset :=
    ((ofSource.seen (Spot.shows_eq hc)).restrict _).append (.write start rfl (by decide))
  have hnext : Unread F slot Y e.index f.index unset unset :=
    .jump next (fun hunset _ => hunset) fun hunset => .inl (.inr ⟨hunset, rfl⟩)
  have hstore : Unread F slot Y f.index h.index unset (unset ∧ element ≠ slot) :=
    (Unread.store store fun hunset hother => ⟨hunset, hother⟩).append
      (.load load fun hunset heq => hunset.1.2 (SlotRef.mk.inj heq).2.symm)
  have hshape : Unread F slot Y h.index i.index (unset ∧ element ≠ slot) unset :=
    ((ofShape.shape hh).restrict _).strengthen fun hunset => ⟨⟨hunset.1.1, hunset.2⟩, hunset.1.2⟩
  have hagain : Unread F slot Y i.index l.index unset unset :=
    ((Unread.write push rfl (by decide)).append (.write drop rfl (by decide))).append
      (.jump again (fun hunset _ => hunset) fun hunset => .inr ⟨hunset, rfl⟩)
  have hloop : Unread F slot X e.index l.index unset unset :=
    ((((hnext.append hstore).append hshape).append hagain).loop id).land id
  have hdone : Unread F slot X l.index n.index unset unset :=
    (Unread.write done rfl (by decide)).append
      (.load yields fun hunset heq => hunset.2 (SlotRef.mk.inj heq).2.symm)
  exact .of_same hn
    ((((hkeep.append hsource).append hloop).append hdone).weaken And.left)

/-! ### Statements -/

theorem block (inside : Spares F slot s declares' (a.enter .block) b) :
    Spares F slot s declares a b.leave := by
  have hstart : (a.enter .block).Shows slot = a.Shows slot := Spot.enter_shows_eq nofun rfl
  exact .of_same inside.scopes.leave (inside.seen hstart)

theorem importAs {op : Opcode} {id : UInt32} {name : String} {target : UInt16}
    (load : F.Writes ⟨op, .const id⟩ (a.declare name target) b) (hop : op ≠ .load)
    (store : F.Writes ⟨.store, .slot ⟨0, target⟩⟩ b c) : Spares F slot s true a c := by
  have hc : c.views = (a.declare name target).views := store.views.trans load.views
  refine ⟨⟨[target], nofun, hc.trans (a.declare_views name target)⟩, ?_⟩
  have hload : Unread F slot (s.Ways (¬ a.Shows slot)) (a.declare name target).index b.index
      (¬ a.Shows slot) (¬ a.Shows slot) := .write load rfl hop
  refine hload.append (.store store fun hunset hother hslot => ?_)
  rw [Spot.shows_eq hc] at hslot
  rcases Spot.declare_shows hslot with heq | hshows
  · exact hother heq.symm
  · exact hunset hshows

/-! ### Statements that branch -/

theorem ifChain {exits : List Nat}
    (ofArms : Spot.Widens declares' (a.enter (.branch 0 #[])) b ∧
      Unread F slot (OrTo (¬ (a.enter (.branch 0 #[])).Shows slot) c.index
        (s.Ways (¬ (a.enter (.branch 0 #[])).Shows slot))) a.index b.index
        (¬ (a.enter (.branch 0 #[])).Shows slot) (¬ (a.enter (.branch 0 #[])).Shows slot))
    (ofRest : b = c ∨ declares' = false ∧ ∃ more, Spares F slot s more b c) :
    Spares F slot s declares a (c.leave.landAll exits) := by
  have hstart : (a.enter (.branch 0 #[])).Shows slot = a.Shows slot := Spot.enter_shows_eq nofun rfl
  obtain ⟨hscopes, harms⟩ := ofArms
  rw [hstart] at harms
  rcases ofRest with rfl | ⟨rfl, more, hrest⟩
  · exact .leave hscopes.leave (harms.land id)
  · have hb : b.Shows slot = a.Shows slot := (Spot.shows_eq hscopes.views).trans hstart
    exact .leave (hscopes.trans hrest.scopes).leave ((harms.append (hrest.seen hb).orTo).land id)

theorem noArms {finish : Nat} : Unread F slot
    (OrTo (¬ a.Shows slot) finish (s.Ways (¬ a.Shows slot))) a.index a.index (¬ a.Shows slot)
    (¬ a.Shows slot) :=
  .refl id

/-- After an arm in whose place others can be run no more can be found than before it. -/
theorem moreArms {wanted : Bool} {finish : Nat} {exit : List Nat} {more : Bool}
    (ofCondition : Spares F slot s false a b) (skip : F.Jumps .jumpIfFalse e.index b c)
    (ofBody : Spares F slot s declares c d) (leaves : Leaves F wanted finish exit d e)
    (ofRest : e.land (b.taken .jumpIfFalse) = f ∨ declares = false ∧
      Spot.Widens more (e.land (b.taken .jumpIfFalse)) f ∧
      Unread F slot (OrTo (¬ e.Shows slot) finish (s.Ways (¬ e.Shows slot))) e.index f.index
        (¬ e.Shows slot) (¬ e.Shows slot)) :
    Spot.Widens (declares || more) a f ∧
      Unread F slot (OrTo (¬ a.Shows slot) finish (s.Ways (¬ a.Shows slot))) a.index f.index
        (¬ a.Shows slot) (¬ a.Shows slot) := by
  have hc : c.views = a.views := skip.views.trans ofCondition.scopes.views
  have hbody : Spot.Widens declares a (e.land (b.taken .jumpIfFalse)) :=
    (ofBody.scopes.atStart hc).atEnd leaves.views
  have harm := Unread.arm (ofCondition.seen rfl) skip (ofBody.seen (Spot.shows_eq hc)) leaves
  rcases ofRest with rfl | ⟨rfl, hscopes, hrest⟩
  · exact ⟨hbody.mono fun hdeclares => by rw [hdeclares]; rfl, harm⟩
  · have he : e.Shows slot = a.Shows slot := Spot.shows_eq hbody.views
    rw [he] at hrest
    exact ⟨hbody.trans hscopes, harm.append hrest⟩

/-! ### Loops -/

theorem whileLoop {level : Nat}
    (ofCondition : Spares F slot (s.inLoop a.index e.index level) false
      (a.enter (.loop ⟨0, 0⟩ 0 #[])) b)
    (exit : F.Jumps .jumpIfFalse e.index b c)
    (ofBody : Spares F slot (s.inLoop a.index e.index level) declares' c d)
    (again : F.Jumps .jump a.index d e) :
    Spares F slot s declares a (e.land (b.taken .jumpIfFalse)).leave := by
  have hstart : (a.enter (.loop ⟨0, 0⟩ 0 #[])).Shows slot = a.Shows slot :=
    Spot.enter_shows_eq nofun rfl
  have hc : c.views = (a.enter (.loop ⟨0, 0⟩ 0 #[])).views :=
    exit.views.trans ofCondition.scopes.views
  have hscopes : Spot.Widens declares' (a.enter (.loop ⟨0, 0⟩ 0 #[])) e :=
    (ofBody.scopes.atStart hc).atEnd again.views
  let X : Nat → Prop :=
    OrTo (¬ a.Shows slot) e.index (OrTo (¬ a.Shows slot) a.index (s.Ways (¬ a.Shows slot)))
  have hcondition : Unread F slot X a.index b.index (¬ a.Shows slot) (¬ a.Shows slot) :=
    (ofCondition.seen hstart).mono fun _ hway => hway.inLoop
  have hexit : Unread F slot X b.index c.index (¬ a.Shows slot) (¬ a.Shows slot) :=
    .jump exit (fun hunset _ => hunset) fun hunset => .inr ⟨hunset, rfl⟩
  have hbody : Unread F slot X c.index d.index (¬ a.Shows slot) (¬ a.Shows slot) :=
    (ofBody.seen ((Spot.shows_eq hc).trans hstart)).mono fun _ hway => hway.inLoop
  have hagain : Unread F slot X d.index e.index (¬ a.Shows slot) (¬ a.Shows slot) :=
    .jump again (fun hunset _ => hunset) fun hunset => .inl (.inr ⟨hunset, rfl⟩)
  exact .of_same hscopes.leave
    (((((hcondition.append hexit).append hbody).append hagain).land id).loop id)

theorem forEach {name : String} {target : UInt16} {level : Nat}
    (ofIterable : Spares F slot s false a b) (start : F.Writes ⟨.iterStart, .none⟩ b c)
    (next : F.Jumps .iterNext g.index (c.enter (.loop ⟨0, 0⟩ 0 #[])) d)
    (store : F.Writes ⟨.store, .slot ⟨0, target⟩⟩ (d.declare name target) e)
    (ofBody : Spares F slot (s.inLoop c.index g.index level) declares' e f)
    (again : F.Jumps .jump c.index f g)
    (drop : F.Writes ⟨.pop, .none⟩ ((g.land (c.taken .iterNext)).leave) h) :
    Spares F slot s declares a h := by
  have hc : c.views = a.views := start.views.trans ofIterable.scopes.views
  have hstart : (c.enter (.loop ⟨0, 0⟩ 0 #[])).Shows slot = c.Shows slot :=
    Spot.enter_shows_eq nofun rfl
  have hd : d.Shows slot = a.Shows slot :=
    (Spot.shows_eq next.views).trans (hstart.trans (Spot.shows_eq hc))
  have hdeclare : Spares F slot s true d e := .declare store
  have hscopes : Spot.Widens true (c.enter (.loop ⟨0, 0⟩ 0 #[])) g :=
    ((hdeclare.scopes.trans ofBody.scopes).atStart next.views).atEnd again.views
  have hh : h.views = a.views := drop.views.trans (hscopes.leave.trans hc)
  let X : Nat → Prop :=
    OrTo (¬ a.Shows slot) g.index (OrTo (¬ a.Shows slot) c.index (s.Ways (¬ a.Shows slot)))
  have hiterable : Unread F slot (s.Ways (¬ a.Shows slot)) a.index c.index (¬ a.Shows slot)
      (¬ a.Shows slot) := (ofIterable.seen rfl).append (.write start rfl (by decide))
  have hnext : Unread F slot X (c.enter (.loop ⟨0, 0⟩ 0 #[])).index d.index (¬ a.Shows slot)
      (¬ a.Shows slot) := .jump next (fun hunset _ => hunset) fun hunset => .inr ⟨hunset, rfl⟩
  -- The binding is set at the start of every round.
  have hround : Unread F slot X d.index f.index (¬ a.Shows slot) (¬ a.Shows slot) := by
    have hbind := hdeclare.unread
    have hbody := ofBody.unread
    have hlater : ¬ e.Shows slot → ¬ a.Shows slot := fun hunset hslot =>
      hunset (hdeclare.scopes.shows (hd.symm ▸ hslot))
    rw [hd] at hbind
    refine ((hbind.mono fun _ hway => .inl (.inl hway)).append (hbody.mono ?_)).weaken ?_
    · exact fun _ hway => (hway.mono hlater).inLoop
    · exact fun hunset => hlater fun hslot => hunset (ofBody.scopes.shows hslot)
  have hagain : Unread F slot X f.index g.index (¬ a.Shows slot) (¬ a.Shows slot) :=
    .jump again (fun hunset _ => hunset) fun hunset => .inl (.inr ⟨hunset, rfl⟩)
  have hloop : Unread F slot (s.Ways (¬ a.Shows slot)) c.index g.index (¬ a.Shows slot)
      (¬ a.Shows slot) := (((hnext.append hround).append hagain).land id).loop id
  have hdrop : Unread F slot (s.Ways (¬ a.Shows slot)) (g.land (c.taken .iterNext)).leave.index
      h.index (¬ a.Shows slot) (¬ a.Shows slot) := .write drop rfl (by decide)
  exact .of_same hh ((hiterable.append hloop).append hdrop)

/-! ### Handlers -/

theorem catches {binding : Option Name} (h : Catches F binding a b) :
    Spares F slot s true a b := by
  cases h with
  | named free store => exact .declare store
  | dropped pop => exact .write pop rfl (by decide)

theorem tryCatch {binding : Option Name} {exits : List Nat} {start : Nat}
    (install : F.Jumps .tryBegin d.index a b)
    (ofBody : Spares F slot (s.guarded start) false (b.enter (.handler ⟨0, 0⟩ false 0)) c)
    (escapes : Escapes F f.index exits c d)
    (catches : Catches F binding (d.land (a.taken .tryBegin)) e)
    (ofHandler : Spares F slot s declares' e f) :
    Spares F slot s declares a (f.leave.landAll exits) := by
  have hstart : (b.enter (.handler ⟨0, 0⟩ false 0)).Shows slot = b.Shows slot :=
    Spot.enter_shows_eq nofun rfl
  have hb : (b.enter (.handler ⟨0, 0⟩ false 0)).Shows slot = a.Shows slot :=
    hstart.trans (Spot.shows_eq install.views)
  have hd : (d.land (a.taken .tryBegin)).views = (b.enter (.handler ⟨0, 0⟩ false 0)).views :=
    escapes.views.trans ofBody.scopes.views
  have hcatches : Spares F slot s true (d.land (a.taken .tryBegin)) e := .catches catches
  have hcaught := hcatches.append ofHandler
  have hscopes : f.leave.views = a.views :=
    (hcaught.scopes.atStart hd).leave.trans install.views
  let X : Nat → Prop := OrTo (¬ a.Shows slot) f.index (s.Ways (¬ a.Shows slot))
  have hinstall : Unread F slot (OrTo (¬ a.Shows slot) d.index X) a.index b.index
      (¬ a.Shows slot) (¬ a.Shows slot) :=
    .jump install (fun hunset _ => hunset) fun hunset => .inr ⟨hunset, rfl⟩
  have hbody : Unread F slot X b.index c.index (¬ a.Shows slot) (¬ a.Shows slot) :=
    (ofBody.seen hb).mono fun _ hway => .inl hway.guarded
  have hguarded : Unread F slot X a.index d.index (¬ a.Shows slot) (¬ a.Shows slot) :=
    ((hinstall.append hbody.orTo).append escapes.unread.orTo).land id
  have hhandler := hcaught.seen ((Spot.shows_eq hd).trans hb)
  exact .leave hscopes ((hguarded.append hhandler.orTo).land id)

/-! ### Statements that do not come to their end -/

/-- What `break` and `continue` have in common. -/
theorem leaveLoop {loop : Loop} {goal : Nat} (inside : s.loop? = some loop)
    (hgoal : goal = loop.head ∨ goal = loop.exit)
    (unwinds : Unwinds F loop.crossed (a.reset loop.level) b) (jump : F.Jumps .jump goal b c) :
    Spares F slot s declares a c := by
  have hb : b.views = a.views := unwinds.views
  have hunwinds : Unread F slot (s.Ways (¬ a.Shows slot)) (a.reset loop.level).index b.index
      (¬ a.Shows slot) (¬ a.Shows slot) := .unwind unwinds
  exact .of_same (jump.views.trans hb) (hunwinds.append
    (.jump jump (fun hunset _ => hunset) fun hunset => ⟨hunset, loop, inside, hgoal⟩))

theorem unwind {count : Nat} (h : Unwinds F count a b) : Spares F slot s declares a b :=
  .of_same h.views (.unwind h)

end Spares

/-! ### Every phrase -/

/-- **What is laid out of a tidy phrase reads only what is set.** -/
theorem Laid.spared {phrase : Phrase} (h : Laid F s phrase a b) (htidy : phrase.Tidy) :
    phrase.Spared F slot s a b := by
  induction h with
  | literal pushes push => cases pushes <;> exact Spares.write push rfl (by decide)
  | localName found load => exact Spares.load load (Frame.slots_of_findLocal found (Nat.zero_le _))
  | globalName found holds load => exact Spares.write load rfl (by decide)
  | param holds load => exact Spares.write load rfl (by decide)
  | current found load => exact Spares.load load (Frame.slots_of_findElement found (Nat.zero_le _))
  | lambda make => exact Spares.write make rfl (by decide)
  | list new fill ihFill =>
      exact Spares.after (ihFill fun item hitem => htidy.child hitem) new rfl (by decide)
  | object new fill ihFill =>
      exact Spares.after (ihFill fun field hfield => htidy.child (List.mem_map_of_mem hfield)) new
        rfl (by decide)
  | member ofOwner holds get ihOwner =>
      exact Spares.before (ihOwner (htidy.child List.mem_cons_self)) (.write get rfl (by decide))
  | index ofOwner ofSubscript get ihOwner ihSubscript =>
      have howner := ihOwner (htidy.child List.mem_cons_self)
      have hsubscript := ihSubscript (htidy.child (List.mem_cons_of_mem _ List.mem_cons_self))
      exact (Spares.append howner hsubscript).append (.write get rfl (by decide))
  | call few ofCallee ofArguments call ihCallee ihArguments =>
      have hcallee := ihCallee (htidy.child List.mem_cons_self)
      have harguments := ihArguments fun argument hargument =>
        htidy.child (List.mem_cons_of_mem _ hargument)
      exact (Spares.append hcallee harguments).append (.write call rfl (by decide))
  | @unary s a b c op operand span ofOperand apply ihOperand =>
      have hop : op.opcode ≠ .load := by cases op <;> decide
      exact Spares.before (ihOperand (htidy.child List.mem_cons_self)) (.write apply rfl hop)
  | @binary s a b c d op left right span ofLeft ofRight apply ihLeft ihRight =>
      have hop : op.opcode ≠ .load := by cases op <;> decide
      have hleft := ihLeft (htidy.child List.mem_cons_self)
      have hright := ihRight (htidy.child (List.mem_cons_of_mem _ List.mem_cons_self))
      exact (Spares.append hleft hright).append (.write apply rfl hop)
  | logical ofLeft dup skip pop ofRight land ihLeft ihRight =>
      subst land
      exact Spares.logical (ihLeft (htidy.child List.mem_cons_self)) dup skip pop
        (ihRight (htidy.child (List.mem_cons_of_mem _ List.mem_cons_self)))
  | ternary ofCondition skip ofTrue leaves ofFalse land ihCondition ihTrue ihFalse =>
      subst land
      exact Spares.ternary (ihCondition (htidy.child (by simp [Node.children]))) skip
        (ihTrue (htidy.child (by simp [Node.children]))) leaves
        (ihFalse (htidy.child (by simp [Node.children])))
  | group ofInner ihInner => exact ihInner (htidy.child List.mem_cons_self)
  | transformEach first second new keep ofSource start next store load ofShape push drop again done
      yields ihSource ihShape =>
      exact Spares.transformEach new keep (ihSource (htidy.child (by simp [Node.children]))) start
        next store load (ihShape (htidy.child (by simp [Node.children]))) push drop again done
        yields
  | transformSingle free ofSource store ofShape leave ihSource ihShape =>
      subst leave
      exact Spares.transformSingle (ihSource (htidy.child (by simp [Node.children]))) store
        (ihShape (htidy.child (by simp [Node.children])))
  | block inside leave ihInside =>
      subst leave
      exact Spares.block (ihInside fun statement hstatement => htidy.child hstatement)
  | varDecl ofInit free store ihInit =>
      exact Spares.append (ihInit (htidy.child List.mem_cons_self)) (.declare store)
  | assign found ofValue store ihValue =>
      exact Spares.before (ihValue (htidy.child List.mem_cons_self)) (.write store rfl (by decide))
  | run ofInner ihInner => exact ihInner (htidy.child List.mem_cons_self)
  | hint named holds set => exact Spares.write set rfl (by decide)
  | @importAs s a b c source path binding span id target holds free load store =>
      have hop : source.opcode ≠ .load := by cases source <;> decide
      exact Spares.importAs load hop store
  | @ifChain s a b c d arms otherwise span exits ofArms ofRest land ihArms ihRest =>
      subst land
      have hparts : ∀ arm ∈ arms, arm.1.Tidy ∧ arm.2.Tidy := fun arm harm =>
        ⟨htidy.child (List.mem_append_left _ (List.mem_flatMap.mpr ⟨arm, harm, by simp⟩)),
          htidy.child (List.mem_append_left _ (List.mem_flatMap.mpr ⟨arm, harm, by simp⟩))⟩
      have hbodies : ∀ body ∈ Node.armBodies otherwise.isSome arms, body.declares = false :=
        fun body hbody => htidy.alternative hbody
      have harms := ihArms ⟨hparts, hbodies⟩
      cases otherwise with
      | none =>
          cases ofRest
          exact Spares.ifChain harms (.inl rfl)
      | some body =>
          have hrest := ihRest fun node hnode => htidy.child (List.mem_append_right _ hnode)
          refine Spares.ifChain harms (.inr ⟨List.any_eq_false.mpr fun arm harm => ?_, _, hrest⟩)
          exact Bool.eq_false_iff.mp (hbodies arm.2 (List.mem_map_of_mem harm))
  | whileLoop ofCondition exit ofBody again land ihCondition ihBody =>
      subst land
      exact Spares.whileLoop (ihCondition (htidy.child (by simp [Node.children]))) exit
        (ihBody (htidy.child (by simp [Node.children]))) again
  | forEach ofIterable start next free store ofBody again drop ihIterable ihBody =>
      exact Spares.forEach (ihIterable (htidy.child (by simp [Node.children]))) start next store
        (ihBody (htidy.child (by simp [Node.children]))) again drop
  | tryCatch install ofBody escapes catches ofHandler land ihBody ihHandler =>
      subst land
      have hbody := Spares.undeclared (ihBody (htidy.child (by simp [Node.children])))
        (htidy.alternative List.mem_cons_self)
      exact Spares.tryCatch install hbody escapes catches
        (ihHandler (htidy.child (by simp [Node.children])))
  | breakLoop inside level unwinds jump => exact Spares.leaveLoop inside (.inr rfl) unwinds jump
  | continueLoop inside level unwinds jump => exact Spares.leaveLoop inside (.inl rfl) unwinds jump
  | returnWith ofResult unwinds leave ihResult =>
      have hresult := ihResult fun data hdata => htidy.child (Option.mem_toList.mpr hdata)
      exact (Spares.before hresult (.unwind unwinds)).before (.write leave rfl (by decide))
  | exitWith ofResult leave ihResult =>
      have hresult := ihResult fun data hdata => htidy.child (Option.mem_toList.mpr hdata)
      exact Spares.before hresult (.write leave rfl (by decide))
  | throwWith ofResult throw ihResult =>
      have hresult := ihResult fun data hdata => htidy.child (by simp_all [Node.children])
      exact Spares.before hresult (.write throw rfl (by decide))
  | resultNull holds push null =>
      exact Spares.before (.write push rfl (by decide)) (.write null rfl (by decide))
  | resultData holds push ofData ihData =>
      exact Spares.after (ihData (htidy _ rfl)) push rfl (by decide)
  | settles kind ofRule ihRule => exact ihRule htidy
  | diverges kind ofRule reset ihRule =>
      subst reset
      have hrule := ihRule htidy
      exact ⟨hrule.scopes, hrule.unread⟩
  | valueOf kind ofNode ihNode =>
      exact Spares.undeclared (ihNode htidy) (Node.declares_of_balance (by rw [kind]; decide))
  | valueNever kind ofNode reset ihNode =>
      subst reset
      have hnode := Spares.undeclared (ihNode htidy)
        (Node.declares_of_balance (by rw [kind]; decide))
      exact ⟨hnode.scopes, hnode.unread⟩
  | dropped kind ofNode drop ihNode =>
      exact Spares.before (ihNode htidy) (.write drop rfl (by decide))
  | plain kind ofNode ihNode => exact ihNode htidy
  | bodyValue kind holds push ofNode leave ihNode =>
      exact Spares.before (.write push rfl (by decide))
        (Spares.before (ihNode htidy) (.write leave rfl (by decide)))
  | bodyFalls kind ofNode falls holds push null leave ihNode =>
      exact ((Spares.before (ihNode htidy) (.write push rfl (by decide))).before
        (.write null rfl (by decide))).before (.write leave rfl (by decide))
  | bodyEnds kind ofNode ends ihNode => exact ihNode htidy
  | bodyNever kind ofNode ihNode => exact ihNode htidy
  | noValues => exact Spares.refl
  | moreValues ofFirst ofRest ihFirst ihRest =>
      exact Spares.append (ihFirst (htidy _ List.mem_cons_self))
        (ihRest fun node hnode => htidy node (List.mem_cons_of_mem _ hnode))
  | noStatements => exact Spares.refl
  | moreStatements ofFirst ofRest ihFirst ihRest =>
      exact Spares.append (ihFirst (htidy _ List.mem_cons_self))
        (ihRest fun node hnode => htidy node (List.mem_cons_of_mem _ hnode))
  | noItems => exact Spares.refl
  | moreItems ofFirst push ofRest ihFirst ihRest =>
      have hfirst := ihFirst (htidy _ List.mem_cons_self)
      have hrest := ihRest fun node hnode => htidy node (List.mem_cons_of_mem _ hnode)
      exact (Spares.before hfirst (.write push rfl (by decide))).append hrest
  | noFields => exact Spares.refl
  | moreFields ofFirst holds put ofRest ihFirst ihRest =>
      have hfirst := ihFirst (htidy _ List.mem_cons_self)
      have hrest := ihRest fun field hfield => htidy field (List.mem_cons_of_mem _ hfield)
      exact (Spares.before hfirst (.write put rfl (by decide))).append hrest
  | noArms => exact ⟨.of_eq rfl, Spares.noArms⟩
  | @moreArms s a b c d e f moreFollows finish exit exits condition body rest ofCondition skip
      ofBody leaves ofRest ihCondition ihBody ihRest =>
      obtain ⟨hparts, hbodies⟩ := htidy
      have hcondition := ihCondition (hparts _ List.mem_cons_self).1
      have hbody := ihBody (hparts _ List.mem_cons_self).2
      by_cases hwanted : (moreFollows || !rest.isEmpty) = true
      · have hrest := ihRest ⟨fun arm harm => hparts arm (List.mem_cons_of_mem _ harm),
          fun body hbody => hbodies body (Node.armBodies_subset hbody)⟩
        exact Spares.moreArms hcondition skip hbody leaves
          (.inr ⟨hbodies body (Node.mem_armBodies hwanted), hrest.1, hrest.2⟩)
      · obtain ⟨-, hrest⟩ := Bool.or_eq_false_iff.mp (Bool.eq_false_iff.mpr hwanted)
        obtain rfl : rest = [] := by simpa using hrest
        cases ofRest
        exact Spares.moreArms hcondition skip hbody leaves (.inl rfl)

end

end QueryCompiler.Layout
