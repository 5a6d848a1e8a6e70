/-
Which slots can be found from where.

A name can be found from where it is declared up to the end of the scope in which it is
declared.  So from one place in the code to a later one of the same scopes more can be
found in the innermost scope, and nowhere else: the later place is `Widens` of the
earlier one.  Only a statement that declares a name, and does so in the scope in which
it stands, makes a difference at all.

Most parts of a node that are not always run have a scope of their own.  The body of a
handler and the arms of a conditional have not: they share one with what is run in
their place.  A tree is `Tidy` if no such part declares a name.
-/
import QueryCompiler.Proofs.Progress.Blame
import QueryCompiler.Proofs.Tables.Slots

namespace QueryCompiler

/-! ### Declarations -/

namespace Node

/-- The statement declares a name in the scope in which it stands. -/
def declares : Node → Bool
  | varDecl .. | importAs .. => true
  | run inner _ => inner.declares
  | _ => false

/-- What yields a value, or never comes to its end, declares nothing. -/
theorem declares_of_balance {node : Node} (h : node.construct.balance ≠ .effect) :
    node.declares = false := by
  cases node with
  | varDecl | importAs | run => exact absurd rfl h
  | _ => rfl

/-- The bodies of arms in whose place others can be run. -/
def armBodies (moreFollows : Bool) (arms : List (Node × Node)) : List Node :=
  (if moreFollows then arms else arms.dropLast).map Prod.snd

/-- The parts of a node that share their scope with what can be run in their place. -/
def alternatives : Node → List Node
  | tryCatch body _ _ _ => [body]
  | ifChain arms otherwise _ => armBodies otherwise.isSome arms
  | _ => []

/-- Wherever in the tree a part shares its scope with what can be run in its place, the part
declares no name. -/
def Tidy (root : Node) : Prop :=
  ∀ node, root.Occurs node → ∀ part ∈ node.alternatives, part.declares = false

theorem Tidy.occurs {root node : Node} (h : root.Tidy) (hnode : root.Occurs node) : node.Tidy :=
  fun part hpart => h part (hnode.trans hpart)

theorem Tidy.child {node part : Node} (h : node.Tidy) (hpart : part ∈ node.children) : part.Tidy :=
  h.occurs (Occurs.root.part hpart)

theorem Tidy.alternative {node part : Node} (h : node.Tidy) (hpart : part ∈ node.alternatives) :
    part.declares = false :=
  h node .root part hpart

theorem mem_armBodies {moreFollows : Bool} {condition body : Node} {rest : List (Node × Node)}
    (h : (moreFollows || !rest.isEmpty) = true) :
    body ∈ armBodies moreFollows ((condition, body) :: rest) := by
  cases moreFollows with
  | true => exact List.mem_cons_self
  | false =>
      cases rest with
      | nil => cases h
      | cons next rest => exact List.mem_cons_self

theorem armBodies_subset {moreFollows : Bool} {arm : Node × Node} {rest : List (Node × Node)} :
    armBodies moreFollows rest ⊆ armBodies moreFollows (arm :: rest) := by
  cases moreFollows with
  | true => exact List.subset_cons_self ..
  | false =>
      cases rest with
      | nil => exact List.nil_subset _
      | cons next rest => exact List.subset_cons_self ..

end Node

/-! ### Views of frames -/

namespace Frame

/-- The slots for names and elements of a frame, and how many functions are left on leaving it. -/
def view (frame : Frame) : List UInt16 × Nat :=
  (frame.bindings.map Prod.snd ++ frame.state.element?.toList, frame.leaves)

/-- The views of frames, with more slots in the innermost one. -/
def widen (more : List UInt16) : List (List UInt16 × Nat) → List (List UInt16 × Nat)
  | [] => []
  | (own, leaves) :: outer => (more ++ own, leaves) :: outer

@[simp] theorem widen_nil (views : List (List UInt16 × Nat)) : widen [] views = views := by
  cases views <;> rfl

theorem widen_widen (more others : List UInt16) (views : List (List UInt16 × Nat)) :
    widen more (widen others views) = widen (more ++ others) views := by
  cases views with
  | nil => rfl
  | cons view outer => simp [widen]

@[simp] theorem tail_widen (more : List UInt16) (views : List (List UInt16 × Nat)) :
    (widen more views).tail = views.tail := by
  cases views <;> rfl

/-- What can be found depends on the views alone. -/
theorem slots_of_view {frames frames' : List Frame} (h : frames'.map view = frames.map view)
    (distance : Nat) : slots distance frames' = slots distance frames := by
  induction frames generalizing frames' distance with
  | nil => rw [List.map_eq_nil_iff.mp h]
  | cons frame outer ih =>
      obtain ⟨frame', outer', rfl, hframe, houter⟩ := List.map_eq_cons_iff.mp h
      obtain ⟨hown, hleaves⟩ := Prod.mk.inj hframe
      rw [slots, slots, hown, hleaves, ih houter]

/-- What can be found can still be found with more slots in the innermost frame. -/
theorem slots_subset_of_widen {frames frames' : List Frame} {more : List UInt16}
    (h : frames'.map view = widen more (frames.map view)) (distance : Nat) :
    slots distance frames ⊆ slots distance frames' := by
  cases frames with
  | nil => exact List.nil_subset _
  | cons frame outer =>
      obtain ⟨frame', outer', rfl, hframe, houter⟩ := List.map_eq_cons_iff.mp h
      obtain ⟨hown, hleaves⟩ := Prod.mk.inj hframe
      rw [slots, slots, hown, hleaves, slots_of_view houter]
      refine List.append_subset.mpr ⟨fun entry hentry => ?_, List.subset_append_right _ _⟩
      refine List.mem_append_left _ ?_
      rw [List.map_append]
      exact List.mem_append_right _ hentry

theorem view_takeSlot (frames : List Frame) :
    (modifyInnermost .function FrameState.takeSlot frames).map view = frames.map view :=
  map_modifyInnermost_of_eq (fun ⟨_, _, state⟩ _ => by cases state <;> rfl) frames

theorem view_bindName (name : String) (slot : UInt16) (frames : List Frame) :
    (bindName name slot frames).map view = widen [slot] (frames.map view) := by
  cases frames <;> rfl

end Frame

namespace Layout

/-! ### Places -/

namespace Spot

variable {a b c : Spot} {slot : UInt16} {declares declares' : Bool}

/-- What can be found from the place. -/
def views (a : Spot) : List (List UInt16 × Nat) :=
  a.scopes.map Frame.view

/-- The slot of the current function can be found from the place. -/
def Shows (a : Spot) (slot : UInt16) : Prop :=
  (0, slot) ∈ Frame.slots 0 a.scopes

theorem shows_eq (h : b.views = a.views) : b.Shows slot = a.Shows slot := by
  rw [Shows, Shows, Frame.slots_of_view h]

theorem landAll_views (a : Spot) (depths : List Nat) : (a.landAll depths).views = a.views := by
  rw [views, landAll_scopes]
  rfl

/-- Inside a new scope there is its element besides what is outside. -/
theorem enter_shows {state : FrameState} (hscope : state.scope ≠ .function) :
    (a.enter state).Shows slot ↔ state.element? = some slot ∨ a.Shows slot := by
  cases state with
  | function => exact absurd rfl hscope
  | loop | handler | branch | block =>
      simp [Shows, enter, Frame.slots, Frame.leaves, Frame.scope, FrameState.bare,
        FrameState.scope, FrameState.element?]
  | transform element =>
      simp [Shows, enter, Frame.slots, Frame.leaves, Frame.scope, FrameState.bare,
        FrameState.scope, FrameState.element?, eq_comm]

theorem enter_shows_eq {state : FrameState} (hscope : state.scope ≠ .function)
    (helement : state.element? = none) : (a.enter state).Shows slot = a.Shows slot := by
  refine propext ((enter_shows hscope).trans ?_)
  simp [helement]

theorem takeSlot_views (a : Spot) : a.takeSlot.views = a.views :=
  Frame.view_takeSlot a.scopes

theorem declare_views (a : Spot) (name : String) (slot : UInt16) :
    (a.declare name slot).views = Frame.widen [slot] a.views := by
  rw [views, declare, Frame.view_bindName, Frame.view_takeSlot]
  rfl

theorem declare_shows {name : String} {target : UInt16} (h : (a.declare name target).Shows slot) :
    slot = target ∨ a.Shows slot := by
  have hviews := declare_views a name target
  cases hscopes : a.scopes with
  | nil =>
      have hempty : a.views = [] := by rw [views, hscopes]; rfl
      rw [hempty] at hviews
      rw [Shows, List.map_eq_nil_iff.mp hviews] at h
      cases h
  | cons frame outer =>
      rw [Shows] at h ⊢
      have hview : (a.declare name target).scopes.map Frame.view =
          (frame.declare name target :: outer).map Frame.view := by
        rw [show (a.declare name target).scopes.map Frame.view = _ from hviews, views, hscopes]
        rfl
      rw [Frame.slots_of_view hview, hscopes] at *
      rcases List.mem_cons.mp h with heq | hmem
      · exact .inl (Prod.mk.inj heq).2
      · exact .inr hmem

theorem leave_views (a : Spot) : a.leave.views = a.views.tail :=
  List.map_tail

theorem leave_views_of_enter {state : FrameState} (h : b.views = (a.enter state).views) :
    b.leave.views = a.views := by
  rw [leave_views, h]
  rfl

/-- The scopes at the second place are those at the first, and only if something `declares` a name
can more be found, in the innermost one. -/
def Widens (declares : Bool) (a b : Spot) : Prop :=
  ∃ more, (declares = false → more = []) ∧ b.views = Frame.widen more a.views

namespace Widens

theorem of_eq (h : b.views = a.views) : Widens declares a b :=
  ⟨[], fun _ => rfl, h.trans (Frame.widen_nil _).symm⟩

theorem trans (h : Widens declares a b) (h' : Widens declares' b c) :
    Widens (declares || declares') a c := by
  obtain ⟨more, hmore, hb⟩ := h
  obtain ⟨others, hothers, hc⟩ := h'
  refine ⟨others ++ more, ?_, by rw [hc, hb, Frame.widen_widen]⟩
  intro hnone
  obtain ⟨hfirst, hsecond⟩ := Bool.or_eq_false_iff.mp hnone
  rw [hmore hfirst, hothers hsecond]
  rfl

/-- Seen from a place with the same scopes. -/
theorem atStart (h : Widens declares b c) (hb : b.views = a.views) : Widens declares a c := by
  rw [Widens, ← hb]
  exact h

/-- Up to a place with the same scopes. -/
theorem atEnd (h : Widens declares a b) (hc : c.views = b.views) : Widens declares a c := by
  rw [Widens, hc]
  exact h

theorem views (h : Widens false a b) : b.views = a.views := by
  obtain ⟨more, hmore, hb⟩ := h
  rw [hb, hmore rfl, Frame.widen_nil]

theorem shows (h : Widens declares a b) (hslot : a.Shows slot) : b.Shows slot := by
  obtain ⟨more, -, hb⟩ := h
  exact Frame.slots_subset_of_widen hb 0 hslot

/-- What was declared in a scope can not be found after it. -/
theorem leave {state : FrameState} (h : Widens declares (a.enter state) b) :
    b.leave.views = a.views := by
  obtain ⟨more, -, hb⟩ := h
  rw [leave_views, hb, Frame.tail_widen]
  rfl

theorem mono (h : Widens declares a b) (himp : declares = true → declares' = true) :
    Widens declares' a b := by
  obtain ⟨more, hmore, hb⟩ := h
  refine ⟨more, fun hnone => hmore ?_, hb⟩
  cases declares with
  | true => rw [himp rfl] at hnone; cases hnone
  | false => rfl

end Widens

end Spot

end Layout

end QueryCompiler
