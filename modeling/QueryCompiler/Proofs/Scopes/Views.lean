/-
Views of the open frames.

A proof about frames looks at them through a view, which forgets what the proof is not
about: the names, the counts, the jumps that wait.  Whether something can be seen in a
view is a matter of one frame.  Where a search ends is decided by the scopes of the
frames on the way, and a change is made to the one frame that was looked for; so a view
that sees no difference in that frame sees none in all of them, and a view that goes
along with the change of one frame goes along with the change of the frames.

Both are an induction on the frames, and the only ones that the views need.
-/
import QueryCompiler.Scopes.Search

namespace QueryCompiler.Frame

variable {α : Type} {wanted : Scope} {change change' : FrameState → FrameState}

/-! ### Changes that are not seen -/

/-- A change that cannot be seen in a frame of its scope cannot be seen in the frames. -/
theorem map_modifyInnermost_of_eq {view : Frame → α}
    (h : ∀ frame : Frame, frame.scope = wanted → view (frame.modify change) = view frame)
    (frames : List Frame) : (modifyInnermost wanted change frames).map view = frames.map view := by
  induction frames with
  | nil => rfl
  | cons frame outer ih =>
      rw [modifyInnermost]
      by_cases hscope : frame.scope = wanted
      · rw [if_pos hscope, List.map_cons, h frame hscope, List.map_cons]
      · rw [if_neg hscope]
        split
        · rfl
        · rw [List.map_cons, ih, List.map_cons]

/-- The count of `throw`s cannot be seen in the frames if it cannot be seen in one. -/
theorem map_countThrow_of_eq {view : Frame → α}
    (h : ∀ frame : Frame, view (frame.modify FrameState.countThrow) = view frame)
    (frames : List Frame) : (countThrow frames).map view = frames.map view := by
  induction frames with
  | nil => rfl
  | cons frame outer ih =>
      rw [countThrow]
      split
      · rw [List.map_cons, ih, List.map_cons]
      · rw [List.map_cons, h, List.map_cons]

/-- What some of the frames have is the same if what each of them has is. -/
theorem filterMap_of_map {view : Frame → Option α} {frames frames' : List Frame}
    (h : frames'.map view = frames.map view) :
    frames'.filterMap view = frames.filterMap view := by
  simpa only [List.filterMap_map, Function.id_comp] using congrArg (List.filterMap id) h

/-! ### Changes that are seen as changes -/

/-- What is seen of a change is a change of what is seen. -/
theorem map_modifyInnermost {view : Frame → Frame}
    (hscope : ∀ frame, (view frame).scope = frame.scope)
    (h : ∀ frame : Frame, frame.scope = wanted →
      view (frame.modify change) = (view frame).modify change')
    (frames : List Frame) :
    (modifyInnermost wanted change frames).map view =
      modifyInnermost wanted change' (frames.map view) := by
  induction frames with
  | nil => rfl
  | cons frame outer ih =>
      rw [modifyInnermost, List.map_cons, modifyInnermost, hscope]
      by_cases hwanted : frame.scope = wanted
      · rw [if_pos hwanted, if_pos hwanted, List.map_cons, h frame hwanted]
      · rw [if_neg hwanted, if_neg hwanted]
        split
        · rfl
        · rw [List.map_cons, ih]

/-- A view that knows which frames a `throw` passes goes along with the count of it. -/
theorem map_countThrow {view : Frame → Frame}
    (hpasses : ∀ frame, (view frame).passesThrow = frame.passesThrow)
    (h : ∀ frame : Frame, frame.passesThrow = false →
      view (frame.modify FrameState.countThrow) = (view frame).modify FrameState.countThrow)
    (frames : List Frame) : (countThrow frames).map view = countThrow (frames.map view) := by
  induction frames with
  | nil => rfl
  | cons frame outer ih =>
      rw [countThrow, List.map_cons, countThrow, hpasses]
      cases hpassed : frame.passesThrow with
      | true => exact congrArg (List.cons _) ih
      | false => exact congrArg (· :: outer.map view) (h frame hpassed)

/-! ### Searches -/

/-- A search finds in the view what it finds in the frames. -/
theorem innermost?_map {view : Frame → Frame}
    (hscope : ∀ frame, (view frame).scope = frame.scope) (wanted : Scope) (frames : List Frame) :
    innermost? wanted (frames.map view) = (innermost? wanted frames).map view := by
  induction frames with
  | nil => rfl
  | cons frame outer ih =>
      simp only [List.map_cons, innermost?, hscope, ih]
      split
      · rfl
      · split <;> rfl

theorem mem_of_innermost? {frame : Frame} {frames : List Frame}
    (h : innermost? wanted frames = some frame) : frame ∈ frames := by
  induction frames with
  | nil => cases h
  | cons head outer ih =>
      rw [innermost?] at h
      split at h
      · obtain rfl := Option.some.inj h
        exact List.mem_cons_self
      · split at h
        · cases h
        · exact List.mem_cons_of_mem _ (ih h)

theorem scope_of_innermost? {frame : Frame} {frames : List Frame}
    (h : innermost? wanted frames = some frame) : frame.scope = wanted := by
  induction frames with
  | nil => cases h
  | cons head outer ih =>
      rw [innermost?] at h
      split at h
      next hscope =>
        obtain rfl := Option.some.inj h
        exact hscope
      · split at h
        · cases h
        · exact ih h

/-- Frames that look the same in a view that shows their scopes have innermost frames that look the
same. -/
theorem innermost?_of_map {view : Frame → α}
    (hscope : ∀ frame frame' : Frame, view frame' = view frame → frame'.scope = frame.scope)
    (wanted : Scope) {frames frames' : List Frame} (h : frames'.map view = frames.map view) :
    (innermost? wanted frames').map view = (innermost? wanted frames).map view := by
  induction frames generalizing frames' with
  | nil =>
      rw [List.map_nil, List.map_eq_nil_iff] at h
      rw [h]
  | cons frame outer ih =>
      obtain ⟨frame', outer', rfl, hframe, houter⟩ := List.map_eq_cons_iff.mp h
      simp only [innermost?, hscope frame frame' hframe]
      split
      · exact congrArg some hframe
      · split
        · rfl
        · exact ih houter

/-- The innermost frame of a scope is the one that is changed, as long as it stays in its scope. -/
theorem innermost?_modifyInnermost
    (hscope : ∀ frame : Frame, frame.scope = wanted → (frame.modify change).scope = wanted)
    (frames : List Frame) :
    innermost? wanted (modifyInnermost wanted change frames) =
      (innermost? wanted frames).map fun frame => frame.modify change := by
  induction frames with
  | nil => rfl
  | cons frame outer ih =>
      rw [modifyInnermost, innermost?]
      by_cases hwanted : frame.scope = wanted
      · rw [if_pos hwanted, if_pos hwanted, innermost?, if_pos (hscope frame hwanted)]
        rfl
      · rw [if_neg hwanted, if_neg hwanted]
        split
        next hhidden => rw [innermost?, if_neg hwanted, if_pos hhidden]; rfl
        next hhidden => rw [innermost?, if_neg hwanted, if_neg hhidden, ih]

end QueryCompiler.Frame
