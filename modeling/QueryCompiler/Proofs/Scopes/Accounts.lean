/-
What a recorded history says about a stack of scopes.

A stack that records its history keeps three accounts of one thing.  There are the frames
that are open, there is the list of events, and there are the counts.  `Accounted` says
that they agree: whoever replays the events has the open frames in the end, the openings
are as many as the closings and the open frames together, and the greatest height is the
greatest one on record.  The numbers of the open frames grow towards the inside, so a
number finds at most one of them.
-/
import Mathlib.Data.List.Nodup
import QueryCompiler.Proofs.Order.Nesting

namespace QueryCompiler

/-- The identity of a frame. -/
def Frame.id (frame : Frame) : FrameId := ⟨frame.serial, frame.scope⟩

theorem Frame.map_id_of_lasting {frames frames' : List Frame}
    (h : lasting frames' = lasting frames) : frames'.map Frame.id = frames.map Frame.id := by
  refine map_of_lasting Frame.id ?_ h
  intro frame bindings function loop
  simp [Frame.id, Frame.scope, FrameState.fixed_scope]

/-! ### Replaying a history -/

namespace ScopeEvent

variable {opened last : List FrameId} {events : List ScopeEvent}

/-- The frames that are open after some events, innermost first.  A closing that is not that of the
innermost frame leaves no answer. -/
def replay (opened : List FrameId) : List ScopeEvent → Option (List FrameId)
  | [] => some opened
  | entered serial scope _ :: rest => replay (⟨serial, scope⟩ :: opened) rest
  | left serial scope :: rest =>
    match opened with
    | [] => none
    | top :: outer => if top = ⟨serial, scope⟩ then replay outer rest else none

theorem replay_append (opened : List FrameId) (events rest : List ScopeEvent) :
    replay opened (events ++ rest) = (replay opened events).bind fun last => replay last rest := by
  induction events generalizing opened with
  | nil => rfl
  | cons event events ih =>
      cases event with
      | entered serial scope height => exact ih _
      | left serial scope =>
          cases opened with
          | nil => rfl
          | cons top outer =>
              by_cases htop : top = ⟨serial, scope⟩
              · simp [replay, htop, ih]
              · simp [replay, htop]

/-- A history that can be replayed is well nested if it leaves nothing open. -/
theorem closesAll_of_replay (h : replay opened events = some last) :
    closesAll (opened.map FrameId.serial) events = last.isEmpty := by
  induction events generalizing opened with
  | nil =>
      obtain rfl := Option.some.inj h
      simp [closesAll]
  | cons event events ih =>
      cases event with
      | entered serial scope height => exact ih h
      | left serial scope =>
          cases opened with
          | nil => cases h
          | cons top outer =>
              by_cases htop : top = ⟨serial, scope⟩
              · simp only [replay, htop, if_true] at h
                simp [closesAll, htop, ih h]
              · simp [replay, htop] at h

end ScopeEvent

/-! ### Stacks -/

namespace ScopeStack

variable {stack : ScopeStack} {id : FrameId} {frame : Frame} {outer frames : List Frame}

/-- The stack with a new scope. -/
def entered (stack : ScopeStack) (state : FrameState) : ScopeStack :=
  record
    { stack with
      frames := ⟨stack.nextSerial, [], state⟩ :: stack.frames
      nextSerial := stack.nextSerial + 1
      counts := { stack.counts with
        pushes := stack.counts.pushes + 1
        maxHeight := max stack.counts.maxHeight (stack.height + 1) } }
    (.entered stack.nextSerial state.scope (stack.height + 1))

/-- The stack without its innermost frame. -/
def left (stack : ScopeStack) (frame : Frame) (outer : List Frame) : ScopeStack :=
  record
    { stack with
      frames := outer
      counts := { stack.counts with pops := stack.counts.pops + 1 } }
    (.left frame.serial frame.scope)

theorem pop_done (hframes : stack.frames = frame :: outer) (hserial : frame.serial = id.serial) :
    pop id stack = .done frame (stack.left frame outer) := by
  simp only [pop, hframes, if_pos hserial, left]

theorem pop_failed (h : ∀ frame ∈ stack.frames.head?, frame.serial ≠ id.serial) :
    pop id stack =
      .failed (.closedOutOfOrder id.scope (stack.frames.head?.map Frame.scope)) stack := by
  unfold pop
  cases hframes : stack.frames with
  | nil => rfl
  | cons top outer =>
      rw [hframes] at h
      simp [h top rfl]

/-- A traced stack adds to its history what it records. -/
theorem history_record (h : stack.events.isSome = true) (event : ScopeEvent) :
    (stack.record event).history = stack.history ++ [event] := by
  obtain ⟨events, hevents⟩ := Option.isSome_iff_exists.mp h
  simp [record, history, hevents]

theorem history_entered (h : stack.events.isSome = true) (state : FrameState) :
    (stack.entered state).history =
      stack.history ++ [.entered stack.nextSerial state.scope (stack.height + 1)] :=
  history_record h _

theorem history_left (h : stack.events.isSome = true) (frame : Frame) (outer : List Frame) :
    (stack.left frame outer).history = stack.history ++ [.left frame.serial frame.scope] :=
  history_record h _

/-- The history of the stack tells which frames are open, and what is counted is what it tells. -/
structure Accounted (stack : ScopeStack) : Prop where
  recorded : stack.events.isSome = true
  replayed : ScopeEvent.replay [] stack.history = some (stack.frames.map Frame.id)
  issued : ∀ frame ∈ stack.frames, frame.serial < stack.nextSerial
  ordered : (stack.frames.map Frame.serial).Pairwise (· > ·)
  pushes : stack.counts.pushes = stack.counts.pops + stack.height
  maxHeight : stack.counts.maxHeight =
    ((stack.history.filterMap ScopeEvent.height?).max?).getD 0

namespace Accounted

theorem start : (ScopeStack.start true).Accounted where
  recorded := rfl
  replayed := rfl
  issued := nofun
  ordered := .nil
  pushes := rfl
  maxHeight := rfl

theorem entered (h : stack.Accounted) (state : FrameState) : (stack.entered state).Accounted where
  recorded := by simpa [ScopeStack.entered, record] using h.recorded
  replayed := by
    rw [history_entered h.recorded, ScopeEvent.replay_append, h.replayed]
    rfl
  issued := by
    intro frame hframe
    rcases List.mem_cons.mp hframe with rfl | hold
    · exact Nat.lt_succ_self _
    · exact Nat.lt_succ_of_lt (h.issued frame hold)
  ordered := by
    refine List.pairwise_cons.mpr ⟨?_, h.ordered⟩
    intro serial hserial
    obtain ⟨frame, hframe, rfl⟩ := List.mem_map.mp hserial
    exact h.issued frame hframe
  pushes := by
    have hpushes := h.pushes
    simp only [ScopeStack.entered, record, height, List.length_cons] at hpushes ⊢
    omega
  maxHeight := by
    have hmax : ∀ (heights : List Nat) (height : Nat),
        ((heights ++ [height]).max?).getD 0 = max (heights.max?.getD 0) height := by
      intro heights height
      cases heights with
      | nil => simp
      | cons first rest =>
          rw [List.cons_append, List.max?_cons', List.max?_cons', List.foldl_append]
          rfl
    rw [history_entered h.recorded, List.filterMap_append]
    show max stack.counts.maxHeight (stack.height + 1) = _
    rw [h.maxHeight]
    exact (hmax _ _).symm

theorem left (h : stack.Accounted) (hframes : stack.frames = frame :: outer) :
    (stack.left frame outer).Accounted where
  recorded := by simpa [ScopeStack.left, record] using h.recorded
  replayed := by
    have hopen : ScopeEvent.replay [] stack.history = some (frame.id :: outer.map Frame.id) := by
      rw [h.replayed, hframes, List.map_cons]
    rw [history_left h.recorded, ScopeEvent.replay_append, hopen]
    simp [ScopeEvent.replay, Frame.id, ScopeStack.left, record]
  issued := by
    intro other hother
    exact h.issued other (by rw [hframes]; exact List.mem_cons_of_mem _ hother)
  ordered := by
    have hordered := h.ordered
    rw [hframes, List.map_cons] at hordered
    exact hordered.of_cons
  pushes := by
    have hpushes := h.pushes
    simp only [height, hframes, List.length_cons] at hpushes
    simp only [ScopeStack.left, record, height]
    omega
  maxHeight := by
    have hsilent : [ScopeEvent.left frame.serial frame.scope].filterMap ScopeEvent.height? = [] :=
      rfl
    rw [history_left h.recorded, List.filterMap_append, hsilent, List.append_nil]
    exact h.maxHeight

/-- The history has nothing to say about what frames remember. -/
theorem revised (h : stack.Accounted) (hsame : frames.map Frame.id = stack.frames.map Frame.id) :
    Accounted { stack with frames } where
  recorded := h.recorded
  replayed := h.replayed.trans (by rw [hsame])
  issued := by
    intro frame hframe
    have hid : frame.id ∈ stack.frames.map Frame.id := by
      rw [← hsame]
      exact List.mem_map_of_mem hframe
    obtain ⟨old, hold, heq⟩ := List.mem_map.mp hid
    have hserial : old.serial = frame.serial := congrArg FrameId.serial heq
    rw [← hserial]
    exact h.issued old hold
  ordered := by
    have hserials : frames.map Frame.serial = stack.frames.map Frame.serial := by
      have hmap := congrArg (List.map FrameId.serial) hsame
      simpa [List.map_map, Function.comp_def, Frame.id] using hmap
    show (frames.map Frame.serial).Pairwise (· > ·)
    rw [hserials]
    exact h.ordered
  pushes := by
    have hlength : frames.length = stack.frames.length := by
      simpa using congrArg List.length hsame
    show stack.counts.pushes = stack.counts.pops + frames.length
    rw [hlength]
    exact h.pushes
  maxHeight := h.maxHeight

/-- **A history is well nested, the counts are balanced, and no frame is open: all three say the
same.** -/
theorem wellNested_iff (h : stack.Accounted) :
    (ScopeEvent.wellNested stack.history = true ↔ stack.counts.isBalanced = true) ∧
      (stack.counts.isBalanced = true ↔ stack.frames = []) := by
  have hnested : ScopeEvent.wellNested stack.history = stack.frames.isEmpty := by
    have hreplay := ScopeEvent.closesAll_of_replay h.replayed
    rw [List.isEmpty_map] at hreplay
    exact hreplay
  have hbalanced : stack.counts.isBalanced = true ↔ stack.frames = [] := by
    rw [ScopeCounts.isBalanced, beq_iff_eq, h.pushes, height, ← List.length_eq_zero_iff]
    omega
  refine ⟨?_, hbalanced⟩
  rw [hnested, hbalanced, List.isEmpty_iff]

end Accounted

/-- No two open frames have the same number. -/
theorem Accounted.index_unique (h : stack.Accounted) {j k : Nat} {other : Frame}
    (hj : stack.frames[j]? = some other) (hk : stack.frames[k]? = some frame)
    (hserial : other.serial = frame.serial) : j = k := by
  have hnodup : (stack.frames.map Frame.serial).Nodup := h.ordered.imp Nat.ne_of_gt
  have hlt : j < (stack.frames.map Frame.serial).length := by
    rw [List.length_map]
    exact (List.getElem?_eq_some_iff.mp hj).1
  refine (List.getElem?_inj hlt hnodup).mp ?_
  rw [List.getElem?_map, List.getElem?_map, hj, hk, Option.map_some, Option.map_some, hserial]

theorem Accounted.frame?_eq (h : stack.Accounted) {k : Nat} (hk : stack.frames[k]? = some frame)
    (hserial : frame.serial = id.serial) : stack.frame? id = some frame := by
  have hmem : frame ∈ stack.frames := List.mem_of_getElem? hk
  have hsome : (stack.frame? id).isSome = true :=
    List.find?_isSome.mpr ⟨frame, hmem, beq_iff_eq.mpr hserial⟩
  obtain ⟨found, hfound⟩ := Option.isSome_iff_exists.mp hsome
  have hfind : stack.frames.find? (fun frame => frame.serial == id.serial) = some found := hfound
  have hsame : found.serial = id.serial := by simpa using List.find?_some hfind
  obtain ⟨j, hj⟩ := List.mem_iff_getElem?.mp (List.mem_of_find?_eq_some hfind)
  obtain rfl : j = k := h.index_unique hj hk (hsame.trans hserial.symm)
  rw [hfound, ← hj, hk]

/-- A change of the frame with a number is a change at its place. -/
theorem Accounted.update_eq (h : stack.Accounted) {k : Nat} (hk : stack.frames[k]? = some frame)
    (hserial : frame.serial = id.serial) (change : FrameState → FrameState) :
    update id change stack =
      .done () { stack with frames := stack.frames.modify k fun frame => frame.modify change } := by
  have hframes : (stack.frames.map fun frame =>
      if frame.serial = id.serial then frame.modify change else frame) =
      stack.frames.modify k fun frame => frame.modify change := by
    refine List.ext_getElem? fun j => ?_
    rw [List.getElem?_map, List.getElem?_modify]
    cases hj : stack.frames[j]? with
    | none => simp
    | some other =>
        by_cases hjk : k = j
        · subst hjk
          obtain rfl : frame = other := Option.some.inj (hk.symm.trans hj)
          simp [hserial]
        · have hother : other.serial ≠ id.serial := by
            intro hsame
            exact hjk (h.index_unique hj hk (hsame.trans hserial.symm)).symm
          simp [hjk, hother]
  simp only [update, h.frame?_eq hk hserial, hframes]

end ScopeStack

end QueryCompiler
