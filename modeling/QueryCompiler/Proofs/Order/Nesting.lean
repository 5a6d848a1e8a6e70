/-
How scopes nest, and what lasts on the stack of scopes.

A `Nesting` says which scopes were opened and closed again, each with what was opened
inside it.  Numbered in the order of opening it becomes the events that a stack of
scopes records, and everything that is counted along the way can be read off it.

While scopes come and go, the frames that were open before stay where they are, and
little about them changes: names are added to the innermost one, slots are taken in
the innermost function, the innermost loop collects jumps, and handlers count what
they guard.  `Frame.lasting` is what is left when all that is put aside.  `Passed`
joins the two: from one stack to another some scopes have come and gone, and what
lasts is the same.
-/
import Mathlib.Data.List.Range
import QueryCompiler.Proofs.Actions
import QueryCompiler.Proofs.Scopes.Balanced

namespace QueryCompiler

namespace ScopeEvent

/-- The serial number of a frame that is opened. -/
def opened? : ScopeEvent → Option Nat
  | entered serial _ _ => some serial
  | left .. => none

/-- How many scopes are open after an opening. -/
def height? : ScopeEvent → Option Nat
  | entered _ _ height => some height
  | left .. => none

end ScopeEvent

/-! ### Nestings -/

/-- Scopes that were opened and closed one after another, each with those inside it. -/
inductive Nesting where
  | flat
  | scope (scope : Scope) (inside rest : Nesting)

namespace Nesting

/-- One nesting after another. -/
def append : Nesting → Nesting → Nesting
  | flat, after => after
  | scope kind inside rest, after => scope kind inside (rest.append after)

instance : Append Nesting := ⟨append⟩

@[simp] theorem flat_append (n : Nesting) : flat ++ n = n := rfl

@[simp] theorem scope_append (kind : Scope) (inside rest n : Nesting) :
    scope kind inside rest ++ n = scope kind inside (rest ++ n) := rfl

@[simp] theorem append_flat (n : Nesting) : n ++ flat = n := by
  induction n with
  | flat => rfl
  | scope kind inside rest _ ih => rw [scope_append, ih]

theorem append_assoc (n m k : Nesting) : n ++ m ++ k = n ++ (m ++ k) := by
  induction n with
  | flat => rfl
  | scope kind inside rest _ ih => simp only [scope_append, ih]

/-- How many scopes there are altogether. -/
def count : Nesting → Nat
  | flat => 0
  | scope _ inside rest => 1 + inside.count + rest.count

@[simp] theorem count_append (n m : Nesting) : (n ++ m).count = n.count + m.count := by
  induction n with
  | flat => simp [count]
  | scope kind inside rest _ ih => simp [count, ih, Nat.add_assoc]

/-- The events of a nesting whose first frame has the number `first`, on a stack of the given
height. -/
def events : Nesting → (first height : Nat) → List ScopeEvent
  | flat, _, _ => []
  | scope kind inside rest, first, height =>
    .entered first kind (height + 1) :: (inside.events (first + 1) (height + 1) ++
      .left first kind :: rest.events (first + 1 + inside.count) height)

theorem events_append (n m : Nesting) (first height : Nat) :
    (n ++ m).events first height =
      n.events first height ++ m.events (first + n.count) height := by
  induction n generalizing first with
  | flat => rfl
  | scope kind inside rest _ ih =>
      have hfirst : first + 1 + inside.count + rest.count =
          first + (1 + inside.count + rest.count) := by omega
      simp only [scope_append, events, ih, count, hfirst, List.cons_append, List.append_assoc]

/-- The frames are numbered in the order of opening. -/
theorem opened_events (n : Nesting) (first height : Nat) :
    (n.events first height).filterMap ScopeEvent.opened? = List.range' first n.count := by
  induction n generalizing first height with
  | flat => rfl
  | scope kind inside rest ihinside ihrest =>
      have hcount : 1 + inside.count + rest.count = inside.count + rest.count + 1 := by omega
      simp only [events, count, List.filterMap_cons, List.filterMap_append, ScopeEvent.opened?,
        ihinside, ihrest]
      rw [hcount, List.range'_succ, List.range'_append_1]

theorem balanced_events (n : Nesting) (first height : Nat) :
    ScopeEvent.Balanced (n.events first height) := by
  induction n generalizing first height with
  | flat => exact .empty
  | scope kind inside rest ihinside ihrest => exact .pair (ihinside _ _) (ihrest _ _)

/-- **Every scope of a nesting is closed before the one it is in.** -/
theorem wellNested_events (n : Nesting) (first height : Nat) :
    ScopeEvent.wellNested (n.events first height) = true :=
  (n.balanced_events first height).wellNested

end Nesting

/-! ### What lasts of the frames -/

/-- What a frame remembers, less the throws it counts, and less its slots or its jumps if these may
still change. -/
def FrameState.fixed (function loop : Bool) : FrameState → FrameState
  | .function id nextSlot => .function id (if function then 0 else nextSlot)
  | .loop target depth breaks => .loop target depth (if loop then #[] else breaks)
  | .handler start guarded _ => .handler start guarded 0
  | state => state

/-- A frame that remembers nothing, of the same scope. -/
def FrameState.blank : FrameState → FrameState
  | function .. => function 0 0
  | loop .. => loop ⟨0, 0⟩ 0 #[]
  | handler .. => handler ⟨0, 0⟩ false 0
  | branch .. => branch 0 #[]
  | block => block
  | transform _ => transform 0

theorem FrameState.fixed_scope (function loop : Bool) (state : FrameState) :
    (state.fixed function loop).scope = state.scope := by
  cases state <;> rfl

theorem FrameState.blank_scope (state : FrameState) : state.blank.scope = state.scope := by
  cases state <;> rfl

theorem FrameState.blank_of_scope {state other : FrameState} (h : state.scope = other.scope) :
    state.blank = other.blank := by
  cases state <;> cases other <;> first | rfl | cases h

namespace Frame

/-- Whether slots may still be taken outside of a frame: it is not a function. -/
def passesSlots (frame : Frame) : Bool := frame.scope != .function

/-- Whether a `break` inside of a frame leads to a loop outside of it. -/
def passesBreak (frame : Frame) : Bool :=
  !(frame.scope == .loop || hides frame.scope .loop)

/-- The frames, less what may still change: the names of the innermost one, the slots of the
innermost function, the jumps of the innermost loop, as the arguments say, and the throws that
handlers count. -/
def fixed : (innermost function loop : Bool) → List Frame → List Frame
  | _, _, _, [] => []
  | innermost, function, loop, frame :: outer =>
    ⟨frame.serial, if innermost then [] else frame.bindings, frame.state.fixed function loop⟩ ::
      fixed false (function && frame.passesSlots) (loop && frame.passesBreak) outer

/-- **What lasts of the frames** while nodes are lowered: their order, serial numbers and scopes,
and all that they remember, except for the names of the innermost one, the next slot of the
innermost function, the jumps that wait to leave the innermost loop, and the throws counted. -/
def lasting (frames : List Frame) : List Frame :=
  fixed true true true frames

variable {innermost function loop : Bool} {frames frames' : List Frame}

/-- What does not change if less may change, does not change if more may. -/
theorem fixed_fixed {innermost' function' loop' : Bool} (hinnermost : innermost → innermost')
    (hfunction : function → function') (hloop : loop → loop') :
    fixed innermost' function' loop' (fixed innermost function loop frames) =
      fixed innermost' function' loop' frames := by
  induction frames generalizing innermost function loop innermost' function' loop' with
  | nil => rfl
  | cons frame outer ih =>
      have hscope : (Frame.mk frame.serial (if innermost then [] else frame.bindings)
          (frame.state.fixed function loop)).scope = frame.scope := frame.state.fixed_scope ..
      have hbindings : (if innermost' then [] else if innermost then [] else frame.bindings) =
          if innermost' then [] else frame.bindings := by
        cases innermost with
        | true => rw [hinnermost rfl]; rfl
        | false => rfl
      have hstate : (frame.state.fixed function loop).fixed function' loop' =
          frame.state.fixed function' loop' := by
        cases hframe : frame.state with
        | function id nextSlot =>
            cases function with
            | true => rw [hfunction rfl]; rfl
            | false => rfl
        | loop target depth breaks =>
            cases loop with
            | true => rw [hloop rfl]; rfl
            | false => rfl
        | handler | branch | block | transform => rfl
      simp only [fixed, passesSlots, passesBreak, hscope, hbindings, hstate, List.cons.injEq,
        true_and]
      refine ih id ?_ ?_
      · simp only [Bool.and_eq_true]
        exact fun h => ⟨hfunction h.1, h.2⟩
      · simp only [Bool.and_eq_true]
        exact fun h => ⟨hloop h.1, h.2⟩

/-- The least that may change is enough to see that what lasts is the same. -/
theorem lasting_of_fixed
    (h : fixed innermost function loop frames' = fixed innermost function loop frames) :
    lasting frames' = lasting frames := by
  have hfixed : ∀ frames, lasting (fixed innermost function loop frames) = lasting frames :=
    fun frames => fixed_fixed (fun _ => rfl) (fun _ => rfl) (fun _ => rfl)
  rw [← hfixed frames', h, hfixed]

theorem map_fixed {α : Type} (view : Frame → α)
    (hview : ∀ (frame : Frame) (bindings : List (String × UInt16)) (function loop : Bool),
      view ⟨frame.serial, bindings, frame.state.fixed function loop⟩ = view frame) :
    (fixed innermost function loop frames).map view = frames.map view := by
  induction frames generalizing innermost function loop with
  | nil => rfl
  | cons frame outer ih =>
      simp only [fixed, List.map_cons, ih]
      rw [hview]

theorem map_of_lasting {α : Type} (view : Frame → α)
    (hview : ∀ (frame : Frame) (bindings : List (String × UInt16)) (function loop : Bool),
      view ⟨frame.serial, bindings, frame.state.fixed function loop⟩ = view frame)
    (h : lasting frames' = lasting frames) : frames'.map view = frames.map view := by
  rw [← map_fixed view hview, show fixed true true true frames' = _ from h]
  exact map_fixed view hview

theorem map_serial_of_lasting (h : lasting frames' = lasting frames) :
    frames'.map Frame.serial = frames.map Frame.serial :=
  map_of_lasting Frame.serial (fun _ _ _ _ => rfl) h

theorem map_scope_of_lasting (h : lasting frames' = lasting frames) :
    frames'.map Frame.scope = frames.map Frame.scope :=
  map_of_lasting Frame.scope (fun frame _ _ _ => frame.state.fixed_scope ..) h

/-! ### Changes that do not last -/

theorem fixed_takeSlot :
    fixed innermost true loop (modifyInnermost .function FrameState.takeSlot frames) =
      fixed innermost true loop frames := by
  induction frames generalizing innermost loop with
  | nil => rfl
  | cons frame outer ih =>
      obtain ⟨serial, bindings, state⟩ := frame
      cases state with
      | function => rfl
      | loop | handler | branch | block | transform => exact congrArg (List.cons _) ih

theorem fixed_bindName (name : String) (slot : UInt16) :
    fixed true function loop (bindName name slot frames) = fixed true function loop frames := by
  cases frames <;> rfl

theorem fixed_addBreak (label : PendingJump) :
    fixed innermost function true (modifyInnermost .loop (FrameState.addBreak label) frames) =
      fixed innermost function true frames := by
  induction frames generalizing innermost function with
  | nil => rfl
  | cons frame outer ih =>
      obtain ⟨serial, bindings, state⟩ := frame
      cases state with
      | function | loop | transform => rfl
      | handler | branch | block => exact congrArg (List.cons _) ih

theorem fixed_countThrow :
    fixed innermost function loop (countThrow frames) =
      fixed innermost function loop frames := by
  induction frames generalizing innermost function loop with
  | nil => rfl
  | cons frame outer ih =>
      rw [countThrow]
      split
      · exact congrArg (List.cons _) ih
      · obtain ⟨serial, bindings, state⟩ := frame
        cases state <;> rfl

/-! ### Frames of one's own

Whoever has opened a frame may change it at will until it is closed; only its scope
stays.
-/

/-- What lasts of the frames for whoever has opened the innermost one, if `own` is set. -/
def lastingFor (own : Option FrameId) (frames : List Frame) : List Frame :=
  match own, frames with
  | none, frames => lasting frames
  | some _, [] => []
  | some _, frame :: outer =>
    ⟨frame.serial, [], frame.state.blank⟩ :: fixed false frame.passesSlots frame.passesBreak outer

theorem lastingFor_of_lasting {own : Option FrameId} (h : lasting frames' = lasting frames) :
    lastingFor own frames' = lastingFor own frames := by
  cases own with
  | none => exact h
  | some id =>
      cases frames with
      | nil =>
          cases frames' with
          | nil => rfl
          | cons frame' outer' => cases h
      | cons frame outer =>
          cases frames' with
          | nil => cases h
          | cons frame' outer' =>
              simp only [lasting, fixed, List.cons.injEq, Frame.mk.injEq, Bool.true_and] at h
              obtain ⟨⟨hserial, -, hstate⟩, houter⟩ := h
              have hscope : frame'.state.scope = frame.state.scope := by
                rw [← frame'.state.fixed_scope true true, hstate, frame.state.fixed_scope]
              simp only [lastingFor, hserial, FrameState.blank_of_scope hscope, houter]

/-- The frames outside of the innermost one last. -/
theorem lasting_tail {id : FrameId} (h : lastingFor (some id) frames' = lastingFor (some id) frames) :
    lasting frames'.tail = lasting frames.tail := by
  cases frames with
  | nil =>
      cases frames' with
      | nil => rfl
      | cons frame' outer' => cases h
  | cons frame outer =>
      cases frames' with
      | nil => cases h
      | cons frame' outer' =>
          simp only [lastingFor, List.cons.injEq, Frame.mk.injEq] at h
          obtain ⟨⟨-, -, hstate⟩, houter⟩ := h
          have hscope : frame'.scope = frame.scope := by
            rw [scope, ← frame'.state.blank_scope, hstate, frame.state.blank_scope]
            rfl
          rw [passesSlots, passesBreak, hscope] at houter
          exact lasting_of_fixed houter

theorem map_serial_of_lastingFor {own : Option FrameId}
    (h : lastingFor own frames' = lastingFor own frames) :
    frames'.map Frame.serial = frames.map Frame.serial := by
  cases own with
  | none => exact map_serial_of_lasting h
  | some id =>
      have htail := map_serial_of_lasting (lasting_tail h)
      cases frames with
      | nil =>
          cases frames' with
          | nil => rfl
          | cons frame' outer' => cases h
      | cons frame outer =>
          cases frames' with
          | nil => cases h
          | cons frame' outer' =>
              simp only [lastingFor, List.cons.injEq, Frame.mk.injEq] at h
              rw [List.map_cons, List.map_cons, h.1.1]
              exact congrArg (List.cons _) htail

end Frame

/-! ### Stacks -/

namespace ScopeStack

/-- Every frame has a number that was given out, and the innermost frame, and no other, has the
number of `own`, if that is set. -/
structure Fit (own : Option FrameId) (stack : ScopeStack) : Prop where
  issued : ∀ frame ∈ stack.frames, frame.serial < stack.nextSerial
  owned : ∀ id, own = some id → ∃ serials, stack.frames.map Frame.serial = id.serial :: serials ∧
    id.serial ∉ serials

/-- From one stack to another scopes came and went as the nesting says, and what lasts of the
frames is the same. -/
structure Passed (own : Option FrameId) (n : Nesting) (before after : ScopeStack) : Prop where
  nextSerial : after.nextSerial = before.nextSerial + n.count
  pushes : after.counts.pushes = before.counts.pushes + n.count
  pops : after.counts.pops = before.counts.pops + n.count
  maxHeight : after.counts.maxHeight =
    ((n.events before.nextSerial before.height).filterMap ScopeEvent.height?).foldl max
      before.counts.maxHeight
  events : after.events =
    before.events.map fun events => events ++ (n.events before.nextSerial before.height).toArray
  frames : Frame.lastingFor own after.frames = Frame.lastingFor own before.frames

variable {own : Option FrameId} {n m : Nesting} {stack before middle after : ScopeStack}

theorem Fit.none (h : Fit own stack) : Fit none stack := ⟨h.issued, nofun⟩

theorem Passed.refl (own : Option FrameId) (stack : ScopeStack) : Passed own .flat stack stack where
  nextSerial := rfl
  pushes := rfl
  pops := rfl
  maxHeight := rfl
  events := by simp [Nesting.events]
  frames := rfl

/-- Only the frames have changed, and not in what lasts. -/
theorem Passed.reframe {own : Option FrameId} {stack : ScopeStack} {frames : List Frame}
    (h : Frame.lastingFor own frames = Frame.lastingFor own stack.frames) :
    Passed own .flat stack { stack with frames } :=
  { Passed.refl own stack with frames := h }

theorem Passed.serials (h : Passed own n before after) :
    after.frames.map Frame.serial = before.frames.map Frame.serial :=
  Frame.map_serial_of_lastingFor h.frames

theorem Passed.height (h : Passed own n before after) : after.height = before.height := by
  have hlength := congrArg List.length h.serials
  rw [List.length_map, List.length_map] at hlength
  exact hlength

theorem Passed.fit (h : Passed own n before after) (hfit : Fit own before) : Fit own after where
  issued frame hframe := by
    have hserial : frame.serial ∈ before.frames.map Frame.serial := by
      rw [← h.serials]
      exact List.mem_map_of_mem hframe
    obtain ⟨old, hold, heq⟩ := List.mem_map.mp hserial
    have hlt := hfit.issued old hold
    rw [h.nextSerial]
    omega
  owned id hid := by
    rw [h.serials]
    exact hfit.owned id hid

theorem Passed.trans (h : Passed own n before middle) (h' : Passed own m middle after) :
    Passed own (n ++ m) before after where
  nextSerial := by rw [h'.nextSerial, h.nextSerial, Nesting.count_append, Nat.add_assoc]
  pushes := by rw [h'.pushes, h.pushes, Nesting.count_append, Nat.add_assoc]
  pops := by rw [h'.pops, h.pops, Nesting.count_append, Nat.add_assoc]
  maxHeight := by
    rw [h'.maxHeight, h.maxHeight, h.height, h.nextSerial, Nesting.events_append,
      List.filterMap_append, List.foldl_append]
  events := by
    rw [h'.events, h.events, h.height, h.nextSerial, Nesting.events_append, Option.map_map]
    congr 1
    funext events
    simp
  frames := h'.frames.trans h.frames

/-- Whoever has opened no frame leaves those of others alone. -/
theorem Passed.forOwner (h : Passed none n before after) (own : Option FrameId) :
    Passed own n before after :=
  { h with frames := Frame.lastingFor_of_lasting h.frames }

end ScopeStack

namespace Workspace

open ScopeStack

variable {ws inside : Workspace} {state : FrameState} {n : Nesting}

/-- A frame that was just opened has a number of its own. -/
theorem entered_fit (h : Fit none ws.scopes) (state : FrameState) :
    Fit (some ⟨ws.scopes.nextSerial, state.scope⟩) (ws.entered state).scopes where
  issued frame hframe := by
    rcases List.mem_cons.mp hframe with rfl | hold
    · exact Nat.lt_succ_self _
    · exact Nat.lt_succ_of_lt (h.issued frame hold)
  owned id hid := by
    obtain rfl := Option.some.inj hid
    refine ⟨ws.scopes.frames.map Frame.serial, rfl, ?_⟩
    intro hmem
    obtain ⟨frame, hframe, hserial⟩ := List.mem_map.mp hmem
    exact Nat.ne_of_lt (h.issued frame hframe) hserial

/-- **A scope that is closed again has come and gone, with all that did so inside.** -/
theorem left_passed {id : FrameId}
    (h : Passed (some id) n (ws.entered state).scopes inside.scopes) :
    ∃ frame outer, inside.scopes.frames = frame :: outer ∧
      frame.serial = ws.scopes.nextSerial ∧
      Passed none (.scope state.scope n .flat) ws.scopes (inside.left frame).scopes := by
  obtain ⟨frame, outer, hframes⟩ : ∃ frame outer, inside.scopes.frames = frame :: outer := by
    cases hframes : inside.scopes.frames with
    | nil =>
        have hheight := h.height
        rw [ScopeStack.height, hframes] at hheight
        cases hheight
    | cons frame outer => exact ⟨frame, outer, rfl⟩
  have hlast := h.frames
  have htail := Frame.lasting_tail h.frames
  rw [hframes] at hlast htail
  simp only [entered, Frame.lastingFor, List.cons.injEq, Frame.mk.injEq] at hlast
  obtain ⟨⟨hserial, -, hstate⟩, -⟩ := hlast
  have hscope : frame.scope = state.scope := by
    rw [Frame.scope, ← frame.state.blank_scope, hstate, state.blank_scope]
  refine ⟨frame, outer, hframes, hserial, ?_⟩
  have hheight : (ws.entered state).scopes.height = ws.scopes.height + 1 := rfl
  refine ⟨?_, ?_, ?_, ?_, ?_, ?_⟩
  · show inside.scopes.nextSerial = _
    rw [h.nextSerial]
    simp only [entered, Nesting.count]
    omega
  · show inside.scopes.counts.pushes = _
    rw [h.pushes]
    simp only [entered, Nesting.count]
    omega
  · show inside.scopes.counts.pops + 1 = _
    rw [h.pops]
    simp only [entered, Nesting.count]
    omega
  · show inside.scopes.counts.maxHeight = _
    rw [h.maxHeight, hheight]
    simp only [entered, Nesting.events, List.filterMap_cons, List.filterMap_append,
      ScopeEvent.height?, List.filterMap_nil, List.append_nil, List.foldl_cons]
  · show inside.scopes.events.map _ = _
    rw [h.events, hheight]
    simp only [entered, Nesting.events, Option.map_map]
    congr 1
    funext events
    simp [hserial, hscope]
  · show Frame.lasting inside.scopes.frames.tail = Frame.lasting ws.scopes.frames
    rw [hframes]
    exact htail

end Workspace

end QueryCompiler
