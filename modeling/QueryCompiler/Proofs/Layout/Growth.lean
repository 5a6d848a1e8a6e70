/-
What lowering does to a workspace, whatever is lowered.

Code is written at the end of one function, and nothing before the place where the
writing started is touched again; other functions are left alone, and those that
were made on the way are complete.  `Extends` says so, and it is all that the place
where a construct starts needs to know about the place where it ends.

The frames are looked at in two ways.  The names and slots are part of the `spot`;
what jumps are about is the `outline`, to which a lowering can only add breaks.
-/
import QueryCompiler.Proofs.Layout.Laid
import QueryCompiler.Proofs.Scopes.Views

namespace QueryCompiler

open Layout

/-! ### Frames seen by jumps -/

/-- What a frame remembers for the sake of jumps. -/
def FrameState.still : FrameState → FrameState
  | function id _ => function id 0
  | handler start guarded _ => handler start guarded 0
  | branch _ exits => branch 0 exits
  | state => state

/-- The loop with some more jumps of `break`s. -/
def FrameState.addBreaks (labels : List PendingJump) : FrameState → FrameState
  | loop target depth breaks => loop target depth (breaks ++ labels.toArray)
  | state => state

/-- The conditional with some more jumps to its end. -/
def FrameState.addExits (labels : List PendingJump) : FrameState → FrameState
  | branch arm exits => branch arm (exits ++ labels.toArray)
  | state => state

namespace Frame

/-- The frame without its names and counts. -/
def still (frame : Frame) : Frame :=
  ⟨frame.serial, [], frame.state.still⟩

/-- The frames outside the current function. -/
def beyond : List Frame → List Frame
  | [] => []
  | frame :: outer => if frame.scope = .function then outer else beyond outer

/-- The frames after some jumps of `break`s to the innermost loop. -/
def withBreaks (labels : List PendingJump) (frames : List Frame) : List Frame :=
  modifyInnermost .loop (FrameState.addBreaks labels) frames

/-- The frames after some jumps to the end of the innermost conditional. -/
def withExits (labels : List PendingJump) : List Frame → List Frame
  | [] => []
  | frame :: outer => frame.modify (FrameState.addExits labels) :: outer

/-- What nobody changes about a frame: its number, its scope and, if it is that of a loop, the
depth of the operand stack outside its body. -/
def shape (frame : Frame) : Nat × Scope × Option Nat :=
  (frame.serial, frame.scope, frame.state.loopEntry?.map Prod.snd)

theorem withBreaks_nil (frames : List Frame) : withBreaks [] frames = frames := by
  unfold withBreaks
  induction frames with
  | nil => rfl
  | cons frame outer ih =>
      have hframe : frame.modify (FrameState.addBreaks []) = frame := by
        obtain ⟨serial, bindings, state⟩ := frame
        cases state <;> simp [Frame.modify, FrameState.addBreaks]
      simp only [modifyInnermost, hframe, ih, ite_self]

theorem withBreaks_append (labels more : List PendingJump) (frames : List Frame) :
    withBreaks more (withBreaks labels frames) = withBreaks (labels ++ more) frames := by
  unfold withBreaks
  induction frames with
  | nil => rfl
  | cons frame outer ih =>
      obtain ⟨serial, bindings, state⟩ := frame
      cases state with
      | loop target depth breaks =>
          simp [modifyInnermost, Frame.modify, FrameState.addBreaks, Frame.scope,
            FrameState.scope]
      | function | transform => rfl
      | handler | branch | block => exact congrArg (List.cons _) ih

theorem withExits_nil (frames : List Frame) : withExits [] frames = frames := by
  cases frames with
  | nil => rfl
  | cons frame outer =>
      obtain ⟨serial, bindings, state⟩ := frame
      cases state <;> simp [withExits, Frame.modify, FrameState.addExits]

theorem withExits_append (labels more : List PendingJump) (frames : List Frame) :
    withExits more (withExits labels frames) = withExits (labels ++ more) frames := by
  cases frames with
  | nil => rfl
  | cons frame outer =>
      obtain ⟨serial, bindings, state⟩ := frame
      cases state <;> simp [withExits, Frame.modify, FrameState.addExits]

/-- Breaks and exits are kept by frames of different scopes. -/
theorem withExits_withBreaks (exits breaks : List PendingJump) (frames : List Frame) :
    withExits exits (withBreaks breaks frames) = withBreaks breaks (withExits exits frames) := by
  cases frames with
  | nil => rfl
  | cons frame outer =>
      obtain ⟨serial, bindings, state⟩ := frame
      cases state <;> rfl

end Frame

namespace Frame

theorem guardsWithin_cons {wanted : Scope} {frame : Frame} {outer : List Frame}
    (hwanted : frame.scope ≠ wanted) (hfunction : frame.scope ≠ .function) :
    guardsWithin wanted (frame :: outer) =
      guardsWithin wanted outer + if frame.state.isGuarding then 1 else 0 := by
  simp [guardsWithin, hwanted, hfunction, List.countP_cons]

end Frame

/-! ### Views of the frames

Each change of the frames is seen in one of the views and not in the others.
-/

namespace Frame

variable {frames : List Frame}

@[simp] theorem bare_scope (frame : Frame) : frame.bare.scope = frame.scope := by
  obtain ⟨serial, bindings, state⟩ := frame
  cases state <;> rfl

@[simp] theorem still_scope (frame : Frame) : frame.still.scope = frame.scope := by
  obtain ⟨serial, bindings, state⟩ := frame
  cases state <;> rfl

theorem innermost?_bare (wanted : Scope) :
    innermost? wanted (frames.map bare) = (innermost? wanted frames).map bare :=
  innermost?_map bare_scope wanted frames

theorem nextSlot?_bare (frame : Frame) : frame.bare.state.nextSlot? = frame.state.nextSlot? := by
  obtain ⟨serial, bindings, state⟩ := frame
  cases state <;> rfl

theorem takeSlot_bare : (modifyInnermost .function FrameState.takeSlot frames).map bare =
    modifyInnermost .function FrameState.takeSlot (frames.map bare) :=
  map_modifyInnermost bare_scope (fun ⟨_, _, state⟩ _ => by cases state <;> rfl) frames

theorem takeSlot_still : (modifyInnermost .function FrameState.takeSlot frames).map still =
    frames.map still :=
  map_modifyInnermost_of_eq (fun ⟨_, _, state⟩ _ => by cases state <;> rfl) frames

theorem bindName_bare (name : String) (slot : UInt16) :
    (bindName name slot frames).map bare = bindName name slot (frames.map bare) := by
  cases frames <;> rfl

theorem bindName_still (name : String) (slot : UInt16) :
    (bindName name slot frames).map still = frames.map still := by
  cases frames <;> rfl

theorem takeSlot_beyond : beyond (modifyInnermost .function FrameState.takeSlot frames) =
    beyond frames := by
  induction frames with
  | nil => rfl
  | cons frame outer ih =>
      obtain ⟨serial, bindings, state⟩ := frame
      cases state with
      | function => rfl
      | loop | handler | branch | block | transform => exact ih

theorem bindName_beyond (name : String) (slot : UInt16) :
    beyond (bindName name slot frames) = beyond frames := by
  cases frames <;> rfl

theorem countThrow_bare : (countThrow frames).map bare = frames.map bare :=
  map_countThrow_of_eq (fun ⟨_, _, state⟩ => by cases state <;> rfl) frames

theorem countThrow_still : (countThrow frames).map still = frames.map still :=
  map_countThrow_of_eq (fun ⟨_, _, state⟩ => by cases state <;> rfl) frames

theorem addBreak_bare (label : PendingJump) :
    (modifyInnermost .loop (FrameState.addBreak label) frames).map bare = frames.map bare :=
  map_modifyInnermost_of_eq (fun ⟨_, _, state⟩ _ => by cases state <;> rfl) frames

theorem addBreak_still (label : PendingJump) :
    (modifyInnermost .loop (FrameState.addBreak label) frames).map still =
      withBreaks [label] (frames.map still) :=
  map_modifyInnermost still_scope (fun ⟨_, _, state⟩ _ => by cases state <;> rfl) frames

theorem withBreaks_shape (labels : List PendingJump) :
    (withBreaks labels frames).map shape = frames.map shape :=
  map_modifyInnermost_of_eq (fun ⟨_, _, state⟩ _ => by cases state <;> rfl) frames

/-- The innermost frame of a scope is where it was, in frames of the same shape. -/
theorem innermost?_of_shape (wanted : Scope) {frames frames' : List Frame}
    (h : frames'.map shape = frames.map shape) :
    (innermost? wanted frames').map shape = (innermost? wanted frames).map shape :=
  innermost?_of_map (fun _ _ hshape => congrArg (fun shape => shape.2.1) hshape) wanted h

theorem outward_bare (distance : Nat) (frame : Frame) :
    outward distance frame.bare = outward distance frame := by
  simp only [outward, bare_scope]

theorem findLocal_bare (name : String) (distance : Nat) :
    findLocal name distance (frames.map bare) = findLocal name distance frames := by
  induction frames generalizing distance with
  | nil => rfl
  | cons frame outer ih =>
      simp only [List.map_cons, findLocal, outward_bare, ih]
      rfl

theorem findElement_bare (distance : Nat) :
    findElement distance (frames.map bare) = findElement distance frames := by
  induction frames generalizing distance with
  | nil => rfl
  | cons frame outer ih =>
      obtain ⟨serial, bindings, state⟩ := frame
      cases state with
      | transform => rfl
      | function | loop | handler | branch | block =>
          simp only [List.map_cons, findElement, outward_bare, ih]
          rfl

end Frame

namespace Layout.Surroundings

variable {exit other : Nat} {frames : List Frame}

theorem ofFrames_withBreaks (labels : List PendingJump) :
    ofFrames exit (Frame.withBreaks labels frames) = ofFrames exit frames := by
  unfold Frame.withBreaks
  induction frames with
  | nil => rfl
  | cons frame outer ih =>
      obtain ⟨serial, bindings, state⟩ := frame
      cases state <;> first | rfl | exact congrArg (fun s => Surroundings.inside s exit _) ih

theorem ofFrames_withExits (labels : List PendingJump) :
    ofFrames exit (Frame.withExits labels frames) = ofFrames exit frames := by
  cases frames with
  | nil => rfl
  | cons frame outer =>
      obtain ⟨serial, bindings, state⟩ := frame
      cases state <;> rfl

/-- The handlers around a place do not depend on where its loop is left to. -/
theorem ofFrames_guards : (ofFrames exit frames).guards = (ofFrames other frames).guards := by
  induction frames with
  | nil => rfl
  | cons frame outer ih =>
      obtain ⟨serial, bindings, state⟩ := frame
      simp only [ofFrames]
      cases state with
      | handler start guarded throws =>
          cases guarded with
          | true => simp only [inside, guarded, ih]
          | false => exact ih
      | function | loop | branch | block | transform =>
          first | rfl | exact ih

/-- Where an outer loop is left to cannot be seen inside an inner one. -/
theorem ofFrames_inLoop (head target depth : Nat) :
    (ofFrames exit frames).inLoop head target depth =
      (ofFrames other frames).inLoop head target depth :=
  congrArg (Surroundings.mk · _) ofFrames_guards

/-- The handlers around a place are those that a return leaves. -/
theorem ofFrames_guards_length :
    (ofFrames exit (frames.map Frame.still)).guards.length =
      Frame.guardsWithin .function frames := by
  induction frames with
  | nil => rfl
  | cons frame outer ih =>
      obtain ⟨serial, bindings, state⟩ := frame
      cases state with
      | function => rfl
      | handler start guarded throws =>
          rw [Frame.guardsWithin_cons, ← ih]
          · cases guarded <;> rfl
          · nofun
          · nofun
      | loop | branch | block | transform =>
          rw [Frame.guardsWithin_cons, ← ih]
          · rfl
          · nofun
          · nofun

/-- The loop around a place is the one that is found by looking outward, and the handlers up to it
are those that leaving it leaves. -/
theorem ofFrames_loop? {frame : Frame} {target : Position} {level : Nat}
    (hframe : Frame.innermost? .loop frames = some frame)
    (hentry : frame.state.loopEntry? = some (target, level)) :
    (ofFrames exit (frames.map Frame.still)).loop? =
      some ⟨target.index.toUInt32.toNat, exit, level, Frame.guardsWithin .loop frames⟩ := by
  induction frames with
  | nil => cases hframe
  | cons head outer ih =>
      obtain ⟨serial, bindings, state⟩ := head
      cases state with
      | function | transform => cases hframe
      | loop start depth breaks =>
          obtain rfl := Option.some.inj hframe
          obtain ⟨rfl, rfl⟩ := Prod.mk.inj (Option.some.inj hentry)
          rfl
      | handler start guarded throws =>
          rw [Frame.guardsWithin_cons]
          · cases guarded with
            | true => exact congrArg (Option.map _) (ih hframe)
            | false => exact ih hframe
          · nofun
          · nofun
      | branch | block =>
          rw [Frame.guardsWithin_cons]
          · exact ih hframe
          · nofun
          · nofun

end Layout.Surroundings

/-- The function is the body of a node, laid out from its first instruction to its last in every
program that has these constants. -/
def Routine.Implements (routine : Routine) (constants : Array Constant) (body : Node) : Prop :=
  routine.maxDepth < wordLimit ∧ ∃ scopes : List Frame,
    ∀ F : Image, F.code = routine.code → routine.maxDepth ≤ F.maxStack →
      (∀ (i : Nat) (c : Constant), constants[i]? = some c → F.constants[i]? = some c) →
      routine.code.size < wordLimit →
      ∃ b : Spot, Laid F {} (.body body) ⟨0, 0, true, scopes⟩ b ∧ b.index = routine.code.size

namespace Workspace

/-- The place where the next instruction goes. -/
def spot (ws : Workspace) : Spot where
  index := ws.code.length
  depth := ws.code.depth
  reachable := ws.code.reachable
  scopes := ws.scopes.frames.map Frame.bare

/-- The frames, seen by jumps. -/
def outline (ws : Workspace) : List Frame :=
  ws.scopes.frames.map Frame.still

/-- The frames, as far as they stay the same. -/
def shape (ws : Workspace) : List (Nat × Scope × Option Nat) :=
  ws.scopes.frames.map Frame.shape

theorem reframe_frames (ws : Workspace) (change : List Frame → List Frame) :
    (ws.reframe change).scopes.frames = change ws.scopes.frames := rfl

theorem shape_eq (ws : Workspace) : ws.shape = ws.outline.map Frame.shape := by
  simp only [shape, outline, List.map_map]
  refine List.map_congr_left fun frame _ => ?_
  obtain ⟨serial, bindings, state⟩ := frame
  cases state <;> rfl

/-- What is true of every workspace, from the empty one on. -/
structure Sound (ws : Workspace) : Prop where
  current : ws.code.currentFunction < ws.code.routines.size
  depth_le : ws.code.depth ≤ ws.code.maxDepth
  maxDepth_lt : ws.code.maxDepth < wordLimit
  pool_le : ws.code.pool.size ≤ Pool.limit
  serials : (ws.shape.map Prod.fst).Pairwise (· > ·)
  fresh : ∀ frame ∈ ws.shape, frame.1 < ws.scopes.nextSerial
  levels : ∀ frame ∈ ws.shape, ∀ level, frame.2.2 = some level → level < wordLimit

/-- The second workspace comes from the first by writing after the first `n` instructions of the
current function. -/
structure Extends (n : Nat) (ws ws' : Workspace) : Prop where
  opened : ws'.code.opened = ws.code.opened
  size : ws.code.routines.size ≤ ws'.code.routines.size
  /-- No function but the current one has changed. -/
  others : ∀ g < ws.code.routines.size, g ≠ ws.code.currentFunction →
    ws'.code.routines[g]? = ws.code.routines[g]?
  length : ws.code.length ≤ ws'.code.length
  kept : ∀ i < n, ws'.code.current.code[i]? = ws.code.current.code[i]?
  maxDepth : ws.code.maxDepth ≤ ws'.code.maxDepth
  pool : ∀ (i : Nat) (c : Constant), ws.code.pool.constants[i]? = some c →
    ws'.code.pool.constants[i]? = some c
  /-- The functions that were made are complete. -/
  made : ∀ (g : Nat) (routine : Routine), ws.code.routines.size ≤ g →
    ws'.code.routines[g]? = some routine →
    ∃ body, routine.Implements ws'.code.pool.constants body

end Workspace

theorem Routine.Implements.mono {routine : Routine} {constants more : Array Constant} {body : Node}
    (h : routine.Implements constants body)
    (hmore : ∀ (i : Nat) (c : Constant), constants[i]? = some c → more[i]? = some c) :
    routine.Implements more body := by
  obtain ⟨hdepth, scopes, hlaid⟩ := h
  refine ⟨hdepth, scopes, ?_⟩
  intro F hcode hstack hconst hshort
  exact hlaid F hcode hstack (fun i c hc => hconst i c (hmore i c hc)) hshort

namespace Workspace

variable {n m : Nat} {ws ws₁ ws₂ ws' : Workspace}

theorem Extends.currentFunction (h : Extends n ws ws') :
    ws'.code.currentFunction = ws.code.currentFunction := by
  unfold Assembly.currentFunction
  rw [h.opened]

theorem Extends.trans (hs : ws.Sound) (h : Extends n ws ws₁) (h' : Extends m ws₁ ws₂)
    (hnm : n ≤ m) : Extends n ws ws₂ where
  opened := h'.opened.trans h.opened
  size := Nat.le_trans h.size h'.size
  others g hg hne := by
    rw [h'.others g (Nat.lt_of_lt_of_le hg h.size) (by rw [h.currentFunction]; exact hne)]
    exact h.others g hg hne
  length := Nat.le_trans h.length h'.length
  kept i hi := (h'.kept i (Nat.lt_of_lt_of_le hi hnm)).trans (h.kept i hi)
  maxDepth := Nat.le_trans h.maxDepth h'.maxDepth
  pool i c hc := h'.pool i c (h.pool i c hc)
  made g routine hg hr := by
    by_cases hold : g < ws₁.code.routines.size
    · have hne : g ≠ ws₁.code.currentFunction := by
        have hcur := hs.current
        rw [h.currentFunction]
        omega
      rw [h'.others g hold hne] at hr
      obtain ⟨body, hbody⟩ := h.made g routine hg hr
      exact ⟨body, hbody.mono h'.pool⟩
    · exact h'.made g routine (Nat.le_of_not_lt hold) hr

/-! ### Changes of the current routine -/

theorem revise_current (hs : ws.code.currentFunction < ws.code.routines.size)
    (f : Routine → Routine) : (ws.revise f).code.current = f ws.code.current := by
  simp only [revise, Assembly.current, Assembly.modifyCurrent, Assembly.currentFunction,
    Array.getD_eq_getD_getElem?, Array.getElem?_modify, if_true] at hs ⊢
  rw [Array.getElem?_eq_getElem hs]
  rfl

theorem revise_extends (hs : ws.Sound) {f : Routine → Routine}
    (hlength : ws.code.length ≤ (f ws.code.current).code.size)
    (hkept : ∀ i < n, (f ws.code.current).code[i]? = ws.code.current.code[i]?)
    (hdepth : ws.code.maxDepth ≤ (f ws.code.current).maxDepth) : Extends n ws (ws.revise f) where
  opened := rfl
  size := by simp [revise, Assembly.modifyCurrent]
  others g hg hne := by
    simp only [revise, Assembly.modifyCurrent, Array.getElem?_modify]
    rw [if_neg (Ne.symm hne)]
  length := by
    show _ ≤ (ws.revise f).code.current.code.size
    rw [revise_current hs.current]
    exact hlength
  kept i hi := by
    rw [revise_current hs.current]
    exact hkept i hi
  maxDepth := by
    show _ ≤ (ws.revise f).code.current.maxDepth
    rw [revise_current hs.current]
    exact hdepth
  pool _ _ h := h
  made g routine hg hr := by
    rw [Array.getElem?_eq_none (by simpa [revise, Assembly.modifyCurrent] using hg)] at hr
    cases hr

theorem revise_sound (hs : ws.Sound) {f : Routine → Routine}
    (hdepth : (f ws.code.current).depth ≤ (f ws.code.current).maxDepth)
    (hmax : (f ws.code.current).maxDepth < wordLimit) : (ws.revise f).Sound where
  current := by simpa [revise, Assembly.modifyCurrent, Assembly.currentFunction] using hs.current
  depth_le := by
    show (ws.revise f).code.current.depth ≤ (ws.revise f).code.current.maxDepth
    rw [revise_current hs.current]
    exact hdepth
  maxDepth_lt := by
    show (ws.revise f).code.current.maxDepth < wordLimit
    rw [revise_current hs.current]
    exact hmax
  pool_le := hs.pool_le
  serials := hs.serials
  fresh := hs.fresh
  levels := hs.levels

theorem revise_spot (hs : ws.Sound) (f : Routine → Routine) :
    (ws.revise f).spot = ⟨(f ws.code.current).code.size, (f ws.code.current).depth,
      (f ws.code.current).reachable, ws.scopes.frames.map Frame.bare⟩ := by
  rw [← revise_current hs.current f]
  rfl

end Workspace

end QueryCompiler
