/-
Stacks of scopes in anybody's hands.

A stack of scopes is not only used by rules, which close what they open.  Whoever has one
can open and close scopes in any order, ask for frames that are long gone, and go on
after a call that failed.  A `Client` is whoever does so.  It keeps all the handles it was
ever given, and it keeps those apart whose scopes it has opened and not closed.  A call
names a handle by its number, so a client has no handles but those it was given.

What a call comes to is one of three things (`Move`): a scope is opened, the innermost
scope is closed, or what the open frames remember is changed.  `Kept` is what all three
keep; it ties the open frames to the handles of the client.  Numbers of frames are never
used twice, so a handle that was closed once finds nothing any more, even though its place
is taken by the next frame that is opened there.
-/
import QueryCompiler.Proofs.Encoding.Sessions
import QueryCompiler.Proofs.Scopes.Accounts

namespace QueryCompiler

namespace ScopeStack

variable {stack : ScopeStack} {frames : List Frame}

/-! ### Changes of open frames -/

/-- The same frames are open, whatever they remember. -/
def Alike (stack after : ScopeStack) : Prop :=
  ∃ frames, after = { stack with frames } ∧ frames.map Frame.id = stack.frames.map Frame.id

theorem Alike.refl (stack : ScopeStack) : stack.Alike stack := ⟨stack.frames, rfl, rfl⟩

theorem Alike.reframe {after : ScopeStack} (h : stack.Alike after)
    (hsame : frames.map Frame.id = after.frames.map Frame.id) :
    stack.Alike { after with frames } := by
  obtain ⟨old, rfl, hold⟩ := h
  exact ⟨frames, rfl, hsame.trans hold⟩

theorem frame_alike (id : FrameId) : Action.Keeps stack.Alike (ScopeStack.frame id) := by
  intro after h
  unfold ScopeStack.frame
  cases after.frame? id with
  | none => exact h
  | some frame => exact h

theorem update_alike {change : FrameState → FrameState}
    (hchange : ∀ state, (change state).scope = state.scope) (id : FrameId) :
    Action.Keeps stack.Alike (update id change) := by
  intro after h
  unfold update
  cases after.frame? id with
  | none => exact h
  | some frame =>
      refine h.reframe ?_
      rw [List.map_map]
      refine List.map_congr_left ?_
      intro frame _
      by_cases hserial : frame.serial = id.serial
      · simp [hserial, Frame.id, Frame.scope, Frame.modify, hchange]
      · simp [hserial]

theorem takeSlot_alike (span : Span) : Action.Keeps stack.Alike (takeSlot span) := by
  intro after h
  unfold takeSlot
  cases after.nextSlot? with
  | none => exact h
  | some slot =>
      dsimp only
      by_cases hroom : Frame.slotLimit ≤ slot.toNat
      · rw [if_pos hroom]
        exact h
      · have hlasts : Frame.lasting (Frame.modifyInnermost .function FrameState.takeSlot
            after.frames) = Frame.lasting after.frames := Frame.fixed_takeSlot
        rw [if_neg hroom]
        exact h.reframe (Frame.map_id_of_lasting hlasts)

theorem declare_alike (name : String) (span : Span) :
    Action.Keeps stack.Alike (declare name span) := by
  refine (takeSlot_alike span).bind fun slot => Action.Keeps.bind (.modify ?_) fun _ => .pure slot
  intro after h
  unfold bindName
  cases hframes : after.frames with
  | nil => exact h
  | cons top outer =>
      refine h.reframe ?_
      rw [hframes]
      rfl

end ScopeStack

/-! ### Clients -/

/-- What whoever opens a scope keeps of it. -/
structure Handle where
  id : FrameId
  /-- How many frames were open before. -/
  place : Nat
deriving DecidableEq

/-- The frame at the place where a scope was opened, unless it is that of another scope. -/
def ScopeStack.frameAt? (stack : ScopeStack) (handle : Handle) : Option Frame :=
  stack.frames.reverse[handle.place]?.filter fun frame => frame.serial == handle.id.serial

/-- A change of what a frame remembers, made through a handle.  Writes of the scope, the number and
the bindings of a frame are left out: the scope and the number say which frame it is, and names are
bound by `declare`. -/
structure FrameState.Revision where
  apply : FrameState → FrameState
  scope_apply : ∀ state, (apply state).scope = state.scope

namespace FrameState.Revision

/-- What is written next is not guarded any more. -/
def endGuarding : Revision where
  apply := setGuarded false
  scope_apply state := by cases state <;> rfl

/-- Another jump waits for the end of the loop. -/
def addBreak (label : PendingJump) : Revision where
  apply := FrameState.addBreak label
  scope_apply state := by cases state <;> rfl

end FrameState.Revision

/-- A call of a stack of scopes.  Handles are counted in the order in which they were given. -/
inductive ScopeCall where
  | push (state : FrameState)
  | pop (handle : Nat)
  | frame (handle : Nat)
  | update (handle : Nat) (revision : FrameState.Revision)
  | takeSlot (span : Span)
  | declare (name : String) (span : Span)

/-- Whoever uses a stack of scopes. -/
structure Client where
  stack : ScopeStack
  /-- The handles it was given, the first one first. -/
  handles : List Handle
  /-- The handles of the scopes it has opened and not closed, the last one first. -/
  opened : List Handle

namespace Client

/-- A client with an empty stack that records its history. -/
def start : Client := ⟨.start true, [], []⟩

def opens (client : Client) (handle : Handle) : Client :=
  { client with handles := client.handles ++ [handle], opened := handle :: client.opened }

def closes (client : Client) (handle : Handle) : Client :=
  { client with opened := client.opened.erase handle }

/-- Go on with the stack that a call has left, and take note of what it handed back. -/
def resume {α : Type} (client : Client) (note : α → Client → Client) :
    Outcome ScopeStack α → Client
  | .done value stack => note value { client with stack }
  | .failed _ stack => { client with stack }
  -- A stack of scopes does no arithmetic on words in these calls, so this is never the case.
  | .fault _ => client

/-- Do something with a handle, if the client has been given it. -/
def withHandle (client : Client) (number : Nat) (use : Handle → Client) : Client :=
  (client.handles[number]?).elim client use

/-- The client after a call, whether it got done or failed. -/
def step (client : Client) : ScopeCall → Client
  | .push state =>
    client.resume (fun id next => next.opens ⟨id, client.stack.height⟩)
      (ScopeStack.push state client.stack)
  | .pop number =>
    client.withHandle number fun handle =>
      client.resume (fun _ next => next.closes handle) (ScopeStack.pop handle.id client.stack)
  | .frame number =>
    client.withHandle number fun handle =>
      client.resume (fun _ next => next) (ScopeStack.frame handle.id client.stack)
  | .update number revision =>
    client.withHandle number fun handle =>
      client.resume (fun _ next => next)
        (ScopeStack.update handle.id revision.apply client.stack)
  | .takeSlot span => client.resume (fun _ next => next) (ScopeStack.takeSlot span client.stack)
  | .declare name span =>
    client.resume (fun _ next => next) (ScopeStack.declare name span client.stack)

/-- The client after some calls. -/
def after (client : Client) (calls : List ScopeCall) : Client :=
  calls.foldl step client

/-! ### What a call comes to -/

/-- The handle of the next scope. -/
def nextHandle (client : Client) (state : FrameState) : Handle :=
  ⟨⟨client.stack.nextSerial, state.scope⟩, client.stack.height⟩

/-- A scope is opened, the innermost one is closed, or the same scopes stay open. -/
inductive Move (client : Client) : Client → Prop
  | opened (state : FrameState) :
      Move client (opens { client with stack := client.stack.entered state }
        (client.nextHandle state))
  | closed {handle : Handle} {frame : Frame} {outer : List Frame}
      (hheld : handle ∈ client.handles) (hframes : client.stack.frames = frame :: outer)
      (hserial : frame.serial = handle.id.serial) :
      Move client (closes { client with stack := client.stack.left frame outer } handle)
  | revised {stack : ScopeStack} (h : client.stack.Alike stack) : Move client { client with stack }

variable {client client' : Client} {handle : Handle}

theorem Move.stay (client : Client) : Move client client := .revised (.refl client.stack)

theorem Move.of_alike {α : Type} {action : Action ScopeStack α}
    (h : Action.Keeps client.stack.Alike action) :
    Move client (client.resume (fun _ next => next) (action client.stack)) := by
  have hleaves := h client.stack (.refl client.stack)
  cases haction : action client.stack with
  | done x stack =>
      rw [haction] at hleaves
      exact .revised hleaves
  | failed error stack =>
      rw [haction] at hleaves
      exact .revised hleaves
  | fault fault => exact .stay client

theorem withHandle_move {use : Handle → Client} (number : Nat)
    (h : ∀ handle ∈ client.handles, Move client (use handle)) :
    Move client (client.withHandle number use) := by
  unfold withHandle
  cases hhandle : client.handles[number]? with
  | none => exact .stay client
  | some handle => exact h handle (List.mem_of_getElem? hhandle)

theorem pop_move (hheld : handle ∈ client.handles) :
    Move client (client.resume (fun _ next => next.closes handle)
      (ScopeStack.pop handle.id client.stack)) := by
  by_cases hinner : ∃ frame outer, client.stack.frames = frame :: outer ∧
      frame.serial = handle.id.serial
  · obtain ⟨frame, outer, hframes, hserial⟩ := hinner
    rw [ScopeStack.pop_done hframes hserial]
    exact .closed hheld hframes hserial
  · have hother : ∀ frame ∈ client.stack.frames.head?, frame.serial ≠ handle.id.serial := by
      intro frame hframe hserial
      obtain ⟨outer, hframes⟩ := List.head?_eq_some_iff.mp hframe
      exact hinner ⟨frame, outer, hframes, hserial⟩
    rw [ScopeStack.pop_failed hother]
    exact .stay client

/-- **Every call opens a scope, closes the innermost one or leaves all of them open.** -/
theorem step_move (client : Client) (call : ScopeCall) : Move client (client.step call) := by
  cases call with
  | push state => exact .opened state
  | pop number => exact withHandle_move number fun _ hheld => pop_move hheld
  | frame number => exact withHandle_move number fun _ _ => .of_alike (ScopeStack.frame_alike _)
  | update number revision =>
      exact withHandle_move number fun _ _ =>
        .of_alike (ScopeStack.update_alike revision.scope_apply _)
  | takeSlot span => exact .of_alike (ScopeStack.takeSlot_alike span)
  | declare name span => exact .of_alike (ScopeStack.declare_alike name span)

/-! ### What calls keep -/

/-- The open frames are those of the handles that the client has not closed. -/
structure Kept (client : Client) : Prop where
  accounted : client.stack.Accounted
  frames : client.stack.frames.map Frame.id = client.opened.map Handle.id
  /-- Every scope that was opened has a number of its own. -/
  numbered : client.handles.map (fun handle => handle.id.serial) =
    List.range client.stack.nextSerial
  held : ∀ handle ∈ client.opened, handle ∈ client.handles
  places : ∀ (k : Nat) (handle : Handle), client.opened[k]? = some handle →
    handle.place + k + 1 = client.opened.length

theorem Kept.start : start.Kept where
  accounted := .start
  frames := rfl
  numbered := rfl
  held := nofun
  places := nofun

namespace Kept

theorem eq_of_serial (h : client.Kept) {other : Handle} (hheld : handle ∈ client.handles)
    (hother : other ∈ client.handles) (hserial : other.id.serial = handle.id.serial) :
    other = handle := by
  have hnodup : (client.handles.map fun handle => handle.id.serial).Nodup := by
    rw [h.numbered]
    exact List.nodup_range
  exact List.inj_on_of_nodup_map hnodup hother hheld hserial

theorem height (h : client.Kept) : client.stack.height = client.opened.length := by
  simpa [ScopeStack.height] using congrArg List.length h.frames

/-- An open scope has its frame at the same place as its handle. -/
theorem frame_of_opened (h : client.Kept) {k : Nat} (hk : client.opened[k]? = some handle) :
    ∃ frame, client.stack.frames[k]? = some frame ∧ frame.id = handle.id := by
  have hid : (client.stack.frames.map Frame.id)[k]? = some handle.id := by
    rw [h.frames, List.getElem?_map, hk, Option.map_some]
  rw [List.getElem?_map] at hid
  exact Option.map_eq_some_iff.mp hid

/-- A frame with the number of a handle is that of the handle. -/
theorem opened_of_frame (h : client.Kept) (hheld : handle ∈ client.handles) {k : Nat}
    {frame : Frame} (hk : client.stack.frames[k]? = some frame)
    (hserial : frame.serial = handle.id.serial) : client.opened[k]? = some handle := by
  have hid : (client.opened.map Handle.id)[k]? = some frame.id := by
    rw [← h.frames, List.getElem?_map, hk, Option.map_some]
  rw [List.getElem?_map] at hid
  obtain ⟨other, hother, heq⟩ := Option.map_eq_some_iff.mp hid
  have hsame : other.id.serial = handle.id.serial :=
    (congrArg FrameId.serial heq).trans hserial
  rw [hother, h.eq_of_serial hheld (h.held other (List.mem_of_getElem? hother)) hsame]

theorem nodup_opened (h : client.Kept) : client.opened.Nodup := by
  have hserials : client.opened.map (fun handle => handle.id.serial) =
      client.stack.frames.map Frame.serial := by
    have hmap := congrArg (List.map FrameId.serial) h.frames
    simpa [List.map_map, Function.comp_def, Frame.id] using hmap.symm
  have hnodup : (client.opened.map fun handle => handle.id.serial).Nodup := by
    rw [hserials]
    exact h.accounted.ordered.imp Nat.ne_of_gt
  exact hnodup.of_map

end Kept

/-- The innermost scope is the one that is closed. -/
theorem Kept.erase_opened (h : client.Kept) (hheld : handle ∈ client.handles) {frame : Frame}
    {outer : List Frame} (hframes : client.stack.frames = frame :: outer)
    (hserial : frame.serial = handle.id.serial) :
    client.opened = handle :: client.opened.erase handle := by
  have hfirst : client.opened[0]? = some handle := by
    refine h.opened_of_frame hheld ?_ hserial
    rw [hframes]
    rfl
  cases hopened : client.opened with
  | nil =>
      rw [hopened] at hfirst
      cases hfirst
  | cons top rest =>
      rw [hopened] at hfirst
      obtain rfl : top = handle := Option.some.inj hfirst
      rw [List.erase_cons_head]

/-- **Every call keeps what ties a client to its stack.** -/
theorem Move.kept (h : Move client client') (hkept : client.Kept) : client'.Kept := by
  cases h with
  | opened state =>
      refine ⟨hkept.accounted.entered state, ?_, ?_, ?_, ?_⟩
      · exact congrArg (List.cons _) hkept.frames
      · have hrange : List.range (client.stack.nextSerial + 1) =
            List.range client.stack.nextSerial ++ [client.stack.nextSerial] := List.range_succ
        show (client.handles ++ [client.nextHandle state]).map _ =
          List.range (client.stack.nextSerial + 1)
        rw [List.map_append, hkept.numbered, hrange]
        rfl
      · intro handle hhandle
        rcases List.mem_cons.mp hhandle with rfl | hold
        · exact List.mem_append_right _ List.mem_cons_self
        · exact List.mem_append_left _ (hkept.held handle hold)
      · intro k handle hk
        have hheight := hkept.height
        cases k with
        | zero =>
            obtain rfl : client.nextHandle state = handle := Option.some.inj hk
            simp only [nextHandle, opens, List.length_cons]
            omega
        | succ k =>
            have hplace := hkept.places k handle hk
            simp only [opens, List.length_cons]
            omega
  | @closed handle frame outer hheld hframes hserial =>
      have hopened := hkept.erase_opened hheld hframes hserial
      refine ⟨hkept.accounted.left hframes, ?_, hkept.numbered, ?_, ?_⟩
      · have hids := hkept.frames
        rw [hframes, hopened, List.map_cons, List.map_cons] at hids
        exact (List.cons.inj hids).2
      · intro other hother
        exact hkept.held other (List.mem_of_mem_erase hother)
      · intro k other hk
        have hplace := hkept.places (k + 1) other (by rw [hopened]; exact hk)
        have hlength := congrArg List.length hopened
        simp only [List.length_cons] at hlength
        show other.place + k + 1 = (client.opened.erase handle).length
        omega
  | revised halike =>
      obtain ⟨frames, rfl, hsame⟩ := halike
      exact ⟨hkept.accounted.revised hsame, hsame.trans hkept.frames, hkept.numbered, hkept.held,
        hkept.places⟩

/-- **After any calls the client and its stack belong together.** -/
theorem Kept.after (h : client.Kept) (calls : List ScopeCall) : (client.after calls).Kept := by
  induction calls generalizing client with
  | nil => exact h
  | cons call rest ih => exact ih ((client.step_move call).kept h)

/-! ### Handles -/

namespace Kept

theorem frame?_of_opened (h : client.Kept) {k : Nat} (hk : client.opened[k]? = some handle) :
    ∃ frame, client.stack.frames[k]? = some frame ∧ frame.id = handle.id ∧
      client.stack.frame? handle.id = some frame := by
  obtain ⟨frame, hframe, hid⟩ := h.frame_of_opened hk
  exact ⟨frame, hframe, hid, h.accounted.frame?_eq hframe (congrArg FrameId.serial hid)⟩

theorem frame?_eq_none (h : client.Kept) (hheld : handle ∈ client.handles)
    (hclosed : handle ∉ client.opened) : client.stack.frame? handle.id = none := by
  refine List.find?_eq_none.mpr ?_
  intro frame hframe hserial
  obtain ⟨k, hk⟩ := List.mem_iff_getElem?.mp hframe
  have hopened := h.opened_of_frame hheld hk (beq_iff_eq.mp hserial)
  exact hclosed (List.mem_of_getElem? hopened)

/-- The place of a handle and the search by its number agree on which frame it finds. -/
theorem frameAt?_eq (h : client.Kept) (hheld : handle ∈ client.handles) :
    client.stack.frameAt? handle = client.stack.frame? handle.id := by
  by_cases hopened : handle ∈ client.opened
  · obtain ⟨k, hk⟩ := List.mem_iff_getElem?.mp hopened
    obtain ⟨frame, hframe, hid, hfound⟩ := h.frame?_of_opened hk
    have hplace := h.places k handle hk
    have hheight : client.stack.frames.length = client.opened.length := h.height
    have hlt : handle.place < client.stack.frames.length := by omega
    have hindex : client.stack.frames.length - 1 - handle.place = k := by omega
    have hserial : frame.serial = handle.id.serial := congrArg FrameId.serial hid
    rw [ScopeStack.frameAt?, List.getElem?_reverse hlt, hindex, hframe, hfound]
    simp [hserial]
  · rw [h.frame?_eq_none hheld hopened, ScopeStack.frameAt?, Option.filter_eq_none_iff]
    intro frame hframe hserial
    have hmem : frame ∈ client.stack.frames := List.mem_reverse.mp (List.mem_of_getElem? hframe)
    obtain ⟨k, hk⟩ := List.mem_iff_getElem?.mp hmem
    have hopen := h.opened_of_frame hheld hk (beq_iff_eq.mp hserial)
    exact hopened (List.mem_of_getElem? hopen)

theorem pop_iff (h : client.Kept) (hheld : handle ∈ client.handles) :
    (∃ frame stack, ScopeStack.pop handle.id client.stack = .done frame stack) ↔
      client.opened.head? = some handle := by
  rw [List.head?_eq_getElem?]
  constructor
  · rintro ⟨frame, stack, hpop⟩
    by_contra hother
    have hrefused : ∀ top ∈ client.stack.frames.head?, top.serial ≠ handle.id.serial := by
      intro top htop hserial
      rw [List.head?_eq_getElem?] at htop
      exact hother (h.opened_of_frame hheld htop hserial)
    rw [ScopeStack.pop_failed hrefused] at hpop
    cases hpop
  · intro hfirst
    obtain ⟨frame, hframe, hid⟩ := h.frame_of_opened hfirst
    rw [← List.head?_eq_getElem?] at hframe
    obtain ⟨outer, hframes⟩ := List.head?_eq_some_iff.mp hframe
    exact ⟨frame, _, ScopeStack.pop_done hframes (congrArg FrameId.serial hid)⟩

end Kept

/-- The scope of the handle is closed, and nothing can be done with the handle any more. -/
structure Refuses (client : Client) (handle : Handle) : Prop where
  pop : ScopeStack.pop handle.id client.stack =
    .failed (.closedOutOfOrder handle.id.scope (client.stack.frames.head?.map Frame.scope))
      client.stack
  frame : ScopeStack.frame handle.id client.stack =
    .failed (.internal (.staleFrame handle.id.scope handle.id.serial)) client.stack
  update : ∀ change, ScopeStack.update handle.id change client.stack =
    .failed (.internal (.staleFrame handle.id.scope handle.id.serial)) client.stack

theorem Kept.refuses (h : client.Kept) (hheld : handle ∈ client.handles)
    (hclosed : handle ∉ client.opened) : client.Refuses handle where
  pop := by
    refine ScopeStack.pop_failed ?_
    intro frame hframe hserial
    rw [List.head?_eq_getElem?] at hframe
    exact hclosed (List.mem_of_getElem? (h.opened_of_frame hheld hframe hserial))
  frame := by simp only [ScopeStack.frame, h.frame?_eq_none hheld hclosed]
  update := by
    intro change
    simp only [ScopeStack.update, h.frame?_eq_none hheld hclosed]

/-- A scope that was closed is not opened again: the next one has another number. -/
theorem Move.closed_forever (h : Move client client') (hkept : client.Kept)
    (hheld : handle ∈ client.handles) (hclosed : handle ∉ client.opened) :
    handle ∈ client'.handles ∧ handle ∉ client'.opened := by
  cases h with
  | opened state =>
      refine ⟨List.mem_append_left _ hheld, ?_⟩
      intro hmem
      rcases List.mem_cons.mp hmem with rfl | hold
      · have hserial : client.stack.nextSerial ∈ List.range client.stack.nextSerial := by
          rw [← hkept.numbered]
          exact List.mem_map.mpr ⟨_, hheld, rfl⟩
        exact absurd (List.mem_range.mp hserial) (Nat.lt_irrefl _)
      · exact hclosed hold
  | closed _ _ _ => exact ⟨hheld, fun hmem => hclosed (List.mem_of_mem_erase hmem)⟩
  | revised _ => exact ⟨hheld, hclosed⟩

theorem Kept.closed_forever (h : client.Kept) (hheld : handle ∈ client.handles)
    (hclosed : handle ∉ client.opened) (calls : List ScopeCall) :
    (client.after calls).Refuses handle := by
  induction calls generalizing client with
  | nil => exact h.refuses hheld hclosed
  | cons call rest ih =>
      have hmove := client.step_move call
      obtain ⟨hheld', hclosed'⟩ := hmove.closed_forever h hheld hclosed
      exact ih (hmove.kept h) hheld' hclosed'

/-! ### What a client can rely on -/

/-- What a client can rely on, whatever it has done with its stack. -/
structure Reliable (client : Client) : Prop where
  frames : client.stack.frames.map Frame.id = client.opened.map Handle.id
  /-- Only the innermost of the open scopes can be closed. -/
  closes : ∀ handle ∈ client.handles,
    (∃ frame stack, ScopeStack.pop handle.id client.stack = .done frame stack) ↔
      client.opened.head? = some handle
  /-- Only open scopes have a frame to be found. -/
  finds : ∀ handle ∈ client.handles,
    (∃ frame stack, ScopeStack.frame handle.id client.stack = .done frame stack) ↔
      handle ∈ client.opened
  /-- What is found, or changed, is the frame of the scope and no other. -/
  own : ∀ (k : Nat) (handle : Handle), client.opened[k]? = some handle →
    ∃ frame, client.stack.frames[k]? = some frame ∧ frame.id = handle.id ∧
      ScopeStack.frame handle.id client.stack = .done frame client.stack ∧
      ∀ change, ScopeStack.update handle.id change client.stack = .done ()
        { client.stack with
          frames := client.stack.frames.modify k fun frame => frame.modify change }
  /-- To look where a scope was opened is enough to find its frame. -/
  places : ∀ handle ∈ client.handles,
    client.stack.frameAt? handle = client.stack.frame? handle.id
  /-- The inner of two open frames has the greater number. -/
  ordered : (client.stack.frames.map Frame.serial).Pairwise (· > ·)
  replayed : ScopeEvent.replay [] client.stack.history = some (client.stack.frames.map Frame.id)
  pushes : client.stack.counts.pushes = client.stack.counts.pops + client.stack.height
  maxHeight : client.stack.counts.maxHeight =
    ((client.stack.history.filterMap ScopeEvent.height?).max?).getD 0
  wellNested : ScopeEvent.wellNested client.stack.history = true ↔
    client.stack.counts.isBalanced = true
  balanced : client.stack.counts.isBalanced = true ↔ client.stack.frames = []

theorem Kept.reliable (h : client.Kept) : client.Reliable where
  frames := h.frames
  closes := fun _ hheld => h.pop_iff hheld
  finds := by
    intro handle hheld
    constructor
    · rintro ⟨frame, stack, hframe⟩
      by_contra hclosed
      rw [(h.refuses hheld hclosed).frame] at hframe
      cases hframe
    · intro hopened
      obtain ⟨k, hk⟩ := List.mem_iff_getElem?.mp hopened
      obtain ⟨frame, -, -, hfound⟩ := h.frame?_of_opened hk
      exact ⟨frame, client.stack, by simp only [ScopeStack.frame, hfound]⟩
  own := by
    intro k handle hk
    obtain ⟨frame, hframe, hid, hfound⟩ := h.frame?_of_opened hk
    refine ⟨frame, hframe, hid, by simp only [ScopeStack.frame, hfound], ?_⟩
    exact h.accounted.update_eq hframe (congrArg FrameId.serial hid)
  places := fun _ hheld => h.frameAt?_eq hheld
  ordered := h.accounted.ordered
  replayed := h.accounted.replayed
  pushes := h.accounted.pushes
  maxHeight := h.accounted.maxHeight
  wellNested := h.accounted.wellNested_iff.1
  balanced := h.accounted.wellNested_iff.2

/-- **A stack of scopes is reliable in anybody's hands,** whatever calls were made of it and whichever
of them failed; and a handle that has closed its scope is refused from then on. -/
theorem after_reliable (calls : List ScopeCall) :
    (start.after calls).Reliable ∧
      ∀ (number : Nat) (handle : Handle) (frame : Frame) (stack : ScopeStack),
        (start.after calls).handles[number]? = some handle →
        ScopeStack.pop handle.id (start.after calls).stack = .done frame stack →
        ∀ later, (start.after (calls ++ .pop number :: later)).Refuses handle := by
  have hkept : (start.after calls).Kept := Kept.start.after calls
  refine ⟨hkept.reliable, ?_⟩
  intro number handle frame stack hnumber hpop later
  have hheld : handle ∈ (start.after calls).handles := List.mem_of_getElem? hnumber
  have hstep : (start.after calls).step (.pop number) =
      closes { start.after calls with stack } handle := by
    simp [step, withHandle, resume, hnumber, hpop]
  have hafter : start.after (calls ++ .pop number :: later) =
      (closes { start.after calls with stack } handle).after later := by
    rw [after, List.foldl_append, List.foldl_cons, ← hstep]
    rfl
  have hclosed : handle ∉ (closes { start.after calls with stack } handle).opened :=
    hkept.nodup_opened.not_mem_erase
  rw [hafter]
  rw [← hstep] at hclosed ⊢
  refine (((start.after calls).step_move _).kept hkept).closed_forever ?_ hclosed later
  rw [hstep]
  exact hheld

/-- A client that tries to close a function with a block still open in it. -/
def hasty : List ScopeCall :=
  [.push (.function 0 0), .push .block, .declare "x" {}, .pop 0]

/-- It goes on with a loop that is broken out of, and with a `try` whose body comes to its end. -/
def undeterred : List ScopeCall :=
  [.push (.loop ⟨0, 0⟩ 0 #[]), .update 2 (.addBreak ⟨⟨0, 4⟩, 1⟩), .push (.handler ⟨0, 5⟩ true 0),
    .update 3 .endGuarding, .pop 1]

/-- When the block is closed a loop takes its place, and the handle of the block is of no use. -/
theorem hasty_refused :
    (start.after hasty).stack.height = 2 ∧
      (start.after (hasty ++ .pop 1 :: undeterred)).Refuses ⟨⟨1, .block⟩, 1⟩ ∧
      (start.after (hasty ++ .pop 1 :: undeterred)).handles[2]? = some ⟨⟨2, .loop⟩, 1⟩ ∧
      (start.after (hasty ++ .pop 1 :: undeterred)).stack.frames.map Frame.state =
        [.handler ⟨0, 5⟩ false 0, .loop ⟨0, 0⟩ 0 #[⟨⟨0, 4⟩, 1⟩], .function 0 1] := by
  obtain ⟨hreliable, hforever⟩ := after_reliable hasty
  have hheld : (start.after hasty).handles[1]? = some ⟨⟨1, .block⟩, 1⟩ := by decide
  have hinnermost : (start.after hasty).opened.head? = some ⟨⟨1, .block⟩, 1⟩ := by decide
  obtain ⟨frame, stack, hpop⟩ :=
    (hreliable.closes ⟨⟨1, .block⟩, 1⟩ (List.mem_of_getElem? hheld)).mpr hinnermost
  exact ⟨by decide, hforever 1 _ frame stack hheld hpop _, by decide, by decide⟩

end Client

end QueryCompiler
