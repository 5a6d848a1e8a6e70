/-
The account that a rule keeps.

While a rule is at work it has to know how deep the operand stack is, which jumps it has
made that have yet to land, and which of those it has noted in a frame of its own.  That
is its `Ledger`.  `Accounts` says that a ledger is right about a workspace: the depth is
that of the current function, and the jumps that wait in the code written since the
account was opened are those of the ledger and those that were handed to a loop around.
-/
import QueryCompiler.Proofs.Script.Quiet

namespace QueryCompiler

open Workspace

/-! ### Frames of loops -/

namespace Frame

theorem noted_scope (frame : Frame) : frame.noted.scope = frame.scope := by
  obtain ⟨serial, bindings, state⟩ := frame
  cases state <;> rfl

theorem map_serial_noted (frames : List Frame) :
    (frames.map noted).map serial = frames.map serial := by
  rw [List.map_map]
  rfl

/-- The depth of the operand stack at the start of the loop that a `break` would leave. -/
def level? (frames : List Frame) : Option Nat :=
  (innermost? .loop frames).bind fun frame => frame.state.loopEntry?.map Prod.snd

/-- Where the loops of the frames start over. -/
def entries (frames : List Frame) : List (Position × Nat) :=
  frames.filterMap fun frame => frame.state.loopEntry?

theorem loopEntry?_noted (frame : Frame) :
    frame.noted.state.loopEntry? = frame.state.loopEntry? := by
  obtain ⟨serial, bindings, state⟩ := frame
  cases state <;> rfl

theorem innermost?_noted (wanted : Scope) (frames : List Frame) :
    innermost? wanted (frames.map noted) = (innermost? wanted frames).map noted :=
  innermost?_map noted_scope wanted frames

theorem level?_noted (frames : List Frame) : level? (frames.map noted) = level? frames := by
  rw [level?, innermost?_noted, Option.bind_map]
  exact Option.bind_congr fun frame _ =>
    congrArg (Option.map Prod.snd) (loopEntry?_noted frame)

theorem entries_noted (frames : List Frame) : entries (frames.map noted) = entries frames := by
  rw [entries, List.filterMap_map]
  exact List.filterMap_congr fun frame _ => loopEntry?_noted frame

variable (labels : List PendingJump) (frames : List Frame)

theorem addBreaks_scope (frame : Frame) :
    (frame.modify (FrameState.addBreaks labels)).scope = frame.scope := by
  obtain ⟨serial, bindings, state⟩ := frame
  cases state <;> rfl

theorem innermost?_withBreaks : innermost? .loop (withBreaks labels frames) =
    (innermost? .loop frames).map fun frame => frame.modify (FrameState.addBreaks labels) :=
  innermost?_modifyInnermost (fun frame hloop => (addBreaks_scope labels frame).trans hloop) frames

theorem level?_withBreaks : level? (withBreaks labels frames) = level? frames := by
  rw [level?, innermost?_withBreaks, Option.bind_map]
  refine Option.bind_congr fun ⟨serial, bindings, state⟩ _ => ?_
  cases state <;> rfl

theorem level?_withExits : level? (withExits labels frames) = level? frames := by
  cases frames with
  | nil => rfl
  | cons frame outer =>
      obtain ⟨serial, bindings, state⟩ := frame
      cases state <;> rfl

theorem entries_withBreaks : entries (withBreaks labels frames) = entries frames :=
  filterMap_of_map
    (map_modifyInnermost_of_eq (fun ⟨_, _, state⟩ _ => by cases state <;> rfl) frames)

theorem entries_withExits : entries (withExits labels frames) = entries frames := by
  cases frames with
  | nil => rfl
  | cons frame outer =>
      obtain ⟨serial, bindings, state⟩ := frame
      cases state <;> rfl

theorem map_serial_withBreaks : (withBreaks labels frames).map serial = frames.map serial :=
  map_modifyInnermost_of_eq (fun _ _ => rfl) frames

theorem map_serial_withExits : (withExits labels frames).map serial = frames.map serial := by
  cases frames <;> rfl

theorem addBreak_noted (label : PendingJump) :
    (modifyInnermost .loop (FrameState.addBreak label) frames).map noted =
      withBreaks [label] (frames.map noted) :=
  map_modifyInnermost noted_scope (fun ⟨_, _, state⟩ _ => by cases state <;> rfl) frames

/-- An innermost loop has an entry. -/
theorem level?_of_innermost {frame : Frame} {entry : Position × Nat}
    (h : innermost? .loop frames = some frame) (hentry : frame.state.loopEntry? = some entry) :
    level? frames = some entry.2 ∧ entry ∈ entries frames := by
  refine ⟨by rw [level?, h, Option.bind_some, hentry]; rfl, ?_⟩
  exact List.mem_filterMap.mpr ⟨frame, mem_of_innermost? h, hentry⟩

end Frame

/-- The position is that of an instruction, or of the next one of its function. -/
def Assembly.Has (code : Assembly) (position : Position) : Prop :=
  ∃ routine, code.routines[position.function]? = some routine ∧ position.index ≤ routine.code.size

theorem Assembly.Keeps.has {base code : Assembly} (h : base.Keeps code) {position : Position}
    (hbase : base.Has position) : code.Has position := by
  obtain ⟨routine, hroutine, hindex⟩ := hbase
  obtain ⟨routine', hat, hcode, -⟩ := h.routine hroutine
  exact ⟨routine', hat, Nat.le_trans hindex hcode.length_le⟩

/-! ### Ledgers -/

/-- The account that a rule keeps while it is at work. -/
structure Ledger where
  /-- The depth of the operand stack. -/
  depth : Nat
  /-- The jumps that have yet to land. -/
  held : List PendingJump
  /-- The jumps noted in the frame of its own. -/
  exits : List PendingJump
  /-- The positions it has asked for. -/
  spots : List Position

/-- The scopes that a rule is at work in. -/
structure Scoping where
  /-- The frame it has opened. -/
  own : Option FrameId
  /-- The depth at the start of the loop that can be left. -/
  level? : Option Nat

/-- Where an account was opened. -/
structure Opening where
  code : Assembly
  /-- The frames, as far as jumps are noted in them. -/
  frames : List Frame
  /-- The jumps that wait in the code, but that others have taken over. -/
  prior : List PendingJump

/-- **The ledger is right about the workspace,** and besides some jumps were handed to the loop
around. -/
structure Accounts (o : Opening) (s : Scoping) (l : Ledger) (added : List PendingJump)
    (ws : Workspace) : Prop where
  pends : o.code.Pends (l.held ++ (l.exits ++ (o.prior ++ added))) ws.code
  depth : ws.code.depth = l.depth
  frames : ws.scopes.frames.map Frame.noted =
    Frame.withBreaks added (Frame.withExits l.exits o.frames)
  fit : ws.scopes.Fit s.own
  own : ∀ id, s.own = some id → o.frames.head?.map Frame.scope = some id.scope
  /-- Only in the frame of a conditional exits are noted. -/
  branch : s.own.map FrameId.scope ≠ some .branch → l.exits = []
  level : Frame.level? o.frames = s.level?
  /-- Breaks have the depth of the loop they leave. -/
  levels : ∀ label ∈ added, s.level? = some label.depth
  entries : ∀ entry ∈ Frame.entries o.frames, ws.code.Has entry.1
  spots : ∀ spot ∈ l.spots, ws.code.Has spot
  /-- Breaks are handed over in the order in which they were written. -/
  order : (o.prior ++ added).Pairwise fun a b => a.index < b.index

/-- What has to be so for a node to be lowered: the current function is there, frames have numbers
that were given out, and loops start over at places that exist. -/
structure Workspace.Prepared (ws : Workspace) : Prop where
  there : ws.code.currentFunction < ws.code.routines.size
  fit : ws.scopes.Fit none
  entries : ∀ entry ∈ Frame.entries ws.scopes.frames, ws.code.Has entry.1

/-- The account of a node, as it is opened. -/
def Workspace.opening (ws : Workspace) : Opening :=
  ⟨ws.code, ws.scopes.frames.map Frame.noted, []⟩

/-- The depth at the start of the loop that can be left. -/
def Workspace.level? (ws : Workspace) : Option Nat := Frame.level? ws.scopes.frames

theorem Workspace.Prepared.accounts {ws : Workspace} (h : ws.Prepared) :
    Accounts ws.opening ⟨none, ws.level?⟩ ⟨ws.code.depth, [], [], []⟩ [] ws where
  pends := .refl h.there
  depth := rfl
  frames := by rw [Frame.withBreaks_nil, Frame.withExits_nil]; rfl
  fit := h.fit
  own := nofun
  branch _ := rfl
  level := Frame.level?_noted _
  levels := nofun
  entries := by
    rw [show Frame.entries ws.opening.frames = _ from Frame.entries_noted _]
    exact h.entries
  spots := nofun
  order := .nil

namespace Accounts

variable {o : Opening} {s : Scoping} {l : Ledger} {added more : List PendingJump}
  {ws ws' : Workspace}

theorem current_lt (h : Accounts o s l added ws) :
    ws.code.currentFunction < ws.code.routines.size := h.pends.current_lt

theorem serials (h : Accounts o s l added ws) :
    ws.scopes.frames.map Frame.serial = o.frames.map Frame.serial := by
  rw [← Frame.map_serial_noted, h.frames, Frame.map_serial_withBreaks, Frame.map_serial_withExits]

/-- The loop that can be left from the workspace. -/
theorem level_eq (h : Accounts o s l added ws) : ws.level? = s.level? := by
  rw [Workspace.level?, ← Frame.level?_noted, h.frames, Frame.level?_withBreaks,
    Frame.level?_withExits, h.level]

theorem entries_eq (h : Accounts o s l added ws) :
    Frame.entries ws.scopes.frames = Frame.entries o.frames := by
  rw [← Frame.entries_noted, h.frames, Frame.entries_withBreaks, Frame.entries_withExits]

/-- **A part can be lowered** wherever the ledger is right. -/
theorem prepared (h : Accounts o s l added ws) : ws.Prepared :=
  ⟨h.current_lt, h.fit.none, h.entries_eq ▸ h.entries⟩

/-- The account of a part goes into that of its node. -/
theorem after {depth : Nat} {spots : List Position} (h : Accounts o s l added ws)
    (h' : Accounts ws.opening ⟨none, ws.level?⟩ ⟨depth, [], [], spots⟩ more ws') :
    Accounts o s { l with depth } (added ++ more) ws' where
  pends := (h.pends.trans h'.pends).perm (List.Perm.of_eq (by simp [Workspace.opening]))
  depth := h'.depth
  frames := by
    rw [h'.frames, Frame.withExits_nil, show ws.opening.frames = _ from h.frames,
      Frame.withBreaks_append]
  fit := by
    have hserials : ws'.scopes.frames.map Frame.serial = ws.scopes.frames.map Frame.serial :=
      h'.serials.trans (Frame.map_serial_noted _)
    exact ⟨h'.fit.issued, fun id hid => hserials ▸ h.fit.owned id hid⟩
  own := h.own
  branch := h.branch
  level := h.level
  levels label hlabel := by
    rcases List.mem_append.mp hlabel with hold | hnew
    · exact h.levels label hold
    · exact h.level_eq.symm.trans (h'.levels label hnew)
  entries entry hentry := h'.pends.keeps.has (h.entries entry hentry)
  spots spot hspot := h'.pends.keeps.has (h.spots spot hspot)
  order := by
    rw [← List.append_assoc]
    refine List.pairwise_append.mpr ⟨h.order, h'.order, fun label hlabel other hother => ?_⟩
    have hlt : label.index < ws.code.length := h.pends.lt_length
      (List.mem_append_right _ (List.mem_append_right _ hlabel))
    have hge : ws.code.length ≤ other.index := (h'.pends.here other hother).2.1
    exact Nat.lt_of_lt_of_le hlt hge

/-- Neither the current function has changed nor what the frames remember about jumps. -/
theorem aside (h : Accounts o s l added ws)
    (hpends : o.code.Pends (l.held ++ (l.exits ++ (o.prior ++ added))) ws'.code)
    (hcurrent : ws'.code.current = ws.code.current)
    (hnoted : ws'.scopes.frames.map Frame.noted = ws.scopes.frames.map Frame.noted)
    (hserial : ws.scopes.nextSerial ≤ ws'.scopes.nextSerial)
    (hhas : ∀ position, ws.code.Has position → ws'.code.Has position) :
    Accounts o s l added ws' where
  pends := hpends
  depth := by rw [Assembly.depth, hcurrent]; exact h.depth
  frames := hnoted.trans h.frames
  fit := by
    have hserials : ws'.scopes.frames.map Frame.serial = ws.scopes.frames.map Frame.serial := by
      rw [← Frame.map_serial_noted, hnoted, Frame.map_serial_noted]
    refine ⟨fun frame hframe => ?_, fun id hid => hserials ▸ h.fit.owned id hid⟩
    have hmem : frame.serial ∈ ws.scopes.frames.map Frame.serial :=
      hserials ▸ List.mem_map_of_mem hframe
    obtain ⟨old, hold, hsame⟩ := List.mem_map.mp hmem
    exact hsame ▸ Nat.lt_of_lt_of_le (h.fit.issued old hold) hserial
  own := h.own
  branch := h.branch
  level := h.level
  levels := h.levels
  entries entry hentry := hhas _ (h.entries entry hentry)
  spots spot hspot := hhas _ (h.spots spot hspot)
  order := h.order

/-- What rests leaves the ledger right. -/
theorem rests (h : Accounts o s l added ws) (hrests : ws.Rests ws') :
    Accounts o s l added ws' := by
  have hsame : ∀ g < ws.code.routines.size, ws'.code.routines[g]? = ws.code.routines[g]? := by
    intro g _
    rw [hrests.routines]
  obtain ⟨hcurrent, hpends⟩ := h.pends.extend hsame hrests.opened hrests.constants hrests.regions
    fun g routine hg hat => by
      rw [hrests.routines, Array.getElem?_eq_none hg] at hat
      cases hat
  refine h.aside hpends hcurrent hrests.noted (Nat.le_of_eq hrests.nextSerial.symm) ?_
  intro position hposition
  rw [Assembly.Has, hrests.routines]
  exact hposition

/-- Jumps were noted in the frames, or nothing was that concerns jumps. -/
theorem reframe {l' : Ledger} {added' : List PendingJump} {change : List Frame → List Frame}
    (h : Accounts o s l added ws)
    (hlabels : (l.held ++ (l.exits ++ (o.prior ++ added))).Perm
      (l'.held ++ (l'.exits ++ (o.prior ++ added'))))
    (hdepth : l'.depth = l.depth) (hspots : l'.spots = l.spots)
    (hframes : (change ws.scopes.frames).map Frame.noted =
      Frame.withBreaks added' (Frame.withExits l'.exits o.frames))
    (hbranch : s.own.map FrameId.scope ≠ some .branch → l'.exits = [])
    (hlevels : ∀ label ∈ added', s.level? = some label.depth)
    (horder : (o.prior ++ added').Pairwise fun a b => a.index < b.index) :
    Accounts o s l' added' (ws.reframe change) where
  pends := h.pends.perm hlabels
  depth := h.depth.trans hdepth.symm
  frames := hframes
  fit := by
    have hserials : (change ws.scopes.frames).map Frame.serial =
        ws.scopes.frames.map Frame.serial := by
      rw [← Frame.map_serial_noted, hframes, Frame.map_serial_withBreaks,
        Frame.map_serial_withExits, h.serials]
    refine ⟨fun frame hframe => ?_, fun id hid => hserials ▸ h.fit.owned id hid⟩
    have hmem : frame.serial ∈ ws.scopes.frames.map Frame.serial :=
      hserials ▸ List.mem_map_of_mem hframe
    obtain ⟨old, hold, hsame⟩ := List.mem_map.mp hmem
    exact hsame ▸ h.fit.issued old hold
  own := h.own
  branch := hbranch
  level := h.level
  levels := hlevels
  entries := h.entries
  spots := hspots ▸ h.spots
  order := horder

/-- Something was done to the code alone. -/
theorem recode {l' : Ledger} {code : Assembly} (h : Accounts o s l added ws)
    (hpends : o.code.Pends (l'.held ++ (l'.exits ++ (o.prior ++ added))) code)
    (hdepth : code.depth = l'.depth) (hexits : l'.exits = l.exits)
    (hspots : ∀ spot ∈ l'.spots, code.Has spot)
    (hhas : ∀ position, ws.code.Has position → code.Has position) :
    Accounts o s l' added { ws with code } where
  pends := hpends
  depth := hdepth
  frames := hexits ▸ h.frames
  fit := h.fit
  own := h.own
  branch hscope := hexits.trans (h.branch hscope)
  level := h.level
  levels := h.levels
  entries entry hentry := hhas _ (h.entries entry hentry)
  spots := hspots
  order := h.order

end Accounts

end QueryCompiler
