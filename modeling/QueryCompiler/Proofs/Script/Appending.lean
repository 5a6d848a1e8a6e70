/-
Lowering only adds.

Every action that follows a script keeps its account: where it gets done the ledger it
promises is right, and where it fails what had been written is still there.  This is one
induction on the description, in which a scope is entered with an account of its own and
left by taking over what it has noted.  With the rules of the standard registry it holds
of every node, by induction on the room that is left.

In particular nothing that had been written is touched again, and the jumps that still
wait when a node is done are those it has handed to the loop around it.
-/
import QueryCompiler.Proofs.Order.Scopes
import QueryCompiler.Proofs.Script.Rules

namespace QueryCompiler

open Workspace

/-! ### Scopes -/

namespace Frame

/-- The loop that can be left from inside a frame. -/
theorem level?_cons (serial : Nat) (bindings : List (String × UInt16)) (state : FrameState)
    (outer : List Frame) :
    level? (⟨serial, bindings, state⟩ :: outer) = state.levelInside (level? outer) := by
  cases state <;> rfl

theorem entries_cons (frame : Frame) (outer : List Frame) :
    entries (frame :: outer) = frame.state.loopEntry?.toList ++ entries outer := by
  rw [entries, List.filterMap_cons]
  cases frame.state.loopEntry? <;> rfl

theorem noted_exits (frame : Frame) : frame.noted.state.exits = frame.state.exits := by
  obtain ⟨serial, bindings, state⟩ := frame
  cases state <;> rfl

theorem noted_breaks (frame : Frame) : frame.noted.state.breaks = frame.state.breaks := by
  obtain ⟨serial, bindings, state⟩ := frame
  cases state <;> rfl

/-- What a frame has collected when its scope is left: its own exits, and the breaks if it is that
of a loop.  Otherwise these went to a loop outside. -/
theorem collected {state : FrameState} {exits breaks : List PendingJump} {level? : Option Nat}
    (hscope : state.scope ≠ .function) (hfresh : state.exits = [] ∧ state.breaks = [])
    (hexits : state.scope ≠ .branch → exits = [])
    (hbreaks : ∀ label ∈ breaks, state.levelInside level? = some label.depth) (serial : Nat)
    (outer : List Frame) : ∃ last more,
      withBreaks breaks (withExits exits (⟨serial, [], state.noted⟩ :: outer)) =
        ⟨serial, [], last⟩ :: withBreaks more outer ∧
      last.scope = state.scope ∧ last.exits = exits ∧
      (∀ label ∈ last.breaks, state.loopEntry?.map Prod.snd = some label.depth) ∧
      (last.breaks = breaks ∧ more = [] ∨ last.breaks = [] ∧ more = breaks) ∧
      ∀ label ∈ more, level? = some label.depth := by
  cases state with
  | function => exact absurd rfl hscope
  | loop target depth noted =>
      obtain rfl : noted = #[] := Array.toList_eq_nil_iff.mp hfresh.2
      have hown : (FrameState.loop target depth (#[] ++ breaks.toArray)).breaks = breaks := by
        simp [FrameState.breaks]
      refine ⟨.loop target depth (#[] ++ breaks.toArray), [], ?_, rfl,
        (hexits (by rintro ⟨⟩)).symm, ?_, .inl ⟨hown, rfl⟩, by rintro _ ⟨⟩⟩
      · rw [withBreaks_nil]
        rfl
      · rw [hown]
        exact hbreaks
  | transform element =>
      obtain rfl : breaks = [] := Rule.breaks_eq_nil hbreaks
      refine ⟨.transform 0, [], ?_, rfl, (hexits (by rintro ⟨⟩)).symm, by rintro _ ⟨⟩,
        .inl ⟨rfl, rfl⟩, by rintro _ ⟨⟩⟩
      rw [withBreaks_nil, withBreaks_nil]
      rfl
  | branch arm noted =>
      obtain rfl : noted = #[] := Array.toList_eq_nil_iff.mp hfresh.1
      refine ⟨.branch 0 (#[] ++ exits.toArray), breaks, rfl, rfl, ?_, by rintro _ ⟨⟩,
        .inr ⟨rfl, rfl⟩, hbreaks⟩
      simp [FrameState.exits]
  | handler start guarded throws =>
      exact ⟨.handler ⟨0, 0⟩ false 0, breaks, rfl, rfl, (hexits (by rintro ⟨⟩)).symm,
        by rintro _ ⟨⟩, .inr ⟨rfl, rfl⟩, hbreaks⟩
  | block =>
      exact ⟨.block, breaks, rfl, rfl, (hexits (by rintro ⟨⟩)).symm, by rintro _ ⟨⟩,
        .inr ⟨rfl, rfl⟩, hbreaks⟩

end Frame

/-- The account inside a scope that was just entered. -/
def Opening.within (o : Opening) (added : List PendingJump) (ws : Workspace) (state : FrameState) :
    Opening :=
  ⟨o.code, (ws.entered state).scopes.frames.map Frame.noted, o.prior ++ added⟩

namespace Accounts

variable {o : Opening} {l l₁ : Ledger} {level? : Option Nat} {added added₁ more : List PendingJump}
  {ws inside : Workspace} {state : FrameState} {id : FrameId}

/-- A rule that has not opened a frame has no exits. -/
theorem exits_nil (h : Accounts o ⟨none, level?⟩ l added ws) : l.exits = [] := h.branch nofun

/-- A scope is entered. -/
theorem enter (h : Accounts o ⟨none, level?⟩ l added ws) (state : FrameState)
    (hspot : ∀ entry, state.loopEntry? = some entry → entry.1 ∈ l.spots) :
    Accounts (o.within added ws state)
      ⟨some ⟨ws.scopes.nextSerial, state.scope⟩, state.levelInside level?⟩ { l with exits := [] } []
      (ws.entered state) where
  pends := by
    have hpends := h.pends
    rw [h.exits_nil] at hpends
    exact hpends.perm (List.Perm.of_eq (by simp [Opening.within]))
  depth := h.depth
  frames := by rw [Frame.withBreaks_nil, Frame.withExits_nil]; rfl
  fit := entered_fit h.fit state
  own id hid := by
    obtain rfl := Option.some.inj hid
    exact congrArg some (Frame.noted_scope _)
  branch _ := rfl
  level := by
    rw [show Frame.level? (o.within added ws state).frames = _ from Frame.level?_noted _,
      show (ws.entered state).scopes.frames = _ :: ws.scopes.frames from rfl, Frame.level?_cons]
    exact congrArg (FrameState.levelInside · state) h.level_eq
  levels := nofun
  entries entry hentry := by
    rw [show Frame.entries (o.within added ws state).frames = _ from Frame.entries_noted _,
      show (ws.entered state).scopes.frames = _ :: ws.scopes.frames from rfl, Frame.entries_cons,
      List.mem_append] at hentry
    rcases hentry with hown | hold
    · exact h.spots _ (hspot entry (Option.mem_toList.mp hown))
    · exact h.entries entry (h.entries_eq ▸ hold)
  spots := h.spots
  order := by
    rw [List.append_nil]
    exact h.order

/-- A scope is left, and what was noted in its frame is held now: the exits of a conditional, and
the breaks of a loop.  Breaks inside any other scope went to the loop around. -/
theorem outside {frame : Frame} {outer : List Frame} (h : Accounts o ⟨none, level?⟩ l added ws)
    (hinside : Accounts (o.within added ws state) ⟨some id, state.levelInside level?⟩ l₁ added₁
      inside)
    (hframes : inside.scopes.frames = frame :: outer) (hexits : frame.state.exits = l₁.exits)
    (houter : outer.map Frame.noted = Frame.withBreaks more (ws.scopes.frames.map Frame.noted))
    (hbreaks : frame.state.breaks = added₁ ∧ more = [] ∨ frame.state.breaks = [] ∧ more = added₁)
    (hlevels : ∀ label ∈ more, level? = some label.depth) :
    Accounts o ⟨none, level?⟩
      { l₁ with held := l₁.held ++ (frame.state.exits ++ frame.state.breaks), exits := l.exits }
      (added ++ more) (inside.left frame) where
  pends := by
    refine hinside.pends.perm ?_
    rw [h.exits_nil, hexits]
    rcases hbreaks with ⟨hown, rfl⟩ | ⟨hown, rfl⟩
    · rw [hown]
      simp only [Opening.within, List.append_assoc, List.nil_append, List.append_nil]
      refine List.Perm.append_left _ (List.Perm.append_left _ ?_)
      rw [← List.append_assoc]
      exact List.perm_append_comm
    · rw [hown]
      exact List.Perm.of_eq (by simp [Opening.within])
  depth := hinside.depth
  frames := by
    simp only [left, hframes, List.tail_cons]
    rw [houter, h.frames, Frame.withBreaks_append]
  fit := by
    refine ⟨fun other hother => hinside.fit.issued other ?_, nofun⟩
    simp only [left, hframes, List.tail_cons] at hother
    rw [hframes]
    exact List.mem_cons_of_mem _ hother
  own := nofun
  branch _ := h.exits_nil
  level := h.level
  levels label hlabel := (List.mem_append.mp hlabel).elim (h.levels label) (hlevels label)
  entries entry hentry := hinside.entries entry (by
    rw [show Frame.entries (o.within added ws state).frames = _ from Frame.entries_noted _,
      show (ws.entered state).scopes.frames = _ :: ws.scopes.frames from rfl, Frame.entries_cons,
      h.entries_eq]
    exact List.mem_append_right _ hentry)
  spots := hinside.spots
  order := by
    have horder : (o.prior ++ added ++ added₁).Pairwise fun a b => a.index < b.index :=
      hinside.order
    rw [← List.append_assoc]
    rcases hbreaks with ⟨-, rfl⟩ | ⟨-, rfl⟩
    · rw [List.append_nil]
      exact h.order
    · exact horder

/-- **Leaving a scope,** whose frame is still the innermost one. -/
theorem leave (h : Accounts o ⟨none, level?⟩ l added ws) (hscope : state.scope ≠ .function)
    (hfresh : state.exits = [] ∧ state.breaks = []) (hid : id.scope = state.scope)
    (hinside : Accounts (o.within added ws state) ⟨some id, state.levelInside level?⟩ l₁ added₁
      inside) :
    ∃ frame outer, inside.scopes.frames = frame :: outer ∧ frame.serial = ws.scopes.nextSerial ∧
      frame.scope = state.scope ∧ frame.state.exits = l₁.exits ∧
      (∀ label ∈ frame.state.breaks, state.loopEntry?.map Prod.snd = some label.depth) ∧
      ∃ added', Accounts o ⟨none, level?⟩
        { l₁ with held := l₁.held ++ (frame.state.exits ++ frame.state.breaks), exits := l.exits }
        added' (inside.left frame) := by
  have hnone : state.scope ≠ .branch → l₁.exits = [] := by
    intro hother
    refine hinside.branch fun hbranch => hother ?_
    rw [← hid]
    exact Option.some.inj hbranch
  obtain ⟨last, more, hcollected, hlast, hexits, hbreaks, hsplit, hlevels⟩ := Frame.collected hscope
    hfresh hnone hinside.levels ws.scopes.nextSerial (ws.scopes.frames.map Frame.noted)
  obtain ⟨frame, outer, hframes, hframe, houter⟩ :=
    List.map_eq_cons_iff.mp (hinside.frames.trans hcollected)
  have hstate : frame.state.exits = last.exits ∧ frame.state.breaks = last.breaks := by
    rw [← Frame.noted_exits, ← Frame.noted_breaks, hframe]
    exact ⟨rfl, rfl⟩
  have hsame : frame.scope = last.scope := by
    rw [← Frame.noted_scope, hframe]
    rfl
  refine ⟨frame, outer, hframes, congrArg Frame.serial hframe, hsame.trans hlast,
    hstate.1.trans hexits, hstate.2 ▸ hbreaks, added ++ more,
    h.outside hinside hframes (hstate.1.trans hexits) houter (hstate.2 ▸ hsplit) hlevels⟩

end Accounts

/-! ### Actions -/

/-- The node is accounted for: if it gets done, the depth is that of its balance, and nothing waits
that was written for it except for the breaks it has handed to the loop around.  If it fails, what
had been written is still there. -/
def Lower.Accounted (lower : Lower) (node : Node) : Prop :=
  ∀ ws, ws.Prepared → (lower node ws).Ensures
    (fun _ ws' => ∃ added, Accounts ws.opening ⟨none, ws.level?⟩
      ⟨ws.code.depth + node.construct.balance.gain, [], [], []⟩ added ws')
    fun _ code => ws.code.Keeps code

/-- Taking a slot has no part in the account, and it fails for want of one or of a function. -/
theorem Accounts.takeSlot {o : Opening} {s : Scoping} {l : Ledger} {added : List PendingJump}
    {ws : Workspace} (h : Accounts o s l added ws) (span : Span) :
    (Workspace.takeSlot span ws).Ensures (fun _ ws' => Accounts o s l added ws')
      fun _ code => code = ws.code := by
  cases hdone : Workspace.takeSlot span ws with
  | done slot ws' =>
      obtain ⟨-, -, rfl⟩ := takeSlot_done hdone
      refine h.reframe (List.Perm.refl _) rfl rfl ?_ h.branch h.levels h.order
      rw [Frame.map_noted_of_still Frame.takeSlot_still]
      exact h.frames
  | failed error ws' =>
      have hclean := (ScopeStack.takeSlot_failsClean span).onScopes
      exact congrArg Workspace.code (hclean.eq_of_failed hdone)
  | fault fault => trivial

/-- A function has been opened, and nothing has been written in it. -/
theorem Workspace.Prepared.opened {ws : Workspace} (h : ws.Prepared) (params : UInt16) :
    (Layout.opened ws params).Prepared where
  there := by simp [Layout.opened, Assembly.currentFunction]
  fit := h.fit
  entries entry hentry := by
    obtain ⟨routine, hroutine, hindex⟩ := h.entries entry hentry
    have hlt := (Array.getElem?_eq_some_iff.mp hroutine).1
    exact ⟨routine, (opened_getElem? hlt).trans hroutine, hindex⟩

theorem opened_depth (ws : Workspace) (params : UInt16) :
    (Layout.opened ws params).code.depth = 0 := by
  simp [Layout.opened, Assembly.depth, Assembly.current, Assembly.currentFunction, Routine.start]

/-- A function that cannot be closed is left as it is. -/
theorem closeFunction_failed {locals : UInt16} {error : CompileError} {ws ws' : Workspace}
    (h : onCode (Assembly.closeFunction locals) ws = .failed error ws') :
    error = .internal .noNestedFunction ∧ ws' = ws := by
  obtain ⟨code, hclose, rfl⟩ := onCode_failed.mp h
  unfold Assembly.closeFunction at hclose
  split at hclose
  · cases hclose
  · obtain ⟨rfl, rfl⟩ := Outcome.failed.inj hclose
    exact ⟨rfl, rfl⟩

namespace Accounts

variable {o : Opening} {s : Scoping} {l l₁ : Ledger} {added added₁ : List PendingJump}
  {ws inside : Workspace} {params : UInt16}

/-- The workspace inside a new function. -/
abbrev inFunction (ws : Workspace) (params : UInt16) : Workspace :=
  (Layout.opened ws params).entered (.function ws.code.routines.size 0)

/-- The account inside a new function. -/
abbrev openingIn (ws : Workspace) (params : UInt16) : Opening :=
  (Layout.opened ws params).opening.within [] (Layout.opened ws params)
    (.function ws.code.routines.size 0)

/-- A function is entered. -/
theorem enterFunction (h : Accounts o s l added ws) (params : UInt16) :
    Accounts (openingIn ws params) ⟨some ⟨ws.scopes.nextSerial, .function⟩, none⟩ ⟨0, [], [], []⟩ []
      (inFunction ws params) := by
  have hopened :=
    (h.prepared.opened params).accounts.enter (.function ws.code.routines.size 0) nofun
  rw [opened_depth] at hopened
  exact hopened

/-- What is known behind the body of a function that was entered: nothing waits in it, and the
frames around it are as they were. -/
structure Ended (base inside : Workspace) (frame : Frame) : Prop where
  frames : ∃ outer, inside.scopes.frames = frame :: outer ∧
    outer.map Frame.noted = base.scopes.frames.map Frame.noted
  serial : frame.serial = base.scopes.nextSerial
  scope : frame.scope = .function
  nextSerial : base.scopes.nextSerial ≤ inside.scopes.nextSerial
  pends : base.code.Pends [] inside.code

/-- The body of a function ends. -/
theorem ended {base : Workspace} {f : Nat} {id : FrameId} (hid : id.scope = .function)
    (hheld : l₁.held = [])
    (h : Accounts (base.opening.within [] base (.function f 0)) ⟨some id, none⟩ l₁ added₁ inside) :
    ∃ frame, Ended base inside frame := by
  obtain rfl : added₁ = [] := Rule.breaks_eq_nil h.levels
  have hexits : l₁.exits = [] := h.branch (by rw [Option.map_some, hid]; exact nofun)
  have hframes := h.frames
  rw [Frame.withBreaks_nil, hexits, Frame.withExits_nil] at hframes
  obtain ⟨frame, outer, hinside, hframe, houter⟩ := List.map_eq_cons_iff.mp hframes
  have hserial : frame.serial = base.scopes.nextSerial := congrArg Frame.serial hframe
  have hscope : frame.scope = .function := by
    rw [← Frame.noted_scope, hframe]
    rfl
  have hpends := h.pends
  rw [hheld, hexits] at hpends
  refine ⟨frame, ⟨outer, hinside, houter⟩, hserial, hscope, ?_, hpends⟩
  have hissued := h.fit.issued frame (hinside ▸ List.mem_cons_self)
  omega

/-- A function was opened and closed again. -/
theorem closed (h : Accounts o s l added ws) {frame : Frame} (locals : UInt16)
    (hended : Ended (Layout.opened ws params) inside frame) :
    Accounts o s l added (Layout.closed (inside.left frame) locals ws.code.opened) := by
  obtain ⟨outer, hframes, houter⟩ := hended.frames
  have hleft : (Layout.opened ws params).code.Pends [] (inside.left frame).code := hended.pends
  obtain ⟨hcurrent, hpends⟩ := h.pends.function locals hleft
  obtain ⟨-, hkept⟩ := (Assembly.Pends.refl h.current_lt).function locals hleft
  refine h.aside hpends hcurrent ?_ hended.nextSerial fun _ hposition => hkept.keeps.has hposition
  simp only [Layout.closed, left, hframes, List.tail_cons]
  exact houter

/-- **What becomes of a closure:** the function is closed and the instruction that makes it is
written, or it fails and what had been written is still there. -/
theorem closure (h : Accounts o s l added ws) {body : Action Workspace Unit}
    (hbody : (body (inFunction ws params)).Ensures
      (fun _ inside => ∃ frame, Ended (Layout.opened ws params) inside frame)
      fun _ code => (Layout.opened ws params).code.Keeps code) :
    (emitClosure params body ws).Ensures
      (fun _ ws' => ∃ l' added', l' = { l with depth := l.depth + 1 } ∧ Accounts o s l' added' ws')
      fun _ code => o.code.Keeps code := by
  have hopen : onCode (Assembly.openFunction params) ws =
      .done ws.code.routines.size (Layout.opened ws params) := rfl
  have hwithin : (Workspace.within (.function ws.code.routines.size 0) (fun _ => body)
      (Layout.opened ws params)).Ensures
        (fun _ ws₂ => ∃ inside frame,
          Ended (Layout.opened ws params) inside frame ∧ ws₂ = inside.left frame)
        fun _ code => o.code.Keeps code := by
    refine .within (hbody.mono ?_ fun _ _ hkeeps => h.pends.keeps.ofFunction hkeeps)
    rintro - inside ⟨frame, hended⟩
    obtain ⟨outer, hframes, -⟩ := hended.frames
    exact ⟨frame, outer, hframes, hended.serial, inside, frame, hended, rfl⟩
  rw [emitClosure, Action.bind_apply, hopen]
  refine hwithin.bind ?_
  rintro ⟨⟨⟩, state⟩ _ - ⟨inside, frame, hended, rfl⟩
  have hopened : (inside.left frame).code.opened = ws.code.routines.size :: ws.code.opened :=
    hended.pends.opened
  dsimp only
  rw [Action.bind_apply]
  cases hclose :
      onCode (Assembly.closeFunction (state.nextSlot?.getD params)) (inside.left frame) with
  | done id closed =>
      obtain rfl := Layout.closeFunction_done hopened hclose
      have hshape : (Operand.function id.toUInt32).shape ≠ .target := by rintro ⟨⟩
      exact (Books.emitWith .makeLambda hshape o added _ (h.closed _ hended)).mono
        (fun _ _ hbooked => hbooked.1) fun _ _ hbooked => hbooked.2
  | failed error closed =>
      obtain ⟨-, rfl⟩ := closeFunction_failed hclose
      exact h.pends.keeps.ofFunction hended.pends.keeps
  | fault fault => trivial

end Accounts

/-- **A script keeps its account,** if the parts are accounted for. -/
theorem Scripted.accounted {α : Type} {s : Scoping} {l : Ledger} {p : List Errand}
    {act : Lower → Action Workspace α} {post : α → Ledger → Prop} {lower : Lower}
    (h : Scripted s l p act post) (hlower : ∀ node, lower.Accounted node) {o : Opening}
    {added : List PendingJump} {ws : Workspace} (hws : Accounts o s l added ws) :
    (act lower ws).Ensures
      (fun x ws' => ∃ l' added', post x l' ∧ Accounts o s l' added' ws')
      fun _ code => o.code.Keeps code := by
  induction h generalizing o added ws with
  | own h => exact (h o added ws hws).mono (fun _ _ h => h.1) fun _ _ h => h.2
  | mono _ hpost ih =>
      refine (ih hws).mono ?_ fun _ _ h => h
      rintro x ws' ⟨l', added', hmid, haccounts⟩
      exact ⟨l', added', hpost x l' hmid, haccounts⟩
  | bind _ _ ihfirst ihnext =>
      refine (ihfirst hws).bind ?_
      rintro x ws' - ⟨l', added', hmid, haccounts⟩
      exact ihnext x l' hmid haccounts
  | fail => exact hws.pends.keeps
  | part node =>
      refine (hlower node ws hws.prepared).mono ?_ fun _ _ h =>
        hws.pends.keeps.trans hws.pends.currentFunction h
      rintro - ws' ⟨more, haccounts⟩
      rw [hws.depth] at haccounts
      exact ⟨_, _, rfl, hws.after haccounts⟩
  | takeSlot span =>
      refine (hws.takeSlot span).mono (fun _ _ h => ⟨_, _, rfl, h⟩) ?_
      rintro - _ rfl
      exact hws.pends.keeps
  | within state hscope hfresh hspot _ ih =>
      refine Outcome.Ensures.within ((ih _ rfl (hws.enter state hspot)).mono ?_ fun _ _ h => h)
      rintro x inside ⟨l₁, added₁, hinside, haccounts⟩
      obtain ⟨frame, outer, hframes, hserial, -, hexits, hbreaks, added', hleft⟩ :=
        hws.leave hscope hfresh rfl haccounts
      exact ⟨frame, outer, hframes, hserial, _, added', ⟨l₁, hinside, hexits, hbreaks, rfl⟩, hleft⟩
  | function hfew _ ih =>
      refine hws.closure ((ih ⟨_, .function⟩ rfl (hws.enterFunction _)).mono ?_ fun _ _ h => h)
      rintro - inside ⟨l₁, added₁, hheld, hinside⟩
      exact Accounts.ended rfl hheld hinside
  | overfull => exact hws.pends.keeps

/-! ### Nodes -/

/-- The source line has no part in an account. -/
theorem Accounts.ofLines {s : Scoping} {l : Ledger} {added : List PendingJump} {ws ws' : Workspace}
    {line line' : Nat} (h : Accounts (ws.atLine line).opening s l added ws') :
    Accounts ws.opening s l added (ws'.atLine line') :=
  { h with pends := h.pends.ofLines }

theorem Workspace.Prepared.atLine {ws : Workspace} (h : ws.Prepared) (line : Nat) :
    (ws.atLine line).Prepared :=
  ⟨h.there, h.fit, h.entries⟩

/-- A node whose rule keeps its account and leaves a settled ledger is accounted for. -/
theorem supervise_accounted {settings : Settings} {node : Node} {lowering : Action Workspace Unit}
    {ws : Workspace}
    (h : ∀ line, (lowering (ws.atLine line)).Ensures
      (fun _ ws' => ∃ l added, Rule.Settled ⟨ws.code.depth, ws.level?⟩ node.construct.balance l ∧
        Accounts (ws.atLine line).opening ⟨none, ws.level?⟩ l added ws')
      fun _ code => (ws.atLine line).code.Keeps code) :
    (Contract.supervise settings node lowering ws).Ensures
      (fun _ ws' => ∃ added, Accounts ws.opening ⟨none, ws.level?⟩
        ⟨ws.code.depth + node.construct.balance.gain, [], [], []⟩ added ws')
      fun _ code => ws.code.Keeps code := by
  rw [Contract.supervise_apply]
  generalize Contract.startLine settings node ws.code.line = line
  have hline := h line
  cases hrule : lowering (ws.atLine line) with
  | done u inside =>
      rw [show lowering (ws.atLine line) = _ from hrule] at hline
      obtain ⟨⟨depth, held, exits, spots⟩, added, ⟨hdepth, rfl, rfl⟩, haccounts⟩ := hline
      have hback : Accounts ws.opening ⟨none, ws.level?⟩ ⟨depth, [], [], spots⟩ added
          (inside.atLine ws.code.line) := haccounts.ofLines
      have hcheck := Contract.check_scripted (s := ⟨none, ws.level?⟩) (l := ⟨depth, [], [], spots⟩)
        settings node ws.scopes.height ws.scopes.counts.pushes ws.code.depth hdepth
      -- No part is lowered any more, so that it does not matter how that would be done.
      have hnone : ∀ part,
          Lower.Accounted (fun _ => Action.fail (.internal .noNestedFunction)) part :=
        fun _ other _ => .refl other.code
      refine (hcheck.accounted hnone hback).mono ?_ fun _ _ h => h
      rintro - ws' ⟨_, added', rfl, hdone⟩
      exact ⟨added', { hdone with spots := nofun }⟩
  | failed error inside =>
      rw [show lowering (ws.atLine line) = _ from hrule] at hline
      exact ⟨hline.others, hline.own, hline.constants, hline.regions⟩
  | fault fault => trivial

/-- **Every node is accounted for.** -/
theorem lowerWithin_accounted (settings : Settings) (room : Nat) (node : Node) :
    (lowerWithin .standard settings room).Accounted node := by
  induction room generalizing node with
  | zero => exact fun ws _ => .refl ws.code
  | succ room ih =>
      intro ws hws
      refine supervise_accounted fun line => ?_
      have hserves := Rule.standard_serves node ⟨ws.code.depth, ws.level?⟩
      exact (hserves.accounted ih (hws.atLine line).accounts).mono (fun _ _ h => h) fun _ _ h => h

/-! ### What waits when a node is done -/

/-- Where jumps wait in a function, from an index on. -/
def Routine.waitsFrom (routine : Routine) (start : Nat) : List Nat :=
  (List.range' start (routine.code.size - start)).filter fun i =>
    routine.code[i]?.any fun instruction => decide (instruction.operand = .unaimed)

/-- Where jumps wait in the code that was added to a program, function by function. -/
def Assembly.waitsSince (base code : Assembly) : List Position :=
  (List.range code.routines.size).flatMap fun g =>
    ((code.routines.getD g (Routine.start 0)).waitsFrom
      (base.routines.getD g (Routine.start 0)).code.size).map (Position.mk g)

theorem Routine.mem_waitsFrom {routine : Routine} {start i : Nat} :
    i ∈ routine.waitsFrom start ↔
      start ≤ i ∧ ∃ op, routine.code[i]? = some ⟨op, .unaimed⟩ := by
  rw [waitsFrom, List.mem_filter, List.mem_range'_1, Option.any_eq_true]
  constructor
  · rintro ⟨⟨hstart, -⟩, ⟨op, operand⟩, hat, hwaits⟩
    obtain rfl : operand = .unaimed := of_decide_eq_true hwaits
    exact ⟨hstart, op, hat⟩
  · rintro ⟨hstart, op, hat⟩
    have hlt := (Array.getElem?_eq_some_iff.mp hat).1
    exact ⟨⟨hstart, by omega⟩, _, hat, decide_eq_true rfl⟩

theorem Routine.waitsFrom_eq_nil {routine : Routine} {start : Nat}
    (h : ∀ instruction ∈ routine.code, instruction.operand ≠ .unaimed) :
    routine.waitsFrom start = [] := by
  refine List.eq_nil_iff_forall_not_mem.mpr fun i hi => ?_
  obtain ⟨-, op, hat⟩ := mem_waitsFrom.mp hi
  exact h _ (Array.mem_of_getElem? hat) rfl

/-- A list of lists of which at most one is not empty. -/
theorem flatMap_range_eq {α : Type} {f : Nat → List α} {c : Nat} (h : ∀ g, g ≠ c → f g = [])
    (n : Nat) : (List.range n).flatMap f = if c < n then f c else [] := by
  induction n with
  | zero => rfl
  | succ n ih =>
      rw [List.range_succ, List.flatMap_append, ih, List.flatMap_singleton]
      by_cases hlt : c < n
      · rw [if_pos hlt, if_pos (by omega), h n (by omega), List.append_nil]
      · by_cases heq : c = n
        · subst heq
          rw [if_neg hlt, if_pos (Nat.lt_succ_self c), List.nil_append]
        · rw [if_neg hlt, if_neg (by omega), h n (by omega), List.append_nil]

/-- In functions that are short enough the jumps that wait are told from all others, and those that
were noted in order are found in order. -/
theorem Assembly.Pends.waitsSince_eq {base code : Assembly} {labels : List PendingJump}
    (h : base.Pends labels code) (horder : labels.Pairwise fun a b => a.index < b.index)
    (hshort : ∀ routine ∈ code.routines, routine.code.size < 4294967295) :
    base.waitsSince code = labels.map PendingJump.position := by
  have hcurrent : code.currentFunction = base.currentFunction := h.currentFunction
  have hlt := h.current_lt
  have hown : code.current.waitsFrom base.length = labels.map PendingJump.index := by
    have hsame : ∀ i,
        i ∈ code.current.waitsFrom base.length ↔ i ∈ labels.map PendingJump.index := by
      intro i
      rw [Routine.mem_waitsFrom]
      constructor
      · rintro ⟨hstart, op, hat⟩
        by_contra hnot
        have hmem : code.current ∈ code.routines := by
          exact Array.mem_of_getElem? (getElem?_current hlt)
        exact (h.aimed i _ hstart hat hnot).ne_unaimed (hshort _ hmem) rfl
      · intro hmem
        obtain ⟨label, hlabel, rfl⟩ := List.mem_map.mp hmem
        exact (h.here label hlabel).2
    have hsorted : (code.current.waitsFrom base.length).Pairwise (· < ·) :=
      List.Pairwise.filter _ List.pairwise_lt_range'
    have hsorted' : (labels.map PendingJump.index).Pairwise (· < ·) := List.pairwise_map.mpr horder
    have hnodup : (code.current.waitsFrom base.length).Nodup := hsorted.imp Nat.ne_of_lt
    have hperm := (List.perm_ext_iff_of_nodup hnodup (hsorted'.imp Nat.ne_of_lt)).mpr hsame
    exact hperm.eq_of_pairwise (fun _ _ _ _ hab hba => absurd hba (Nat.lt_asymm hab)) hsorted
      hsorted'
  have hothers : ∀ g, g ≠ base.currentFunction →
      ((code.routines.getD g (Routine.start 0)).waitsFrom
        (base.routines.getD g (Routine.start 0)).code.size).map (Position.mk g) = [] := by
    intro g hg
    rw [List.map_eq_nil_iff, Array.getD_eq_getD_getElem?, Array.getD_eq_getD_getElem?]
    cases hbase : base.routines[g]? with
    | some routine =>
        -- The function is the one it was, and nothing was added to it.
        rw [h.keeps.others g routine hbase hg]
        exact List.eq_nil_iff_forall_not_mem.mpr fun i hi => by
          obtain ⟨hstart, op, hat⟩ := Routine.mem_waitsFrom.mp hi
          exact absurd (Array.getElem?_eq_some_iff.mp hat).1 (Nat.not_lt.mpr hstart)
    | none =>
        refine Routine.waitsFrom_eq_nil fun instruction hinstruction => ?_
        cases hcode : code.routines[g]? with
        | none =>
            rw [hcode] at hinstruction
            exact absurd hinstruction (Array.not_mem_empty _)
        | some routine =>
            rw [hcode] at hinstruction
            exact (h.made g routine (Array.getElem?_eq_none_iff.mp hbase) hcode instruction
              hinstruction).ne_unaimed (hshort routine (Array.mem_of_getElem? hcode))
  rw [waitsSince, flatMap_range_eq hothers, if_pos (hcurrent ▸ hlt)]
  have hcode : code.routines.getD base.currentFunction (Routine.start 0) = code.current := by
    rw [← hcurrent]
    rfl
  rw [hcode, show (base.routines.getD base.currentFunction (Routine.start 0)).code.size =
    base.length from rfl, hown, List.map_map]
  refine List.map_congr_left fun label hlabel => ?_
  rw [Function.comp_apply, ← (h.here label hlabel).1]

namespace Frame

/-- The breaks go to the innermost loop. -/
theorem breaks_withBreaks (labels : List PendingJump) (frames : List Frame) :
    (innermost? .loop (withBreaks labels frames)).map (fun frame => frame.state.breaks) =
      (innermost? .loop frames).map fun frame => frame.state.breaks ++ labels := by
  rw [innermost?_withBreaks, Option.map_map]
  refine Option.map_congr fun ⟨serial, bindings, state⟩ hframe => ?_
  have hloop := scope_of_innermost? hframe
  cases state with
  | loop target depth noted => simp [modify, FrameState.addBreaks, FrameState.breaks]
  | function | handler | branch | block | transform => cases hloop

end Frame

/-- **Lowering only adds, and leaves only jumps open that a loop owns.**  However it ends, unless in
a fault, nothing is lost that had been written.  If it gets done, the jumps that wait in the code
that was added are those of the labels that the loop around has got to land, in order, and nothing
else about jumps has changed in any frame. -/
theorem lowering_appends (settings : Settings) (room : Nat) (node : Node) (ws : Workspace)
    (hthere : ws.code.currentFunction < ws.code.routines.size) (hstack : ws.scopes.Reached)
    (htargets : ∀ entry ∈ Frame.entries ws.scopes.frames, ws.code.Has entry.1) :
    (∀ error ws', lowerWithin .standard settings room node ws = .failed error ws' →
      ws.code.Keeps ws'.code) ∧
    ∀ ws', lowerWithin .standard settings room node ws = .done () ws' →
      ws.code.Keeps ws'.code ∧
      ((∀ routine ∈ ws'.code.routines, routine.code.size < 4294967295) → ∃ added,
        ws.code.waitsSince ws'.code = added.map PendingJump.position ∧
        (Frame.innermost? .loop ws.scopes.frames = none → added = []) ∧
        (Frame.innermost? .loop ws'.scopes.frames).map (fun frame => frame.state.breaks) =
          (Frame.innermost? .loop ws.scopes.frames).map (fun frame => frame.state.breaks ++ added) ∧
        ws'.scopes.frames.map Frame.noted =
          Frame.withBreaks added (ws.scopes.frames.map Frame.noted)) := by
  have haccounted := lowerWithin_accounted settings room node ws ⟨hthere, hstack.fit, htargets⟩
  refine ⟨fun error ws' hfailed => ?_, fun ws' hdone => ?_⟩
  · rw [hfailed] at haccounted
    exact haccounted
  · rw [hdone] at haccounted
    obtain ⟨added, haccounts⟩ := haccounted
    have hframes := haccounts.frames
    rw [Frame.withExits_nil] at hframes
    refine ⟨haccounts.pends.keeps, fun hshort => ⟨added,
      haccounts.pends.waitsSince_eq haccounts.order hshort, fun hnone => ?_, ?_, hframes⟩⟩
    · refine Rule.breaks_eq_nil fun label hlabel => ?_
      rw [← haccounts.levels label hlabel]
      show none = Frame.level? ws.scopes.frames
      rw [Frame.level?, hnone]
      rfl
    · have hnoted : ∀ (frames : List Frame) (more : List PendingJump),
          (Frame.innermost? .loop (frames.map Frame.noted)).map
              (fun frame => frame.state.breaks ++ more) =
            (Frame.innermost? .loop frames).map fun frame => frame.state.breaks ++ more := by
        intro frames more
        rw [Frame.innermost?_noted, Option.map_map]
        exact Option.map_congr fun frame _ => by rw [Function.comp_apply, Frame.noted_breaks]
      have hbreaks := hnoted ws'.scopes.frames []
      simp only [List.append_nil] at hbreaks
      rw [← hbreaks, hframes, Frame.breaks_withBreaks]
      exact hnoted ws.scopes.frames added

/-- A `break` that is taken if a parameter of the query says so. -/
def conditionalBreak : Node := .ifChain [(.param "p" {}, .breakLoop {})] none {}

/-- A workspace in which nothing has been done but to open the main function and a loop. -/
def atLoop : Workspace := atMain.entered (.loop ⟨0, 0⟩ 0 #[])

theorem conditionalBreak_waits : (match lowerWithin .standard {} 3 conditionalBreak atLoop with
    | .done _ ws' => some (ws'.code.routines.map fun routine => routine.code.size,
        atLoop.code.waitsSince ws'.code)
    | _ => none) = some (#[3], [⟨0, 2⟩]) := by
  decide +kernel

theorem conditionalBreak_appends : ∃ ws' added,
    lowerWithin .standard {} 3 conditionalBreak atLoop = .done () ws' ∧
    atLoop.code.Keeps ws'.code ∧ added.map PendingJump.position = [⟨0, 2⟩] ∧
    (Frame.innermost? .loop ws'.scopes.frames).map (fun frame => frame.state.breaks) =
      some added := by
  have hstack : atLoop.scopes.Reached := .push (.push (.start false) rfl) rfl
  have htargets : ∀ entry ∈ Frame.entries atLoop.scopes.frames, atLoop.code.Has entry.1 := by
    intro entry hentry
    obtain rfl : entry = (⟨0, 0⟩, 0) := List.mem_singleton.mp hentry
    exact ⟨Routine.start 0, rfl, Nat.le_refl 0⟩
  obtain ⟨-, hdone⟩ := lowering_appends {} 3 conditionalBreak atLoop (by decide) hstack htargets
  have hfacts := conditionalBreak_waits
  cases hlower : lowerWithin .standard {} 3 conditionalBreak atLoop with
  | done u ws' =>
      rw [hlower] at hfacts
      obtain ⟨hsizes, hwaits⟩ := Prod.mk.inj (Option.some.inj hfacts)
      obtain ⟨hkeeps, hopen⟩ := hdone ws' hlower
      have hshort : ∀ routine ∈ ws'.code.routines, routine.code.size < 4294967295 := by
        intro routine hroutine
        have hsize : routine.code.size ∈ #[3] := hsizes ▸ Array.mem_map_of_mem hroutine
        rw [Array.mem_singleton.mp hsize]
        decide
      obtain ⟨added, hadded, -, hbreaks, -⟩ := hopen hshort
      exact ⟨ws', added, rfl, hkeeps, hadded.symm.trans hwaits, hbreaks⟩
  | failed error ws' =>
      rw [hlower] at hfacts
      cases hfacts
  | fault fault =>
      rw [hlower] at hfacts
      cases hfacts

end QueryCompiler
