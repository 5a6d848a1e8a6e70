/-
What operations do to a ledger.

An action `Books` what it does if it leads from a ledger that is right to one that is
right again.  Each operation of a workspace does so, and says how the ledger changes:
an instruction changes the depth, a jump is held until it lands or is handed to a frame.
What has failed is of no account any more, except that nothing may be lost that had been
written before.
-/
import QueryCompiler.Proofs.Script.Ledger
import QueryCompiler.Proofs.Sessions.Refusals

namespace QueryCompiler

open Workspace

/-! ### Closing scopes -/

namespace Workspace

variable {α : Type} {state : FrameState} {body : FrameId → Action Workspace α}
  {ws inside : Workspace}

/-- A scope is closed if its frame is the innermost one in the end. -/
theorem within_of_done {x : α} {frame : Frame} {outer : List Frame}
    (hbody : body ⟨ws.scopes.nextSerial, state.scope⟩ (ws.entered state) = .done x inside)
    (hframes : inside.scopes.frames = frame :: outer)
    (hserial : frame.serial = ws.scopes.nextSerial) :
    within state body ws = .done (x, frame.state) (inside.left frame) := by
  have hpop := pop_innermost ⟨ws.scopes.nextSerial, state.scope⟩ hframes hserial
  rw [within_eq, hbody]
  simp only [Action.bind_apply, hpop]
  rfl

/-- A failure inside a scope is passed on. -/
theorem within_of_failed {error : CompileError}
    (hbody : body ⟨ws.scopes.nextSerial, state.scope⟩ (ws.entered state) = .failed error inside) :
    ∃ after, within state body ws = .failed error after ∧ after.code = inside.code := by
  obtain ⟨closed, after, hpop⟩ := pop_attempt ⟨ws.scopes.nextSerial, state.scope⟩ inside
  have hcode : after.code = inside.code := by
    simp only [Action.attempt, onScopes] at hpop
    cases hscopes : ScopeStack.pop ⟨ws.scopes.nextSerial, state.scope⟩ inside.scopes <;>
      rw [hscopes] at hpop <;> cases hpop <;> rfl
  refine ⟨after, ?_, hcode⟩
  rw [within_eq, hbody]
  simp only [Action.bind_apply, hpop]
  rfl

end Workspace

/-! ### Actions and ledgers -/

/-- However it ends, unless in a fault: a value and a workspace are left behind, or an error and a
program under construction. -/
def Outcome.Ensures {α : Type} (done : α → Workspace → Prop)
    (failed : CompileError → Assembly → Prop) : Outcome Workspace α → Prop
  | .done x ws => done x ws
  | .failed error ws => failed error ws.code
  | .fault _ => True

namespace Outcome.Ensures

variable {α β : Type} {failed : CompileError → Assembly → Prop} {ws : Workspace}

theorem mono {outcome : Outcome Workspace α} {done done' : α → Workspace → Prop}
    {failed' : CompileError → Assembly → Prop} (h : outcome.Ensures done failed)
    (hdone : ∀ x ws, done x ws → done' x ws)
    (hfailed : ∀ error code, failed error code → failed' error code) :
    outcome.Ensures done' failed' := by
  cases outcome with
  | done x ws => exact hdone x ws h
  | failed error ws => exact hfailed error ws.code h
  | fault fault => trivial

theorem bind {first : Action Workspace α} {next : α → Action Workspace β}
    {mid : α → Workspace → Prop} {post : β → Workspace → Prop}
    (hfirst : (first ws).Ensures mid failed)
    (hnext : ∀ x ws', first ws = .done x ws' → mid x ws' → (next x ws').Ensures post failed) :
    ((first >>= next) ws).Ensures post failed := by
  rw [Action.bind_apply]
  cases hdone : first ws with
  | done x ws' =>
      rw [hdone] at hfirst
      exact hnext x ws' hdone hfirst
  | failed error ws' =>
      rw [hdone] at hfirst
      exact hfirst
  | fault fault => trivial

/-- A scope whose frame is innermost in the end is closed, and a failure inside is passed on. -/
theorem within {state : FrameState} {body : FrameId → Action Workspace α}
    {post : α × FrameState → Workspace → Prop}
    (h : (body ⟨ws.scopes.nextSerial, state.scope⟩ (ws.entered state)).Ensures
      (fun x inside => ∃ frame outer, inside.scopes.frames = frame :: outer ∧
        frame.serial = ws.scopes.nextSerial ∧ post (x, frame.state) (inside.left frame)) failed) :
    (Workspace.within state body ws).Ensures post failed := by
  cases hbody : body ⟨ws.scopes.nextSerial, state.scope⟩ (ws.entered state) with
  | done x inside =>
      rw [hbody] at h
      obtain ⟨frame, outer, hframes, hserial, hpost⟩ := h
      rw [within_of_done hbody hframes hserial]
      exact hpost
  | failed error inside =>
      rw [hbody] at h
      obtain ⟨after, hfailed, hcode⟩ := within_of_failed hbody
      rw [hfailed]
      show failed error after.code
      rw [hcode]
      exact h
  | fault fault =>
      rw [within_eq, hbody]
      trivial

end Outcome.Ensures

/-- The parameters and locals of every function. -/
def Assembly.tallies (code : Assembly) : List (UInt16 × UInt16) :=
  code.routines.toList.map fun routine => (routine.params, routine.locals)

/-- No scope was opened and no slot taken, and no function has other parameters or locals. -/
structure Workspace.SameSlots (ws ws' : Workspace) : Prop where
  nextSerial : ws'.scopes.nextSerial = ws.scopes.nextSerial
  functions : Frame.functions ws'.scopes.frames = Frame.functions ws.scopes.frames
  tallies : ws'.code.tallies = ws.code.tallies

theorem Workspace.Rests.sameSlots {ws ws' : Workspace} (h : ws.Rests ws') : ws.SameSlots ws' where
  nextSerial := h.nextSerial
  functions := h.functions
  tallies := by
    rw [Assembly.tallies, h.routines]
    rfl

/-- **The action leads from a ledger that is right to one that is,** which the last argument tells
for each of its values, and takes no slots.  If it fails, what had been written is still there, and
it is not for want of a slot. -/
def Books {α : Type} (s : Scoping) (l : Ledger) (action : Action Workspace α)
    (post : α → Ledger → Prop) : Prop :=
  ∀ o added ws, Accounts o s l added ws → (action ws).Ensures
    (fun x ws' => (∃ l' added', post x l' ∧ Accounts o s l' added' ws') ∧ ws.SameSlots ws')
    fun error code => error.exhaustsSlots = false ∧ o.code.Keeps code

/-! ### Changes of the current function -/

theorem Assembly.Has.modifyCurrent {code : Assembly} {position : Position} (h : code.Has position)
    {change : Routine → Routine}
    (hsize : ∀ routine, routine.code.size ≤ (change routine).code.size) :
    (code.modifyCurrent change).Has position := by
  obtain ⟨routine, hroutine, hindex⟩ := h
  simp only [Has, Assembly.modifyCurrent, Array.getElem?_modify, hroutine]
  split
  · exact ⟨change routine, rfl, Nat.le_trans hindex (hsize routine)⟩
  · exact ⟨routine, rfl, hindex⟩

theorem Assembly.tallies_modifyCurrent (code : Assembly) {change : Routine → Routine}
    (hparams : ∀ routine, (change routine).params = routine.params)
    (hlocals : ∀ routine, (change routine).locals = routine.locals) :
    (code.modifyCurrent change).tallies = code.tallies := by
  refine List.ext_getElem? fun g => ?_
  simp only [tallies, modifyCurrent, List.getElem?_map, Array.getElem?_toList,
    Array.getElem?_modify]
  split
  · rw [Option.map_map]
    exact Option.map_congr fun routine _ => by simp only [Function.comp_apply, hparams, hlocals]
  · rfl

namespace Accounts

variable {o : Opening} {s : Scoping} {l l' : Ledger} {added : List PendingJump} {ws : Workspace}
  {change : Routine → Routine}

/-- The current function was changed, and the ledger with it. -/
theorem revise (h : Accounts o s l added ws)
    (hpends : o.code.Pends (l'.held ++ (l'.exits ++ (o.prior ++ added)))
      (ws.code.modifyCurrent change))
    (hdepth : (change ws.code.current).depth = l'.depth) (hexits : l'.exits = l.exits)
    (hspots : l'.spots = l.spots)
    (hsize : ∀ routine, routine.code.size ≤ (change routine).code.size) :
    Accounts o s l' added (ws.revise change) := by
  refine h.recode hpends ?_ hexits ?_ fun _ hposition => hposition.modifyCurrent hsize
  · rw [Assembly.depth, Assembly.modifyCurrent_current h.current_lt]
    exact hdepth
  · intro spot hspot
    exact (h.spots spot (hspots ▸ hspot)).modifyCurrent hsize

/-- An instruction was added. -/
theorem wrote {instruction : Instruction} (h : Accounts o s l added ws)
    (hpends : o.code.Pends (l'.held ++ (l'.exits ++ (o.prior ++ added)))
      (ws.wrote instruction).code)
    (hdepth : l.depth - instruction.stackUse.pops + instruction.stackUse.pushes = l'.depth)
    (hexits : l'.exits = l.exits) (hspots : l'.spots = l.spots) :
    Accounts o s l' added (ws.wrote instruction) := by
  refine h.revise hpends ?_ hexits hspots fun routine => ?_
  · show ws.code.depth - _ + _ = _
    rw [h.depth]
    exact hdepth
  · show _ ≤ (routine.code.push instruction).size
    rw [Array.size_push]
    exact Nat.le_succ _

end Accounts

namespace Books

variable {s : Scoping} {l : Ledger} {α : Type}

theorem quiet {value : α → Prop} {action : Action Workspace α} (h : Quiet value action) :
    Books s l action fun x l' => value x ∧ l' = l := by
  intro o added ws hws
  have hquiet := h ws
  cases hdone : action ws with
  | done x ws' =>
      rw [hdone] at hquiet
      obtain ⟨hvalue, hrests⟩ := hquiet
      exact ⟨⟨l, added, ⟨hvalue, rfl⟩, hws.rests hrests⟩, hrests.sameSlots⟩
  | failed error ws' =>
      rw [hdone] at hquiet
      exact ⟨hquiet.1, (hws.rests hquiet.2).pends.keeps⟩
  | fault fault => trivial

theorem depth : Books s l Workspace.depth fun x l' => x = l.depth ∧ l' = l :=
  fun _ added _ hws => ⟨⟨l, added, ⟨hws.depth, rfl⟩, hws⟩, rfl, rfl, rfl⟩

theorem position :
    Books s l Workspace.position fun x l' => l' = { l with spots := x :: l.spots } := by
  intro o added ws hws
  refine ⟨⟨_, added, rfl, { hws with spots := ?_ }⟩, rfl, rfl, rfl⟩
  intro spot hspot
  rcases List.mem_cons.mp hspot with rfl | hold
  · exact ⟨ws.code.current, Assembly.getElem?_current hws.current_lt, Nat.le_refl _⟩
  · exact hws.spots spot hold

theorem enclosingLoop_eq (span : Span) (ws : Workspace) :
    Rule.enclosingLoop span ws = match Frame.innermost? .loop ws.scopes.frames with
      | some frame => match frame.state.loopEntry? with
        | some entry => .done entry ws
        | none => .failed (.notEnclosed .loop span) ws
      | none => .failed (.notEnclosed .loop span) ws := by
  simp only [Rule.enclosingLoop, Action.bind_apply, onScopes, ScopeStack.enclosing]
  cases Frame.innermost? .loop ws.scopes.frames with
  | none => rfl
  | some frame =>
      dsimp only
      cases frame.state.loopEntry? <;> rfl

theorem enclosingLoop (span : Span) : Books s l (Rule.enclosingLoop span)
    fun x l' => s.level? = some x.2 ∧ l' = { l with spots := x.1 :: l.spots } := by
  intro o added ws hws
  rw [enclosingLoop_eq]
  cases hframe : Frame.innermost? .loop ws.scopes.frames with
  | none => exact ⟨rfl, hws.pends.keeps⟩
  | some frame =>
      dsimp only
      cases hentry : frame.state.loopEntry? with
      | none => exact ⟨rfl, hws.pends.keeps⟩
      | some entry =>
          obtain ⟨hlevel, hmem⟩ := Frame.level?_of_innermost _ hframe hentry
          refine ⟨⟨_, added, ⟨hws.level_eq.symm.trans hlevel, rfl⟩, { hws with spots := ?_ }⟩,
            rfl, rfl, rfl⟩
          intro spot hspot
          rcases List.mem_cons.mp hspot with rfl | hold
          · exact hws.entries entry (hws.entries_eq ▸ hmem)
          · exact hws.spots spot hold

/-! ### Code -/

/-- Writing takes no slot. -/
theorem wrote_sameSlots (ws : Workspace) (instruction : Instruction) :
    ws.SameSlots (ws.wrote instruction) :=
  ⟨rfl, rfl, Assembly.tallies_modifyCurrent _ (fun _ => rfl) fun _ => rfl⟩

theorem emitWith (op : Opcode) {operand : Operand} (h : operand.shape ≠ .target) :
    Books s l (Workspace.emitWith op operand) fun _ l' => l' = { l with
      depth := l.depth - (Instruction.mk op operand).stackUse.pops +
        (Instruction.mk op operand).stackUse.pushes } := by
  intro o added ws hws
  cases hdone : Workspace.emitWith op operand ws with
  | done u ws' =>
      obtain ⟨-, rfl⟩ := emitWith_done hdone
      exact ⟨⟨_, added, rfl,
          hws.wrote (hws.pends.append (Instruction.aimed_of_shape h)) rfl rfl rfl⟩,
        wrote_sameSlots ..⟩
  | failed error ws' => exact absurd hdone emitWith_ne_failed
  | fault fault => trivial

theorem resetDepth (depth : Nat) :
    Books s l (Workspace.resetDepth depth) fun _ l' => l' = { l with depth } := by
  intro o added ws hws
  exact ⟨⟨_, added, rfl, hws.revise (hws.pends.revise rfl rfl) rfl rfl rfl fun _ => Nat.le_refl _⟩,
    rfl, rfl, Assembly.tallies_modifyCurrent _ (fun _ => rfl) fun _ => rfl⟩

/-- A forward jump gets done or ends in a fault. -/
theorem jump_ne_failed {op : Opcode} {error : CompileError} {ws ws' : Workspace} :
    Workspace.jump op ws ≠ .failed error ws' := by
  intro h
  obtain ⟨code, hjump, -⟩ := onCode_failed.mp h
  unfold Assembly.jump at hjump
  split at hjump
  · cases hjump
  · split at hjump
    · cases hjump
    · split at hjump
      · cases hjump
      · rename_i hemit
        exact Assembly.emit_ne_failed hemit
      · cases hjump

theorem jump (op : Opcode) {use : StackUse} (h : op.branchUse? = some use) :
    Books s l (Workspace.jump op) fun label l' =>
      label.depth = l.depth - use.pops + use.pushes ∧ l' = { l with
        depth := l.depth - (Instruction.mk op .unaimed).stackUse.pops +
          (Instruction.mk op .unaimed).stackUse.pushes
        held := label :: l.held } := by
  intro o added ws hws
  cases hdone : Workspace.jump op ws with
  | done label ws' =>
      obtain ⟨use', huse, rfl, -, hemit⟩ := jump_done hdone
      obtain ⟨-, rfl⟩ := emitWith_done hemit
      obtain rfl := Option.some.inj (h.symm.trans huse)
      exact ⟨⟨_, added, ⟨by rw [hws.depth], rfl⟩, hws.wrote hws.pends.wait rfl rfl rfl⟩,
        wrote_sameSlots ..⟩
  | failed error ws' => exact absurd hdone jump_ne_failed
  | fault fault => trivial

/-- A backward jump is written in the function it leads to a place of. -/
theorem jumpBack_eq (target : Position) (level : Nat) (ws : Workspace) :
    (∃ error, Workspace.jumpBack target level ws = .failed (.internal error) ws) ∨
      target.function = ws.code.currentFunction ∧ Workspace.jumpBack target level ws =
        Workspace.emitWith .jump (.target target.index.toUInt32) ws := by
  simp only [Workspace.jumpBack, Workspace.emitWith, Action.bind_apply, onCode, Assembly.jumpBack]
  by_cases hfunction : target.function = ws.code.currentFunction
  · by_cases hdepth : (ws.code.reachable && decide (ws.code.depth ≠ level)) = true
    · rw [if_neg (not_not.mpr hfunction), if_pos hdepth]
      exact .inl ⟨_, rfl⟩
    · rw [if_neg (not_not.mpr hfunction), if_neg hdepth]
      exact .inr ⟨hfunction, rfl⟩
  · rw [if_pos hfunction]
    exact .inl ⟨_, rfl⟩

theorem jumpBack {target : Position} (level : Nat) (h : target ∈ l.spots) :
    Books s l (Workspace.jumpBack target level) fun _ l' => l' = l := by
  intro o added ws hws
  rcases jumpBack_eq target level ws with ⟨error, hfailed⟩ | ⟨hfunction, hback⟩
  · rw [hfailed]
    exact ⟨rfl, hws.pends.keeps⟩
  · rw [hback]
    cases hdone : Workspace.emitWith .jump (.target target.index.toUInt32) ws with
    | done u ws' =>
        obtain ⟨-, rfl⟩ := emitWith_done hdone
        have haimed : (Instruction.mk .jump (.target target.index.toUInt32)).Aimed
            ws.code.length := by
          obtain ⟨routine, hroutine, hindex⟩ := hws.spots target h
          rw [hfunction, Assembly.getElem?_current hws.current_lt] at hroutine
          obtain rfl := Option.some.inj hroutine
          exact fun word hword => ⟨target.index, hindex, (Operand.target.inj hword).symm⟩
        exact ⟨⟨_, added, rfl, hws.wrote (hws.pends.append haimed) rfl rfl rfl⟩, wrote_sameSlots ..⟩
    | failed error ws' => exact absurd hdone emitWith_ne_failed
    | fault fault => trivial

/-- The workspace with a jump aimed at its end. -/
def aimedAt (ws : Workspace) (label : PendingJump) : Workspace :=
  ws.revise fun routine => routine.aim label.index ws.code.length.toUInt32

/-- A jump that cannot land is left alone, or it is aimed all the same. -/
theorem land_failed {label : PendingJump} {error : CompileError} {ws ws' : Workspace}
    (h : Workspace.land label ws = .failed error ws') :
    error.exhaustsSlots = false ∧ (ws'.code = ws.code ∨ ws'.code = (aimedAt ws label).code) := by
  obtain ⟨code, hland, rfl⟩ := onCode_failed.mp h
  obtain ⟨⟨defect, rfl⟩, rfl | ⟨-, rfl⟩⟩ := Assembly.land_failed hland
  · exact ⟨rfl, .inl rfl⟩
  · exact ⟨rfl, .inr rfl⟩

theorem land {label : PendingJump} {rest : List PendingJump} (h : l.held.Perm (label :: rest)) :
    Books s l (Workspace.land label)
      fun _ l' => l' = { l with depth := label.depth, held := rest } := by
  intro o added ws hws
  have hpends : o.code.Pends (label :: (rest ++ (l.exits ++ (o.prior ++ added)))) ws.code :=
    hws.pends.perm (h.append_right _)
  cases hdone : Workspace.land label ws with
  | done u ws' =>
      obtain ⟨-, -, rfl⟩ := land_done hdone
      refine ⟨⟨_, added, rfl, hws.revise (hpends.aim rfl rfl) rfl rfl rfl fun routine => ?_⟩,
        rfl, rfl, Assembly.tallies_modifyCurrent _ (fun _ => rfl) fun _ => rfl⟩
      exact Nat.le_of_eq (Array.size_modify ..).symm
  | failed error ws' =>
      obtain ⟨herror, hcode | hcode⟩ := land_failed hdone
      · exact ⟨herror, hcode ▸ hws.pends.keeps⟩
      · exact ⟨herror, hcode ▸ (hpends.aim rfl rfl).keeps⟩
  | fault fault => trivial

/-! ### Jumps that are handed over -/

/-- A jump that is written to leave the loop is handed to it at once. -/
theorem leave (h : s.level? = some l.depth) : Books s l (do
      let label ← Workspace.jump .jump
      onScopes (Action.modify (ScopeStack.modifyEnclosing .loop (FrameState.addBreak label))))
    fun _ l' => l' = l := by
  intro o added ws hws
  refine (jump .jump rfl o added ws hws).bind ?_
  rintro label ws' hdone ⟨-, hsame⟩
  obtain ⟨use, huse, rfl, -, hemit⟩ := jump_done hdone
  obtain rfl := Option.some.inj huse
  obtain ⟨-, rfl⟩ := emitWith_done hemit
  have hwrote : Accounts o s { l with held := ⟨ws.code.position, ws.code.depth⟩ :: l.held } added
      (ws.wrote ⟨.jump, .unaimed⟩) := hws.wrote hws.pends.wait rfl rfl rfl
  refine ⟨⟨l, added ++ [⟨ws.code.position, ws.code.depth⟩], rfl,
    hwrote.reframe ?_ rfl rfl ?_ hws.branch ?_ ?_⟩, hsame.nextSerial, ?_, hsame.tallies⟩
  · simp only [← List.append_assoc]
    exact (List.perm_append_singleton _ _).symm
  · rw [Frame.addBreak_noted, hwrote.frames, Frame.withBreaks_append]
    rfl
  · intro label hlabel
    rcases List.mem_append.mp hlabel with hold | hnew
    · exact hws.levels label hold
    · rw [List.mem_singleton.mp hnew, hws.depth]
      exact h
  · rw [← List.append_assoc]
    refine List.pairwise_append.mpr ⟨hws.order, List.pairwise_singleton .., ?_⟩
    intro label hlabel other hother
    rw [List.mem_singleton.mp hother]
    exact hws.pends.lt_length (List.mem_append_right _ (List.mem_append_right _ hlabel))
  · show Frame.functions (Frame.modifyInnermost .loop _ ws.scopes.frames) = _
    rw [← Frame.functions_quiet, Frame.quiet_addBreak, Frame.functions_quiet]

/-- A jump to the end of a conditional is noted in its frame. -/
theorem addExit {id : FrameId} {label : PendingJump} {rest : List PendingJump}
    (h : l.held.Perm (label :: rest)) (hown : s.own = some id) (hscope : id.scope = .branch) :
    Books s l (Workspace.update id (FrameState.addExit label))
      fun _ l' => l' = { l with held := rest, exits := l.exits ++ [label] } := by
  intro o added ws hws
  obtain ⟨serials, hserials, hfresh⟩ := hws.fit.owned id hown
  obtain ⟨frame, outer, hframes, hserial, rfl⟩ := List.map_eq_cons_iff.mp hserials
  have hchange : Workspace.update id (FrameState.addExit label) ws = .done () (ws.reframe
      fun frames => frames.map fun frame =>
        if frame.serial = id.serial then frame.modify (FrameState.addExit label) else frame) := by
    have hfound : ws.scopes.frame? id = some frame := by
      rw [ScopeStack.frame?, hframes]
      exact List.find?_cons_of_pos (beq_iff_eq.mpr hserial)
    simp only [Workspace.update, onScopes, ScopeStack.update, hfound]
    rfl
  have houter : outer.map (fun frame =>
      if frame.serial = id.serial then frame.modify (FrameState.addExit label) else frame) =
        outer := by
    refine (List.map_congr_left fun other hother => if_neg fun hsame => hfresh ?_).trans
      (List.map_id' outer)
    rw [← hsame]
    exact List.mem_map_of_mem hother
  rw [hchange]
  refine ⟨⟨_, added, rfl, hws.reframe ?_ rfl rfl ?_ ?_ hws.levels hws.order⟩, rfl, ?_, rfl⟩
  · have hmoved : (label :: (rest ++ l.exits ++ (o.prior ++ added))).Perm
        (rest ++ l.exits ++ label :: (o.prior ++ added)) := List.perm_middle.symm
    simp only [List.append_assoc] at hmoved
    simp only [List.append_assoc, List.singleton_append]
    exact (h.append_right _).trans hmoved
  · have hnoted : (frame.modify (FrameState.addExit label)).noted =
        frame.noted.modify (FrameState.addExits [label]) := by
      obtain ⟨serial, bindings, state⟩ := frame
      cases state <;> rfl
    have hold := hws.frames
    rw [hframes, List.map_cons] at hold
    rw [hframes, List.map_cons, houter, if_pos hserial, List.map_cons, hnoted,
      ← Frame.withExits_append, ← Frame.withExits_withBreaks, ← hold]
    rfl
  · intro hnot
    rw [hown] at hnot
    exact absurd (congrArg some hscope) hnot
  · show Frame.functions (List.map _ ws.scopes.frames) = Frame.functions ws.scopes.frames
    rw [hframes, List.map_cons, houter, if_pos hserial, Frame.functions_cons, Frame.functions_cons]
    obtain ⟨serial, bindings, state⟩ := frame
    cases state <;> rfl

end Books

end QueryCompiler
