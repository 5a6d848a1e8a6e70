/-
What the rules for raising and catching errors and for leaving a function write.

The body of a handler is guarded and its catch path is not, although both belong to
one scope: the frame changes its mind half-way.  The two halves are put together as
runs, of which each speaks of its own surroundings.
-/
import QueryCompiler.Proofs.Layout.Loops

namespace QueryCompiler.Layout

open Workspace

variable {α : Type} {lower : Lower} {ws ws' : Workspace} {u : Unit} {x : α}

/-! ### Results -/

theorem result_lays (hl : Faithful lower) {code : Int64} {data : Option Node} (hs : ws.Sound)
    (h : Rule.result lower code data ws = .done u ws') : Lays (.result code data) ws ws' := by
  obtain ⟨_, ws₁, hpush, hdata⟩ := Action.bind_done.mp h
  have hpush := Passes.pushConstant hs hpush
  cases data with
  | none =>
      have hnull := Passes.write hpush.sound hdata
      refine (hpush.and hs hnull).mono ?_
      intro F s hF
      obtain ⟨⟨id, hid, hpush⟩, hnull⟩ := hF
      exact .resultNull hid hpush hnull
  | some data =>
      have hdata := value_lays hl hpush.sound hdata
      refine (hpush.and hs hdata).mono ?_
      intro F s hF
      obtain ⟨⟨id, hid, hpush⟩, hdata⟩ := hF
      exact .resultData hid hpush hdata

/-- A return leaves all handlers of its function. -/
theorem leaveFunction_passes (hs : ws.Sound) (h : leaveHandlers .function ws = .done u ws') :
    Passes (fun F s => Unwinds F s.guards.length ws.spot ws'.spot) [] [] ws ws' := by
  obtain ⟨breaks, hrun, houtline⟩ := Passes.unwind hs (leaveHandlers_done h)
  refine ⟨breaks, hrun.mono ?_, houtline⟩
  intro F exit hunwind
  show Unwinds F (Surroundings.ofFrames exit (ws.scopes.frames.map Frame.still)).guards.length _ _
  rw [Surroundings.ofFrames_guards_length]
  exact hunwind

theorem returnWith_lays (hl : Faithful lower) {code : Int64} {data : Option Node} {span : Span}
    (hs : ws.Sound) (h : Rule.returnWith lower (.returnWith code data span) ws = .done u ws') :
    Lays (.rule (.returnWith code data span)) ws ws' := by
  simp only [Rule.returnWith, Action.bind_done] at h
  obtain ⟨_, ws₁, hresult, _, ws₂, hunwind, hret⟩ := h
  have hresult := result_lays hl hs hresult
  have hunwind := leaveFunction_passes hresult.sound hunwind
  have hret := Passes.write hunwind.sound hret
  refine ((hresult.and hs hunwind).and hs hret).mono ?_
  intro F s hF
  obtain ⟨⟨hresult, hunwind⟩, hret⟩ := hF
  exact .returnWith hresult hunwind hret

theorem exitWith_lays (hl : Faithful lower) {code : Int64} {data : Option Node} {span : Span}
    (hs : ws.Sound) (h : Rule.exitWith lower (.exitWith code data span) ws = .done u ws') :
    Lays (.rule (.exitWith code data span)) ws ws' := by
  obtain ⟨_, ws₁, hresult, hexit⟩ := Action.bind_done.mp h
  have hresult := result_lays hl hs hresult
  have hexit := Passes.write hresult.sound hexit
  exact (hresult.and hs hexit).mono fun F s hF => .exitWith hF.1 hF.2

theorem throwWith_lays (hl : Faithful lower) {code : Int64} {data : Node} {span : Span}
    (hs : ws.Sound) (h : Rule.throwWith lower (.throwWith code data span) ws = .done u ws') :
    Lays (.rule (.throwWith code data span)) ws ws' := by
  simp only [Rule.throwWith, Action.bind_done] at h
  obtain ⟨_, ws₁, hpush, _, ws₂, hdata, _, ws₃, hcount, hthrow⟩ := h
  have hpush := Passes.pushConstant hs hpush
  have hdata := value_lays hl hpush.sound hdata
  obtain ⟨hspot, hcount⟩ := Passes.countThrow hdata.sound hcount
  have hthrow := Passes.write hcount.sound hthrow
  refine (((hpush.and hs hdata).and hs hcount).and hs hthrow).mono ?_
  intro F s hF
  obtain ⟨⟨⟨⟨id, hid, hpush⟩, hdata⟩, -⟩, hthrow⟩ := hF
  rw [hspot] at hthrow
  exact .throwWith (.resultData hid hpush hdata) hthrow

/-! ### Handlers -/

/-- A guarded body that comes to its end leaves the handler and jumps over the catch path. -/
theorem escape_passes {reached : Bool} {rest : Option PendingJump → Action Workspace α}
    (hs : ws.Sound) (hreached : reached = ws.code.reachable)
    (h : (if reached = true then do
        emit .tryEnd
        let exit ← jump .jump
        let exit ← pure (some exit)
        rest exit
      else do
        let exit ← pure none
        rest exit) ws = .done x ws') :
    ∃ (exit : Option PendingJump) (ws₁ : Workspace), rest exit ws₁ = .done x ws' ∧
      Passes (fun F _ => ∀ target, (∀ label ∈ exit.toList, F.Aims .jump label target) →
          Escapes F target (exit.toList.map PendingJump.depth) ws.spot ws₁.spot) []
        (exit.toList.map fun label => (.jump, label)) ws ws₁ := by
  split at h
  · rename_i hfalls
    simp only [Action.bind_done, Action.pure_done] at h
    obtain ⟨_, ws₁, hend, exit, ws₂, hjump, _, _, ⟨rfl, rfl⟩, hrest⟩ := h
    have hend := Passes.write hs hend
    obtain ⟨htaken, hjump⟩ := Passes.jump hend.sound hjump
    refine ⟨some exit, ws₂, hrest, (hend.and hs hjump).mono ?_⟩
    intro F s hF target haimed
    obtain ⟨hend, hjump⟩ := hF
    simp only [Option.toList_some, List.map_cons, List.map_nil, htaken]
    exact .jumps (hreached.symm.trans hfalls) hend (hjump target (haimed exit (by simp)))
  · rename_i hends
    simp only [Action.bind_done, Action.pure_done] at h
    obtain ⟨_, _, ⟨rfl, rfl⟩, hrest⟩ := h
    refine ⟨none, ws, hrest, (Passes.stay hs).mono ?_⟩
    intro F s _ target _
    exact .stays (hreached.symm.trans (eq_false_of_ne_true hends))

/-- The error that was caught is put into a local or dropped. -/
theorem catches_passes {binding : Option Name} {rest : Action Workspace α} (hs : ws.Sound)
    (h : (match binding with
      | some name => do
        let slot ← declare name
        emitSlot .store slot
        rest
      | none => do
        emit .pop
        rest) ws = .done x ws') :
    ∃ ws₁, rest ws₁ = .done x ws' ∧
      Passes (fun F _ => Catches F binding ws.spot ws₁.spot) [] [] ws ws₁ := by
  cases binding with
  | some name =>
      simp only [Action.bind_done] at h
      obtain ⟨slot, ws₁, hdeclare, _, ws₂, hstore, hrest⟩ := h
      obtain ⟨hfree, hspot, hdeclare⟩ := Passes.declare hs hdeclare
      have hstore := Passes.write hdeclare.sound hstore
      refine ⟨ws₂, hrest, (hdeclare.and hs hstore).mono ?_⟩
      intro F s hF
      rw [hspot] at hF
      exact .named hfree hF.2
  | none =>
      obtain ⟨_, ws₁, hpop, hrest⟩ := Action.bind_done.mp h
      exact ⟨ws₁, hrest, (Passes.write hs hpop).mono fun F s hF => .dropped hF⟩

/-- A jump does not depend on the scopes. -/
theorem jump_entered {op : Opcode} {label : PendingJump} (state : FrameState)
    (h : jump op ws = .done label ws') :
    jump op (ws.entered state) = .done label (ws'.entered state) := by
  simp only [jump, onCode_done] at h ⊢
  obtain ⟨code, hjump, rfl⟩ := h
  exact ⟨code, hjump, rfl⟩

/-- The jump that installs a handler is one instruction more, in the same scopes. -/
theorem install_done {install : PendingJump} (hs : ws.Sound)
    (h : jump .tryBegin ws = .done install ws') : install.position.index = ws.spot.index ∧
      ws'.spot = ws.spot.step ⟨.tryBegin, .unaimed⟩ ∧ ws'.scopes = ws.scopes := by
  obtain ⟨use, -, rfl, -, hemit⟩ := jump_done h
  obtain ⟨-, rfl⟩ := emitWith_done hemit
  exact ⟨rfl, wrote_spot hs _, rfl⟩

/-- Once its body is written, a handler guards nothing more. -/
theorem unguard_run {id : FrameId} {start : Position} {outline : List Frame} (hs : ws.Sound)
    (houtline : ws.outline = ⟨id.serial, [], .handler start true 0⟩ :: outline)
    (h : update id (FrameState.setGuarded false) ws = .done u ws') :
    ws'.spot = ws.spot ∧ ws'.outline = ⟨id.serial, [], .handler start false 0⟩ :: outline ∧
      Run (fun _ _ => True) [] [] ws ws' := by
  obtain ⟨frame, outer, hframes, hframe, houter⟩ := List.map_eq_cons_iff.mp houtline
  have hserial : frame.serial = id.serial := congrArg Frame.serial hframe
  obtain rfl := Passes.update_done_cons hs h hframes hserial
  obtain ⟨serial, bindings, state⟩ := frame
  cases state with
  | handler start' guarded throws =>
      simp only [Frame.still, FrameState.still, Frame.mk.injEq, FrameState.handler.injEq,
        true_and, and_true] at hframe
      obtain ⟨rfl, rfl, rfl⟩ := hframe
      have hscopes : (ws.reframe fun _ => Frame.modify ⟨id.serial, bindings,
          .handler start' true throws⟩ (FrameState.setGuarded false) :: outer).spot.scopes =
          ws.spot.scopes := by
        show List.map Frame.bare _ = List.map Frame.bare _
        rw [reframe_frames, hframes]
        rfl
      refine ⟨congrArg (Spot.mk _ _ _) hscopes, ?_, Run.silent hs rfl rfl rfl ?_ rfl
        (congrArg Frame.beyond hscopes)⟩
      · rw [Workspace.outline, reframe_frames, List.map_cons, houter]
        rfl
      · simp only [Workspace.shape, reframe_frames, hframes]
        rfl
  | function | loop | branch | block | transform => cases hframe

/-- The guarded body, the way over the catch path if there is one, and the catch path. -/
theorem tryPaths_passes (hl : Faithful lower) {install : PendingJump} {ws₁ inside : Workspace}
    {frame : Frame} {outer : List Frame} {body handler : Node} {binding : Option Name}
    {stop catchAt : Nat} {exit : Option PendingJump} (hs : ws.Sound)
    (hinstall : jump .tryBegin ws = .done install ws₁)
    (h : Rule.tryPaths lower install ⟨ws₁.scopes.nextSerial, .handler⟩ body binding handler
      (ws₁.entered (.handler install.position true 0)) = .done (stop, catchAt, exit) inside)
    (hframes : inside.scopes.frames = frame :: outer) :
    Passes (fun F s => ∃ c d e, F.Jumps .tryBegin d.index ws.spot ws₁.spot ∧
        Laid F (s.guarded ws.spot.index) (.statement body)
          (ws₁.spot.enter (.handler ⟨0, 0⟩ false 0)) c ∧
        (∀ target, (∀ label ∈ exit.toList, F.Aims .jump label target) →
          Escapes F target (exit.toList.map PendingJump.depth) c d) ∧
        Catches F binding (d.land (ws.spot.taken .tryBegin)) e ∧
        Laid F s (.statement handler) e inside.spot) []
      (exit.toList.map fun label => (.jump, label)) ws (inside.left frame) := by
  simp only [Rule.tryPaths, Action.bind_done] at h
  obtain ⟨_, ws₂, hbody, stop, _, hstop, reached, _, hreached, h⟩ := h
  obtain ⟨rfl, rfl⟩ := position_done hstop
  obtain ⟨hflag, rfl⟩ := reachable_done hreached
  -- The scope could have been opened before the handler was installed, and then the jump that
  -- installs the handler is part of what was written inside.
  have hs₀ : (ws.entered (.handler install.position true 0)).Sound := entered_sound hs nofun
  obtain ⟨htaken, hjump⟩ := Passes.jump hs₀ (jump_entered _ hinstall)
  have hbody := statement_lays hl hjump.sound hbody
  obtain ⟨exit, ws₃, h, hescape⟩ := escape_passes hbody.sound hflag h
  simp only [Action.bind_done] at h
  obtain ⟨_, ws₄, hunguard, _, _, hcatchAt, _, ws₅, hland, h⟩ := h
  obtain ⟨rfl, rfl⟩ := position_done hcatchAt
  obtain ⟨breaks, hrun, houtline⟩ := (hjump.and hs₀ hbody).and hs₀ hescape
  obtain ⟨hindex, hspot₁, hscopes⟩ := install_done hs hinstall
  rw [hscopes] at hunguard
  have houtline₃ : ws₃.outline = ⟨ws.scopes.nextSerial, [], .handler install.position true 0⟩ ::
      Frame.withBreaks breaks ws.outline := houtline
  obtain ⟨hspot₄, houtline₄, hunguard⟩ := unguard_run hrun.sound houtline₃ hunguard
  obtain ⟨-, -, rfl⟩ := land_done hland
  have hfirst := (hrun.trans hs₀ hunguard).land hs₀
  have hspot₅ := landed_spot hunguard.sound install
  obtain ⟨ws₆, h, hcatch⟩ := catches_passes hfirst.sound h
  simp only [Action.bind_done, Action.pure_done, Prod.mk.injEq] at h
  obtain ⟨_, ws₇, hhandler, ⟨-, -, rfl⟩, rfl⟩ := h
  have hhandler := statement_lays hl hcatch.sound hhandler
  obtain ⟨breaks', hrun', houtline'⟩ := hcatch.and hfirst.sound hhandler
  have hall : Run _ (breaks ++ breaks') (exit.toList.map fun label => (.jump, label))
      (ws.entered (.handler install.position true 0)) ws₇ :=
    (hfirst.trans hs₀ hrun').relist (by simp) (by simp)
  have houtline₅ : (ws₄.landed install).outline =
      ⟨ws.scopes.nextSerial, [], .handler install.position false 0⟩ ::
        Frame.withBreaks breaks ws.outline := houtline₄
  refine ⟨breaks ++ breaks', (hall.leave nofun hall.owned).mono ?_, ?_⟩
  · intro F x hF
    obtain ⟨⟨⟨⟨⟨hjump, hbody⟩, hescape⟩, -⟩, haimed⟩, hcatch, hhandler⟩ := hF
    obtain ⟨word, hword, hwrites⟩ := hjump _ haimed
    rw [houtline₅] at hhandler
    refine ⟨ws₂.spot, ws₃.spot, ws₆.spot, ⟨word, ?_, ?_⟩, ?_, hescape, ?_, ?_⟩
    · exact hword.trans (congrArg Spot.index hspot₄)
    · exact ⟨hwrites.at_index, hwrites.fits, hspot₁⟩
    · rw [← hindex]
      exact hbody
    · rw [hspot₅, hspot₄, htaken] at hcatch
      exact hcatch
    · rw [← Surroundings.ofFrames_withBreaks breaks]
      exact hhandler
  · rw [left_outline, houtline', houtline₅, Frame.withExits_nil, ← Frame.withBreaks_append]
    rfl

/-- A jump that there may be lands. -/
theorem landOption_done {exit : Option PendingJump} {rest : Action Workspace α}
    (h : (match exit with
      | some exit => do
        land exit
        rest
      | none => rest) ws = .done x ws') :
    ∃ ws₁, landAll exit.toList ws = .done () ws₁ ∧ rest ws₁ = .done x ws' := by
  cases exit with
  | none => exact ⟨ws, onCode_done.mpr ⟨ws.code, Action.forM_nil_done.mpr rfl, rfl⟩, h⟩
  | some exit =>
      obtain ⟨_, ws₁, hland, hrest⟩ := Action.bind_done.mp h
      obtain ⟨code, hcode, rfl⟩ := onCode_done.mp hland
      refine ⟨_, onCode_done.mpr ⟨code, ?_, rfl⟩, hrest⟩
      exact Action.forM_cons_done.mpr ⟨code, hcode, Action.forM_nil_done.mpr rfl⟩

theorem tryCatch_lays (hl : Faithful lower) {body handler : Node} {binding : Option Name}
    {span : Span} (hs : ws.Sound)
    (h : Rule.tryCatch lower (.tryCatch body binding handler span) ws = .done u ws') :
    Lays (.rule (.tryCatch body binding handler span)) ws ws' := by
  obtain ⟨install, ws₁, hinstall, h⟩ := Action.bind_done.mp h
  obtain ⟨⟨⟨stop, catchAt, exit⟩, last⟩, _, hwithin, h⟩ := Action.bind_done.mp h
  obtain ⟨inside, frame, outer, hpaths, hframes, -, rfl, rfl⟩ := within_done hwithin
  obtain ⟨ws₃, hexit, hregion⟩ := landOption_done h
  have hpaths := tryPaths_passes hl hs hinstall hpaths hframes
  obtain ⟨hspot, -, hall⟩ := Passes.landAll hs hpaths hexit
  obtain ⟨hspot', hregion⟩ := Passes.addRegion hall.sound hregion
  refine (hall.and hs hregion).mono ?_
  intro F s hF
  obtain ⟨⟨⟨c, d, e, hjump, hbody, hescape, hcatch, hhandler⟩, haimed⟩, -⟩ := hF
  rw [left_spot] at hspot haimed
  rw [hspot']
  exact .tryCatch hjump hbody (hescape inside.spot.index haimed) hcatch hhandler hspot

end QueryCompiler.Layout
