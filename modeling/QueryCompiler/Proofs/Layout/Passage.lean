/-
What an action of a rule writes.

`Passes Q exits holes ws ws'` is a run whose breaks went to the loop around it and
whose `exits`, if there are any, went to the conditional around it.  The surroundings
that `Q` speaks of are those at the start, and nothing a rule does changes them while
the rule is at work, so passages can be put one after another without a word about
frames.  Each operation of a workspace that got done is a passage.
-/
import QueryCompiler.Proofs.Layout.Run

namespace QueryCompiler.Layout

open Workspace

/-- Code was written of which `Q` holds in the surroundings at its start. -/
def Passes (Q : Image → Surroundings → Prop) (exits : List PendingJump)
    (holes : List (Opcode × PendingJump)) (ws ws' : Workspace) : Prop :=
  ∃ breaks, Run (fun F exit => Q F (.ofFrames exit ws.outline)) breaks holes ws ws' ∧
    ws'.outline = Frame.withBreaks breaks (Frame.withExits exits ws.outline)

/-- A phrase was written. -/
def Lays (phrase : Phrase) (ws ws' : Workspace) : Prop :=
  Passes (fun F s => Laid F s phrase ws.spot ws'.spot) [] [] ws ws'

namespace Passes

variable {ws ws₁ ws₂ ws' : Workspace} {Q R : Image → Surroundings → Prop}
  {breaks exits exits' : List PendingJump} {holes holes' : List (Opcode × PendingJump)}
  {op : Opcode} {label : PendingJump}

theorem sound (h : Passes Q exits holes ws ws') : ws'.Sound := by
  obtain ⟨breaks, hrun, -⟩ := h
  exact hrun.sound

theorem shape (h : Passes Q exits holes ws ws') : ws'.shape = ws.shape := by
  obtain ⟨breaks, hrun, -⟩ := h
  exact hrun.shape

theorem length (h : Passes Q exits holes ws ws') : ws.code.length ≤ ws'.code.length := by
  obtain ⟨breaks, hrun, -⟩ := h
  exact hrun.grows.length

theorem mono (h : Passes Q exits holes ws ws') (hQR : ∀ F s, Q F s → R F s) :
    Passes R exits holes ws ws' := by
  obtain ⟨breaks, hrun, houtline⟩ := h
  exact ⟨breaks, hrun.mono fun F exit hQ => hQR F _ hQ, houtline⟩

/-- The surroundings at the end of a passage are those at its start. -/
theorem surroundings (houtline : ws'.outline = Frame.withBreaks breaks
    (Frame.withExits exits ws.outline)) (exit : Nat) :
    Surroundings.ofFrames exit ws'.outline = .ofFrames exit ws.outline := by
  rw [houtline, Surroundings.ofFrames_withBreaks, Surroundings.ofFrames_withExits]

/-- **Passages that follow on each other make one passage.** -/
theorem and (hs : ws.Sound) (h : Passes Q exits holes ws ws₁)
    (h' : Passes R exits' holes' ws₁ ws₂) :
    Passes (fun F s => Q F s ∧ R F s) (exits ++ exits') (holes ++ holes') ws ws₂ := by
  obtain ⟨breaks, hrun, houtline⟩ := h
  obtain ⟨breaks', hrun', houtline'⟩ := h'
  refine ⟨breaks ++ breaks', (hrun.trans hs hrun').mono ?_, ?_⟩
  · intro F exit hF
    obtain ⟨hQ, hR⟩ := hF
    rw [surroundings houtline] at hR
    exact ⟨hQ, hR⟩
  · rw [houtline', houtline, Frame.withExits_withBreaks, Frame.withBreaks_append,
      Frame.withExits_append]

/-- A run that neither waits nor touches the frames is a passage. -/
theorem ofRun {Q : Image → Prop} (h : Run (fun F _ => Q F) [] holes ws ws')
    (houtline : ws'.outline = ws.outline) : Passes (fun F _ => Q F) [] holes ws ws' :=
  ⟨[], h, by rw [houtline, Frame.withExits_nil, Frame.withBreaks_nil]⟩

/-- Whoever has the whole of a passage knows that it ended within the range of a word. -/
theorem short (h : Passes Q exits holes ws ws') :
    Passes (fun F s => Q F s ∧ ws'.code.length < wordLimit) exits holes ws ws' := by
  obtain ⟨breaks, hrun, houtline⟩ := h
  exact ⟨breaks, { hrun with holds := fun F exit hF => ⟨hrun.holds F exit hF, hF.short⟩ },
    houtline⟩

/-- Nothing happens. -/
theorem stay (hs : ws.Sound) : Passes (fun _ _ => True) [] [] ws ws :=
  ofRun (Run.silent hs rfl rfl rfl rfl rfl rfl) rfl

theorem relist (h : Passes Q exits holes ws ws') (hexits : exits = exits')
    (hholes : holes = holes') : Passes Q exits' holes' ws ws' := by
  subst hexits hholes
  exact h

/-! ### Instructions -/

theorem write {operand : Operand} {u : Unit} (hs : ws.Sound)
    (h : emitWith op operand ws = .done u ws') :
    Passes (fun F _ => F.Writes ⟨op, operand⟩ ws.spot ws'.spot) [] [] ws ws' := by
  obtain ⟨hdepth, rfl⟩ := emitWith_done h
  exact ofRun (Run.write hs hdepth) rfl

theorem constant {value : Constant} {id : UInt32} (hs : ws.Sound)
    (h : onCode (Assembly.constant value) ws = .done id ws') :
    ws'.spot = ws.spot ∧ Passes (fun F _ => F.Holds id value) [] [] ws ws' := by
  obtain ⟨pool, hadd, rfl⟩ := constant_done h
  exact ⟨rfl, ofRun (Run.pooled hs hadd) rfl⟩

/-- An instruction on a constant, for which the pool has an entry then. -/
theorem writeConstant {value : Constant} {id : UInt32} {pool : Pool} {u : Unit} (hs : ws.Sound)
    (hadd : ws.code.pool.add value = .ok (id, pool))
    (h : emitWith op (.const id) (ws.pooled pool) = .done u ws') :
    Passes (fun F _ => ∃ id, F.Holds id value ∧ F.Writes ⟨op, .const id⟩ ws.spot ws'.spot) [] [] ws
      ws' := by
  have hpool : Passes (fun F _ => F.Holds id value) [] [] ws (ws.pooled pool) :=
    ofRun (Run.pooled hs hadd) rfl
  have hwrite := write hpool.sound h
  exact (hpool.and hs hwrite).mono fun F s hF => ⟨id, hF.1, hF.2⟩

theorem pushConstant {value : Constant} {u : Unit} (hs : ws.Sound)
    (h : Workspace.pushConstant value ws = .done u ws') :
    Passes (fun F _ => ∃ id, F.Holds id value ∧
      F.Writes ⟨.loadConst, .const id⟩ ws.spot ws'.spot) [] [] ws ws' := by
  obtain ⟨id, pool, hadd, hemit⟩ := pushConstant_done h
  exact writeConstant hs hadd hemit

theorem emitName {text : String} {u : Unit} (hs : ws.Sound)
    (h : Workspace.emitName op text ws = .done u ws') :
    Passes (fun F _ => ∃ id, F.Holds id (.string text) ∧
      F.Writes ⟨op, .const id⟩ ws.spot ws'.spot) [] [] ws ws' := by
  obtain ⟨id, pool, hadd, hemit⟩ := emitName_done h
  exact writeConstant hs hadd hemit

/-! ### Jumps -/

/-- A forward jump waits, and knows the depth it will arrive with. -/
theorem jump (hs : ws.Sound) (h : Workspace.jump op ws = .done label ws') :
    label.depth = ws.spot.taken op ∧
      Passes (fun F _ => ∀ target, F.Aims op label target → F.Jumps op target ws.spot ws'.spot) []
        [(op, label)] ws ws' := by
  obtain ⟨use, huse, rfl, harrive, hemit⟩ := jump_done h
  obtain ⟨hdepth, rfl⟩ := emitWith_done hemit
  refine ⟨?_, ofRun (Run.hole hs rfl harrive hdepth) rfl⟩
  simp only [Spot.taken, huse]
  rfl

theorem jumpBack {target : Position} {depth : Nat} {u : Unit} (hs : ws.Sound)
    (h : Workspace.jumpBack target depth ws = .done u ws') :
    Passes (fun F _ => F.Jumps .jump target.index.toUInt32.toNat ws.spot ws'.spot) [] [] ws
      ws' := by
  obtain ⟨-, hemit⟩ := jumpBack_done h
  exact (write hs hemit).mono fun F s hF => ⟨target.index.toUInt32, rfl, hF⟩

/-- A jump back to an earlier place leads there. -/
theorem jumpBack_position {depth : Nat} {u : Unit} (hs : ws₁.Sound)
    (h : Workspace.jumpBack ws.code.position depth ws₁ = .done u ws₂)
    (hle : ws.code.length ≤ ws₁.code.length) :
    Passes (fun F _ => F.Jumps .jump ws.spot.index ws₁.spot ws₂.spot) [] [] ws₁ ws₂ := by
  have hback := jumpBack hs h
  refine hback.short.mono ?_
  intro F s hF
  obtain ⟨hjump, hshort⟩ := hF
  have hlength := hback.length
  have hword : ws.code.position.index.toUInt32.toNat = ws.spot.index :=
    Nat.mod_eq_of_lt (show ws.code.length < wordLimit by omega)
  rw [← hword]
  exact hjump

/-- A jump that lands waits no more. -/
theorem land {u : Unit} (hs : ws.Sound) (hpass : Passes Q exits ((op, label) :: holes) ws ws₁)
    (h : Workspace.land label ws₁ = .done u ws') :
    ws'.spot = ws₁.spot.land label.depth ∧
      Passes (fun F s => Q F s ∧ F.Aims op label ws₁.spot.index) exits holes ws ws' := by
  obtain ⟨breaks, hrun, houtline⟩ := hpass
  obtain ⟨-, -, rfl⟩ := land_done h
  exact ⟨landed_spot hrun.sound label, breaks, hrun.land hs, houtline⟩

/-- A jump that lands where control gets anyway changes nothing there. -/
theorem land_reachable {u : Unit} (hs : ws.Sound)
    (h : Workspace.land label ws = .done u ws') (hreach : ws.spot.reachable = true) :
    ws'.spot = ws.spot := by
  obtain ⟨-, hdepth, rfl⟩ := land_done h
  rw [landed_spot hs, ← hdepth hreach]
  show Spot.mk _ _ _ _ = _
  rw [← show ws.spot.reachable = true from hreach]
  rfl

/-- Jumps that land wait no more.  Where control gets anyway they change nothing. -/
theorem landAll {labels : List PendingJump} {u : Unit} (hs : ws.Sound)
    (hpass : Passes Q exits (labels.map fun label => (.jump, label)) ws ws₁)
    (h : Workspace.landAll labels ws₁ = .done u ws') :
    ws'.spot = ws₁.spot.landAll (labels.map PendingJump.depth) ∧
      (ws₁.spot.reachable = true → ws'.spot = ws₁.spot) ∧
      Passes (fun F s => Q F s ∧ ∀ label ∈ labels, F.Aims .jump label ws₁.spot.index) exits [] ws
        ws' := by
  simp only [Workspace.landAll, Assembly.landAll] at h
  induction labels generalizing ws₁ Q with
  | nil =>
      obtain ⟨_, hdone, rfl⟩ := onCode_done.mp h
      rw [Action.forM_nil_done] at hdone
      subst hdone
      exact ⟨rfl, fun _ => rfl, hpass.mono fun F s hQ => ⟨hQ, fun _ hmem => nomatch hmem⟩⟩
  | cons label rest ih =>
      obtain ⟨code, hdone, rfl⟩ := onCode_done.mp h
      obtain ⟨code₁, hfirst, hrest⟩ := Action.forM_cons_done.mp hdone
      have hland : Workspace.land label ws₁ = .done () { ws₁ with code := code₁ } :=
        onCode_done.mpr ⟨code₁, hfirst, rfl⟩
      obtain ⟨hspot, hpass₁⟩ := land hs hpass hland
      obtain ⟨hspot', hsame, hpass'⟩ := ih hpass₁ (onCode_done.mpr ⟨code, hrest, rfl⟩)
      refine ⟨by rw [hspot', hspot]; rfl, ?_, hpass'.mono ?_⟩
      · intro hreach
        have hfirst := land_reachable hpass.sound hland hreach
        rw [hsame (by rw [hfirst]; exact hreach), hfirst]
      · intro F s hF
        obtain ⟨⟨hQ, hlabel⟩, hothers⟩ := hF
        refine ⟨hQ, ?_⟩
        intro other hother
        rcases List.mem_cons.mp hother with rfl | hmem
        · exact hlabel
        · rw [hspot] at hothers
          exact hothers other hmem

theorem resetDepth {depth : Nat} {u : Unit} (hs : ws.Sound) (hdepth : depth < wordLimit)
    (h : Workspace.resetDepth depth ws = .done u ws') :
    ws'.spot = ws.spot.reset depth ∧ Passes (fun _ _ => True) [] [] ws ws' := by
  obtain rfl := resetDepth_done h
  exact ⟨reset_spot hs depth, ofRun (Run.reset hs hdepth) rfl⟩

/-- Leave some handlers, one after another. -/
theorem unwind {count : Nat} {u : Unit} (hs : ws.Sound)
    (h : (List.replicate count Opcode.tryEnd).forM emit ws = .done u ws') :
    Passes (fun F _ => Unwinds F count ws.spot ws'.spot) [] [] ws ws' := by
  induction count generalizing ws with
  | zero =>
      rw [List.replicate_zero, Action.forM_nil_done] at h
      subst h
      exact (stay hs).mono fun _ _ _ => .done
  | succ count ih =>
      rw [List.replicate_succ, Action.forM_cons_done] at h
      obtain ⟨ws₁, hfirst, hrest⟩ := h
      have hwrite := write hs hfirst
      exact (hwrite.and hs (ih hwrite.sound hrest)).mono fun F s hF => .next hF.1 hF.2

/-! ### Names and slots -/

/-- A change of the frames that jumps do not see. -/
theorem reframe {change : List Frame → List Frame} (hs : ws.Sound)
    (hchange : ∀ frames, (change frames).map Frame.still = frames.map Frame.still)
    (hbeyond : Frame.beyond (ws.reframe change).spot.scopes = Frame.beyond ws.spot.scopes) :
    Passes (fun _ _ => True) [] [] ws (ws.reframe change) := by
  have houtline : (ws.reframe change).outline = ws.outline := hchange ws.scopes.frames
  refine ofRun (Run.silent hs rfl rfl rfl ?_ rfl hbeyond) houtline
  rw [shape_eq, shape_eq, houtline]

theorem takeSlot {span : Span} {slot : UInt16} (hs : ws.Sound)
    (h : Workspace.takeSlot span ws = .done slot ws') :
    ws.spot.Frees slot ∧ ws'.spot = ws.spot.takeSlot ∧ Passes (fun _ _ => True) [] [] ws ws' := by
  obtain ⟨hnext, hroom, rfl⟩ := takeSlot_done h
  refine ⟨⟨?_, hroom⟩, ?_, reframe hs (fun _ => Frame.takeSlot_still) ?_⟩
  · rw [← hnext]
    show (Frame.innermost? .function (ws.scopes.frames.map Frame.bare)).bind _ = _
    rw [Frame.innermost?_bare, ScopeStack.nextSlot?, Option.bind_map]
    exact congrArg _ (funext Frame.nextSlot?_bare)
  · exact congrArg (Spot.mk _ _ _) Frame.takeSlot_bare
  · exact (congrArg Frame.beyond Frame.takeSlot_bare).trans Frame.takeSlot_beyond

theorem declare {name : Name} {slot : UInt16} (hs : ws.Sound)
    (h : Workspace.declare name ws = .done slot ws') :
    ws.spot.Frees slot ∧ ws'.spot = ws.spot.declare name.text slot ∧
      Passes (fun _ _ => True) [] [] ws ws' := by
  obtain ⟨ws₁, htake, rfl⟩ := declare_done h
  obtain ⟨hfree, hspot, hpass⟩ := takeSlot hs htake
  have hbind : Passes (fun _ _ => True) [] [] ws₁
      (ws₁.reframe (Frame.bindName name.text slot)) :=
    reframe hpass.sound (fun _ => Frame.bindName_still name.text slot)
      ((congrArg Frame.beyond (Frame.bindName_bare name.text slot)).trans
        (Frame.bindName_beyond name.text slot))
  refine ⟨hfree, ?_, (hpass.and hs hbind).mono fun _ _ _ => trivial⟩
  calc (ws₁.reframe (Frame.bindName name.text slot)).spot
      = { ws₁.spot with scopes := Frame.bindName name.text slot ws₁.spot.scopes } :=
        congrArg (Spot.mk _ _ _) (Frame.bindName_bare name.text slot)
    _ = ws.spot.declare name.text slot := by
        rw [hspot]
        rfl

theorem countThrow {u : Unit} (hs : ws.Sound)
    (h : onScopes (Action.modify ScopeStack.countThrow) ws = .done u ws') :
    ws'.spot = ws.spot ∧ Passes (fun _ _ => True) [] [] ws ws' := by
  simp only [onScopes_done, Action.modify_done] at h
  obtain ⟨_, rfl, rfl⟩ := h
  exact ⟨congrArg (Spot.mk _ _ _) Frame.countThrow_bare,
    reframe hs (fun _ => Frame.countThrow_still) (congrArg Frame.beyond Frame.countThrow_bare)⟩

theorem findLocal {name : String} {found : Option SlotRef}
    (h : Workspace.findLocal name ws = .done found ws') :
    Frame.findLocal name 0 ws.spot.scopes = .ok found ∧ ws = ws' := by
  obtain ⟨hfound, rfl⟩ := findLocal_done h
  exact ⟨(Frame.findLocal_bare name 0).trans hfound, rfl⟩

theorem findElement {span : Span} {ref : SlotRef}
    (h : Workspace.findElement span ws = .done ref ws') :
    Frame.findElement 0 ws.spot.scopes = .ok (some ref) ∧ ws = ws' := by
  obtain ⟨hfound, rfl⟩ := findElement_done h
  exact ⟨(Frame.findElement_bare 0).trans hfound, rfl⟩

theorem moveToLine {line : Nat} {u : Unit} (hs : ws.Sound)
    (h : Workspace.moveToLine line ws = .done u ws') :
    ws'.spot = ws.spot ∧ Passes (fun _ _ => True) [] [] ws ws' := by
  simp only [Workspace.moveToLine, onCode_done, Action.modify_done] at h
  obtain ⟨_, rfl, rfl⟩ := h
  exact ⟨rfl, ofRun (Run.silent hs rfl rfl rfl rfl rfl rfl) rfl⟩

theorem addRegion {region : GuardedRegion} {u : Unit} (hs : ws.Sound)
    (h : onCode (Action.modify fun code => code.addRegion region) ws = .done u ws') :
    ws'.spot = ws.spot ∧ Passes (fun _ _ => True) [] [] ws ws' := by
  simp only [onCode_done, Action.modify_done] at h
  obtain ⟨_, rfl, rfl⟩ := h
  exact ⟨rfl, ofRun (Run.silent hs rfl rfl rfl rfl rfl rfl) rfl⟩

/-! ### Scopes -/

/-- A change of the innermost frame by whoever opened it. -/
theorem update_done_cons {id : FrameId} {change : FrameState → FrameState} {frame : Frame}
    {outer : List Frame} {u : Unit} (hs : ws.Sound) (h : update id change ws = .done u ws')
    (hframes : ws.scopes.frames = frame :: outer) (hid : frame.serial = id.serial) :
    ws' = ws.reframe fun _ => frame.modify change :: outer := by
  have hserials := hs.serials
  rw [Workspace.shape, hframes, List.map_cons, List.map_cons, List.pairwise_cons] at hserials
  have houter : outer.map (fun other =>
      if other.serial = id.serial then other.modify change else other) = outer := by
    refine (List.map_congr_left fun other hother => ?_).trans (List.map_id' outer)
    have hlt : frame.serial > other.serial :=
      hserials.1 other.serial (List.mem_map_of_mem (List.mem_map_of_mem hother))
    rw [if_neg (by omega)]
  rw [update_done h]
  simp only [Workspace.reframe, hframes, List.map_cons, if_pos hid, houter]

/-- A change that a view does not see is not seen in any frame. -/
theorem map_update {β : Type} (view : Frame → β) (change : FrameState → FrameState)
    (hview : ∀ frame : Frame, view (frame.modify change) = view frame) (serial : Nat)
    (frames : List Frame) :
    (frames.map fun frame =>
      if frame.serial = serial then frame.modify change else frame).map view =
      frames.map view := by
  rw [List.map_map]
  refine List.map_congr_left fun frame _ => ?_
  rw [Function.comp_apply]
  split
  · exact hview frame
  · rfl

theorem setArm {id : FrameId} {arm : Nat} {u : Unit} (hs : ws.Sound)
    (h : update id (FrameState.setArm arm) ws = .done u ws') :
    ws'.spot = ws.spot ∧ Passes (fun _ _ => True) [] [] ws ws' := by
  obtain rfl := update_done h
  have hbare := map_update Frame.bare (FrameState.setArm arm)
    (fun frame => by obtain ⟨serial, bindings, state⟩ := frame; cases state <;> rfl) id.serial
    ws.scopes.frames
  refine ⟨congrArg (Spot.mk _ _ _) hbare, reframe hs (fun frames => ?_)
    (congrArg Frame.beyond hbare)⟩
  refine map_update Frame.still _ ?_ id.serial frames
  intro frame
  obtain ⟨serial, bindings, state⟩ := frame
  cases state <;> rfl

/-- A jump to the end of the conditional is noted in its frame. -/
theorem addExit {id : FrameId} {u : Unit} (hs : ws.Sound)
    (hid : ws.shape.head?.map Prod.fst = some id.serial)
    (h : update id (FrameState.addExit label) ws = .done u ws') :
    ws'.spot = ws.spot ∧ Passes (fun _ _ => True) [label] [] ws ws' := by
  cases hframes : ws.scopes.frames with
  | nil =>
      simp only [Workspace.shape, hframes] at hid
      cases hid
  | cons frame outer =>
      simp only [Workspace.shape, hframes, List.map_cons, List.head?_cons, Option.map_some,
        Option.some.injEq] at hid
      have hbare : (frame.modify (FrameState.addExit label)).bare = frame.bare := by
        obtain ⟨serial, bindings, state⟩ := frame
        cases state <;> rfl
      have hstill : (frame.modify (FrameState.addExit label)).still =
          frame.still.modify (FrameState.addExits [label]) := by
        obtain ⟨serial, bindings, state⟩ := frame
        cases state <;> rfl
      obtain rfl := update_done_cons hs h hframes hid
      have hscopes : (ws.reframe fun _ =>
          frame.modify (FrameState.addExit label) :: outer).spot.scopes = ws.spot.scopes := by
        show List.map Frame.bare _ = List.map Frame.bare _
        rw [reframe_frames, hframes, List.map_cons, List.map_cons, hbare]
      refine ⟨congrArg (Spot.mk _ _ _) hscopes, [], Run.silent hs rfl rfl rfl ?_ rfl
        (congrArg Frame.beyond hscopes), ?_⟩
      · simp only [Workspace.shape, Workspace.reframe, hframes, List.map_cons]
        obtain ⟨serial, bindings, state⟩ := frame
        cases state <;> rfl
      · simp only [Workspace.outline, Workspace.reframe, hframes, List.map_cons, hstill,
          Frame.withBreaks_nil]
        rfl

/-- The end of a block or of a conditional, and the jumps the conditional has noted. -/
theorem leave {state : FrameState} {frame : Frame} {outer : List Frame}
    (hstate : state = .block ∨ state = .branch 0 #[])
    (h : Passes Q exits holes (ws.entered state) ws₁)
    (hframes : ws₁.scopes.frames = frame :: outer) :
    Passes Q [] holes ws (ws₁.left frame) ∧
      (state = .branch 0 #[] → frame.state.exits = exits) := by
  obtain ⟨breaks, hrun, houtline⟩ := h
  have hsurroundings : ∀ exit, Surroundings.ofFrames exit (ws.entered state).outline =
      .ofFrames exit ws.outline := by
    intro exit
    rcases hstate with rfl | rfl <;> rfl
  have howned : (Frame.innermost? .loop ws.scopes.frames).isNone → breaks = [] := by
    rcases hstate with rfl | rfl <;> exact hrun.owned
  have hscope : state.scope ≠ .function := by
    rcases hstate with rfl | rfl <;> exact nofun
  have htail : ws₁.outline.tail = Frame.withBreaks breaks ws.outline := by
    rw [houtline]
    rcases hstate with rfl | rfl <;> rfl
  refine ⟨⟨breaks, ?_, ?_⟩, ?_⟩
  · refine (hrun.leave hscope howned).mono fun F exit hQ => ?_
    rw [← hsurroundings exit]
    exact hQ
  · rw [left_outline, htail, Frame.withExits_nil]
  · intro hbranch
    subst hbranch
    have hcons : ws₁.outline = frame.still :: outer.map Frame.still := by
      rw [Workspace.outline, hframes, List.map_cons]
    have hhead : frame.still =
        ⟨ws.scopes.nextSerial, [], .branch 0 (#[] ++ exits.toArray)⟩ :=
      (List.cons.inj (hcons.symm.trans houtline)).1
    obtain ⟨serial, bindings, state⟩ := frame
    cases state with
    | branch arm noted =>
        simp only [Frame.still, FrameState.still, Frame.mk.injEq, FrameState.branch.injEq] at hhead
        simp only [FrameState.exits, hhead.2.2.2]
        simp
    | function | loop | handler | block | transform => cases hhead

/-- The end of the scope of a transform, which lets no break through. -/
theorem leaveTransform {element : UInt16} {frame : Frame}
    (h : Passes Q [] holes (ws.entered (.transform element)) ws₁) :
    Passes (fun F s => Q F s.inTransform) [] holes ws (ws₁.left frame) := by
  obtain ⟨breaks, hrun, houtline⟩ := h
  obtain rfl : breaks = [] := hrun.owned rfl
  refine ⟨[], hrun.leave nofun fun _ => rfl, ?_⟩
  rw [left_outline, houtline, Frame.withExits_nil, Frame.withExits_nil, Frame.withBreaks_nil,
    Frame.withBreaks_nil]
  rfl

/-- The end of a loop, behind which its breaks have yet to land. -/
theorem leaveLoop {target : Position} {depth : Nat} {frame : Frame} {outer : List Frame}
    (h : Passes Q [] [] (ws.entered (.loop target depth #[])) ws₁)
    (hframes : ws₁.scopes.frames = frame :: outer) :
    Passes (fun F s => ∀ exit, (∀ label ∈ frame.state.breaks, F.Aims .jump label exit) →
        Q F (s.inLoop target.index.toUInt32.toNat exit depth)) []
      (frame.state.breaks.map fun label => (.jump, label)) ws (ws₁.left frame) := by
  obtain ⟨breaks, hrun, houtline⟩ := h
  have hcons : ws₁.outline = frame.still :: outer.map Frame.still := by
    rw [Workspace.outline, hframes, List.map_cons]
  have hlist : frame.still :: outer.map Frame.still =
      ⟨ws.scopes.nextSerial, [], .loop target depth (#[] ++ breaks.toArray)⟩ :: ws.outline :=
    hcons.symm.trans houtline
  obtain ⟨hhead, htail⟩ := List.cons.inj hlist
  have hbreaks : frame.state.breaks = breaks := by
    obtain ⟨serial, bindings, state⟩ := frame
    cases state with
    | loop target depth noted =>
        simp only [Frame.still, FrameState.still, Frame.mk.injEq, FrameState.loop.injEq] at hhead
        simp only [FrameState.breaks, hhead.2.2.2.2]
        simp
    | function | handler | branch | block | transform => cases hhead
  have hscope : (FrameState.loop target depth #[]).scope ≠ .function := by
    intro hscope
    cases hscope
  have hleave : Run _ _ _ ws (ws₁.left frame) := hrun.handOver.leave hscope fun _ => rfl
  rw [List.append_nil, ← hbreaks] at hleave
  refine ⟨[], hleave.mono ?_, ?_⟩
  · intro F exit hQ target' haimed
    rw [Surroundings.ofFrames_inLoop]
    exact hQ target' (hbreaks ▸ haimed)
  · rw [left_outline, hcons, Frame.withExits_nil, Frame.withBreaks_nil]
    exact htail

end Passes

end QueryCompiler.Layout
