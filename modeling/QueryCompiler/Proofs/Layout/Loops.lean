/-
What the rules for loops write, and for leaving and repeating them.

The breaks of a loop land where its own exit has landed before, so they find control
there already and change nothing.  A break or a continue sees the loop through the
surroundings, which count the handlers on the way just as the rule does.
-/
import QueryCompiler.Proofs.Layout.Branches

namespace QueryCompiler.Layout

open Workspace

variable {lower : Lower} {ws ws' : Workspace} {u : Unit}

theorem enteredLoop_sound (hs : ws.Sound) :
    (ws.entered (.loop ws.code.position ws.code.depth #[])).Sound := by
  refine entered_sound hs ?_
  intro entry hentry
  obtain rfl := Option.some.inj hentry
  exact Nat.lt_of_le_of_lt hs.depth_le hs.maxDepth_lt

/-- A loop that starts here is left to its end, where control gets by itself. -/
theorem closeLoop {Q : Image → Surroundings → Prop} {inside : Workspace} {frame : Frame}
    {outer : List Frame} (hs : ws.Sound)
    (hround : Passes Q [] [] (ws.entered (.loop ws.code.position ws.code.depth #[])) inside)
    (hframes : inside.scopes.frames = frame :: outer) (hreach : inside.spot.reachable = true)
    (h : landAll frame.state.breaks (inside.left frame) = .done u ws') :
    ws'.spot = inside.spot.leave ∧
      Passes (fun F s => Q F (s.inLoop ws.spot.index inside.spot.index ws.spot.depth)) [] [] ws
        ws' := by
  have hloop := Passes.leaveLoop hround hframes
  obtain ⟨-, hsame, hloop⟩ := Passes.landAll hs hloop h
  have hspot := hsame (by rw [left_spot]; exact hreach)
  rw [left_spot] at hspot
  refine ⟨hspot, hloop.short.mono ?_⟩
  intro F s hF
  obtain ⟨⟨hinside, haimed⟩, hshort⟩ := hF
  have hlength := hloop.length
  have hword : ws.code.position.index.toUInt32.toNat = ws.spot.index :=
    Nat.mod_eq_of_lt (show ws.code.length < wordLimit by omega)
  rw [left_spot] at haimed
  rw [← hword]
  exact hinside inside.spot.index haimed

theorem whileLoop_lays (hl : Faithful lower) {condition body : Node} {span : Span}
    (hs : ws.Sound) (h : Rule.whileLoop lower (.whileLoop condition body span) ws = .done u ws') :
    Lays (.rule (.whileLoop condition body span)) ws ws' := by
  simp only [Rule.whileLoop, Action.bind_done] at h
  obtain ⟨start, _, hstart, level, _, hlevel, ⟨_, last⟩, _, hwithin, hlandAll⟩ := h
  obtain ⟨rfl, rfl⟩ := position_done hstart
  obtain ⟨rfl, rfl⟩ := depth_done hlevel
  obtain ⟨inside, frame, outer, hbody, hframes, -, rfl, rfl⟩ := within_done hwithin
  simp only [Action.bind_done] at hbody
  obtain ⟨_, ws₁, hcondition, exit, ws₂, hexit, _, ws₃, hbody, _, ws₄, hback, hland⟩ := hbody
  have hs₀ := enteredLoop_sound hs
  have hcondition := value_lays hl hs₀ hcondition
  obtain ⟨htaken, hexit⟩ := Passes.jump hcondition.sound hexit
  have hbody := statement_lays hl hexit.sound hbody
  have hround := (hcondition.and hs₀ hexit).and hs₀ hbody
  have hback := Passes.jumpBack_position hbody.sound hback hround.length
  obtain ⟨hspot, hround⟩ := Passes.land hs₀ (hround.and hs₀ hback) hland
  obtain ⟨hspot', hloop⟩ := closeLoop hs hround hframes (by rw [hspot]; rfl) hlandAll
  refine hloop.mono ?_
  intro F s hF
  obtain ⟨⟨⟨⟨hcondition, hexit⟩, hbody⟩, hback⟩, haimed⟩ := hF
  have hindex : inside.spot.index = ws₄.spot.index := by rw [hspot]; rfl
  rw [hindex] at hcondition hbody
  rw [hspot, htaken] at hspot'
  exact .whileLoop hcondition (hexit _ haimed) hbody hback hspot'

/-- The element gets its slot in the first round and keeps it. -/
theorem forEach_lays (hl : Faithful lower) {binding : Name} {iterable body : Node} {span : Span}
    (hs : ws.Sound)
    (h : Rule.forEach lower (.forEach binding iterable body span) ws = .done u ws') :
    Lays (.rule (.forEach binding iterable body span)) ws ws' := by
  simp only [Rule.forEach, Action.bind_done] at h
  obtain ⟨_, ws₁, hiterable, _, ws₂, hstart, next, _, hnext, level, _, hlevel, ⟨_, last⟩, _,
    hwithin, _, ws₇, hlandAll, hdrop⟩ := h
  obtain ⟨rfl, rfl⟩ := position_done hnext
  obtain ⟨rfl, rfl⟩ := depth_done hlevel
  obtain ⟨inside, frame, outer, hbody, hframes, -, rfl, rfl⟩ := within_done hwithin
  simp only [Action.bind_done] at hbody
  obtain ⟨exit, ws₃, hexit, slot, ws₄, hdeclare, _, ws₅, hstore, _, ws₆, hbody, _, ws₈, hback,
    hland⟩ := hbody
  have hiterable := value_lays hl hs hiterable
  have hstart := Passes.write hiterable.sound hstart
  have hs₀ := enteredLoop_sound hstart.sound
  obtain ⟨htaken, hexit⟩ := Passes.jump hs₀ hexit
  obtain ⟨hfree, hspot₄, hdeclare⟩ := Passes.declare hexit.sound hdeclare
  have hstore := Passes.write hdeclare.sound hstore
  have hbody := statement_lays hl hstore.sound hbody
  have hround := ((hexit.and hs₀ hdeclare).and hs₀ hstore).and hs₀ hbody
  have hback := Passes.jumpBack_position hbody.sound hback hround.length
  obtain ⟨hspot, hround⟩ := Passes.land hs₀ (hround.and hs₀ hback) hland
  obtain ⟨hspot₇, hloop⟩ := closeLoop hstart.sound hround hframes (by rw [hspot]; rfl) hlandAll
  have hdrop := Passes.write hloop.sound hdrop
  refine (((hiterable.and hs hstart).and hs hloop).and hs hdrop).mono ?_
  intro F s hF
  obtain ⟨⟨⟨hiterable, hstart⟩, ⟨⟨⟨⟨hexit, -⟩, hstore⟩, hbody⟩, hback⟩, haimed⟩, hdrop⟩ := hF
  have hindex : inside.spot.index = ws₈.spot.index := by rw [hspot]; rfl
  rw [hspot₄] at hstore
  rw [hindex] at hbody
  rw [hspot₇, hspot, htaken] at hdrop
  exact .forEach hiterable hstart (hexit _ haimed) hfree hstore hbody hback hdrop

/-! ### Leaving and repeating -/

theorem leaveHandlers_done {scope : Scope} (h : leaveHandlers scope ws = .done u ws') :
    (List.replicate (Frame.guardsWithin scope ws.scopes.frames) Opcode.tryEnd).forM emit ws =
      .done () ws' := by
  simp only [leaveHandlers, guardsWithin, Action.bind_done, onScopes_done, Action.read_done] at h
  obtain ⟨_, _, ⟨_, ⟨rfl, rfl⟩, rfl⟩, h⟩ := h
  exact h

theorem enclosingLoop_done {span : Span} {target : Position} {level : Nat}
    (h : Rule.enclosingLoop span ws = .done (target, level) ws') :
    ws = ws' ∧ ∃ frame, Frame.innermost? .loop ws.scopes.frames = some frame ∧
      frame.state.loopEntry? = some (target, level) := by
  simp only [Rule.enclosingLoop, Action.bind_done, onScopes_done, ScopeStack.enclosing] at h
  obtain ⟨frame, _, ⟨_, hframe, rfl⟩, h⟩ := h
  cases hfound : Frame.innermost? .loop ws.scopes.frames with
  | none =>
      rw [hfound] at hframe
      cases hframe
  | some found =>
      simp only [hfound, Outcome.done.injEq] at hframe
      obtain ⟨rfl, rfl⟩ := hframe
      cases hentry : found.state.loopEntry? with
      | none =>
          rw [hentry] at h
          exact absurd h Action.not_fail_done
      | some entry =>
          rw [hentry] at h
          obtain ⟨rfl, rfl⟩ := Action.pure_done.mp h
          exact ⟨rfl, found, rfl, hentry⟩

/-- A loop that is found was opened at a depth that is a word. -/
theorem innermost?_level {frame : Frame} {target : Position} {level : Nat} (hs : ws.Sound)
    (hframe : Frame.innermost? .loop ws.scopes.frames = some frame)
    (hentry : frame.state.loopEntry? = some (target, level)) : level < wordLimit := by
  refine hs.levels frame.shape (List.mem_map_of_mem (Frame.mem_of_innermost? hframe)) level ?_
  simp only [Frame.shape, hentry, Option.map_some]

/-- The enclosing loop is the one that the surroundings have. -/
theorem enclosing_passes {frame : Frame} {target : Position} {level : Nat} (hs : ws.Sound)
    (hframe : Frame.innermost? .loop ws.scopes.frames = some frame)
    (hentry : frame.state.loopEntry? = some (target, level)) :
    Passes (fun _ s => ∃ exit, s.loop? = some ⟨target.index.toUInt32.toNat, exit, level,
      Frame.guardsWithin .loop ws.scopes.frames⟩) [] [] ws ws := by
  refine ⟨[], (Run.silent hs rfl rfl rfl rfl rfl rfl).mono ?_, ?_⟩
  · intro F exit _
    exact ⟨exit, Surroundings.ofFrames_loop? hframe hentry⟩
  · rw [Frame.withExits_nil, Frame.withBreaks_nil]

/-- The way to a loop: control has the depth of the loop, and the handlers are left. -/
theorem leaveForLoop_passes {construct : Construct} {span : Span} (hs : ws.Sound)
    (h : Rule.leaveForLoop construct span ws = .done u ws') :
    (∃ frame entry, Frame.innermost? .loop ws.scopes.frames = some frame ∧
      frame.state.loopEntry? = some entry) ∧
    Passes (fun F s => ∃ loop, s.loop? = some loop ∧
      (ws.spot.reachable = true → ws.spot.depth = loop.level) ∧
      Unwinds F loop.crossed (ws.spot.reset loop.level) ws'.spot) [] [] ws ws' := by
  simp only [Rule.leaveForLoop, Action.bind_done] at h
  obtain ⟨⟨target, level⟩, _, henclosing, found, _, hfound, reached, _, hreached, h⟩ := h
  obtain ⟨rfl, frame, hframe, hentry⟩ := enclosingLoop_done henclosing
  obtain ⟨rfl, rfl⟩ := depth_done hfound
  obtain ⟨rfl, rfl⟩ := reachable_done hreached
  split at h
  · simp only [Action.bind_done, Action.not_fail_done, false_and, exists_false] at h
  · rename_i hdepth
    simp only [Action.bind_done] at h
    obtain ⟨_, ws₁, hreset, hunwind⟩ := h
    have hloop := enclosing_passes hs hframe hentry
    obtain ⟨hspot, hpass⟩ := Passes.resetDepth hs (innermost?_level hs hframe hentry) hreset
    have hunwind := Passes.unwind hpass.sound (leaveHandlers_done hunwind)
    obtain rfl := resetDepth_done hreset
    refine ⟨⟨frame, _, hframe, hentry⟩, ((hloop.and hs hpass).and hs hunwind).mono ?_⟩
    intro F s hF
    obtain ⟨⟨⟨exit, hloop⟩, -⟩, hunwind⟩ := hF
    refine ⟨_, hloop, ?_, ?_⟩
    · intro hreach
      have hreach : ws.code.reachable = true := hreach
      have hagree : ws.code.depth = level := by simpa [hreach] using hdepth
      exact hagree
    · rw [hspot] at hunwind
      exact hunwind

/-- A jump is handed to the loop around it. -/
theorem entrust_passes {Q : Image → Surroundings → Prop} {label : PendingJump} {ws₁ : Workspace}
    {frame : Frame} {entry : Position × Nat} (hs : ws.Sound)
    (hframe : Frame.innermost? .loop ws.scopes.frames = some frame)
    (hentry : frame.state.loopEntry? = some entry)
    (hpass : Passes Q [] [(.jump, label)] ws ws₁)
    (h : onScopes (Action.modify (ScopeStack.modifyEnclosing .loop (FrameState.addBreak label)))
      ws₁ = .done u ws') :
    ws'.spot = ws₁.spot ∧ Passes (fun F s => Q F s ∧ ∀ loop, s.loop? = some loop →
      F.Aims .jump label loop.exit) [] [] ws ws' := by
  simp only [onScopes_done, Action.modify_done] at h
  obtain ⟨_, rfl, rfl⟩ := h
  obtain ⟨breaks, hrun, houtline⟩ := hpass
  have houtline' : (ws₁.reframe
      (Frame.modifyInnermost .loop (FrameState.addBreak label))).outline =
      Frame.withBreaks [label] ws₁.outline := Frame.addBreak_still label
  have hnoted : Run (fun _ _ => True) [] [] ws₁
      (ws₁.reframe (Frame.modifyInnermost .loop (FrameState.addBreak label))) := by
    refine Run.silent hrun.sound rfl rfl rfl ?_ rfl
      (congrArg Frame.beyond (Frame.addBreak_bare label))
    rw [shape_eq, shape_eq, houtline', Frame.withBreaks_shape]
  have hsome : ¬ (Frame.innermost? .loop ws.scopes.frames).isNone := by
    rw [hframe]
    exact nofun
  refine ⟨congrArg (Spot.mk _ _ _) (Frame.addBreak_bare label), breaks ++ [label], ?_, ?_⟩
  · have hall := (hrun.entrust hsome).trans hs hnoted
    rw [List.append_nil] at hall
    refine hall.mono ?_
    intro F exit hF
    obtain ⟨⟨hQ, haimed⟩, -⟩ := hF
    refine ⟨hQ, ?_⟩
    intro loop hloop
    obtain rfl := Option.some.inj (hloop.symm.trans (Surroundings.ofFrames_loop? hframe hentry))
    exact haimed
  · refine houtline'.trans ?_
    rw [houtline, Frame.withExits_nil, Frame.withBreaks_append]

theorem breakLoop_lays (lower : Lower) {span : Span} (hs : ws.Sound)
    (h : Rule.breakLoop lower (.breakLoop span) ws = .done u ws') :
    Lays (.rule (.breakLoop span)) ws ws' := by
  simp only [Rule.breakLoop, Action.bind_done] at h
  obtain ⟨_, ws₁, hleave, label, ws₂, hjump, hnote⟩ := h
  obtain ⟨⟨frame, entry, hframe, hentry⟩, hleave⟩ := leaveForLoop_passes hs hleave
  obtain ⟨-, hjump⟩ := Passes.jump hleave.sound hjump
  obtain ⟨hspot, hall⟩ := entrust_passes hs hframe hentry (hleave.and hs hjump) hnote
  refine hall.mono ?_
  intro F s hF
  obtain ⟨⟨⟨loop, hloop, hlevel, hunwind⟩, hjump⟩, haimed⟩ := hF
  rw [hspot]
  exact .breakLoop hloop hlevel hunwind (hjump _ (haimed loop hloop))

theorem continueLoop_lays (lower : Lower) {span : Span} (hs : ws.Sound)
    (h : Rule.continueLoop lower (.continueLoop span) ws = .done u ws') :
    Lays (.rule (.continueLoop span)) ws ws' := by
  simp only [Rule.continueLoop, Action.bind_done] at h
  obtain ⟨_, ws₁, hleave, ⟨target, level⟩, _, henclosing, hback⟩ := h
  obtain ⟨-, hleave⟩ := leaveForLoop_passes hs hleave
  obtain ⟨rfl, frame, hframe, hentry⟩ := enclosingLoop_done henclosing
  have hloop := enclosing_passes hleave.sound hframe hentry
  have hback := Passes.jumpBack hleave.sound hback
  refine ((hleave.and hs hloop).and hs hback).mono ?_
  intro F s hF
  obtain ⟨⟨⟨loop, hloop, hlevel, hunwind⟩, exit, hagain⟩, hback⟩ := hF
  have hhead : loop.head = target.index.toUInt32.toNat := by
    rw [hloop] at hagain
    exact congrArg Loop.head (Option.some.inj hagain)
  rw [← hhead] at hback
  exact .continueLoop hloop hlevel hunwind hback

end QueryCompiler.Layout
