/-
What a course records about handlers.

A course records a region for every handler it writes, and counts the `throw`s on the
frames that are open.  Both agree with the text: that is `Records`, and it is shown by
induction on the course.  Regions are kept as guards here, in whole numbers; how they
fit into words is a matter of programs.
-/
import Mathlib.Logic.Function.Iterate
import QueryCompiler.Proofs.Tables.Guards

namespace QueryCompiler

/-! ### Frames -/

/-- What a frame remembers for the sake of `throw`s. -/
def FrameState.watch : FrameState → FrameState
  | handler start guarded throws => handler start guarded throws
  | function .. => function 0 0
  | _ => block

namespace Frame

/-- The frame with nothing but what `throw`s need. -/
def watch (frame : Frame) : Frame :=
  ⟨0, [], frame.state.watch⟩

theorem passesThrow_watch (frame : Frame) : frame.watch.passesThrow = frame.passesThrow := by
  obtain ⟨serial, bindings, state⟩ := frame
  cases state <;> rfl

theorem watch_countThrow (frames : List Frame) :
    (countThrow frames).map watch = countThrow (frames.map watch) :=
  map_countThrow passesThrow_watch (fun ⟨_, _, state⟩ _ => by cases state <;> rfl) frames

theorem watch_quiet (frame : Frame) : frame.quiet.watch = frame.watch := by
  obtain ⟨serial, bindings, state⟩ := frame
  cases state <;> rfl

theorem watch_takeSlot (frames : List Frame) :
    (modifyInnermost .function FrameState.takeSlot frames).map watch = frames.map watch :=
  map_modifyInnermost_of_eq (fun ⟨_, _, state⟩ _ => by cases state <;> rfl) frames

theorem watch_bindName (name : String) (slot : UInt16) (frames : List Frame) :
    (bindName name slot frames).map watch = frames.map watch := by
  cases frames <;> rfl

theorem watch_unguard (frames : List Frame) :
    (unguard frames).map watch = unguard (frames.map watch) := by
  cases frames with
  | nil => rfl
  | cons frame outer =>
      obtain ⟨serial, bindings, state⟩ := frame
      cases state <;> rfl

/-- What is not a handler that guards, nor a function, does not count `throw`s. -/
theorem iterate_countThrow_of_passes {frame : Frame} (h : frame.passesThrow = true) (n : Nat)
    (outer : List Frame) : countThrow^[n] (frame :: outer) = frame :: countThrow^[n] outer := by
  induction n generalizing outer with
  | zero => rfl
  | succ n ih =>
      rw [Function.iterate_succ_apply, countThrow, if_pos h, ih]
      rfl

/-- No `throw` is counted beyond a function. -/
theorem iterate_countThrow_function (serial id n : Nat) (bindings : List (String × UInt16))
    (next : UInt16) (outer : List Frame) :
    countThrow^[n] (⟨serial, bindings, .function id next⟩ :: outer) =
      ⟨serial, bindings, .function id next⟩ :: outer := by
  induction n with
  | zero => rfl
  | succ n ih =>
      rw [Function.iterate_succ_apply]
      exact ih

/-- A handler that guards counts them all. -/
theorem iterate_countThrow_handler (serial throws n : Nat) (bindings : List (String × UInt16))
    (start : Position) (outer : List Frame) :
    countThrow^[n] (⟨serial, bindings, .handler start true throws⟩ :: outer) =
      ⟨serial, bindings, .handler start true (throws + n)⟩ :: outer := by
  induction n generalizing throws with
  | zero => rfl
  | succ n ih =>
      rw [Function.iterate_succ_apply, Nat.add_comm n 1, ← Nat.add_assoc]
      exact ih (throws + 1)

end Frame

/-! ### Tables -/

/-- The entry of the handler table for a handler of a function. -/
def Guard.region (function : Nat) (guard : Guard) : GuardedRegion where
  function := function.toUInt32
  start := guard.start.toUInt32
  stop := guard.stop.toUInt32
  catchAt := guard.catchAt.toUInt32
  throws := guard.throws.toUInt32

namespace Progress

open Workspace

/-- The handlers that were recorded on the way from one program to another: those written in the
current function, and those of the functions that were added, which are complete. -/
structure Additions (code code' : Assembly) (entries : List (Nat × Guard)) : Prop extends
    code.Around code' where
  regions : code'.regions.toList =
    code.regions.toList ++ entries.map fun entry => entry.2.region entry.1
  made : ∀ g, code.routines.size ≤ g → g < code'.routines.size →
    ∃ loose, Guarded (code'.text g) 0 (code'.text g).length (entriesOf g entries) loose
  places : ∀ entry ∈ entries, entry.1 = code.currentFunction ∨
    code.routines.size ≤ entry.1 ∧ entry.1 < code'.routines.size

namespace Additions

variable {code code₁ code₂ : Assembly} {entries more : List (Nat × Guard)}

theorem trans (hcurrent : code.currentFunction < code.routines.size)
    (h : Additions code code₁ entries) (h' : Additions code₁ code₂ more) :
    Additions code code₂ (entries ++ more) where
  toAround := h.toAround.trans h'.toAround
  regions := by
    rw [h'.regions, h.regions, List.append_assoc, List.map_append]
  made g hg hlt := by
    rw [entriesOf_append]
    rcases Nat.lt_or_ge g code₁.routines.size with hold | hnew
    · -- A function that was complete before is not touched any more.
      have hne : g ≠ code₁.currentFunction := by
        rw [h.function]
        omega
      have hnone : entriesOf g more = [] := by
        refine entriesOf_eq_nil fun entry hentry => ?_
        rcases h'.places entry hentry with hplace | hplace <;> omega
      rw [hnone, List.append_nil, Assembly.text_of_routine (h'.others g hold hne)]
      exact h.made g hg hold
    · have hnone : entriesOf g entries = [] := by
        refine entriesOf_eq_nil fun entry hentry => ?_
        have hsize := h.size
        rcases h.places entry hentry with hplace | hplace <;> omega
      rw [hnone, List.nil_append]
      exact h'.made g hnew hlt
  places entry hentry := by
    have hsize := h.size
    have hsize' := h'.size
    have hfunction := h.function
    rcases List.mem_append.mp hentry with hmem | hmem
    · rcases h.places entry hmem with hplace | hplace
      · exact .inl hplace
      · exact .inr (by omega)
    · rcases h'.places entry hmem with hplace | hplace
      · exact .inl (by omega)
      · exact .inr (by omega)

/-- Work on the current function alone. -/
theorem silent (h : code.Around code₁) (hregions : code₁.regions = code.regions)
    (hsize : code₁.routines.size = code.routines.size) : Additions code code₁ [] where
  toAround := h
  regions := by rw [hregions, List.map_nil, List.append_nil]
  made g hg hlt := by omega
  places := List.forall_mem_nil _

theorem modifyCurrent (code : Assembly) (change : Routine → Routine) :
    Additions code (code.modifyCurrent change) [] :=
  silent (.modifyCurrent code change) rfl (by simp [Assembly.modifyCurrent])

end Additions

/-! ### Courses -/

/-- What a course records agrees with what it writes. -/
structure Records (ws ws' : Workspace) (entries : List (Nat × Guard)) (loose : Nat) : Prop where
  additions : Additions ws.code ws'.code entries
  current : Guarded (ws'.code.text ws.code.currentFunction) ws.code.length ws'.code.length
    (entriesOf ws.code.currentFunction entries) loose
  watch : ws'.scopes.frames.map Frame.watch =
    Frame.countThrow^[loose] (ws.scopes.frames.map Frame.watch)

variable {ws ws₁ ws₂ ws' inside : Workspace} {entries more : List (Nat × Guard)}
  {loose loose' : Nat}

/-- What is behind the end of a text does not change what is said of it. -/
theorem guarded_later {a loose : Nat} {guards : List Guard} {f : Nat} {written : List Instruction}
    (h : Guarded (ws.code.text f) a ws.code.length guards loose) (hf : ws.code.currentFunction = f)
    (htext : ws'.code.text f = ws.code.text f ++ written) :
    Guarded (ws'.code.text f) a ws.code.length guards loose := by
  refine h.congr fun i _ hi => ?_
  rw [htext, List.getElem?_append_left]
  rw [← hf, Assembly.length_text]
  exact hi

namespace Records

theorem trans (hcurrent : ws.code.currentFunction < ws.code.routines.size)
    (h : Records ws ws₁ entries loose)
    (htext : ∃ written, ws₂.code.text ws₁.code.currentFunction =
      ws₁.code.text ws₁.code.currentFunction ++ written)
    (h' : Records ws₁ ws₂ more loose') : Records ws ws₂ (entries ++ more) (loose + loose') where
  additions := h.additions.trans hcurrent h'.additions
  current := by
    have hf := h.additions.function
    obtain ⟨written, hwritten⟩ := htext
    have hafter := h'.current
    rw [hf] at hwritten hafter
    rw [entriesOf_append]
    exact (guarded_later h.current hf hwritten).append hafter
  watch := by
    rw [h'.watch, h.watch, ← Function.iterate_add_apply, Nat.add_comm]

/-- A step that neither the text nor `throw`s take notice of. -/
theorem quiet (hadditions : Additions ws.code ws'.code [])
    (htext : ws'.code.text ws.code.currentFunction = ws.code.text ws.code.currentFunction)
    (hwatch : ws'.scopes.frames.map Frame.watch = ws.scopes.frames.map Frame.watch) :
    Records ws ws' [] 0 where
  additions := hadditions
  current := by
    have hlength : ws'.code.length = ws.code.length := by
      rw [← ws'.code.length_text, hadditions.function, htext, ws.code.length_text]
    rw [hlength]
    exact .nil _
  watch := hwatch

/-- One instruction more, which is at the end. -/
theorem written {instruction : Instruction} (hadditions : Additions ws.code ws'.code [])
    (htext : ws'.code.text ws.code.currentFunction =
      ws.code.text ws.code.currentFunction ++ [instruction]) :
    ws'.code.length = ws.code.length + 1 ∧
      (ws'.code.text ws.code.currentFunction)[ws.code.length]? = some instruction := by
  refine ⟨?_, ?_⟩
  · rw [← ws'.code.length_text, hadditions.function, htext, List.length_append,
      ws.code.length_text]
    rfl
  · rw [htext, ← ws.code.length_text, List.getElem?_append_right (Nat.le_refl _), Nat.sub_self]
    rfl

/-- An instruction that has nothing to do with handlers. -/
theorem plain {instruction : Instruction} (hadditions : Additions ws.code ws'.code [])
    (htext : ws'.code.text ws.code.currentFunction =
      ws.code.text ws.code.currentFunction ++ [instruction])
    (htry : instruction.op ≠ .tryBegin) (hthrow : instruction.op ≠ .throw)
    (hwatch : ws'.scopes.frames.map Frame.watch = ws.scopes.frames.map Frame.watch) :
    Records ws ws' [] 0 where
  additions := hadditions
  current := by
    obtain ⟨hlength, hat⟩ := written hadditions htext
    rw [hlength]
    exact .plain hat htry hthrow
  watch := hwatch

theorem wrote (hcurrent : ws.code.currentFunction < ws.code.routines.size)
    {instruction : Instruction} (htry : instruction.op ≠ .tryBegin)
    (hthrow : instruction.op ≠ .throw) : Records ws (ws.wrote instruction) [] 0 := by
  refine plain (.modifyCurrent _ _) (text_wrote hcurrent instruction) ?_ ?_ rfl
  · rw [Instruction.core_op]
    exact htry
  · rw [Instruction.core_op]
    exact hthrow

end Records

theorem Step.additions (h : Step ws ws') : Additions ws.code ws'.code [] := by
  cases h with
  | write | land | reset => exact .modifyCurrent _ _
  | pool | line => exact .silent ⟨rfl, Nat.le_refl _, fun _ _ _ => rfl⟩ rfl rfl
  | takeSlot | bind | note => exact .silent (.refl _) rfl rfl

/-- No single step is of account to `throw`s. -/
theorem Step.watch (h : Step ws ws') :
    ws'.scopes.frames.map Frame.watch = ws.scopes.frames.map Frame.watch := by
  cases h with
  | write | pool | land | reset | line => rfl
  | takeSlot => exact Frame.watch_takeSlot _
  | bind name => exact Frame.watch_bindName name _ _
  | @note change hquiet =>
      have hwatch := congrArg (List.map Frame.watch) hquiet
      simpa only [List.map_map, Function.comp_def, Frame.watch_quiet, reframe_frames] using hwatch

theorem Step.records (h : Step ws ws')
    (hcurrent : ws.code.currentFunction < ws.code.routines.size) : Records ws ws' [] 0 := by
  rcases h.text hcurrent with hsame | ⟨instruction, hplain, hwritten⟩
  · exact .quiet h.additions hsame h.watch
  · refine .plain h.additions hwritten ?_ ?_ h.watch
    · rw [Instruction.core_op]
      intro hop
      rw [hop] at hplain
      cases hplain
    · rw [Instruction.core_op]
      intro hop
      rw [hop] at hplain
      cases hplain

/-- A scope that is neither a handler nor a function is of no account to `throw`s. -/
theorem Records.scope {state : FrameState} {frame : Frame} {outer : List Frame}
    (hstate : state.Opens ws.scopes.frames) (h : Records (ws.entered state) inside entries loose)
    (hframes : inside.scopes.frames = frame :: outer) :
    Records ws (inside.left frame) entries loose where
  additions := h.additions
  current := h.current
  watch := by
    have hpasses : (Frame.watch ⟨ws.scopes.nextSerial, [], state⟩).passesThrow = true := by
      cases state with
      | function | handler => exact hstate.elim
      | loop | branch | block | transform => rfl
    have hwatch := h.watch
    rw [show (ws.entered state).scopes.frames = ⟨ws.scopes.nextSerial, [], state⟩ ::
      ws.scopes.frames from rfl, List.map_cons, Frame.iterate_countThrow_of_passes hpasses,
      hframes, List.map_cons] at hwatch
    simp only [left, hframes, List.tail_cons]
    exact (List.cons.inj hwatch).2

theorem Records.throw (hcurrent : ws.code.currentFunction < ws.code.routines.size) :
    Records ws ((ws.reframe Frame.countThrow).wrote ⟨.throw, .none⟩) [] 1 where
  additions := .modifyCurrent _ _
  current := by
    have htext := @text_wrote (ws.reframe Frame.countThrow) hcurrent ⟨.throw, .none⟩
    obtain ⟨hlength, hat⟩ := @Records.written (ws.reframe Frame.countThrow) _ _
      (.modifyCurrent _ _) htext
    rw [hlength]
    exact .throw hat
  watch := Frame.watch_countThrow _

/-! ### Handlers and lambdas -/

theorem Escape.additions {body escaped : Workspace} {exit : Option PendingJump}
    (h : Escape body exit escaped)
    (hcurrent : body.code.currentFunction < body.code.routines.size) :
    Additions body.code escaped.code [] := by
  cases h with
  | none => exact .silent (.refl _) rfl rfl
  | jump => exact Additions.trans hcurrent (.modifyCurrent _ _) (.modifyCurrent _ _)

theorem Escape.frames {body escaped : Workspace} {exit : Option PendingJump}
    (h : Escape body exit escaped) : escaped.scopes.frames = body.scopes.frames := by
  cases h <;> rfl

/-- One handler is recorded. -/
theorem Additions.addRegion (code : Assembly) (guard : Guard) :
    Additions code (code.addRegion (guard.region code.currentFunction))
      [(code.currentFunction, guard)] where
  toAround := ⟨rfl, Nat.le_refl _, fun _ _ _ => rfl⟩
  regions := Array.toList_push
  made g hg hlt := absurd hlt (Nat.not_lt.mpr hg)
  places entry hentry := by
    obtain rfl := List.mem_singleton.mp hentry
    exact .inl rfl

/-- The frames inside a handler: its own frame has counted the `throw`s of the body, and those of
the catch path went to the frames around it. -/
theorem handler_watch {body escaped named : Workspace} {install : PendingJump}
    {exit : Option PendingJump} {caught : Instruction} {named' : List (Nat × Guard)}
    {loose₀ throws : Nat} {frame : Frame} {outer : List Frame}
    (hbody : Records ((ws.wrote ⟨.tryBegin, .unaimed⟩).entered
      (.handler install.position true 0)) body entries throws)
    (hescape : Escape body exit escaped)
    (hnamed : Records (escaped.unguarded.landed install) named named' loose₀)
    (hcode : named.code = (escaped.unguarded.landed install).code)
    (hrest : Records (named.wrote caught) inside more loose)
    (hframes : inside.scopes.frames = frame :: outer) :
    frame.state.throws = throws ∧
      outer.map Frame.watch = Frame.countThrow^[loose] (ws.scopes.frames.map Frame.watch) := by
  have hguarded : body.scopes.frames.map Frame.watch =
      ⟨0, [], .handler install.position true throws⟩ :: ws.scopes.frames.map Frame.watch := by
    rw [hbody.watch]
    refine (Frame.iterate_countThrow_handler 0 0 throws [] install.position _).trans ?_
    rw [Nat.zero_add]
    rfl
  have hzero : loose₀ = 0 := by
    have hcurrent := hnamed.current
    rw [hcode] at hcurrent
    exact hcurrent.loose_eq_zero
  have hnamed : named.scopes.frames.map Frame.watch =
      ⟨0, [], .handler install.position false throws⟩ :: ws.scopes.frames.map Frame.watch := by
    rw [hnamed.watch, hzero]
    show (Frame.unguard escaped.scopes.frames).map Frame.watch = _
    rw [Frame.watch_unguard, hescape.frames, hguarded]
    rfl
  have hinside := hrest.watch
  rw [show (named.wrote caught).scopes.frames = named.scopes.frames from rfl, hnamed,
    Frame.iterate_countThrow_of_passes rfl, hframes, List.map_cons] at hinside
  obtain ⟨hframe, houter⟩ := List.cons.inj hinside
  refine ⟨?_, houter⟩
  obtain ⟨serial, bindings, state⟩ := frame
  cases state with
  | handler start guarded throws' =>
      exact congrArg (fun frame : Frame => frame.state.throws) hframe
  | function | loop | branch | block | transform => cases hframe

/-- The list of a handler's text, read off at its joints. -/
theorem guarded_handler {front body escape rest whole : List Instruction} {caught : Instruction}
    {b c d throws : Nat} {inner after : List Guard}
    (hwhole : whole = front ++ ⟨.tryBegin, .target c.toUInt32⟩ ::
      (body ++ (escape ++ caught :: rest)))
    (hb : b = front.length + 1 + body.length) (hc : c = b + escape.length)
    (hescape : escape = [] ∨ escape = [⟨.tryEnd, .none⟩, ⟨.jump, .unaimed⟩])
    (hbody : Guarded (front ++ [⟨.tryBegin, .unaimed⟩] ++ body) (front.length + 1) b inner throws)
    (hcatch : Catch caught) (hrest : Guarded whole (c + 1) d after loose) :
    Guarded whole front.length d (inner ++ (after ++ [⟨front.length, b, c, throws⟩])) loose := by
  have hat : ∀ (before : List Instruction) (instruction : Instruction) (behind : List Instruction)
      {i : Nat}, whole = before ++ instruction :: behind → i = before.length →
      whole[i]? = some instruction := by
    rintro before instruction behind _ hsplit rfl
    rw [hsplit, List.getElem?_append_right (Nat.le_refl _), Nat.sub_self]
    rfl
  let install : Instruction := ⟨.tryBegin, .target c.toUInt32⟩
  refine .handler (hat _ _ _ hwhole rfl) (hbody.congr ?_) ?_ ?_ hcatch hrest
  · -- Only the target of the first instruction has changed.
    intro i hi hi'
    have hlength : (front ++ [install]).length ≤ i := by simpa using hi
    have hlength' : (front ++ [Instruction.mk .tryBegin .unaimed]).length ≤ i := by simpa using hi
    have hsplit : whole = (front ++ [install]) ++ (body ++ (escape ++ caught :: rest)) := by
      simp [hwhole, install]
    have hin : i - (front ++ [install]).length < body.length := by
      simp
      omega
    rw [hsplit, List.getElem?_append_right hlength, List.getElem?_append_left hin,
      List.getElem?_append_right hlength']
    simp
  · rcases hescape with rfl | rfl
    · exact .inl (by simpa using hc)
    · refine .inr ⟨hc, hat (front ++ install :: body) _ (⟨.jump, .unaimed⟩ :: caught :: rest) ?_ ?_,
        hat (front ++ install :: (body ++ [⟨.tryEnd, .none⟩])) _ (caught :: rest) ?_ ?_⟩
      · simp [hwhole, install]
      · simp [hb]
        omega
      · simp [hwhole, install]
      · simp [hb]
        omega
  · refine hat (front ++ install :: (body ++ escape)) _ rest ?_ ?_
    · simp [hwhole, install]
    · simp [hc, hb]
      omega

/-- What both paths of a handler have added. -/
theorem handler_additions {body escaped named last : Workspace} {install : PendingJump}
    {exit : Option PendingJump} {caught : Instruction} {frame : Frame}
    (hcurrent : ws.code.currentFunction < ws.code.routines.size)
    (hbody : Follows ((ws.wrote ⟨.tryBegin, .unaimed⟩).entered
      (.handler install.position true 0)) body)
    (hentries : Additions (ws.wrote ⟨.tryBegin, .unaimed⟩).code body.code entries)
    (hescape : Escape body exit escaped)
    (hcode : named.code = (escaped.unguarded.landed install).code)
    (hmore : Additions (named.wrote caught).code inside.code more)
    (hlast : last = exit.elim (inside.left frame) (inside.left frame).landed) :
    Additions ws.code last.code (entries ++ more) := by
  have hbodyCurrent := hbody.current_lt ((Follows.wrote ws _).current_lt hcurrent)
  have hcaught : Additions escaped.code named.code [] := by
    rw [hcode]
    exact .modifyCurrent _ _
  have hexit : Additions inside.code last.code [] := by
    subst hlast
    cases exit with
    | none => exact .silent (.refl _) rfl rfl
    | some label => exact .modifyCurrent _ _
  have hguarded := (Additions.trans hcurrent (.modifyCurrent ws.code _) hentries).trans hcurrent
    (hescape.additions hbodyCurrent)
  have hpaths := ((hguarded.trans hcurrent hcaught).trans hcurrent
    (.modifyCurrent named.code _)).trans hcurrent hmore
  simpa using hpaths.trans hcurrent hexit

/-- What a handler is in the text of its function. -/
theorem handler_guarded {body escaped named last : Workspace} {install : PendingJump}
    {exit : Option PendingJump} {caught : Instruction} {throws : Nat} {frame : Frame}
    {inner after : List Guard} (hcurrent : ws.code.currentFunction < ws.code.routines.size)
    (hinstall : install.position = ws.code.position)
    (hbody : Course ((ws.wrote ⟨.tryBegin, .unaimed⟩).entered
      (.handler install.position true 0)) body)
    (hinner : Guarded (body.code.text ws.code.currentFunction)
      (ws.wrote ⟨.tryBegin, .unaimed⟩).code.length body.code.length inner throws)
    (hescape : Escape body exit escaped)
    (hcode : named.code = (escaped.unguarded.landed install).code) (hcatch : Catch caught)
    (hhandler : Course (named.wrote caught) inside)
    (hafter : Guarded (inside.code.text ws.code.currentFunction) (named.wrote caught).code.length
      inside.code.length after loose)
    (hlast : last = exit.elim (inside.left frame) (inside.left frame).landed) :
    Guarded (last.code.text ws.code.currentFunction) ws.code.length inside.code.length
      (inner ++ (after ++ [⟨ws.code.length, body.code.length, escaped.code.length, throws⟩]))
      loose := by
  have hinstalled := (Follows.wrote ws ⟨.tryBegin, .unaimed⟩).current_lt hcurrent
  have hbodyCurrent := hbody.follows.current_lt hinstalled
  obtain ⟨hf, hnamedCurrent⟩ := catch_current hcurrent hbody.follows hescape hcode
  obtain ⟨guarded, hguarded⟩ := hbody.text hinstalled
  obtain ⟨rest, htail⟩ := hhandler.text ((Follows.wrote named caught).current_lt hnamedCurrent)
  rw [show (named.wrote caught).code.currentFunction = _ from hf] at htail
  obtain ⟨hsame, htext⟩ := handler_text hcurrent hinstall hbody.follows hguarded hescape hcode
    hcatch hhandler.follows htail hlast
  obtain ⟨hbodyLength, hescapedLength, -⟩ :=
    guarded_text hcurrent hinstall hbody.follows hguarded hescape
  have hcatchStart : (named.wrote caught).code.length = escaped.code.length + 1 := by
    rw [length_wrote hnamedCurrent, hcode,
      @length_landed escaped.unguarded (hescape.follows.current_lt hbodyCurrent)]
    rfl
  have hbodyText : body.code.text ws.code.currentFunction =
      ws.code.text ws.code.currentFunction ++ [⟨.tryBegin, .unaimed⟩] ++ guarded := by
    rw [← Instruction.core_tryBegin .unaimed, ← text_wrote hcurrent]
    exact hguarded
  have hescapes : escapeText exit = [] ∨
      escapeText exit = [⟨.tryEnd, .none⟩, ⟨.jump, .unaimed⟩] := by
    cases exit with
    | none => exact .inl rfl
    | some label => exact .inr rfl
  rw [length_wrote hcurrent, hbodyText, ← ws.code.length_text] at hinner
  rw [hcatchStart, ← hsame] at hafter
  rw [← ws.code.length_text] at hbodyLength
  have hall := guarded_handler htext hbodyLength hescapedLength hescapes hinner hcatch hafter
  rwa [ws.code.length_text] at hall

/-- **A handler is recorded with what its two paths come to.** -/
theorem Records.handler {body escaped named last : Workspace} {install : PendingJump}
    {exit : Option PendingJump} {caught : Instruction} {named' : List (Nat × Guard)}
    {loose₀ throws : Nat} {frame : Frame} {outer : List Frame}
    (hcurrent : ws.code.currentFunction < ws.code.routines.size)
    (hinstall : install.position = ws.code.position)
    (hbody : Course ((ws.wrote ⟨.tryBegin, .unaimed⟩).entered
      (.handler install.position true 0)) body)
    (hrecords : Records ((ws.wrote ⟨.tryBegin, .unaimed⟩).entered
      (.handler install.position true 0)) body entries throws)
    (hescape : Escape body exit escaped)
    (hnamed : Records (escaped.unguarded.landed install) named named' loose₀)
    (hcode : named.code = (escaped.unguarded.landed install).code) (hcatch : Catch caught)
    (hhandler : Course (named.wrote caught) inside)
    (hrest : Records (named.wrote caught) inside more loose)
    (hframes : inside.scopes.frames = frame :: outer)
    (hlast : last = exit.elim (inside.left frame) (inside.left frame).landed) :
    Records ws (last.recorded
      { function := install.position.function.toUInt32
        start := install.position.index.toUInt32
        stop := body.code.length.toUInt32
        catchAt := escaped.code.length.toUInt32
        throws := frame.state.throws.toUInt32 })
      (entries ++ (more ++ [(ws.code.currentFunction,
        ⟨ws.code.length, body.code.length, escaped.code.length, throws⟩)])) loose := by
  let guard : Guard := ⟨ws.code.length, body.code.length, escaped.code.length, throws⟩
  obtain ⟨hf, hnamedCurrent⟩ := catch_current hcurrent hbody.follows hescape hcode
  obtain ⟨hthrows, hwatch⟩ := handler_watch hrecords hescape hnamed hcode hrest hframes
  have hadditions := handler_additions hcurrent hbody.follows hrecords.additions hescape hcode
    hrest.additions hlast
  have hregion : ({ function := install.position.function.toUInt32
                    start := install.position.index.toUInt32
                    stop := body.code.length.toUInt32
                    catchAt := escaped.code.length.toUInt32
                    throws := frame.state.throws.toUInt32 } : GuardedRegion) =
      guard.region last.code.currentFunction := by
    rw [hinstall, hthrows, hadditions.function]
    rfl
  have hlastCode : last.code.length = inside.code.length ∧ last.scopes.frames = outer := by
    subst hlast
    cases exit with
    | none => exact ⟨rfl, congrArg List.tail hframes⟩
    | some label =>
        have hinside := hhandler.follows.current_lt
          ((Follows.wrote named caught).current_lt hnamedCurrent)
        exact ⟨@length_landed (inside.left frame) hinside label, congrArg List.tail hframes⟩
  rw [hregion]
  refine ⟨?_, ?_, ?_⟩
  · have hall := hadditions.trans hcurrent (Additions.addRegion last.code guard)
    rw [hadditions.function, List.append_assoc] at hall
    rw [hadditions.function]
    exact hall
  · have hafter := hrest.current
    rw [show (named.wrote caught).code.currentFunction = _ from hf] at hafter
    rw [entriesOf_append, entriesOf_append, entriesOf_cons_self,
      show (last.recorded _).code.length = _ from hlastCode.1]
    exact (handler_guarded hcurrent hinstall hbody hrecords.current hescape hcode hcatch hhandler
      hafter hlast :)
  · rw [show (last.recorded _).scopes.frames = _ from hlastCode.2]
    exact hwatch

/-- **A lambda is recorded with the handlers of its function,** and adds none to those around it. -/
theorem Records.lambda {params next : UInt16} {frame : Frame} {outer : List Frame}
    (h : Records ((Layout.opened ws params).entered (.function ws.code.routines.size 0)) inside
      entries loose)
    (hcurrent : ws.code.currentFunction < ws.code.routines.size)
    (hcourse : Course ((Layout.opened ws params).entered
      (.function ws.code.routines.size 0)) inside)
    (hframes : inside.scopes.frames = frame :: outer) :
    Records ws (Layout.closed (inside.left frame) next ws.code.opened) entries 0 := by
  have hfollows := (hcourse.follows.closed next hframes).1
  have hsize : (Layout.closed (inside.left frame) next ws.code.opened).code.routines.size =
      inside.code.routines.size := by
    simp [Layout.closed, left, Assembly.reserveLocals, Assembly.modifyCurrent]
  have hopened := opened_size ws params (.function ws.code.routines.size 0)
  have htext : ∀ g, (Layout.closed (inside.left frame) next ws.code.opened).code.text g =
      inside.code.text g := inside.code.text_reserveLocals next
  have hplaces : ∀ entry ∈ entries, ws.code.routines.size ≤ entry.1 ∧
      entry.1 < inside.code.routines.size := by
    intro entry hentry
    have hlt := h.additions.size
    rcases h.additions.places entry hentry with hplace | hplace
    · have hplace : entry.1 = ws.code.routines.size := hplace
      omega
    · omega
  have hnone : entriesOf ws.code.currentFunction entries = [] := by
    refine entriesOf_eq_nil fun entry hentry => ?_
    have hplace := hplaces entry hentry
    omega
  refine ⟨⟨hfollows.around, h.additions.regions, ?_, ?_⟩, ?_, ?_⟩
  · intro g hg hlt
    rw [htext]
    rcases Nat.eq_or_lt_of_le hg with rfl | hinner
    · -- The function of the lambda itself, from its first instruction on.
      have hstart : ((Layout.opened ws params).entered
          (.function ws.code.routines.size 0)).code.length = 0 := by
        simp [Layout.opened, entered, Assembly.length, Assembly.current, Assembly.currentFunction,
          Routine.start]
      have hbody := h.current
      rw [hstart, ← inside.code.length_text, h.additions.function] at hbody
      exact ⟨loose, hbody⟩
    · exact h.additions.made g (by omega) (by omega)
  · intro entry hentry
    rw [hsize]
    exact .inr (hplaces entry hentry)
  · have hsame : (Layout.closed (inside.left frame) next ws.code.opened).code.text
        ws.code.currentFunction = ws.code.text ws.code.currentFunction :=
      Assembly.text_of_routine (hcourse.follows.closed_others hcurrent)
    have hlength : (Layout.closed (inside.left frame) next ws.code.opened).code.length =
        ws.code.length := by
      rw [← ws.code.length_text, ← hsame, ← Assembly.length_text]
      rfl
    rw [hlength, hnone]
    exact .nil _
  · have hwatch := h.watch
    rw [hframes] at hwatch
    have hwatch := hwatch.trans (Frame.iterate_countThrow_function 0 0 loose [] 0 _)
    show (inside.scopes.frames.tail).map Frame.watch = _
    rw [hframes]
    exact (List.cons.inj hwatch).2

/-- **What a course records is what it writes.** -/
theorem Course.records (h : Course ws ws')
    (hcurrent : ws.code.currentFunction < ws.code.routines.size) :
    ∃ entries loose, Records ws ws' entries loose := by
  induction h with
  | stay ws => exact ⟨[], 0, .quiet (.silent (.refl _) rfl rfl) rfl rfl⟩
  | step h => exact ⟨[], 0, h.records hcurrent⟩
  | trans h h' ih ih' =>
      obtain ⟨entries, loose, hrecords⟩ := ih hcurrent
      obtain ⟨more, loose', hrecords'⟩ := ih' (h.follows.current_lt hcurrent)
      exact ⟨_, _, hrecords.trans hcurrent (h'.text (h.follows.current_lt hcurrent)) hrecords'⟩
  | @slot ws ws₁ op ref href h hop ih =>
      obtain ⟨entries, loose, hrecords⟩ := ih hcurrent
      have hcurrent₁ := h.follows.current_lt hcurrent
      refine ⟨_, _, hrecords.trans hcurrent ⟨_, text_wrote hcurrent₁ _⟩ (.wrote hcurrent₁ ?_ ?_)⟩
      · rcases hop with rfl | rfl <;> exact nofun
      · rcases hop with rfl | rfl <;> exact nofun
  | scope hstate _ hframes ih =>
      obtain ⟨entries, loose, hrecords⟩ := ih hcurrent
      exact ⟨entries, loose, hrecords.scope hstate hframes⟩
  | throw ws => exact ⟨[], 1, .throw hcurrent⟩
  | handler hinstall hbody hescape _ hcode hcatch _ hhandler hframes hlast ihbody ihnamed _
      ihhandler =>
      have hinstalled := (Follows.wrote _ ⟨.tryBegin, .unaimed⟩).current_lt hcurrent
      obtain ⟨entries, throws, hrecords⟩ := ihbody hinstalled
      have hnamedCurrent := (catch_current hcurrent hbody.follows hescape hcode).2
      obtain ⟨named', loose₀, hnamed⟩ := ihnamed (by rw [← hcode]; exact hnamedCurrent)
      obtain ⟨more, loose, hrest⟩ := ihhandler ((Follows.wrote _ _).current_lt hnamedCurrent)
      exact ⟨_, _, .handler hcurrent hinstall hbody hrecords hescape hnamed hcode hcatch hhandler
        hrest hframes hlast⟩
  | @lambda ws inside params next frame outer h hframes hnext ih =>
      obtain ⟨entries, loose, hrecords⟩ := ih (opened_current_lt _ _ _)
      have hclosed := (h.follows.closed next hframes).1.current_lt hcurrent
      exact ⟨_, _, (hrecords.lambda hcurrent h hframes).trans hcurrent ⟨_, text_wrote hclosed _⟩
        (.wrote hclosed nofun nofun)⟩

end Progress

end QueryCompiler
