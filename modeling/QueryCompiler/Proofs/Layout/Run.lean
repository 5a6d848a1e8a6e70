/-
From one workspace to a later one.

While code is being written some of its jumps wait: those of `break` until their
loop is closed, the others until the rule that wrote them lets them land.  What the
code says once nothing waits any more can therefore only be claimed of an image in
which every waiting jump has been given a target.  `Run Q breaks holes ws ws'` is
that claim: from `ws` to `ws'` code was written in which just `breaks` and `holes`
wait, and `Q` holds of every image that agrees with the code and aims the breaks at
one place.

Runs follow on each other, jumps are added to the holes of a run and taken off again
by landing, and scopes are opened around runs.  The rules are put together from
these steps and no others.
-/
import QueryCompiler.Proofs.Layout.Growth

namespace QueryCompiler.Layout

open Workspace

/-- The jump of a label leads to a place. -/
def Image.Aims (F : Image) (op : Opcode) (label : PendingJump) (target : Nat) : Prop :=
  ∃ word : UInt32, word.toNat = target ∧
    F.code[label.position.index]? = some ⟨op, .target word⟩

/-- Where jumps wait: those of `break`s, and others with their opcodes. -/
def waiting (breaks : List PendingJump) (holes : List (Opcode × PendingJump)) : List Nat :=
  (breaks ++ holes.map Prod.snd).map fun label => label.position.index

/-- The image has the code that was written from `n` on, except for jumps that wait.  The breaks
among these lead to `exit`. -/
structure Image.Agrees (F : Image) (n : Nat) (breaks : List PendingJump)
    (holes : List (Opcode × PendingJump)) (exit : Nat) (ws : Workspace) : Prop where
  code : ∀ (i : Nat) (instruction : Instruction), n ≤ i → i ∉ waiting breaks holes →
    ws.code.current.code[i]? = some instruction → F.code[i]? = some instruction
  aimed : ∀ label ∈ breaks, F.Aims .jump label exit
  short : ws.code.length < wordLimit
  deep : ws.code.maxDepth ≤ F.maxStack
  pool : ∀ (i : Nat) (c : Constant), ws.code.pool.constants[i]? = some c →
    F.constants[i]? = some c

/-- The jump of a label stands after the first `n` instructions and has no target yet. -/
structure Waits (n : Nat) (ws : Workspace) (op : Opcode) (label : PendingJump) : Prop where
  after : n ≤ label.position.index
  unaimed : ws.code.current.code[label.position.index]? = some ⟨op, .unaimed⟩
  depth_lt : label.depth < wordLimit

/-- Code was written of which `Q` holds, once its breaks are aimed and nothing waits. -/
structure Run (Q : Image → Nat → Prop) (breaks : List PendingJump)
    (holes : List (Opcode × PendingJump)) (ws ws' : Workspace) : Prop where
  grows : Extends ws.code.length ws ws'
  sound : ws'.Sound
  shape : ws'.shape = ws.shape
  /-- Nothing changes outside the current function. -/
  beyond : Frame.beyond ws'.spot.scopes = Frame.beyond ws.spot.scopes
  /-- Only inside a loop there are breaks. -/
  owned : (Frame.innermost? .loop ws.scopes.frames).isNone → breaks = []
  breaks_wait : ∀ label ∈ breaks, Waits ws.code.length ws' .jump label
  holes_wait : ∀ hole ∈ holes, Waits ws.code.length ws' hole.1 hole.2
  apart : (waiting breaks holes).Nodup
  holds : ∀ (F : Image) (exit : Nat), F.Agrees ws.code.length breaks holes exit ws' → Q F exit

section

variable {n m : Nat} {ws ws₁ ws₂ ws' : Workspace} {Q R : Image → Nat → Prop}
  {breaks more : List PendingJump} {holes others : List (Opcode × PendingJump)}
  {op : Opcode} {label : PendingJump}

theorem mem_waiting {i : Nat} : i ∈ waiting breaks holes ↔
    (∃ label ∈ breaks, label.position.index = i) ∨
      ∃ hole ∈ holes, hole.2.position.index = i := by
  simp only [waiting, List.map_append, List.mem_append, List.mem_map, List.map_map,
    Function.comp_apply]

theorem waiting_append_perm : (waiting (breaks ++ more) (holes ++ others)).Perm
    (waiting breaks holes ++ waiting more others) := by
  unfold waiting
  rw [← List.map_append]
  refine List.Perm.map _ ?_
  rw [List.map_append]
  calc breaks ++ more ++ (holes.map Prod.snd ++ others.map Prod.snd)
      = breaks ++ (more ++ holes.map Prod.snd) ++ others.map Prod.snd := by
        simp only [List.append_assoc]
    List.Perm _ (breaks ++ (holes.map Prod.snd ++ more) ++ others.map Prod.snd) :=
        (List.perm_append_comm.append_left breaks).append_right _
    _ = breaks ++ holes.map Prod.snd ++ (more ++ others.map Prod.snd) := by
        simp only [List.append_assoc]

theorem mem_waiting_append {i : Nat} : i ∈ waiting (breaks ++ more) (holes ++ others) ↔
    i ∈ waiting breaks holes ∨ i ∈ waiting more others :=
  waiting_append_perm.mem_iff.trans List.mem_append

theorem Waits.lt (h : Waits n ws op label) : label.position.index < ws.code.length := by
  obtain ⟨hlt, -⟩ := Array.getElem?_eq_some_iff.mp h.unaimed
  exact hlt

theorem Waits.mono (h : Waits n ws op label) (hmn : m ≤ n) :
    Waits m ws op label :=
  ⟨Nat.le_trans hmn h.after, h.unaimed, h.depth_lt⟩

theorem Waits.extends (h : Waits n ws₁ op label)
    (hgrows : Extends ws₁.code.length ws₁ ws₂) : Waits n ws₂ op label := by
  refine ⟨h.after, ?_, h.depth_lt⟩
  rw [hgrows.kept _ h.lt]
  exact h.unaimed

theorem Run.waiting_lt {i : Nat} (h : Run Q breaks holes ws ws')
    (hi : i ∈ waiting breaks holes) : i < ws'.code.length := by
  rcases mem_waiting.mp hi with ⟨label, hlabel, rfl⟩ | ⟨hole, hhole, rfl⟩
  · exact (h.breaks_wait label hlabel).lt
  · exact (h.holes_wait hole hhole).lt

theorem Run.waiting_ge {i : Nat} (h : Run Q breaks holes ws ws')
    (hi : i ∈ waiting breaks holes) : ws.code.length ≤ i := by
  rcases mem_waiting.mp hi with ⟨label, hlabel, rfl⟩ | ⟨hole, hhole, rfl⟩
  · exact (h.breaks_wait label hlabel).after
  · exact (h.holes_wait hole hhole).after

theorem Run.mono (h : Run Q breaks holes ws ws') (hQR : ∀ F exit, Q F exit → R F exit) :
    Run R breaks holes ws ws' :=
  { h with holds := fun F exit hF => hQR F exit (h.holds F exit hF) }

theorem Run.relist (h : Run Q breaks holes ws ws') (hbreaks : breaks = more)
    (hholes : holes = others) : Run Q more others ws ws' := by
  subst hbreaks hholes
  exact h

/-! ### One run after another -/

/-- Whether there is a loop to break depends on the scopes alone. -/
theorem innermost?_isNone_of_shape (wanted : Scope) {frames frames' : List Frame}
    (h : frames'.map Frame.shape = frames.map Frame.shape) :
    (Frame.innermost? wanted frames').isNone = (Frame.innermost? wanted frames).isNone := by
  rw [← Option.isNone_map (f := Frame.shape), Frame.innermost?_of_shape wanted h,
    Option.isNone_map]

theorem Image.Agrees.first {F : Image} {exit : Nat} (h' : Run R more others ws₁ ws₂)
    (hF : F.Agrees ws.code.length (breaks ++ more) (holes ++ others) exit ws₂) :
    F.Agrees ws.code.length breaks holes exit ws₁ where
  code i instruction hi hwaits hcode := by
    have hlt : i < ws₁.code.length := (Array.getElem?_eq_some_iff.mp hcode).1
    refine hF.code i instruction hi ?_ ?_
    · intro hmem
      rcases mem_waiting_append.mp hmem with hw | hw
      · exact hwaits hw
      · exact absurd (h'.waiting_ge hw) (by omega)
    · rw [h'.grows.kept i hlt]
      exact hcode
  aimed label hlabel := hF.aimed label (List.mem_append_left _ hlabel)
  short := Nat.lt_of_le_of_lt h'.grows.length hF.short
  deep := Nat.le_trans h'.grows.maxDepth hF.deep
  pool i c hc := hF.pool i c (h'.grows.pool i c hc)

theorem Image.Agrees.second {F : Image} {exit : Nat} (h : Run Q breaks holes ws ws₁)
    (hF : F.Agrees ws.code.length (breaks ++ more) (holes ++ others) exit ws₂) :
    F.Agrees ws₁.code.length more others exit ws₂ where
  code i instruction hi hwaits hcode := by
    refine hF.code i instruction (Nat.le_trans h.grows.length hi) ?_ hcode
    intro hmem
    rcases mem_waiting_append.mp hmem with hw | hw
    · exact absurd (h.waiting_lt hw) (by omega)
    · exact hwaits hw
  aimed label hlabel := hF.aimed label (List.mem_append_right _ hlabel)
  short := hF.short
  deep := hF.deep
  pool := hF.pool

/-- **Runs that follow on each other make one run.** -/
theorem Run.trans (hs : ws.Sound) (h : Run Q breaks holes ws ws₁)
    (h' : Run R more others ws₁ ws₂) :
    Run (fun F exit => Q F exit ∧ R F exit) (breaks ++ more) (holes ++ others) ws ws₂ where
  grows := h.grows.trans hs h'.grows h.grows.length
  sound := h'.sound
  shape := h'.shape.trans h.shape
  beyond := h'.beyond.trans h.beyond
  owned hnone := by
    have hnone' := (innermost?_isNone_of_shape .loop h.shape).trans hnone
    rw [h.owned hnone, h'.owned hnone']
    rfl
  breaks_wait label hlabel := by
    rcases List.mem_append.mp hlabel with hmem | hmem
    · exact (h.breaks_wait label hmem).extends h'.grows
    · exact (h'.breaks_wait label hmem).mono h.grows.length
  holes_wait hole hhole := by
    rcases List.mem_append.mp hhole with hmem | hmem
    · exact (h.holes_wait hole hmem).extends h'.grows
    · exact (h'.holes_wait hole hmem).mono h.grows.length
  apart := by
    rw [waiting_append_perm.nodup_iff, List.nodup_append]
    refine ⟨h.apart, h'.apart, ?_⟩
    intro i hi j hj
    have hlt := h.waiting_lt hi
    have hge := h'.waiting_ge hj
    omega
  holds F exit hF := ⟨h.holds F exit (hF.first h'), h'.holds F exit (hF.second h)⟩

/-! ### The steps of a run -/

/-- A run in which nothing waits. -/
theorem Run.plain (hgrows : Extends ws.code.length ws ws') (hsound : ws'.Sound)
    (hshape : ws'.shape = ws.shape)
    (hbeyond : Frame.beyond ws'.spot.scopes = Frame.beyond ws.spot.scopes)
    (hholds : ∀ F exit, F.Agrees ws.code.length [] [] exit ws' → Q F exit) :
    Run Q [] [] ws ws' where
  grows := hgrows
  sound := hsound
  shape := hshape
  beyond := hbeyond
  owned _ := rfl
  breaks_wait _ h := nomatch h
  holes_wait _ h := nomatch h
  apart := List.nodup_nil
  holds := hholds

/-- A run that writes nothing. -/
theorem Run.silent (hs : ws.Sound) (hroutines : ws'.code.routines = ws.code.routines)
    (hopened : ws'.code.opened = ws.code.opened) (hpool : ws'.code.pool = ws.code.pool)
    (hshape : ws'.shape = ws.shape) (hserial : ws'.scopes.nextSerial = ws.scopes.nextSerial)
    (hbeyond : Frame.beyond ws'.spot.scopes = Frame.beyond ws.spot.scopes) :
    Run (fun _ _ => True) [] [] ws ws' := by
  have hcurrent : ws'.code.current = ws.code.current := by
    simp only [Assembly.current, Assembly.currentFunction, hroutines, hopened]
  refine Run.plain ⟨hopened, by simp [hroutines], by simp [hroutines], ?_, by simp [hcurrent], ?_,
    by simp [hpool], ?_⟩ ⟨?_, ?_, ?_, by rw [hpool]; exact hs.pool_le, ?_, ?_, ?_⟩ hshape
    hbeyond fun _ _ _ => trivial
  · simp only [Assembly.length, hcurrent, Nat.le_refl]
  · simp only [Assembly.maxDepth, hcurrent, Nat.le_refl]
  · intro g routine hg hr
    rw [hroutines, Array.getElem?_eq_none hg] at hr
    cases hr
  · rw [hroutines]
    simpa only [Assembly.currentFunction, hopened] using hs.current
  · simpa only [Assembly.depth, Assembly.maxDepth, hcurrent] using hs.depth_le
  · simpa only [Assembly.maxDepth, hcurrent] using hs.maxDepth_lt
  · rw [hshape]
    exact hs.serials
  · rw [hshape, hserial]
    exact hs.fresh
  · rw [hshape]
    exact hs.levels

theorem wrote_code (hs : ws.Sound) (instruction : Instruction) :
    (ws.wrote instruction).code.current.code = ws.code.current.code.push instruction := by
  unfold wrote
  rw [revise_current hs.current]
  rfl

theorem wrote_spot (hs : ws.Sound) (instruction : Instruction) :
    (ws.wrote instruction).spot = ws.spot.step instruction := by
  unfold wrote
  rw [revise_spot hs]
  simp only [Routine.append, Array.size_push]
  rfl

theorem wrote_extends (hs : ws.Sound) (instruction : Instruction) :
    Extends ws.code.length ws (ws.wrote instruction) := by
  refine revise_extends hs ?_ ?_ (Nat.le_max_left _ _)
  · simp only [Routine.append, Array.size_push, Assembly.length]
    omega
  · intro i hi
    have hne : i ≠ ws.code.current.code.size := Nat.ne_of_lt hi
    simp only [Routine.append, Array.getElem?_push, if_neg hne]

theorem wrote_sound (hs : ws.Sound) {instruction : Instruction}
    (hdepth : ws.code.depth - instruction.stackUse.pops + instruction.stackUse.pushes < wordLimit) :
    (ws.wrote instruction).Sound :=
  revise_sound hs (Nat.le_max_right _ _) (Nat.max_lt.mpr ⟨hs.maxDepth_lt, hdepth⟩)

theorem wrote_fits (hs : ws.Sound) {instruction : Instruction} {F : Image}
    (hdeep : (ws.wrote instruction).code.maxDepth ≤ F.maxStack) :
    ws.code.depth ≤ F.maxStack :=
  calc ws.code.depth ≤ ws.code.maxDepth := hs.depth_le
    _ ≤ (ws.wrote instruction).code.maxDepth := (wrote_extends hs instruction).maxDepth
    _ ≤ F.maxStack := hdeep

/-- An instruction that is not a forward jump is there for good. -/
theorem Run.write (hs : ws.Sound) {instruction : Instruction}
    (hdepth : ws.code.depth - instruction.stackUse.pops + instruction.stackUse.pushes < wordLimit) :
    Run (fun F _ => F.Writes instruction ws.spot (ws.wrote instruction).spot) [] [] ws
      (ws.wrote instruction) := by
  refine Run.plain (wrote_extends hs instruction) (wrote_sound hs hdepth) rfl rfl ?_
  intro F exit hF
  refine ⟨hF.code ws.code.length instruction (Nat.le_refl _) List.not_mem_nil ?_,
    wrote_fits hs hF.deep, wrote_spot hs instruction⟩
  rw [wrote_code hs]
  exact Array.getElem?_push_size

/-- A forward jump waits. -/
theorem Run.hole (hs : ws.Sound) (hlabel : label.position.index = ws.code.length)
    (harrive : label.depth < wordLimit)
    (hdepth : ws.code.depth - (op.stackUse 0).pops + (op.stackUse 0).pushes < wordLimit) :
    Run (fun F _ => ∀ target, F.Aims op label target →
        F.Jumps op target ws.spot (ws.wrote ⟨op, .unaimed⟩).spot) [] [(op, label)] ws
      (ws.wrote ⟨op, .unaimed⟩) where
  grows := wrote_extends hs _
  sound := wrote_sound hs hdepth
  shape := rfl
  beyond := rfl
  owned _ := rfl
  breaks_wait _ h := nomatch h
  holes_wait hole hhole := by
    obtain rfl := List.mem_singleton.mp hhole
    refine ⟨Nat.le_of_eq hlabel.symm, ?_, harrive⟩
    rw [wrote_code hs, hlabel]
    exact Array.getElem?_push_size
  apart := by simp [waiting]
  holds F exit hF := by
    intro target haims
    obtain ⟨word, rfl, haimed⟩ := haims
    rw [hlabel] at haimed
    exact ⟨word, rfl, haimed, wrote_fits hs hF.deep, wrote_spot hs _⟩

theorem landed_spot (hs : ws.Sound) (label : PendingJump) :
    (ws.landed label).spot = ws.spot.land label.depth := by
  unfold landed
  rw [revise_spot hs]
  simp only [Routine.land, Routine.setDepth, Routine.aim, Array.size_modify]
  rfl

theorem landed_code (hs : ws.Sound) (label : PendingJump) (i : Nat) :
    (ws.landed label).code.current.code[i]? =
      if label.position.index = i then
        ws.code.current.code[i]?.map fun instruction =>
          instruction.aimedAt ws.code.length.toUInt32
      else ws.code.current.code[i]? := by
  unfold landed
  rw [revise_current hs.current]
  exact Array.getElem?_modify

theorem landed_extends (hs : ws.Sound) (hn : n ≤ label.position.index) :
    Extends n ws (ws.landed label) := by
  refine revise_extends hs ?_ ?_ (Nat.le_max_left _ _)
  · simp only [Routine.land, Routine.setDepth, Routine.aim, Array.size_modify, Assembly.length,
      Nat.le_refl]
  · intro i hi
    have hne : label.position.index ≠ i := by omega
    simp only [Routine.land, Routine.setDepth, Routine.aim, Array.getElem?_modify, if_neg hne]

theorem Waits.landed (hs : ws.Sound) {op' : Opcode} {other : PendingJump}
    (h : Waits n ws op' other) (hne : label.position.index ≠ other.position.index) :
    Waits n (ws.landed label) op' other := by
  refine ⟨h.after, ?_, h.depth_lt⟩
  rw [landed_code hs, if_neg hne]
  exact h.unaimed

theorem landed_length (hs : ws.Sound) (label : PendingJump) :
    (ws.landed label).code.length = ws.code.length :=
  congrArg Spot.index (landed_spot hs label)

theorem waiting_cons_perm : (waiting breaks ((op, label) :: holes)).Perm
    (label.position.index :: waiting breaks holes) := by
  simp only [waiting, List.map_append, List.map_cons]
  exact List.perm_middle

theorem Image.Agrees.unlanded {F : Image} {exit : Nat} (op : Opcode) (hs : ws₁.Sound)
    (hF : F.Agrees n breaks holes exit (ws₁.landed label)) :
    F.Agrees n breaks ((op, label) :: holes) exit ws₁ where
  code i instruction hi hwaits hcode := by
    rw [waiting_cons_perm.mem_iff, List.mem_cons, not_or] at hwaits
    refine hF.code i instruction hi hwaits.2 ?_
    rw [landed_code hs, if_neg (Ne.symm hwaits.1)]
    exact hcode
  aimed := hF.aimed
  short := by
    rw [← landed_length hs label]
    exact hF.short
  deep := Nat.le_trans (landed_extends hs (Nat.zero_le _)).maxDepth hF.deep
  pool := hF.pool

/-- **A jump that lands waits no more, and leads to where it has landed.** -/
theorem Run.land (hs : ws.Sound) (h : Run Q breaks ((op, label) :: holes) ws ws₁) :
    Run (fun F exit => Q F exit ∧ F.Aims op label ws₁.code.length) breaks holes ws
      (ws₁.landed label) := by
  have hlabel := h.holes_wait _ List.mem_cons_self
  have hapart := h.apart
  rw [waiting_cons_perm.nodup_iff, List.nodup_cons] at hapart
  have hne : ∀ i ∈ waiting breaks holes, label.position.index ≠ i := by
    intro i hi heq
    exact hapart.1 (heq ▸ hi)
  refine ⟨h.grows.trans hs (landed_extends h.sound hlabel.after) (Nat.le_refl _), ?_, h.shape,
    h.beyond, h.owned, ?_, ?_, hapart.2, ?_⟩
  · exact revise_sound h.sound (Nat.le_max_right _ _)
      (Nat.max_lt.mpr ⟨h.sound.maxDepth_lt, hlabel.depth_lt⟩)
  · intro other hother
    exact (h.breaks_wait other hother).landed h.sound
      (hne _ (mem_waiting.mpr (.inl ⟨other, hother, rfl⟩)))
  · intro hole hhole
    exact (h.holes_wait hole (List.mem_cons_of_mem _ hhole)).landed h.sound
      (hne _ (mem_waiting.mpr (.inr ⟨hole, hhole, rfl⟩)))
  · intro F exit hF
    have hF₁ := hF.unlanded op h.sound
    refine ⟨h.holds F exit hF₁, ws₁.code.length.toUInt32, ?_, ?_⟩
    · exact Nat.mod_eq_of_lt hF₁.short
    · refine hF.code _ _ hlabel.after hapart.1 ?_
      rw [landed_code h.sound, if_pos rfl, hlabel.unaimed]
      rfl

/-- The breaks of a run can be left to wait like other jumps.  Then it is up to whoever lets them
land that they lead to one place. -/
theorem Run.handOver (h : Run Q breaks holes ws ws') :
    Run (fun F _ => ∀ target, (∀ label ∈ breaks, F.Aims .jump label target) → Q F target) []
      (breaks.map (fun label => (.jump, label)) ++ holes) ws ws' := by
  have hwaiting : waiting [] (breaks.map (fun label => (Opcode.jump, label)) ++ holes) =
      waiting breaks holes := by
    simp [waiting, Function.comp_def]
  refine ⟨h.grows, h.sound, h.shape, h.beyond, fun _ => rfl, fun _ hmem => (nomatch hmem), ?_, ?_,
    ?_⟩
  · intro hole hhole
    rcases List.mem_append.mp hhole with hmem | hmem
    · obtain ⟨label, hlabel, rfl⟩ := List.mem_map.mp hmem
      exact h.breaks_wait label hlabel
    · exact h.holes_wait hole hmem
  · rw [hwaiting]
    exact h.apart
  · intro F exit hF target haimed
    refine h.holds F target ⟨?_, haimed, hF.short, hF.deep, hF.pool⟩
    intro i instruction hi hwaits hcode
    rw [← hwaiting] at hwaits
    exact hF.code i instruction hi hwaits hcode

/-- A jump that waits can be handed to the loop around it. -/
theorem Run.entrust (h : Run Q breaks ((.jump, label) :: holes) ws ws')
    (hloop : ¬ (Frame.innermost? .loop ws.scopes.frames).isNone) :
    Run (fun F exit => Q F exit ∧ F.Aims .jump label exit) (breaks ++ [label]) holes ws ws' := by
  have hwaiting : waiting (breaks ++ [label]) holes =
      waiting breaks ((.jump, label) :: holes) := by
    simp [waiting]
  refine ⟨h.grows, h.sound, h.shape, h.beyond, fun hnone => absurd hnone hloop, ?_, ?_, ?_, ?_⟩
  · intro other hother
    rcases List.mem_append.mp hother with hmem | hmem
    · exact h.breaks_wait other hmem
    · obtain rfl := List.mem_singleton.mp hmem
      exact h.holes_wait _ List.mem_cons_self
  · intro hole hhole
    exact h.holes_wait hole (List.mem_cons_of_mem _ hhole)
  · rw [hwaiting]
    exact h.apart
  · intro F exit hF
    refine ⟨h.holds F exit ⟨?_, ?_, hF.short, hF.deep, hF.pool⟩, ?_⟩
    · intro i instruction hi hwaits hcode
      rw [← hwaiting] at hwaits
      exact hF.code i instruction hi hwaits hcode
    · intro other hother
      exact hF.aimed other (List.mem_append_left _ hother)
    · exact hF.aimed label (List.mem_append_right _ List.mem_cons_self)

/-- The pool has an entry for every constant that was asked for, and keeps the others. -/
theorem add_ok {pool pool' : Pool} {value : Constant} {id : UInt32} (hle : pool.size ≤ Pool.limit)
    (h : pool.add value = .ok (id, pool')) :
    pool'.constants[id.toNat]? = some value ∧ pool'.size ≤ Pool.limit ∧
      ∀ (i : Nat) (c : Constant), pool.constants[i]? = some c → pool'.constants[i]? = some c := by
  have hcases := Pool.of_add_ok h
  unfold Pool.size Pool.limit at *
  rcases hcases with ⟨index, hentry, rfl, rfl⟩ | ⟨-, hroom, rfl, rfl⟩
  · have hlt : index < pool'.constants.size := (Array.getElem?_eq_some_iff.mp hentry).1
    have hword : index.toUInt32.toNat = index := Nat.mod_eq_of_lt (by omega)
    refine ⟨?_, hle, fun _ _ => Pool.add_keeps h⟩
    rw [hword]
    exact hentry
  · have hword : pool.constants.size.toUInt32.toNat = pool.constants.size :=
      Nat.mod_eq_of_lt (by omega)
    refine ⟨?_, ?_, fun _ _ => Pool.add_keeps h⟩
    · rw [hword]
      exact Array.getElem?_push_size
    · rw [Array.size_push]
      omega

theorem Run.pooled (hs : ws.Sound) {value : Constant} {id : UInt32} {pool : Pool}
    (h : ws.code.pool.add value = .ok (id, pool)) :
    Run (fun F _ => F.Holds id value) [] [] ws (ws.pooled pool) := by
  obtain ⟨hentry, hle, hkept⟩ := add_ok hs.pool_le h
  refine Run.plain ⟨rfl, Nat.le_refl _, fun _ _ _ => rfl, Nat.le_refl _, fun _ _ => rfl,
    Nat.le_refl _, hkept, ?_⟩ ⟨hs.current, hs.depth_le, hs.maxDepth_lt, hle, hs.serials, hs.fresh,
    hs.levels⟩ rfl rfl ?_
  · intro g routine hg hr
    rw [show (ws.pooled pool).code.routines = ws.code.routines from rfl,
      Array.getElem?_eq_none hg] at hr
    cases hr
  · intro F exit hF
    exact hF.pool _ _ hentry

theorem reset_spot (hs : ws.Sound) (depth : Nat) :
    (ws.revise fun routine => routine.setDepth depth).spot = ws.spot.reset depth :=
  revise_spot hs _

theorem Run.reset (hs : ws.Sound) {depth : Nat} (hdepth : depth < wordLimit) :
    Run (fun _ _ => True) [] [] ws (ws.revise fun routine => routine.setDepth depth) := by
  refine Run.plain ?_ ?_ rfl rfl fun _ _ _ => trivial
  · exact revise_extends hs (Nat.le_refl _) (fun _ _ => rfl) (Nat.le_max_left _ _)
  · exact revise_sound hs (Nat.le_max_right _ _) (Nat.max_lt.mpr ⟨hs.maxDepth_lt, hdepth⟩)

/-! ### Scopes around a run -/

/-- A scope can be opened, if the depth outside a loop is a word. -/
theorem entered_sound {state : FrameState} (hs : ws.Sound)
    (hlevel : ∀ entry, state.loopEntry? = some entry → entry.2 < wordLimit) :
    (ws.entered state).Sound where
  current := hs.current
  depth_le := hs.depth_le
  maxDepth_lt := hs.maxDepth_lt
  pool_le := hs.pool_le
  serials := by
    show List.Pairwise _ (ws.scopes.nextSerial :: ws.shape.map Prod.fst)
    refine List.pairwise_cons.mpr ⟨?_, hs.serials⟩
    intro serial hserial
    obtain ⟨frame, hframe, rfl⟩ := List.mem_map.mp hserial
    exact hs.fresh frame hframe
  fresh frame hframe := by
    show frame.1 < ws.scopes.nextSerial + 1
    rcases List.mem_cons.mp hframe with rfl | hmem
    · exact Nat.lt_succ_self _
    · exact Nat.lt_succ_of_lt (hs.fresh frame hmem)
  levels frame hframe level hsome := by
    rcases List.mem_cons.mp hframe with rfl | hmem
    · obtain ⟨entry, hentry, rfl⟩ := Option.map_eq_some_iff.mp hsome
      exact hlevel entry hentry
    · exact hs.levels frame hmem level hsome

theorem left_shape (frame : Frame) : (ws.left frame).shape = ws.shape.tail :=
  List.map_tail

theorem left_sound {frame : Frame} (hs : ws.Sound) : (ws.left frame).Sound where
  current := hs.current
  depth_le := hs.depth_le
  maxDepth_lt := hs.maxDepth_lt
  pool_le := hs.pool_le
  serials := by
    rw [left_shape, List.map_tail]
    exact hs.serials.tail
  fresh frame hframe := by
    rw [left_shape] at hframe
    exact hs.fresh frame (List.mem_of_mem_tail hframe)
  levels frame hframe := by
    rw [left_shape] at hframe
    exact hs.levels frame (List.mem_of_mem_tail hframe)

theorem entered_spot (state : FrameState) : (ws.entered state).spot = ws.spot.enter state := rfl

theorem left_spot (frame : Frame) : (ws.left frame).spot = ws.spot.leave :=
  congrArg (Spot.mk ws.code.length ws.code.depth ws.code.reachable) List.map_tail

theorem left_outline (frame : Frame) : (ws.left frame).outline = ws.outline.tail :=
  List.map_tail

theorem beyond_entered (ws : Workspace) (state : FrameState) :
    Frame.beyond (ws.entered state).spot.scopes =
      if state.scope = .function then ws.spot.scopes else Frame.beyond ws.spot.scopes := by
  cases state <;> rfl

theorem beyond_inside {state : FrameState} (frame : Frame)
    (hshape : ws'.shape = (ws.entered state).shape) :
    Frame.beyond ws'.spot.scopes =
      if state.scope = .function then (ws'.left frame).spot.scopes
      else Frame.beyond (ws'.left frame).spot.scopes := by
  obtain ⟨inner, outer, hframes, hinner, -⟩ := List.map_eq_cons_iff.mp hshape
  have hscope : inner.scope = state.scope := congrArg (fun shape => shape.2.1) hinner
  simp only [Workspace.spot, left, hframes, List.map_cons, List.tail_cons, Frame.beyond,
    Frame.bare_scope, hscope]

/-- **What was written inside a scope has been written.** -/
theorem Run.leave {state : FrameState} {frame : Frame}
    (h : Run Q breaks holes (ws.entered state) ws') (hstate : state.scope ≠ .function)
    (howned : (Frame.innermost? .loop ws.scopes.frames).isNone → breaks = []) :
    Run Q breaks holes ws (ws'.left frame) where
  grows := ⟨h.grows.opened, h.grows.size, h.grows.others, h.grows.length, h.grows.kept,
    h.grows.maxDepth, h.grows.pool, h.grows.made⟩
  sound := left_sound h.sound
  shape := by
    rw [left_shape, h.shape]
    rfl
  beyond := by
    have hinside := beyond_inside frame h.shape
    have hentered := beyond_entered ws state
    rw [if_neg hstate] at hinside hentered
    exact hinside.symm.trans (h.beyond.trans hentered)
  owned := howned
  breaks_wait label hlabel := ⟨(h.breaks_wait label hlabel).after,
    (h.breaks_wait label hlabel).unaimed, (h.breaks_wait label hlabel).depth_lt⟩
  holes_wait hole hhole := ⟨(h.holes_wait hole hhole).after, (h.holes_wait hole hhole).unaimed,
    (h.holes_wait hole hhole).depth_lt⟩
  apart := h.apart
  holds F exit hF := h.holds F exit ⟨hF.code, hF.aimed, hF.short, hF.deep, hF.pool⟩

end

end QueryCompiler.Layout
