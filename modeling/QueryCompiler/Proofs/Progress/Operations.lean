/-
What the operations of a workspace reach.

Each lemma here takes an operation on a workspace that was reached and says what is
reached with it, or which failure is allowed instead.  Depths are counted from the
base of the site; an instruction takes what it pops from the gain so far, so it always
finds it.
-/
import QueryCompiler.Proofs.Progress.Footing

namespace QueryCompiler

/-- A plain opcode with the shape of its operand and what it takes and leaves. -/
structure Opcode.Uses (op : Opcode) (shape : OperandShape) (use : StackUse) : Prop where
  shape : op.shape = shape
  plain : op.isPlain = true
  use : op.stackUse 0 = use

namespace Progress

open Workspace

variable {T : Terms} {S : Site T} {ends : Nat → Nat} {opens : Bool}
  {labels : List (Opcode × PendingJump)} {depth k : Nat} {ws ws₁ : Workspace}

/-! ### Views of a workspace -/

theorem wrote_depth (h : ws.Sound) (instruction : Instruction) :
    (ws.wrote instruction).code.depth =
      ws.code.depth - instruction.stackUse.pops + instruction.stackUse.pushes :=
  congrArg Layout.Spot.depth (Layout.wrote_spot h instruction)

theorem wrote_reachable (h : ws.Sound) (instruction : Instruction) :
    (ws.wrote instruction).code.reachable =
      (ws.code.reachable && !instruction.op.isTerminal) :=
  congrArg Layout.Spot.reachable (Layout.wrote_spot h instruction)

theorem landed_depth (h : ws.Sound) (label : PendingJump) :
    (ws.landed label).code.depth = label.depth :=
  congrArg Layout.Spot.depth (Layout.landed_spot h label)

theorem landed_reachable (h : ws.Sound) (label : PendingJump) :
    (ws.landed label).code.reachable = true :=
  congrArg Layout.Spot.reachable (Layout.landed_spot h label)

/-- What the current function has at an index is what the program has there. -/
theorem instruction?_current (h : ws.code.currentFunction < ws.code.routines.size) (i : Nat) :
    ws.code.instruction? ⟨ws.code.currentFunction, i⟩ = ws.code.current.code[i]? := by
  unfold Assembly.instruction? Assembly.current
  rw [Array.getD_eq_getD_getElem?, Array.getElem?_eq_getElem h]
  rfl

/-- The instruction that was written last. -/
theorem wrote_instruction? (h : ws.code.currentFunction < ws.code.routines.size)
    (instruction : Instruction) :
    (ws.wrote instruction).code.instruction? ws.code.position = some instruction := by
  have hcurrent : (ws.wrote instruction).code.currentFunction <
      (ws.wrote instruction).code.routines.size := by
    simpa [wrote, revise, Assembly.modifyCurrent, Assembly.currentFunction] using h
  refine (instruction?_current hcurrent ws.code.length).trans ?_
  rw [wrote, revise_current h]
  exact Array.getElem?_push_size

/-! ### Instructions -/

/-- An instruction can be written if its operand has the right shape and it finds on the stack what
it pops. -/
theorem emitWith_meets {op : Opcode} {operand : Operand} (hshape : operand.shape = op.shape)
    (hpops : (Instruction.mk op operand).stackUse.pops ≤ ws.code.depth)
    (hfit : T.bounded → ws.code.depth - (Instruction.mk op operand).stackUse.pops +
      (Instruction.mk op operand).stackUse.pushes < wordLimit) :
    (emitWith op operand ws).Meets T.Allowed fun _ ws' =>
      ws.code.depth - (Instruction.mk op operand).stackUse.pops +
        (Instruction.mk op operand).stackUse.pushes < wordLimit ∧
      ws' = ws.wrote ⟨op, operand⟩ := by
  refine Outcome.Meets.bind (onCode_meets ?_) fun _ _ h => h
  cases hemit : Assembly.emit op operand ws.code with
  | done position code => exact (emit_done hemit).2
  | failed error code =>
      simp only [Assembly.emit] at hemit
      split at hemit
      · cases hemit
      · split at hemit
        · cases hemit
        · split at hemit <;> cases hemit
  | fault fault =>
      simp only [Assembly.emit] at hemit
      split at hemit
      · rename_i hne
        exact absurd hshape hne
      · split at hemit
        · rename_i hunder
          simp only [Bool.and_eq_true, decide_eq_true_eq] at hunder
          omega
        · split at hemit
          · rename_i fault' hword
            unfold addWord at hword
            split at hword
            · cases hword
            · rename_i hover
              cases hword
              cases hemit
              exact T.allowed_overflow hfit hover
          · cases hemit

/-- An instruction takes its operands from the gain so far and adds its result to what is left. -/
theorem emitWith_reaches {op : Opcode} {operand : Operand} (use : StackUse)
    (huse : (Instruction.mk op operand).stackUse = use) (hshape : operand.shape = op.shape)
    (hcourse : Course ws (ws₁.wrote ⟨op, operand⟩))
    (h : Reaches S ends opens labels (S.base + (k + use.pops)) ws ws₁)
    (hk : k + use.pushes ≤ 65536) :
    (emitWith op operand ws₁).Meets T.Allowed fun _ ws₂ =>
      Reaches S ends opens labels (S.base + (k + use.pushes)) ws ws₂ := by
  subst huse
  have hdepth := h.depth
  have hafter : ws₁.code.depth - (Instruction.mk op operand).stackUse.pops +
      (Instruction.mk op operand).stackUse.pushes =
      S.base + (k + (Instruction.mk op operand).stackUse.pushes) := by
    omega
  refine (emitWith_meets hshape (by omega) ?_).mono ?_
  · rw [hafter]
    exact S.fits hk
  · rintro _ _ ⟨hlt, rfl⟩
    exact h.onward (h.ready.wrote hlt) (Follows.wrote ws₁ _) hcourse
      ((wrote_depth h.ready.sound _).trans hafter)

theorem emit_reaches (op : Opcode) (use : StackUse) (k : Nat) (hop : op.Uses .none use)
    (h : Reaches S ends opens labels (S.base + (k + use.pops)) ws ws₁)
    (hk : k + use.pushes ≤ 65536) :
    (emit op ws₁).Meets T.Allowed fun _ ws₂ =>
      Reaches S ends opens labels (S.base + (k + use.pushes)) ws ws₂ :=
  emitWith_reaches use hop.use hop.shape.symm (h.course.trans (.step (.write hop.plain))) h hk

/-! ### Constants -/

/-- The pool has room for every constant of the query. -/
theorem constant_reaches {value : Constant} (hvalue : value ∈ T.root.constants)
    (h : Reaches S ends opens labels depth ws ws₁) :
    (onCode (Assembly.constant value) ws₁).Meets T.Allowed fun _ ws₂ =>
      Reaches S ends opens labels depth ws ws₂ := by
  refine onCode_meets ?_
  unfold Assembly.constant
  cases hadd : ws₁.code.pool.add value with
  | ok entry =>
      obtain ⟨id, pool⟩ := entry
      exact h.next (h.ready.pooled hadd hvalue) (.step (.pool pool)) h.depth
  | error error =>
      obtain ⟨habsent, hfull, rfl⟩ := Pool.of_add_error hadd
      refine .inr ⟨Nat.not_le.mp fun hfew => ?_, _, rfl⟩
      have hnew : ∀ entry ∈ ws₁.code.pool.constants, entry ≠ value := by
        rintro entry hentry rfl
        exact habsent hentry
      exact Nat.not_lt.mpr hfull (h.ready.pool_lt hvalue hnew hfew)

theorem emitName_reaches (op : Opcode) (use : StackUse) (k : Nat) (hop : op.Uses .const use)
    {text : String} (htext : .string text ∈ T.root.constants)
    (h : Reaches S ends opens labels (S.base + (k + use.pops)) ws ws₁)
    (hk : k + use.pushes ≤ 65536) :
    (emitName op text ws₁).Meets T.Allowed fun _ ws₂ =>
      Reaches S ends opens labels (S.base + (k + use.pushes)) ws ws₂ := by
  refine (constant_reaches htext h).bind fun id ws₂ h₂ => ?_
  exact emitWith_reaches use hop.use hop.shape.symm (h₂.course.trans (.step (.write hop.plain)))
    h₂ hk

theorem pushConstant_reaches {value : Constant} (hvalue : value ∈ T.root.constants)
    (h : Reaches S ends opens labels (S.base + k) ws ws₁) (hk : k + 1 ≤ 65536) :
    (pushConstant value ws₁).Meets T.Allowed fun _ ws₂ =>
      Reaches S ends opens labels (S.base + (k + 1)) ws ws₂ := by
  rw [pushConstant, Assembly.pushConstant, onCode_bind, bind_assoc]
  refine (constant_reaches hvalue h).bind fun id ws₂ h₂ => ?_
  exact emitWith_reaches ⟨0, 1⟩ rfl rfl (h₂.course.trans (.step (.write rfl))) h₂ hk

/-! ### Jumps -/

/-- A forward jump is the computation of the depth it arrives with, and an instruction. -/
theorem jump_eq {op : Opcode} {arrive : StackUse} (hbranch : op.branchUse? = some arrive)
    (ws : Workspace) : jump op ws = (do
      let arrival ← Action.ofWord (addWord (ws.code.depth - arrive.pops) arrive.pushes)
      emitWith op .unaimed
      return ⟨ws.code.position, arrival⟩ : Action Workspace PendingJump) ws := by
  obtain ⟨code, scopes, underway⟩ := ws
  simp only [jump, onCode, Assembly.jump, hbranch, emitWith, Action.bind_apply]
  cases addWord (code.depth - arrive.pops) arrive.pushes with
  | error fault => rfl
  | ok arrival =>
      simp only [Action.ofWord, Action.pure]
      cases hemit : Assembly.emit op .unaimed code with
      | done position code' =>
          have hposition : position = code.position :=
            (@emit_done ⟨code, scopes, underway⟩ _ _ _ _ hemit).1
          rw [hposition]
          rfl
      | failed error code' => rfl
      | fault fault => rfl

/-- A forward jump can be written if its opcode branches and finds on the stack what it pops. -/
theorem jump_meets {op : Opcode} {arrive : StackUse} (hbranch : op.branchUse? = some arrive)
    (hshape : op.shape = .target) (hready : Ready T ends ws)
    (hpops : (op.stackUse 0).pops ≤ ws.code.depth)
    (harrive : T.bounded → ws.code.depth - arrive.pops + arrive.pushes < wordLimit)
    (hfit : T.bounded →
      ws.code.depth - (op.stackUse 0).pops + (op.stackUse 0).pushes < wordLimit) :
    (jump op ws).Meets T.Allowed fun label ws' =>
      label = ⟨ws.code.position, ws.code.depth - arrive.pops + arrive.pushes⟩ ∧
      ws' = ws.wrote ⟨op, .unaimed⟩ ∧ Ready T ends ws' ∧
      ws'.code.Awaits ws'.code.currentFunction op label := by
  rw [jump_eq hbranch]
  have harrival : ((Action.ofWord (addWord (ws.code.depth - arrive.pops) arrive.pushes) :
      Action Workspace Nat) ws).Meets T.Allowed fun arrival t =>
        t = ws ∧ arrival < wordLimit ∧ arrival = ws.code.depth - arrive.pops + arrive.pushes :=
    Outcome.Meets.addWord (fun hlt => ⟨rfl, hlt, rfl⟩) (T.allowed_overflow harrive)
  refine harrival.bind ?_
  rintro arrival _ ⟨rfl, hlt, rfl⟩
  have hshape' : Operand.unaimed.shape = op.shape := hshape.symm
  refine (emitWith_meets hshape' hpops hfit).bind ?_
  rintro _ _ ⟨hdepth, rfl⟩
  exact ⟨rfl, rfl, hready.wrote hdepth, rfl, hlt, _, wrote_instruction? hready.sound.current _⟩

/-- A forward jump waits from now on, and knows the depth it arrives with. -/
theorem jump_reaches (op : Opcode) (use : StackUse) (arrive k : Nat) (hop : op.Uses .target use)
    (hbranch : op.branchUse? = some ⟨use.pops, arrive⟩)
    (h : Reaches S ends opens labels (S.base + (k + use.pops)) ws ws₁)
    (hk : k + use.pushes ≤ 65536) (harrive : k + arrive ≤ 65536) :
    (jump op ws₁).Meets T.Allowed fun label ws₂ =>
      Reaches S ends opens ((op, label) :: labels) (S.base + (k + use.pushes)) ws ws₂ ∧
      label.depth = S.base + (k + arrive) ∧
      ws₂.code.reachable = (ws₁.code.reachable && !op.isTerminal) := by
  obtain ⟨hshape, hplain, rfl⟩ := hop
  have hdepth := h.depth
  have htaken : ws₁.code.depth - (op.stackUse 0).pops + arrive = S.base + (k + arrive) := by omega
  have hafter : ws₁.code.depth - (op.stackUse 0).pops + (op.stackUse 0).pushes =
      S.base + (k + (op.stackUse 0).pushes) := by omega
  refine (jump_meets hbranch hshape h.ready (by omega) ?_ ?_).mono ?_
  · rw [htaken]
    exact S.fits harrive
  · rw [hafter]
    exact S.fits hk
  · rintro label _ ⟨rfl, rfl, hready, hawaits⟩
    have hnext := h.next hready (.step (.write hplain))
      ((wrote_depth h.ready.sound _).trans hafter)
    exact ⟨hnext.await hawaits, htaken, wrote_reachable h.ready.sound _⟩

/-- A jump back to an earlier place of the function, at the depth there. -/
theorem jumpBack_reaches {target : Position} {level : Nat}
    (h : Reaches S ends opens labels depth ws ws₁)
    (htarget : target.function = ws₁.code.currentFunction) (hlevel : depth = level) :
    (jumpBack target level ws₁).Meets T.Allowed fun _ ws₂ =>
      Reaches S ends opens labels depth ws ws₂ := by
  have hdepth := h.depth
  have hback : jumpBack target level ws₁ =
      emitWith .jump (.target target.index.toUInt32) ws₁ := by
    have hcode : Assembly.jumpBack target level ws₁.code =
        Assembly.emit .jump (.target target.index.toUInt32) ws₁.code := by
      unfold Assembly.jumpBack
      rw [if_neg (not_not.mpr htarget), if_neg]
      simp [hdepth, hlevel]
    simp only [jumpBack, emitWith, Action.bind_apply, onCode, hcode]
  rw [hback]
  have hshape : (Operand.target target.index.toUInt32).shape = Opcode.jump.shape := rfl
  refine (emitWith_meets hshape (Nat.zero_le _) fun _ => h.ready.depth_lt).mono ?_
  rintro _ _ ⟨hlt, rfl⟩
  exact h.next (h.ready.wrote hlt) (.step (.write rfl))
    ((wrote_depth h.ready.sound _).trans hdepth)

/-- A jump of the current function can land where control has the depth it arrives with, or where
control does not get. -/
theorem land_eq {op : Opcode} {label : PendingJump}
    (hlabel : ws.code.Awaits ws.code.currentFunction op label)
    (hmeet : ws.code.reachable = true → ws.code.depth = label.depth) :
    land label ws = .done () (ws.landed label) := by
  obtain ⟨hfunction, -, word, hword⟩ := hlabel
  let aim : Routine → Routine :=
    fun routine => routine.aim label.position.index ws.code.length.toUInt32
  have haim : Assembly.aim label.position ws.code.length.toUInt32 ws.code =
      .done () (ws.revise aim).code := by
    simp only [Assembly.aim, hword]
    rw [hfunction]
    rfl
  have hreach : (ws.revise aim).code.reachable = ws.code.reachable :=
    revise_view Routine.reachable aim (fun _ => rfl) ws
  have hdepth : (ws.revise aim).code.depth = ws.code.depth :=
    revise_view Routine.depth aim (fun _ => rfl) ws
  have hjoin : ∃ code, Assembly.join label (ws.revise aim).code = .done () code := by
    unfold Assembly.join
    rw [hreach, hdepth, if_neg]
    · exact ⟨_, rfl⟩
    · intro hapart
      simp only [Bool.and_eq_true, decide_eq_true_eq] at hapart
      exact hapart.2 (hmeet hapart.1)
  obtain ⟨code, hjoin⟩ := hjoin
  have hland : Assembly.land label ws.code = .done () code := by
    unfold Assembly.land
    refine (if_neg (not_not.mpr hfunction)).trans ?_
    exact Action.bind_done.mpr ⟨(), _, haim, hjoin⟩
  have hdone : land label ws = .done () { ws with code } := onCode_done.mpr ⟨code, hland, rfl⟩
  rw [hdone, (land_done hdone).2.2]

theorem land_reaches {op : Opcode} {label : PendingJump}
    (h : Reaches S ends opens labels depth ws ws₁) (hlabel : (op, label) ∈ labels)
    (hplain : op.isPlain = true) (hmeet : ws₁.code.reachable = true → depth = label.depth) :
    (land label ws₁).Meets T.Allowed fun _ ws₂ =>
      Reaches S ends opens labels label.depth ws ws₂ ∧ ws₂.code.reachable = true := by
  have hawaits := h.awaits _ hlabel
  rw [land_eq hawaits fun hreach => h.depth.trans (hmeet hreach)]
  obtain ⟨hfunction, hlt, word, hword⟩ := hawaits
  exact ⟨h.next (h.ready.landed hlt) (.step (.land hfunction hword hplain))
    (landed_depth h.ready.sound label), landed_reachable h.ready.sound label⟩

/-- Jumps that arrive with the depth control has can all land. -/
theorem landAll_reaches {arrivals : List PendingJump}
    (h : Reaches S ends opens labels depth ws ws₁)
    (hlabels : ∀ label ∈ arrivals, label.depth = depth ∧
      ws₁.code.Awaits ws₁.code.currentFunction .jump label) :
    (landAll arrivals ws₁).Meets T.Allowed fun _ ws₂ =>
      Reaches S ends opens labels depth ws ws₂ := by
  induction arrivals generalizing ws₁ with
  | nil =>
      have hnil : landAll [] ws₁ = .done () ws₁ :=
        onCode_done.mpr ⟨ws₁.code, Action.forM_nil_done.mpr rfl, rfl⟩
      rw [hnil]
      exact h
  | cons label rest ih =>
      obtain ⟨hdepth, hawaits⟩ := hlabels label List.mem_cons_self
      have hland := land_eq hawaits fun _ => h.depth.trans hdepth.symm
      have hcons : landAll (label :: rest) ws₁ = landAll rest (ws₁.landed label) := by
        show onCode (Assembly.land label >>= fun _ => rest.forM Assembly.land) ws₁ = _
        rw [onCode_bind, Action.bind_apply, show onCode (Assembly.land label) ws₁ = _ from hland]
        rfl
      rw [hcons]
      obtain ⟨hfunction, hlt, word, hword⟩ := hawaits
      have hstep : Step ws₁ (ws₁.landed label) := .land hfunction hword rfl
      refine ih (h.next (h.ready.landed hlt) (.step hstep)
        ((landed_depth h.ready.sound label).trans hdepth)) ?_
      intro other hother
      obtain ⟨hdepth', hawaits'⟩ := hlabels other (List.mem_cons_of_mem _ hother)
      exact ⟨hdepth', hawaits'.later hstep.follows.jumps⟩

theorem resetDepth_reaches {after : Nat} (h : Reaches S ends opens labels depth ws ws₁)
    (hlt : after < wordLimit) :
    (resetDepth after ws₁).Meets T.Allowed fun _ ws₂ =>
      Reaches S ends opens labels after ws ws₂ := by
  have hreset : resetDepth after ws₁ =
      .done () (ws₁.revise fun routine => routine.setDepth after) := rfl
  rw [hreset]
  exact h.next (h.ready.reset hlt) (.step (.reset after))
    (congrArg Layout.Spot.depth (Layout.reset_spot h.ready.sound after))

/-- Leave some handlers, one after another. -/
theorem unwind_reaches (count : Nat) (h : Reaches S ends opens labels depth ws ws₁) :
    ((List.replicate count Opcode.tryEnd).forM emit ws₁).Meets T.Allowed fun _ ws₂ =>
      Reaches S ends opens labels depth ws ws₂ := by
  refine Outcome.Meets.forM (fun _ ws₂ => Reaches S ends opens labels depth ws ws₂) h ?_
  intro before op after ws₂ hops h₂
  have hmem : op ∈ List.replicate count Opcode.tryEnd := by
    rw [hops]
    exact List.mem_append_right _ List.mem_cons_self
  obtain rfl := List.eq_of_mem_replicate hmem
  have hshape : Operand.none.shape = Opcode.tryEnd.shape := rfl
  refine (emitWith_meets hshape (Nat.zero_le _) fun _ => h₂.ready.depth_lt).mono ?_
  rintro _ _ ⟨hlt, rfl⟩
  exact h₂.next (h₂.ready.wrote hlt) (.step (.write rfl))
    ((wrote_depth h₂.ready.sound _).trans h₂.depth)

theorem leaveHandlers_reaches (scope : Scope) (h : Reaches S ends opens labels depth ws ws₁) :
    (leaveHandlers scope ws₁).Meets T.Allowed fun _ ws₂ =>
      Reaches S ends opens labels depth ws ws₂ :=
  unwind_reaches _ h

/-! ### Names and slots -/

/-- There is a function that gives slots, until it has none left. -/
theorem takeSlot_reaches (span : Span) (h : Reaches S ends opens labels depth ws ws₁) :
    (takeSlot span ws₁).Meets T.Allowed fun slot ws₂ =>
      Reaches S ends opens labels depth ws ws₂ ∧ Frame.Owns ws₂.scopes.frames slot := by
  obtain ⟨id, next, outer, hfunctions⟩ :
      ∃ id next outer, Frame.functions ws₁.scopes.frames = (id, next) :: outer := by
    cases hfunctions : Frame.functions ws₁.scopes.frames with
    | nil =>
        refine absurd ?_ h.ready.inside
        rw [← h.ready.functions, Frame.ids, hfunctions]
        rfl
    | cons head outer => exact ⟨head.1, head.2, outer, rfl⟩
  have hnext : ws₁.scopes.nextSlot? = some next := by
    unfold ScopeStack.nextSlot?
    rw [Frame.nextSlot?_functions, hfunctions]
    rfl
  refine onScopes_meets ?_
  unfold ScopeStack.takeSlot
  rw [hnext]
  by_cases hroom : Frame.slotLimit ≤ next.toNat
  · simp only [if_pos hroom]
    exact .inl trivial
  · simp only [if_neg hroom]
    have hlt : next.toNat < Frame.slotLimit := Nat.lt_of_not_le hroom
    refine ⟨h.next (h.ready.reframe_still Frame.takeSlot_still) (.step (.takeSlot hnext hlt))
      h.depth, id, next + 1, outer, Frame.functions_takeSlot hfunctions, ?_⟩
    unfold Frame.slotLimit at hlt
    rw [UInt16.lt_iff_toNat_lt, UInt16.toNat_add]
    simp only [UInt16.reduceToNat]
    omega

/-- Slots that were taken stay taken. -/
theorem owns_later {slot : UInt16} (h : Frame.Owns ws.scopes.frames slot)
    (hcourse : Course ws ws₁) : Frame.Owns ws₁.scopes.frames slot := by
  obtain ⟨id, next, outer, hfunctions, hlt⟩ := h
  have hgrown := hcourse.follows.functions
  rw [hfunctions] at hgrown
  cases hgrown' : Frame.functions ws₁.scopes.frames with
  | nil => rw [hgrown'] at hgrown; cases hgrown
  | cons head rest =>
      rw [hgrown'] at hgrown
      cases hgrown with
      | cons hhead _ => exact ⟨head.1, head.2, rest, hgrown', Std.lt_of_lt_of_le hlt hhead.2⟩

theorem declare_reaches (name : Name) (h : Reaches S ends opens labels depth ws ws₁) :
    (declare name ws₁).Meets T.Allowed fun slot ws₂ =>
      Reaches S ends opens labels depth ws ws₂ ∧ Frame.Owns ws₂.scopes.frames slot := by
  rw [declare, ScopeStack.declare, onScopes_bind]
  refine (takeSlot_reaches name.span h).bind fun slot ws₂ h₂ => ?_
  have hbind : onScopes (do
      Action.modify (ScopeStack.bindName name.text slot)
      return slot : Action ScopeStack UInt16) ws₂ =
      .done slot (ws₂.reframe (Frame.bindName name.text slot)) := by
    obtain ⟨code, scopes, underway⟩ := ws₂
    simp only [onScopes, Action.bind_apply, Action.modify, Action.pure_apply, reframe,
      ScopeStack.bindName]
    cases hframes : scopes.frames with
    | nil => simp [Frame.bindName, ← hframes]
    | cons frame outer => simp [Frame.bindName]
  rw [hbind]
  have hcourse : Course ws₂ (ws₂.reframe (Frame.bindName name.text slot)) :=
    .step (.bind name.text h₂.2)
  exact ⟨h₂.1.next (h₂.1.ready.reframe_still (Frame.bindName_still _ _)) hcourse h₂.1.depth,
    owns_later h₂.2 hcourse⟩

/-- There are as many function frames as open functions. -/
theorem functions_length (h : Ready T ends ws) :
    (Frame.functions ws.scopes.frames).length = ws.code.opened.length := by
  rw [← h.functions, Frame.ids, List.length_map]

/-- The value of a local that was found before is pushed. -/
theorem load_reaches {ref : SlotRef} (href : Frame.Addresses ws₁.scopes.frames ref)
    (h : Reaches S ends opens labels (S.base + k) ws ws₁) (hk : k + 1 ≤ 65536) :
    (emitWith .load (.slot ref) ws₁).Meets T.Allowed fun _ ws₂ =>
      Reaches S ends opens labels (S.base + (k + 1)) ws ws₂ :=
  emitWith_reaches ⟨0, 1⟩ rfl rfl (h.course.trans (.slot href (.stay ws₁) (.inl rfl))) h hk

/-- A value goes into a local of the current function. -/
theorem store_reaches {slot : UInt16} (hslot : Frame.Owns ws₁.scopes.frames slot)
    (h : Reaches S ends opens labels (S.base + (k + 1)) ws ws₁) (hk : k ≤ 65536) :
    (emitSlot .store slot ws₁).Meets T.Allowed fun _ ws₂ =>
      Reaches S ends opens labels (S.base + k) ws ws₂ :=
  emitWith_reaches ⟨1, 0⟩ rfl rfl
    (h.course.trans (.slot (.own hslot) (.stay ws₁) (.inr rfl))) h hk

theorem findLocal_meets (name : String) (hready : Ready T ends ws)
    (hnested : T.bounded → ws.code.opened.length ≤ Frame.slotLimit) :
    (findLocal name ws).Meets T.Allowed fun found ws' =>
      ws = ws' ∧ Frame.findLocal name 0 ws.scopes.frames = .ok found := by
  refine onScopes_meets ?_
  unfold ScopeStack.findLocal
  cases hfound : Frame.findLocal name 0 ws.scopes.frames with
  | ok found => exact ⟨rfl, rfl⟩
  | error fault =>
      refine ⟨fun hbounded => ?_, Frame.findLocal_fault hfound⟩
      obtain ⟨found, hok⟩ := Frame.findLocal_ok name 0
        (show 0 + (Frame.functions ws.scopes.frames).length ≤ Frame.slotLimit by
          rw [Nat.zero_add, functions_length hready]
          exact hnested hbounded)
      rw [hok] at hfound
      cases hfound

theorem findElement_meets {span : Span} (hready : Ready T ends ws)
    (hoccurs : T.root.Occurs (.current span))
    (hnested : T.bounded → ws.code.opened.length ≤ Frame.slotLimit) :
    (findElement span ws).Meets T.Allowed fun ref ws' =>
      ws = ws' ∧ Frame.findElement 0 ws.scopes.frames = .ok (some ref) := by
  refine onScopes_meets ?_
  unfold ScopeStack.findElement
  cases hfound : Frame.findElement 0 ws.scopes.frames with
  | ok found =>
      cases found with
      | some ref => exact ⟨rfl, rfl⟩
      | none => exact .inl (.inr ⟨rfl, hoccurs⟩)
  | error fault =>
      refine ⟨fun hbounded => ?_, Frame.findElement_fault hfound⟩
      obtain ⟨found, hok⟩ := Frame.findElement_ok 0
        (show 0 + (Frame.functions ws.scopes.frames).length ≤ Frame.slotLimit by
          rw [Nat.zero_add, functions_length hready]
          exact hnested hbounded)
      rw [hok] at hfound
      cases hfound

/-! ### Scopes -/

/-- The frame of a scope is found by whoever opened it, and is the only one that changes. -/
theorem update_eq {inside : Workspace} {scope : Scope} {frame : Frame} {outer : List Frame}
    (change : FrameState → FrameState) (hs : inside.Sound)
    (hframes : inside.scopes.frames = frame :: outer)
    (hserial : frame.serial = ws.scopes.nextSerial) :
    update ⟨ws.scopes.nextSerial, scope⟩ change inside =
      .done () (inside.reframe fun _ => frame.modify change :: outer) := by
  have hfound : inside.scopes.frame? ⟨ws.scopes.nextSerial, scope⟩ = some frame := by
    unfold ScopeStack.frame?
    rw [hframes, List.find?_cons_of_pos (by simpa using hserial)]
  have hdone : ∃ after, update ⟨ws.scopes.nextSerial, scope⟩ change inside = .done () after := by
    obtain ⟨code, scopes, underway⟩ := inside
    simp only [update, onScopes, ScopeStack.update, hfound]
    exact ⟨_, rfl⟩
  obtain ⟨after, hdone⟩ := hdone
  rw [hdone, Layout.Passes.update_done_cons hs hdone hframes hserial]

/-- A conditional can move on to another arm. -/
theorem setArm_reaches {state : FrameState} {scope : Scope} (arm : Nat)
    (h : Reaches S ends opens labels depth (ws.entered state) ws₁) :
    (update ⟨ws.scopes.nextSerial, scope⟩ (FrameState.setArm arm) ws₁).Meets T.Allowed fun _ ws₂ =>
      Reaches S ends opens labels depth (ws.entered state) ws₂ := by
  obtain ⟨frame, outer, hframes, hframe, -⟩ := h.course.follows.innermost
  rw [update_eq _ h.ready.sound hframes (congrArg Prod.fst hframe)]
  have hstill : (frame.modify (FrameState.setArm arm)).still = frame.still := by
    obtain ⟨serial, bindings, state⟩ := frame
    cases state <;> rfl
  have hquiet : (frame.modify (FrameState.setArm arm)).quiet = frame.quiet := by
    obtain ⟨serial, bindings, state⟩ := frame
    cases state <;> rfl
  refine h.next (h.ready.reframe_still ?_) (.step (.note ?_)) h.depth
  · rw [hframes, List.map_cons, List.map_cons, hstill]
  · rw [hframes, List.map_cons, List.map_cons, hquiet]

/-- A jump that arrives with the depth at which a conditional ends can be one of its exits. -/
theorem addExit_reaches {state : FrameState} {scope : Scope} {label : PendingJump}
    (h : Reaches S ends opens labels depth (ws.entered state) ws₁)
    (hlabel : (.jump, label) ∈ labels) (hdepth : label.depth = ends ws.scopes.nextSerial) :
    (update ⟨ws.scopes.nextSerial, scope⟩ (FrameState.addExit label) ws₁).Meets T.Allowed
      fun _ ws₂ => Reaches S ends opens labels depth (ws.entered state) ws₂ ∧
        ws₂.code = ws₁.code := by
  obtain ⟨frame, outer, hframes, hframe, -⟩ := h.course.follows.innermost
  have hserial : frame.serial = ws.scopes.nextSerial := congrArg Prod.fst hframe
  rw [update_eq _ h.ready.sound hframes hserial]
  have hkept := h.ready.kept
  have hfunctions := h.ready.functions
  rw [hframes] at hkept hfunctions
  have hawaits := h.awaits _ hlabel
  refine ⟨h.next (h.ready.reframe ?_ ?_ ?_) (.step (.note ?_)) h.depth, rfl⟩
  · rw [Workspace.shape, hframes]
    obtain ⟨serial, bindings, state⟩ := frame
    cases state <;> rfl
  · refine ⟨?_, hkept.2⟩
    obtain ⟨serial, bindings, state⟩ := frame
    cases state with
    | branch arm exits =>
        have hcurrent : (Frame.ids outer).headD 0 = ws₁.code.currentFunction :=
          congrArg (List.headD · 0) hfunctions
        intro other hother
        rw [Array.toList_push, List.mem_append, List.mem_singleton] at hother
        rcases hother with hmem | rfl
        · exact hkept.1 other hmem
        · refine ⟨?_, ?_⟩
          · rw [hdepth, ← hserial]
            rfl
          · rw [hcurrent]
            exact hawaits
    | function | loop | handler | block | transform => exact hkept.1
  · rw [hframes]
    obtain ⟨serial, bindings, state⟩ := frame
    cases state <;> rfl
  · rw [hframes]
    obtain ⟨serial, bindings, state⟩ := frame
    cases state <;> rfl

/-- **A scope around what was reached inside it.**  The breaks of a loop and the exits of a
conditional can land behind it. -/
theorem within_reaches {α : Type} {state : FrameState} {body : FrameId → Action Workspace α}
    (arrival after : Nat) (h : Reaches S ends opens labels depth ws ws₁)
    (hstate : state.Opens ws₁.scopes.frames)
    (hbody : (body ⟨ws₁.scopes.nextSerial, state.scope⟩ (ws₁.entered state)).Meets T.Allowed
      fun _ inside => Reaches S (Function.update ends ws₁.scopes.nextSerial arrival) false labels
        after (ws₁.entered state) inside) :
    (within state body ws₁).Meets T.Allowed fun result ws₂ =>
      Reaches S ends true labels after ws ws₂ ∧
      (∀ entry, state.loopEntry? = some entry → ∀ label ∈ result.2.breaks,
        label.depth = entry.2 ∧ ws₂.code.Awaits ws₂.code.currentFunction .jump label) ∧
      (∀ label ∈ result.2.exits,
        label.depth = arrival ∧ ws₂.code.Awaits ws₂.code.currentFunction .jump label) := by
  refine within_meets (hbody.mono fun x inside hinside => ?_)
  obtain ⟨frame, outer, hframes, hframe, -⟩ := hinside.course.follows.innermost
  refine ⟨frame, outer, hframes, congrArg Prod.fst hframe, h.leave hstate hinside hframes, ?_⟩
  have hkept := hinside.ready.kept
  have hfunctions := hinside.ready.functions
  rw [hframes] at hkept hfunctions
  obtain ⟨serial, bindings, last⟩ := frame
  have hserial : serial = ws₁.scopes.nextSerial := congrArg Prod.fst hframe
  subst hserial
  cases last with
  | loop target level breaks =>
      have hcurrent : (Frame.ids outer).headD 0 = inside.code.currentFunction :=
        congrArg (List.headD · 0) hfunctions
      refine ⟨?_, nofun⟩
      intro entry hentry label hlabel
      have hlevel : some level = state.loopEntry?.map Prod.snd :=
        congrArg (fun shape => shape.2.2) hframe
      rw [hentry] at hlevel
      obtain ⟨hdepth, hawaits⟩ := hkept.1.2 label hlabel
      rw [hcurrent] at hawaits
      exact ⟨hdepth.trans (Option.some.inj hlevel), hawaits⟩
  | branch arm exits =>
      have hcurrent : (Frame.ids outer).headD 0 = inside.code.currentFunction :=
        congrArg (List.headD · 0) hfunctions
      refine ⟨fun _ _ _ hlabel => (nomatch hlabel), ?_⟩
      intro label hlabel
      obtain ⟨hdepth, hawaits⟩ := hkept.1 label hlabel
      rw [hcurrent] at hawaits
      rw [Function.update_self] at hdepth
      exact ⟨hdepth, hawaits⟩
  | function | handler | block | transform => exact ⟨fun _ _ _ hlabel => (nomatch hlabel), nofun⟩

end Progress

end QueryCompiler
