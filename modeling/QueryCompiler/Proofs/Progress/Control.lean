/-
What the rules for statements, transforms, conditionals and loops reach.

Where two ways meet, the depths have to agree, and it is here that they are compared:
the arms of a conditional all end at one depth, a loop comes back to the depth it
started with, and a jump that skips an arm lands where the arm has just been left for
good or at the depth it arrives with.
-/
import QueryCompiler.Proofs.Progress.Expressions

namespace QueryCompiler.Progress

open Workspace

variable {T : Terms} {S : Site T} {ends : Nat → Nat} {opens : Bool}
  {labels : List (Opcode × PendingJump)} {depth k : Nat} {ws ws₁ : Workspace} {lower : Lower}

/-! ### Blocks, variables and directives -/

theorem block_fulfils (hl : Lowers T S.room lower) {statements : List Node} {span : Span}
    (hnode : T.root.Occurs (.block statements span))
    (h : Reaches S ends false [] (S.base + 0) ws ws) :
    (Rule.block lower (.block statements span) ws).Meets T.Allowed fun _ ws' =>
      Fulfils S ends (.block statements span) ws ws' := by
  have hinside := h.enter 0 (show FrameState.block.scope ≠ .function from nofun) nofun trivial
  have hbody := statements_reaches hl (fun node hmem => hnode.part hmem) hinside (by decide)
  refine (within_reaches 0 _ h (show FrameState.block.Opens _ from trivial) hbody).bind ?_
  rintro _ ws' ⟨h', -⟩
  exact ⟨_, h', fun _ => rfl⟩

theorem varDecl_fulfils (hl : Lowers T S.room lower) {name : Name} {init : Node} {span : Span}
    (hnode : T.root.Occurs (.varDecl name init span))
    (h : Reaches S ends false [] (S.base + 0) ws ws) :
    (Rule.varDecl lower (.varDecl name init span) ws).Meets T.Allowed fun _ ws' =>
      Fulfils S ends (.varDecl name init span) ws ws' := by
  refine (value_reaches hl hnode List.mem_cons_self h (by decide)).bind fun _ ws₁ h₁ => ?_
  refine (declare_reaches name h₁).bind ?_
  rintro slot ws₂ ⟨h₂, hslot⟩
  exact (store_reaches hslot h₂ (by decide)).mono fun _ ws' h' => ⟨_, h', fun _ => rfl⟩

/-- The local that is assigned to is found before its value is computed, and is still there
afterwards. -/
theorem assign_fulfils (hl : Lowers T S.room lower) {name : Name} {value : Node} {span : Span}
    (hnode : T.root.Occurs (.assign name value span))
    (hnested : T.bounded → S.opened.length ≤ Frame.slotLimit)
    (h : Reaches S ends false [] (S.base + 0) ws ws) :
    (Rule.assign lower (.assign name value span) ws).Meets T.Allowed fun _ ws' =>
      Fulfils S ends (.assign name value span) ws ws' := by
  refine (findLocal_meets name.text h.ready (by rw [h.opened]; exact hnested)).bind ?_
  rintro found _ ⟨rfl, hfound⟩
  cases found with
  | none => exact .inl trivial
  | some ref =>
      refine (value_reaches hl hnode List.mem_cons_self h (by decide)).bind fun _ ws₁ h₁ => ?_
      have hcourse : Course ws (ws₁.wrote ⟨.store, .slot ref⟩) :=
        .slot (.name hfound) h₁.course (.inr rfl)
      exact (emitWith_reaches ⟨1, 0⟩ rfl rfl hcourse h₁ (by decide)).mono
        fun _ ws' h' => ⟨_, h', fun _ => rfl⟩

theorem run_fulfils (hl : Lowers T S.room lower) {inner : Node} {span : Span}
    (hnode : T.root.Occurs (.run inner span)) (h : Reaches S ends false [] (S.base + 0) ws ws) :
    (Rule.run lower (.run inner span) ws).Meets T.Allowed fun _ ws' =>
      Fulfils S ends (.run inner span) ws ws' :=
  (statement_reaches hl (hnode.part List.mem_cons_self) h (by decide)).mono
    fun _ ws' h' => ⟨_, h', fun _ => rfl⟩

theorem hint_fulfils (lower : Lower) {name : String} {value : Constant} {span : Span}
    (hnode : T.root.Occurs (.hint name value span))
    (h : Reaches S ends false [] (S.base + 0) ws ws) :
    (Rule.hint lower (.hint name value span) ws).Meets T.Allowed fun _ ws' =>
      Fulfils S ends (.hint name value span) ws ws' := by
  have hname : Constant.string name ∈ T.root.constants :=
    Node.mem_constants hnode List.mem_cons_self
  have hvalue : value ∈ T.root.constants :=
    Node.mem_constants hnode (List.mem_cons_of_mem _ List.mem_cons_self)
  refine (constant_reaches hname h).bind fun key ws₁ h₁ => ?_
  refine (constant_reaches hvalue h₁).bind fun id ws₂ h₂ => ?_
  have hstep : Step ws₂ (ws₂.wrote ⟨.hint, .hint key id⟩) := .write rfl
  exact (emitWith_reaches ⟨0, 0⟩ rfl rfl (h₂.course.trans (.step hstep)) h₂ (by decide)).mono
    fun _ ws' h' => ⟨_, h', fun _ => rfl⟩

theorem importAs_fulfils (lower : Lower) {source : ImportSource} {path : String} {binding : Name}
    {span : Span} (hnode : T.root.Occurs (.importAs source path binding span))
    (h : Reaches S ends false [] (S.base + 0) ws ws) :
    (Rule.importAs lower (.importAs source path binding span) ws).Meets T.Allowed fun _ ws' =>
      Fulfils S ends (.importAs source path binding span) ws ws' := by
  have hop : source.opcode.Uses .const ⟨0, 1⟩ := by cases source <;> exact ⟨rfl, rfl, rfl⟩
  have hpath : Constant.string path ∈ T.root.constants :=
    Node.mem_constants hnode List.mem_cons_self
  refine (constant_reaches hpath h).bind fun id ws₁ h₁ => ?_
  refine (declare_reaches binding h₁).bind ?_
  rintro slot ws₂ ⟨h₂, hslot⟩
  have hload : Course ws₂ (ws₂.wrote ⟨source.opcode, .const id⟩) := .step (.write hop.plain)
  have huse : (Instruction.mk source.opcode (.const id)).stackUse = ⟨0, 1⟩ := hop.use
  refine (emitWith_reaches _ huse hop.shape.symm hload h₂.again (by decide)).bind
    fun _ ws₃ h₃ => ?_
  exact (store_reaches (owns_later hslot h₃.course) h₃ (by decide)).mono
    fun _ ws' h' => ⟨_, h₂.trans h', fun _ => rfl⟩

/-! ### Transforms -/

/-- A shape is a value, with its element in a slot of the current function. -/
theorem shapeWith_reaches (hl : Lowers T S.room lower) {element : UInt16} {parent shape : Node}
    (hparent : T.root.Occurs parent) (hshape : shape ∈ parent.operands)
    (helement : Frame.Owns ws₁.scopes.frames element)
    (h : Reaches S ends opens labels (S.base + k) ws ws₁) (hk : k ≤ 65535) :
    (Rule.shapeWith lower element shape ws₁).Meets T.Allowed fun _ ws₂ =>
      Reaches S ends true labels (S.base + (k + 1)) ws ws₂ := by
  have hinside := h.enter 0 (show (FrameState.transform element).scope ≠ .function from nofun)
    nofun trivial
  have hbody := value_reaches hl hparent hshape hinside hk
  have hopens : (FrameState.transform element).Opens ws₁.scopes.frames := helement
  refine (within_reaches 0 _ h hopens hbody).bind ?_
  rintro _ ws' ⟨h', -⟩
  exact h'

theorem transformSingle_fulfils (hl : Lowers T S.room lower) {source shape : Node} {span : Span}
    (hnode : T.root.Occurs (.transform .single source shape span))
    (h : Reaches S ends false [] (S.base + 0) ws ws) :
    (Rule.transformSingle lower source shape span ws).Meets T.Allowed fun _ ws' =>
      Fulfils S ends (.transform .single source shape span) ws ws' := by
  refine (takeSlot_reaches span h).bind ?_
  rintro element ws₁ ⟨h₁, helement⟩
  refine (value_reaches hl hnode (by simp [Node.operands]) h₁.again (by decide)).bind
    fun _ ws₂ h₂ => ?_
  refine (store_reaches (owns_later helement h₂.course) h₂ (by decide)).bind fun _ ws₃ h₃ => ?_
  refine (shapeWith_reaches hl hnode (by simp [Node.operands])
    (owns_later helement h₃.course) h₃ (by decide)).mono fun _ ws' h' => ?_
  exact ⟨_, h₁.trans h', fun _ => rfl⟩

/-- Every round leaves the iterator alone on the stack. -/
theorem transformEach_fulfils (hl : Lowers T S.room lower) {source shape : Node} {span : Span}
    (hnode : T.root.Occurs (.transform .each source shape span))
    (h : Reaches S ends false [] (S.base + 0) ws ws) :
    (Rule.transformEach lower source shape span ws).Meets T.Allowed fun _ ws' =>
      Fulfils S ends (.transform .each source shape span) ws ws' := by
  refine (takeSlot_reaches span h).bind ?_
  rintro collected ws₁ ⟨h₁, hcollected⟩
  refine (takeSlot_reaches span h₁.again).bind ?_
  rintro element ws₂ ⟨h₂, helement⟩
  have hcollected := owns_later hcollected h₂.course
  refine (emit_reaches .newList ⟨0, 1⟩ 0 ⟨rfl, rfl, rfl⟩ h₂.again (by decide)).bind
    fun _ ws₃ h₃ => ?_
  refine (store_reaches (owns_later hcollected h₃.course) h₃ (by decide)).bind fun _ ws₄ h₄ => ?_
  refine (value_reaches hl hnode (by simp [Node.operands]) h₄ (by decide)).bind
    fun _ ws₅ h₅ => ?_
  refine (emit_reaches .iterStart ⟨1, 1⟩ 0 ⟨rfl, rfl, rfl⟩ h₅ (by decide)).bind
    fun _ ws₆ h₆ => ?_
  rw [position_bind, depth_bind]
  refine (jump_reaches .iterNext ⟨1, 2⟩ 1 0 ⟨rfl, rfl, rfl⟩ rfl h₆ (by decide) (by decide)).bind ?_
  rintro exit ws₇ ⟨h₇, harrive, -⟩
  refine (store_reaches (owns_later helement h₇.course) h₇ (by decide)).bind fun _ ws₈ h₈ => ?_
  refine (load_reaches (.own (owns_later hcollected h₈.course)) h₈ (by decide)).bind
    fun _ ws₉ h₉ => ?_
  refine (shapeWith_reaches hl hnode (by simp [Node.operands])
    (owns_later helement h₉.course) h₉ (by decide)).bind fun _ ws₁₀ h₁₀ => ?_
  refine (emit_reaches .push ⟨2, 1⟩ 1 ⟨rfl, rfl, rfl⟩ h₁₀ (by decide)).bind fun _ ws₁₁ h₁₁ => ?_
  refine (emit_reaches .pop ⟨1, 0⟩ 1 ⟨rfl, rfl, rfl⟩ h₁₁ (by decide)).bind fun _ ws₁₂ h₁₂ => ?_
  have htarget : ws₆.code.position.function = ws₁₂.code.currentFunction := by
    show ws₆.code.currentFunction = _
    rw [Assembly.currentFunction, Assembly.currentFunction, h₆.opened, h₁₂.opened]
  refine (jumpBack_reaches h₁₂ htarget h₆.depth.symm).bind fun _ ws₁₃ h₁₃ => ?_
  refine (land_reaches h₁₃ List.mem_cons_self rfl fun _ => harrive.symm).bind ?_
  rintro _ ws₁₄ ⟨h₁₄, -⟩
  rw [harrive] at h₁₄
  refine (emit_reaches .pop ⟨1, 0⟩ 0 ⟨rfl, rfl, rfl⟩ h₁₄ (by decide)).bind fun _ ws₁₅ h₁₅ => ?_
  refine (load_reaches (.own (owns_later hcollected h₁₅.course)) h₁₅ (by decide)).mono
    fun _ ws' h' => ?_
  exact ⟨_, h₁.trans (h₂.trans h'.forget), fun _ => rfl⟩

/-! ### Conditionals -/

/-- The rest of a conditional follows, whether an arm jumps to the end or not. -/
theorem exitArm_bind {α : Type} (id : FrameId) (wanted : Bool) (rest : Action Workspace α) :
    (if wanted = true then do
      let exit ← jump .jump
      update id (FrameState.addExit exit)
      rest
    else rest) = Layout.exitArm id wanted >>= fun _ => rest := by
  cases wanted with
  | true => simp only [Layout.exitArm, if_true, bind_assoc]
  | false => simp only [Layout.exitArm, Bool.false_eq_true, if_false, pure_bind]

/-- An arm ends at the depth at which the conditional does, and if it jumps to the end, control
does not get to the next one. -/
theorem exitArm_reaches {state : FrameState} {scope : Scope} (wanted : Bool)
    (h : Reaches S ends opens labels (S.base + k) (ws.entered state) ws₁)
    (hend : S.base + k = ends ws.scopes.nextSerial) (hk : k ≤ 65536) :
    (Layout.exitArm ⟨ws.scopes.nextSerial, scope⟩ wanted ws₁).Meets T.Allowed fun _ ws₂ =>
      Reaches S ends opens labels (S.base + k) (ws.entered state) ws₂ ∧
      ws₂.code.reachable = (ws₁.code.reachable && !wanted) := by
  unfold Layout.exitArm
  cases wanted with
  | false => exact ⟨h, by simp⟩
  | true =>
      refine (jump_reaches .jump ⟨0, 0⟩ 0 k ⟨rfl, rfl, rfl⟩ rfl h hk hk).bind ?_
      rintro exit ws₂ ⟨h₂, harrive, hreach⟩
      refine (addExit_reaches h₂ List.mem_cons_self (harrive.trans hend)).mono ?_
      rintro _ ws₃ ⟨h₃, hcode⟩
      rw [hcode]
      exact ⟨h₃.drop, hreach⟩

theorem ternary_fulfils (hl : Lowers T S.room lower) {condition whenTrue whenFalse : Node}
    {span : Span} (hnode : T.root.Occurs (.ternary condition whenTrue whenFalse span))
    (h : Reaches S ends false [] (S.base + 0) ws ws) :
    (Rule.ternary lower (.ternary condition whenTrue whenFalse span) ws).Meets T.Allowed
      fun _ ws' => Fulfils S ends (.ternary condition whenTrue whenFalse span) ws ws' := by
  have hinside := h.enter (S.base + 1)
    (show (FrameState.branch 0 #[]).scope ≠ .function from nofun) nofun
    (show FrameState.Kept _ _ _ (.branch 0 #[]) from nofun)
  have hend : S.base + 1 =
      Function.update ends ws.scopes.nextSerial (S.base + 1) ws.scopes.nextSerial := by
    rw [Function.update_self]
  have hopens : (FrameState.branch 0 #[]).Opens ws.scopes.frames := trivial
  refine (within_reaches (S.base + 1) (S.base + 1) h hopens ?_).bind ?_
  · refine (value_reaches hl hnode (by simp [Node.operands]) hinside (by decide)).bind
      fun _ ws₁ h₁ => ?_
    refine (jump_reaches .jumpIfFalse ⟨1, 0⟩ 0 0 ⟨rfl, rfl, rfl⟩ rfl h₁ (by decide)
      (by decide)).bind ?_
    rintro otherwise ws₂ ⟨h₂, harrive, -⟩
    refine (value_reaches hl hnode (by simp [Node.operands]) h₂ (by decide)).bind
      fun _ ws₃ h₃ => ?_
    rw [reachable_bind, exitArm_bind]
    refine (exitArm_reaches _ h₃ hend (by decide)).bind ?_
    rintro _ ws₄ ⟨h₄, hreach⟩
    -- Control does not get here from the first arm, which is deeper by its value.
    have hdead : ws₄.code.reachable = true → S.base + 1 = otherwise.depth := by
      intro hlive
      rw [hreach, Bool.and_not_self] at hlive
      cases hlive
    refine (land_reaches h₄ List.mem_cons_self rfl hdead).bind ?_
    rintro _ ws₅ ⟨h₅, -⟩
    rw [harrive] at h₅
    refine (setArm_reaches 1 h₅).bind fun _ ws₆ h₆ => ?_
    exact (value_reaches hl hnode (by simp [Node.operands]) h₆ (by decide)).mono
      fun _ ws₇ h₇ => h₇.forget
  · rintro ⟨_, last⟩ ws₁ ⟨h₁, -, hexits⟩
    exact (landAll_reaches h₁ hexits).mono fun _ ws' h' => ⟨_, h', fun _ => rfl⟩

/-- Every arm leaves the depth as it was. -/
theorem ifArms_reaches (hl : Lowers T S.room lower) {parent : Node} {state : FrameState}
    {scope : Scope} (hparent : T.root.Occurs parent) (moreFollows : Bool)
    {arms : List (Node × Node)}
    (harms : ∀ arm ∈ arms, arm.1 ∈ parent.operands ∧ T.root.Occurs arm.2) (arm : Nat)
    (h : Reaches S ends opens labels (S.base + 0) (ws.entered state) ws₁)
    (hend : S.base + 0 = ends ws.scopes.nextSerial) :
    (Rule.ifArms lower ⟨ws.scopes.nextSerial, scope⟩ moreFollows arm arms ws₁).Meets T.Allowed
      fun _ ws₂ => Reaches S ends opens labels (S.base + 0) (ws.entered state) ws₂ := by
  induction arms generalizing ws₁ arm with
  | nil => exact h
  | cons head rest ih =>
      obtain ⟨condition, body⟩ := head
      obtain ⟨hcondition, hbody⟩ := harms _ List.mem_cons_self
      rw [Rule.ifArms]
      refine (setArm_reaches arm h).bind fun _ ws₂ h₂ => ?_
      refine (value_reaches hl hparent hcondition h₂ (by decide)).bind fun _ ws₃ h₃ => ?_
      refine (jump_reaches .jumpIfFalse ⟨1, 0⟩ 0 0 ⟨rfl, rfl, rfl⟩ rfl h₃ (by decide)
        (by decide)).bind ?_
      rintro skip ws₄ ⟨h₄, harrive, -⟩
      refine (statement_reaches hl hbody h₄ (by decide)).bind fun _ ws₅ h₅ => ?_
      rw [reachable_bind, exitArm_bind]
      refine (exitArm_reaches _ h₅ hend (by decide)).bind ?_
      rintro _ ws₆ ⟨h₆, -⟩
      refine (land_reaches h₆ List.mem_cons_self rfl fun _ => harrive.symm).bind ?_
      rintro _ ws₇ ⟨h₇, -⟩
      rw [harrive] at h₇
      exact ih (fun other hother => harms other (List.mem_cons_of_mem _ hother)) (arm + 1) h₇.drop

theorem ifChain_fulfils (hl : Lowers T S.room lower) {arms : List (Node × Node)}
    {otherwise : Option Node} {span : Span}
    (hnode : T.root.Occurs (.ifChain arms otherwise span))
    (h : Reaches S ends false [] (S.base + 0) ws ws) :
    (Rule.ifChain lower (.ifChain arms otherwise span) ws).Meets T.Allowed fun _ ws' =>
      Fulfils S ends (.ifChain arms otherwise span) ws ws' := by
  have hinside := h.enter (S.base + 0)
    (show (FrameState.branch 0 #[]).scope ≠ .function from nofun) nofun
    (show FrameState.Kept _ _ _ (.branch 0 #[]) from nofun)
  have hend : S.base + 0 =
      Function.update ends ws.scopes.nextSerial (S.base + 0) ws.scopes.nextSerial := by
    rw [Function.update_self]
  have harms : ∀ arm ∈ arms, arm.1 ∈ (Node.ifChain arms otherwise span).operands ∧
      T.root.Occurs arm.2 := by
    intro arm harm
    refine ⟨List.mem_map_of_mem harm, hnode.part (List.mem_append_left _ ?_)⟩
    exact List.mem_flatMap.mpr ⟨arm, harm, by simp⟩
  have hopens : (FrameState.branch 0 #[]).Opens ws.scopes.frames := trivial
  refine (within_reaches (S.base + 0) (S.base + 0) h hopens ?_).bind ?_
  · refine (ifArms_reaches hl hnode otherwise.isSome harms 0 hinside hend).bind fun _ ws₁ h₁ => ?_
    cases otherwise with
    | none => exact h₁
    | some body =>
        refine (setArm_reaches arms.length h₁).bind fun _ ws₂ h₂ => ?_
        exact statement_reaches hl (hnode.part (List.mem_append_right _ (by simp))) h₂ (by decide)
  · rintro ⟨_, last⟩ ws₁ ⟨h₁, -, hexits⟩
    exact (landAll_reaches h₁ hexits).mono fun _ ws' h' => ⟨_, h', fun _ => rfl⟩

/-! ### Loops -/

/-- A loop that starts here can be entered. -/
theorem enterLoop_reaches (h : Reaches S ends opens labels depth ws ws₁) :
    Reaches S (Function.update ends ws₁.scopes.nextSerial 0) false labels depth
      (ws₁.entered (.loop ws₁.code.position ws₁.code.depth #[]))
      (ws₁.entered (.loop ws₁.code.position ws₁.code.depth #[])) := by
  refine h.enter 0 nofun ?_ ⟨rfl, nofun⟩
  intro entry hentry
  obtain rfl := Option.some.inj hentry
  exact h.ready.depth_lt

/-- The functions around two places of one site are the same. -/
theorem same_function {ends' : Nat → Nat} {opens' : Bool} {labels' : List (Opcode × PendingJump)}
    {depth' : Nat} {ws' ws₂ : Workspace} (h : Reaches S ends opens labels depth ws ws₁)
    (h' : Reaches S ends' opens' labels' depth' ws' ws₂) :
    ws₁.code.position.function = ws₂.code.currentFunction := by
  show ws₁.code.currentFunction = _
  rw [Assembly.currentFunction, Assembly.currentFunction, h.opened, h'.opened]

theorem whileLoop_fulfils (hl : Lowers T S.room lower) {condition body : Node} {span : Span}
    (hnode : T.root.Occurs (.whileLoop condition body span))
    (h : Reaches S ends false [] (S.base + 0) ws ws) :
    (Rule.whileLoop lower (.whileLoop condition body span) ws).Meets T.Allowed fun _ ws' =>
      Fulfils S ends (.whileLoop condition body span) ws ws' := by
  simp only [Rule.whileLoop, position_bind, depth_bind]
  have hopens : (FrameState.loop ws.code.position ws.code.depth #[]).Opens ws.scopes.frames :=
    trivial
  refine (within_reaches 0 (S.base + 0) h hopens ?_).bind ?_
  · refine (value_reaches hl hnode (by simp [Node.operands]) (enterLoop_reaches h)
      (by decide)).bind fun _ ws₁ h₁ => ?_
    refine (jump_reaches .jumpIfFalse ⟨1, 0⟩ 0 0 ⟨rfl, rfl, rfl⟩ rfl h₁ (by decide)
      (by decide)).bind ?_
    rintro exit ws₂ ⟨h₂, harrive, -⟩
    refine (statement_reaches hl (hnode.part (by simp [Node.children])) h₂ (by decide)).bind
      fun _ ws₃ h₃ => ?_
    refine (jumpBack_reaches h₃ (same_function h h₃) h.depth.symm).bind fun _ ws₄ h₄ => ?_
    refine (land_reaches h₄ List.mem_cons_self rfl fun _ => harrive.symm).mono ?_
    rintro _ ws₅ ⟨h₅, -⟩
    rw [harrive] at h₅
    exact h₅.forget
  · rintro ⟨_, last⟩ ws₁ ⟨h₁, hbreaks, -⟩
    have hbreaks := hbreaks _ rfl
    rw [h.depth] at hbreaks
    exact (landAll_reaches h₁ hbreaks).mono fun _ ws' h' => ⟨_, h', fun _ => rfl⟩

/-- The iterator stays below everything a round puts on the stack. -/
theorem forEach_fulfils (hl : Lowers T S.room lower) {binding : Name} {iterable body : Node}
    {span : Span} (hnode : T.root.Occurs (.forEach binding iterable body span))
    (h : Reaches S ends false [] (S.base + 0) ws ws) :
    (Rule.forEach lower (.forEach binding iterable body span) ws).Meets T.Allowed fun _ ws' =>
      Fulfils S ends (.forEach binding iterable body span) ws ws' := by
  refine (value_reaches hl hnode (by simp [Node.operands]) h (by decide)).bind fun _ ws₁ h₁ => ?_
  refine (emit_reaches .iterStart ⟨1, 1⟩ 0 ⟨rfl, rfl, rfl⟩ h₁ (by decide)).bind
    fun _ ws₂ h₂ => ?_
  rw [position_bind, depth_bind]
  have hopens : (FrameState.loop ws₂.code.position ws₂.code.depth #[]).Opens ws₂.scopes.frames :=
    trivial
  refine (within_reaches 0 (S.base + 1) h₂ hopens ?_).bind ?_
  · refine (jump_reaches .iterNext ⟨1, 2⟩ 1 0 ⟨rfl, rfl, rfl⟩ rfl (enterLoop_reaches h₂)
      (by decide) (by decide)).bind ?_
    rintro exit ws₃ ⟨h₃, harrive, -⟩
    refine (declare_reaches binding h₃).bind ?_
    rintro slot ws₄ ⟨h₄, hslot⟩
    refine (store_reaches hslot h₄ (by decide)).bind fun _ ws₅ h₅ => ?_
    refine (statement_reaches hl (hnode.part (by simp [Node.children])) h₅ (by decide)).bind
      fun _ ws₆ h₆ => ?_
    refine (jumpBack_reaches h₆ (same_function h₂ h₆) h₂.depth.symm).bind fun _ ws₇ h₇ => ?_
    refine (land_reaches h₇ List.mem_cons_self rfl fun _ => harrive.symm).mono ?_
    rintro _ ws₈ ⟨h₈, -⟩
    rw [harrive] at h₈
    exact h₈.forget
  · rintro ⟨_, last⟩ ws₃ ⟨h₃, hbreaks, -⟩
    have hbreaks := hbreaks _ rfl
    rw [h₂.depth] at hbreaks
    refine (landAll_reaches h₃ hbreaks).bind fun _ ws₄ h₄ => ?_
    exact (emit_reaches .pop ⟨1, 0⟩ 0 ⟨rfl, rfl, rfl⟩ h₄ (by decide)).mono
      fun _ ws' h' => ⟨_, h', fun _ => rfl⟩

/-! ### Leaving and repeating loops -/

/-- The loop around a place, with the depth of the operand stack outside its body. -/
def InLoop (ws : Workspace) (target : Position) (level : Nat) : Prop :=
  ∃ frame breaks, Frame.innermost? .loop ws.scopes.frames = some frame ∧
    frame.state = .loop target level breaks

/-- The loop stays the same on a course. -/
theorem InLoop.later {ws' : Workspace} {target : Position} {level : Nat}
    (h : InLoop ws target level) (hready : Ready T ends ws') (hcourse : Course ws ws') :
    ∃ target', InLoop ws' target' level ∧ target'.function = ws'.code.currentFunction := by
  obtain ⟨frame, breaks, hframe, hstate⟩ := h
  have hshape := Frame.innermost?_of_shape .loop hcourse.follows.shape
  rw [hframe] at hshape
  obtain ⟨frame', hframe', hsame⟩ := Option.map_eq_some_iff.mp hshape
  obtain ⟨target', level', breaks', hstate', htarget⟩ := hready.kept.innermost_loop hframe'
  have hlevel : frame'.state.loopEntry?.map Prod.snd = frame.state.loopEntry?.map Prod.snd :=
    congrArg (fun shape => shape.2.2) hsame
  rw [hstate, hstate'] at hlevel
  obtain rfl : level' = level := Option.some.inj hlevel
  rw [hready.functions] at htarget
  exact ⟨target', ⟨frame', breaks', hframe', hstate'⟩, htarget⟩

/-- There is a loop to be found, or the `break` or `continue` is to blame. -/
theorem enclosingLoop_meets {span : Span} (hready : Ready T ends ws)
    (hspan : T.root.Occurs (.breakLoop span) ∨ T.root.Occurs (.continueLoop span)) :
    (Rule.enclosingLoop span ws).Meets T.Allowed fun entry ws' =>
      ws = ws' ∧ InLoop ws entry.1 entry.2 := by
  have hfound : (onScopes (ScopeStack.enclosing .loop span) ws).Meets T.Allowed
      fun frame ws' => ws = ws' ∧ Frame.innermost? .loop ws.scopes.frames = some frame := by
    refine onScopes_meets ?_
    unfold ScopeStack.enclosing
    cases hframe : Frame.innermost? .loop ws.scopes.frames with
    | none => exact .inl (.inl ⟨rfl, hspan⟩)
    | some frame => exact ⟨rfl, rfl⟩
  refine hfound.bind ?_
  rintro frame _ ⟨rfl, hframe⟩
  obtain ⟨target, level, breaks, hstate, -⟩ := hready.kept.innermost_loop hframe
  rw [hstate]
  exact ⟨rfl, frame, breaks, hframe, hstate⟩

/-- On the way to its loop a `break` or `continue` has the depth of the loop. -/
theorem leaveForLoop_reaches {construct : Construct} {span : Span}
    (hspan : T.root.Occurs (.breakLoop span) ∨ T.root.Occurs (.continueLoop span))
    (h : Reaches S ends opens labels depth ws ws₁) :
    (Rule.leaveForLoop construct span ws₁).Meets T.Allowed fun _ ws₂ =>
      ∃ target level, Reaches S ends opens labels level ws ws₂ ∧ InLoop ws₂ target level ∧
        target.function = ws₂.code.currentFunction := by
  refine (enclosingLoop_meets h.ready hspan).bind ?_
  rintro ⟨target, level⟩ _ ⟨rfl, hloop⟩
  have hlevel : level < wordLimit := by
    obtain ⟨frame, breaks, hframe, hstate⟩ := hloop
    exact Layout.innermost?_level h.ready.sound hframe (by rw [hstate]; rfl)
  simp only [depth_bind, reachable_bind]
  split
  · exact .inl trivial
  · refine (resetDepth_reaches h.again hlevel).bind fun _ ws₂ h₂ => ?_
    refine (leaveHandlers_reaches .loop h₂).mono fun _ ws₃ h₃ => ?_
    obtain ⟨target', hloop', htarget⟩ := hloop.later h₃.ready h₃.course
    have hall := h.trans h₃
    rw [Bool.or_false] at hall
    exact ⟨target', level, hall, hloop', htarget⟩

theorem breakLoop_fulfils (lower : Lower) {span : Span} (hnode : T.root.Occurs (.breakLoop span))
    (h : Reaches S ends false [] (S.base + 0) ws ws) :
    (Rule.breakLoop lower (.breakLoop span) ws).Meets T.Allowed fun _ ws' =>
      Fulfils S ends (.breakLoop span) ws ws' := by
  refine (leaveForLoop_reaches (.inl hnode) h).bind ?_
  rintro _ ws₁ ⟨target, level, h₁, hloop, -⟩
  have hbranch : Opcode.jump.branchUse? = some ⟨0, 0⟩ := rfl
  have hlt := h₁.ready.depth_lt
  refine (jump_meets hbranch rfl h₁.ready (Nat.zero_le _) (fun _ => hlt) fun _ => hlt).bind ?_
  rintro label _ ⟨rfl, rfl, hready, hawaits⟩
  have h₂ := h₁.next hready (.step (.write rfl)) ((wrote_depth h₁.ready.sound _).trans h₁.depth)
  obtain ⟨frame, breaks, hframe, hstate⟩ := hloop
  have hcurrent : (Frame.ids ws₁.scopes.frames).headD 0 =
      (ws₁.wrote ⟨.jump, .unaimed⟩).code.currentFunction :=
    congrArg (List.headD · 0) hready.functions
  rw [← hcurrent] at hawaits
  obtain ⟨hkept, hids⟩ := hready.kept.addBreak hframe hstate h₁.depth hawaits
  have hnote : Step (ws₁.wrote ⟨.jump, .unaimed⟩) _ :=
    .note (Frame.quiet_addBreak ⟨ws₁.code.position, ws₁.code.depth⟩ _)
  exact ⟨level, h₂.next (hready.reframe hnote.follows.shape hkept hids) (.step hnote) h₂.depth,
    fun hne => absurd rfl hne⟩

theorem continueLoop_fulfils (lower : Lower) {span : Span}
    (hnode : T.root.Occurs (.continueLoop span))
    (h : Reaches S ends false [] (S.base + 0) ws ws) :
    (Rule.continueLoop lower (.continueLoop span) ws).Meets T.Allowed fun _ ws' =>
      Fulfils S ends (.continueLoop span) ws ws' := by
  refine (leaveForLoop_reaches (.inr hnode) h).bind ?_
  rintro _ ws₁ ⟨target, level, h₁, hloop, htarget⟩
  refine (enclosingLoop_meets h₁.ready (.inr hnode)).bind ?_
  rintro ⟨target', level'⟩ _ ⟨rfl, hloop'⟩
  obtain ⟨rfl, rfl⟩ : target = target' ∧ level = level' := by
    obtain ⟨frame, breaks, hframe, hstate⟩ := hloop
    obtain ⟨frame', breaks', hframe', hstate'⟩ := hloop'
    obtain rfl := Option.some.inj (hframe.symm.trans hframe')
    obtain ⟨htarget, hlevel, -⟩ := FrameState.loop.inj (hstate.symm.trans hstate')
    exact ⟨htarget, hlevel⟩
  exact (jumpBack_reaches h₁ htarget rfl).mono fun _ ws' h' => ⟨_, h', fun hne => absurd rfl hne⟩

end QueryCompiler.Progress
