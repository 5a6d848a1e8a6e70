/-
What the rules for functions and for raising and catching errors reach.

A lambda and a handler are each one stretch of the course, so what is reached inside
them is counted from a start of its own: the function of a lambda starts with nothing
on the stack, and the catch path of a handler with the error on it.
-/
import QueryCompiler.Proofs.Progress.Control

namespace QueryCompiler.Progress

open Workspace

variable {T : Terms} {S : Site T} {ends : Nat → Nat} {opens : Bool}
  {labels : List (Opcode × PendingJump)} {depth k : Nat} {ws ws₁ : Workspace} {lower : Lower}

/-! ### Results -/

theorem result_reaches (hl : Lowers T S.room lower) {parent : Node} {code : Int64}
    {data : Option Node} (hparent : T.root.Occurs parent) (hcode : .int code ∈ parent.ownConstants)
    (hdata : ∀ node ∈ data, node ∈ parent.operands)
    (h : Reaches S ends opens labels (S.base + 0) ws ws₁) :
    (Rule.result lower code data ws₁).Meets T.Allowed fun _ ws₂ =>
      Reaches S ends opens labels (S.base + 2) ws ws₂ := by
  refine (pushConstant_reaches (Node.mem_constants hparent hcode) h (by decide)).bind
    fun _ ws₂ h₂ => ?_
  cases data with
  | none => exact emit_reaches .pushNull ⟨0, 1⟩ 1 ⟨rfl, rfl, rfl⟩ h₂ (by decide)
  | some node => exact value_reaches hl hparent (hdata node rfl) h₂ (by decide)

theorem returnWith_fulfils (hl : Lowers T S.room lower) {code : Int64} {data : Option Node}
    {span : Span} (hnode : T.root.Occurs (.returnWith code data span))
    (h : Reaches S ends false [] (S.base + 0) ws ws) :
    (Rule.returnWith lower (.returnWith code data span) ws).Meets T.Allowed fun _ ws' =>
      Fulfils S ends (.returnWith code data span) ws ws' := by
  refine (result_reaches hl hnode List.mem_cons_self
    (fun _ hdata => Option.mem_toList.mpr hdata) h).bind fun _ ws₁ h₁ => ?_
  refine (leaveHandlers_reaches .function h₁).bind fun _ ws₂ h₂ => ?_
  exact (emit_reaches .ret ⟨2, 0⟩ 0 ⟨rfl, rfl, rfl⟩ h₂ (by decide)).mono
    fun _ ws' h' => ⟨_, h', fun hne => absurd rfl hne⟩

theorem exitWith_fulfils (hl : Lowers T S.room lower) {code : Int64} {data : Option Node}
    {span : Span} (hnode : T.root.Occurs (.exitWith code data span))
    (h : Reaches S ends false [] (S.base + 0) ws ws) :
    (Rule.exitWith lower (.exitWith code data span) ws).Meets T.Allowed fun _ ws' =>
      Fulfils S ends (.exitWith code data span) ws ws' := by
  refine (result_reaches hl hnode List.mem_cons_self
    (fun _ hdata => Option.mem_toList.mpr hdata) h).bind fun _ ws₁ h₁ => ?_
  exact (emit_reaches .exit ⟨2, 0⟩ 0 ⟨rfl, rfl, rfl⟩ h₁ (by decide)).mono
    fun _ ws' h' => ⟨_, h', fun hne => absurd rfl hne⟩

/-- The `throw` is counted just before it is written. -/
theorem throwWith_fulfils (hl : Lowers T S.room lower) {code : Int64} {data : Node} {span : Span}
    (hnode : T.root.Occurs (.throwWith code data span))
    (h : Reaches S ends false [] (S.base + 0) ws ws) :
    (Rule.throwWith lower (.throwWith code data span) ws).Meets T.Allowed fun _ ws' =>
      Fulfils S ends (.throwWith code data span) ws ws' := by
  refine (pushConstant_reaches (Node.mem_constants hnode List.mem_cons_self) h (by decide)).bind
    fun _ ws₁ h₁ => ?_
  refine (value_reaches hl hnode List.mem_cons_self h₁ (by decide)).bind fun _ ws₂ h₂ => ?_
  have hcount : onScopes (Action.modify ScopeStack.countThrow) ws₂ =
      .done () (ws₂.reframe Frame.countThrow) := rfl
  rw [Action.bind_apply, hcount]
  have hready := h₂.ready.reframe_still Frame.countThrow_still
  have hdepth : (ws₂.reframe Frame.countThrow).code.depth = S.base + 2 := h₂.depth
  have hshape : Operand.none.shape = Opcode.throw.shape := rfl
  have huse : (Instruction.mk .throw .none).stackUse = ⟨2, 0⟩ := rfl
  refine (emitWith_meets hshape ?_ ?_).mono ?_
  · rw [huse, hdepth]
    exact Nat.le_add_left _ _
  · rw [huse, hdepth]
    exact S.fits (by decide : 0 ≤ 65536)
  · rintro _ _ ⟨hlt, rfl⟩
    exact ⟨_, h₂.onward (hready.wrote hlt) ((Follows.countThrow ws₂).trans (Follows.wrote _ _))
      (h₂.course.trans (.throw ws₂)) rfl, fun hne => absurd rfl hne⟩

/-! ### Lambdas -/

/-- Inside a lambda the stack is empty, and there is one function more around. -/
def Site.inFunction (S : Site T) (id : Nat)
    (hnested : T.bounded → S.opened.length + S.room + 1 ≤ 65536) : Site T where
  base := 0
  opened := id :: S.opened
  room := S.room
  deep hbounded := by
    have hlevels : 0 + 65535 * (S.room + 1) + 65536 ≤ S.base + 65535 * (S.room + 1) + 65536 := by
      omega
    exact Nat.le_trans hlevels (S.deep hbounded)
  nested hbounded := by
    have hnested := hnested hbounded
    rw [List.length_cons]
    omega

theorem declareAll_reaches (params : List Name)
    (h : Reaches S ends opens labels depth ws ws₁) :
    (params.forM (fun param => do let _ ← declare param) ws₁).Meets T.Allowed fun _ ws₂ =>
      Reaches S ends opens labels depth ws ws₂ := by
  refine Outcome.Meets.forM (fun _ ws₂ => Reaches S ends opens labels depth ws ws₂) h ?_
  intro before param after ws₂ _ h₂
  exact (declare_reaches param h₂).bind fun _ ws₃ h₃ => h₃.1

/-- The function of a lambda: its parameters are declared and its body is lowered. -/
theorem lambdaBody_meets (hl : Lowers T S.room lower) {params : List Name} {body : Node}
    (hbody : T.root.Occurs body) (hnested : T.bounded → S.opened.length + S.room + 1 ≤ 65536)
    (h : Reaches S ends false [] (S.base + 0) ws ws) (arity : UInt16) :
    (within (.function ws.code.routines.size 0) (fun _ => do
        params.forM fun param => do
          let _ ← declare param
        lower.body body) (Layout.opened ws arity)).Meets T.Allowed fun result ws₁ =>
      ∃ inside frame outer, Ready T ends inside ∧
        Course ((Layout.opened ws arity).entered (.function ws.code.routines.size 0)) inside ∧
        inside.scopes.frames = frame :: outer ∧ result.2 = frame.state ∧
        ws₁ = inside.left frame := by
  have hstart : Reaches (S.inFunction ws.code.routines.size hnested) ends false [] 0
      ((Layout.opened ws arity).entered (.function ws.code.routines.size 0))
      ((Layout.opened ws arity).entered (.function ws.code.routines.size 0)) := by
    refine Reaches.start (h.ready.openedFunction arity) ?_ ?_
    · exact congrArg (List.cons _) h.opened
    · simp [Layout.opened, entered, Assembly.depth, Assembly.current, Assembly.currentFunction,
        Routine.start]
  refine within_meets ((declareAll_reaches params hstart).bind fun _ ws₁ h₁ => ?_)
  have hl' : Lowers T (S.inFunction ws.code.routines.size hnested).room lower := hl
  refine (body_reaches hl' hbody h₁).mono ?_
  rintro _ inside ⟨_, hinside⟩
  obtain ⟨frame, outer, hframes, hframe, -⟩ := hinside.course.follows.innermost
  exact ⟨frame, outer, hframes, congrArg Prod.fst hframe, inside, frame, outer, hinside.ready,
    hinside.course, hframes, rfl, rfl⟩

/-- A function that is inside another can be closed. -/
theorem closeFunction_eq {frame : Frame} {id : Nat} {outer : List Nat} {next arity : UInt16}
    (hopened : ws.code.opened = id :: outer) (houter : outer ≠ [])
    (hnext : frame.state.nextSlot? = some next) :
    onCode (Assembly.closeFunction (frame.state.nextSlot?.getD arity)) (ws.left frame) =
      .done id (Layout.closed (ws.left frame) next outer) := by
  refine onCode_done.mpr ⟨_, ?_, rfl⟩
  rw [hnext, Assembly.closeFunction, show (ws.left frame).code.opened = _ from hopened]
  cases outer with
  | nil => exact absurd rfl houter
  | cons outer rest => rfl

/-- The function of a lambda is written, closed again, and a closure is made of it. -/
theorem lambda_fulfils (hl : Lowers T S.room lower) {params : List Name} {body : Node} {span : Span}
    (hnode : T.root.Occurs (.lambda params body span))
    (hnested : T.bounded → S.opened.length + S.room + 1 ≤ 65536)
    (h : Reaches S ends false [] (S.base + 0) ws ws) :
    (Rule.lambda lower (.lambda params body span) ws).Meets T.Allowed fun _ ws' =>
      Fulfils S ends (.lambda params body span) ws ws' := by
  simp only [Rule.lambda]
  split
  · exact .inl trivial
  · have hopen : onCode (Assembly.openFunction params.length.toUInt16) ws =
        .done ws.code.routines.size (Layout.opened ws params.length.toUInt16) := rfl
    rw [Action.bind_apply, hopen]
    refine (lambdaBody_meets hl (hnode.part List.mem_cons_self) hnested h _).bind ?_
    rintro ⟨_, _⟩ _ ⟨inside, frame, outer, hready, hcourse, hframes, rfl, rfl⟩
    obtain ⟨next, hstate, -⟩ := hcourse.follows.function_frame hframes
    have hnext : frame.state.nextSlot? = some next := by rw [hstate]; rfl
    rw [Action.bind_apply, closeFunction_eq hcourse.follows.opened h.ready.inside hnext]
    obtain ⟨hclosed, hcurrent⟩ := h.ready.closed hready next hcourse hframes
    obtain ⟨hfollows, hpushes⟩ := hcourse.follows.closed next hframes
    have hdepth : (Layout.closed (inside.left frame) next ws.code.opened).code.depth = S.base := by
      rw [Assembly.depth, hcurrent]
      exact h.depth
    have huse : (Instruction.mk .makeLambda
        (.function ws.code.routines.size.toUInt32)).stackUse = ⟨0, 1⟩ := rfl
    refine (emitWith_meets rfl ?_ ?_).mono ?_
    · exact Nat.zero_le _
    · rw [huse, hdepth]
      exact S.fits (by decide : 1 ≤ 65536)
    · rintro _ _ ⟨hlt, rfl⟩
      have hreaches := h.onward (hclosed.wrote hlt) (hfollows.trans (Follows.wrote _ _))
        (.lambda hcourse hframes hnext) (wrote_depth hclosed.sound _)
      rw [huse, hdepth] at hreaches
      exact ⟨_, { hreaches with opens := fun _ => hpushes }, fun _ => rfl⟩

/-! ### Handlers -/

/-- The way over the catch path, as a label. -/
def escapeLabels (exit : Option PendingJump) : List (Opcode × PendingJump) :=
  exit.toList.map fun label => (.jump, label)

/-- A guarded body that comes to its end leaves the handler and jumps over the catch path.  Control
never runs into the catch path from the body. -/
theorem escape_meets {α : Type} {reached : Bool} {body : Workspace}
    {rest : Option PendingJump → Action Workspace α} {post : α → Workspace → Prop}
    (h : Reaches S ends opens labels depth ws body) (hreached : reached = body.code.reachable)
    (hrest : ∀ exit escaped, Escape body exit escaped →
      Reaches S ends opens (escapeLabels exit ++ labels) depth ws escaped →
      (∀ label ∈ exit, label.depth = depth) → escaped.code.reachable = false →
      (rest exit escaped).Meets T.Allowed post) :
    ((if reached = true then do
        emit .tryEnd
        let exit ← jump .jump
        let exit ← pure (some exit)
        rest exit
      else do
        let exit ← pure none
        rest exit) body).Meets T.Allowed post := by
  split
  · have hshape : Operand.none.shape = Opcode.tryEnd.shape := rfl
    have hbranch : Opcode.jump.branchUse? = some ⟨0, 0⟩ := rfl
    refine (emitWith_meets hshape (Nat.zero_le _) fun _ => h.ready.depth_lt).bind ?_
    rintro _ _ ⟨hlt, rfl⟩
    have h₁ := h.next (h.ready.wrote hlt) (.step (.write rfl))
      ((wrote_depth h.ready.sound _).trans h.depth)
    have hlt₁ := h₁.ready.depth_lt
    refine (jump_meets hbranch rfl h₁.ready (Nat.zero_le _) (fun _ => hlt₁)
      fun _ => hlt₁).bind ?_
    rintro label _ ⟨rfl, rfl, hready, hawaits⟩
    have h₂ := h₁.next hready (.step (.write rfl)) ((wrote_depth h₁.ready.sound _).trans h₁.depth)
    refine hrest (some _) _ (.jump rfl) (h₂.await hawaits) ?_ ?_
    · intro label hlabel
      obtain rfl := Option.some.inj hlabel
      exact h₁.depth
    · rw [wrote_reachable h₁.ready.sound]
      exact Bool.and_false _
  · rename_i hends
    exact hrest none body .none h nofun (hreached.symm.trans (eq_false_of_ne_true hends))

/-- The catch path starts by putting the error away. -/
theorem catch_meets {α : Type} {binding : Option Name} {rest : Action Workspace α}
    {post : α → Workspace → Prop} (h : Reaches S ends false labels (S.base + 1) ws ws)
    (hrest : ∀ named caught, Course ws named → named.code = ws.code → Catch caught →
      Course named (named.wrote caught) →
      Reaches S ends false labels (S.base + 0) (named.wrote caught) (named.wrote caught) →
      (rest (named.wrote caught)).Meets T.Allowed post) :
    ((match binding with
      | some name => do
        let slot ← declare name
        emitSlot .store slot
        rest
      | none => do
        emit .pop
        rest) ws).Meets T.Allowed post := by
  have hput : ∀ (named : Workspace) (op : Opcode) (operand : Operand),
      Reaches S ends false labels (S.base + 1) ws named → named.code = ws.code →
      operand.shape = op.shape → (Instruction.mk op operand).stackUse = ⟨1, 0⟩ →
      Catch ⟨op, operand⟩ → Course named (named.wrote ⟨op, operand⟩) →
      ((emitWith op operand >>= fun _ => rest) named).Meets T.Allowed post := by
    intro named op operand hnamed hcode hshape huse hcatch hcourse
    have hdepth := hnamed.depth
    refine (emitWith_meets hshape ?_ ?_).bind ?_
    · rw [huse, hdepth]
      exact Nat.le_add_left 1 S.base
    · rw [huse, hdepth]
      exact S.fits (by decide : 0 ≤ 65536)
    · rintro _ _ ⟨hlt, rfl⟩
      refine hrest named _ hnamed.course hcode hcatch hcourse ?_
      refine hnamed.anew (hnamed.ready.wrote hlt) (Follows.wrote _ _) ?_
      rw [wrote_depth hnamed.ready.sound, huse, hdepth]
      rfl
  cases binding with
  | some name =>
      refine (onScopes_keeps (declare_reaches name h)).bind ?_
      rintro slot named ⟨⟨hnamed, hslot⟩, hcode⟩
      exact hput named .store (.slot ⟨0, slot⟩) hnamed hcode rfl rfl (.store slot)
        (.slot (.own hslot) (.stay named) (.inr rfl))
  | none => exact hput ws .pop .none h rfl rfl rfl .drop (.step (.write rfl))

/-- The guarded body and the catch path, with all that the course of a handler is made of. -/
theorem tryPaths_meets (hl : Lowers T S.room lower) {install : PendingJump} {body handler : Node}
    {binding : Option Name} (hbody : T.root.Occurs body) (hhandler : T.root.Occurs handler)
    (harrive : install.depth = S.base + 1)
    (h : Reaches S ends false [(.tryBegin, install)] (S.base + 0)
      (ws.entered (.handler install.position true 0))
      (ws.entered (.handler install.position true 0))) :
    (Rule.tryPaths lower install ⟨ws.scopes.nextSerial, .handler⟩ body binding handler
      (ws.entered (.handler install.position true 0))).Meets T.Allowed fun paths inside =>
      ∃ guarded escaped named caught, paths.1 = guarded.code.length ∧
        paths.2.1 = escaped.code.length ∧
        Course (ws.entered (.handler install.position true 0)) guarded ∧
        Escape guarded paths.2.2 escaped ∧
        Course (escaped.unguarded.landed install) named ∧
        named.code = (escaped.unguarded.landed install).code ∧ Catch caught ∧
        Course named (named.wrote caught) ∧ (∀ label ∈ paths.2.2, label.depth = S.base + 0) ∧
        Reaches S ends false (escapeLabels paths.2.2) (S.base + 0) (named.wrote caught) inside := by
  refine (statement_reaches hl hbody h (by decide)).bind fun _ guarded hguarded => ?_
  rw [position_bind, reachable_bind]
  refine escape_meets hguarded rfl fun exit escaped hescape hescaped hexit hdead => ?_
  obtain ⟨frame, outer, hframes, hframe, -⟩ := hescaped.course.follows.innermost
  have hunguard : update ⟨ws.scopes.nextSerial, .handler⟩ (FrameState.setGuarded false) escaped =
      .done () escaped.unguarded := by
    rw [update_eq _ hescaped.ready.sound hframes (congrArg Prod.fst hframe)]
    simp only [unguarded, reframe, hframes, Frame.unguard]
  rw [Action.bind_apply, hunguard]
  simp only [position_bind]
  have hunguarded := hescaped.anew hescaped.ready.unguarded (Follows.unguarded escaped)
    hescaped.depth
  have hawaits := hunguarded.awaits (.tryBegin, install) (by simp)
  have hland := land_eq hawaits fun hlive => by
    rw [show escaped.unguarded.code.reachable = false from hdead] at hlive
    cases hlive
  rw [Action.bind_apply, hland]
  have hlanded := hunguarded.anew (hunguarded.ready.landed hawaits.depth_lt)
    (Follows.landed _ install) ((landed_depth hunguarded.ready.sound install).trans harrive)
  refine catch_meets hlanded fun named caught hnamed hcode hcatch hcourse hcaught => ?_
  refine (statement_reaches hl hhandler hcaught (by decide)).bind fun _ inside hinside => ?_
  refine ⟨guarded, escaped, named, caught, rfl, rfl, hguarded.course, hescape, hnamed, hcode, hcatch,
    hcourse, hexit, ?_⟩
  exact { hinside with
    awaits := fun label hlabel => hinside.awaits label (List.mem_append_left _ hlabel) }

/-- The region of a handler, given what its two paths come to. -/
def regionOf (start : Position) (paths : Nat × Nat × Option PendingJump) (last : FrameState) :
    GuardedRegion where
  function := start.function.toUInt32
  start := start.index.toUInt32
  stop := paths.1.toUInt32
  catchAt := paths.2.1.toUInt32
  throws := last.throws.toUInt32

/-- The scope of a handler, once its install jump is written.  What is left to do is to let the way
over the catch path end here, and to record the region. -/
theorem handlerScope_meets (hl : Lowers T S.room lower) {install : PendingJump}
    {body handler : Node} {binding : Option Name} (hbody : T.root.Occurs body)
    (hhandler : T.root.Occurs handler) (hinstall : install.position = ws.code.position)
    (harrive : install.depth = S.base + 1)
    (h : Reaches S ends false [(.tryBegin, install)] (S.base + 0)
      (ws.wrote ⟨.tryBegin, .unaimed⟩) (ws.wrote ⟨.tryBegin, .unaimed⟩)) :
    (within (.handler install.position true 0) (fun id =>
      Rule.tryPaths lower install id body binding handler) (ws.wrote ⟨.tryBegin, .unaimed⟩)).Meets
      T.Allowed fun result ws₁ =>
        (∀ label ∈ result.1.2.2, label.depth = S.base + 0) ∧
        Reaches S ends false (escapeLabels result.1.2.2) (S.base + 0) ws₁ ws₁ ∧
        ws.scopes.counts.pushes < ws₁.scopes.counts.pushes ∧
        Course ws ((result.1.2.2.elim ws₁ ws₁.landed).recorded
          (regionOf install.position result.1 result.2)) := by
  have hinside := h.enter 0 (handler_scope install.position true 0)
    (by intro entry hentry; cases hentry) trivial
  refine within_meets ((tryPaths_meets hl hbody hhandler harrive hinside).mono ?_)
  rintro ⟨stop, catchAt, exit⟩ inside ⟨guarded, escaped, named, caught, rfl, rfl, hguarded, hescape,
    hnamed, hcode, hcatch, hcaught, hexit, hreaches⟩
  have hfollows : Follows ((ws.wrote ⟨.tryBegin, .unaimed⟩).entered
      (.handler install.position true 0)) inside :=
    ((hguarded.follows.trans hescape.follows).trans
      ((Follows.unguarded escaped).trans (Follows.landed _ install))).trans
      ((hnamed.follows.trans hcaught.follows).trans hreaches.course.follows)
  obtain ⟨frame, outer, hframes, hframe, houter⟩ := hfollows.innermost
  have hscope : frame.scope ≠ .function := by
    rw [show frame.scope = .handler from congrArg (fun shape => shape.2.1) hframe]
    exact handler_scope install.position true 0
  have hleft : Ready T ends (inside.left frame) := by
    refine (hreaches.ready.left hframes hscope).forget ?_
    intro other hother
    have hmem : other ∈ outer := by
      simpa only [left, hframes, List.tail_cons] using hother
    have hshape : other.shape ∈ (ws.wrote ⟨.tryBegin, .unaimed⟩).shape := by
      rw [← houter]
      exact List.mem_map_of_mem hmem
    have hlt : other.serial < (ws.wrote ⟨.tryBegin, .unaimed⟩).scopes.nextSerial :=
      h.ready.sound.fresh _ hshape
    exact (Function.update_of_ne (Nat.ne_of_lt hlt) _ _).symm
  refine ⟨frame, outer, hframes, congrArg Prod.fst hframe, hexit, ?_, ?_, ?_⟩
  · exact ⟨hleft, .stay _, hreaches.opened, hreaches.awaits, hreaches.depth,
      fun hopens => absurd hopens Bool.false_ne_true⟩
  · exact (hfollows.leave (handler_scope _ _ _) hframes).2
  · exact .handler hinstall hguarded hescape hnamed hcode hcatch hcaught hreaches.course hframes rfl

theorem tryCatch_fulfils (hl : Lowers T S.room lower) {body handler : Node}
    {binding : Option Name} {span : Span}
    (hnode : T.root.Occurs (.tryCatch body binding handler span))
    (h : Reaches S ends false [] (S.base + 0) ws ws) :
    (Rule.tryCatch lower (.tryCatch body binding handler span) ws).Meets T.Allowed fun _ ws' =>
      Fulfils S ends (.tryCatch body binding handler span) ws ws' := by
  have hbranch : Opcode.tryBegin.branchUse? = some ⟨0, 1⟩ := rfl
  have hfit : T.bounded → ws.code.depth + 1 < wordLimit := by
    rw [h.depth]
    exact S.fits (by decide : 1 ≤ 65536)
  refine (jump_meets hbranch rfl h.ready (Nat.zero_le _) hfit fun _ => h.ready.depth_lt).bind ?_
  rintro install _ ⟨rfl, rfl, hready, hawaits⟩
  have hinstalled := (h.anew hready (Follows.wrote ws _)
    ((wrote_depth h.ready.sound _).trans h.depth)).await hawaits
  have harrive : ws.code.depth + 1 = S.base + 1 := congrArg (· + 1) h.depth
  refine (handlerScope_meets hl (hnode.part (by simp [Node.children]))
    (hnode.part (by simp [Node.children])) rfl harrive hinstalled).bind ?_
  rintro ⟨⟨stop, catchAt, exit⟩, last⟩ ws₁ ⟨hexit, h₁, hpushes, hcourse⟩
  cases exit with
  | none =>
      exact ⟨_, ⟨h₁.ready.recorded _, hcourse, h₁.opened, List.forall_mem_nil _, h₁.depth,
        fun _ => hpushes⟩, fun _ => rfl⟩
  | some label =>
      have hdepth := hexit label rfl
      have hawaits := h₁.awaits (.jump, label) List.mem_cons_self
      have hland := land_eq hawaits fun _ => h₁.depth.trans hdepth.symm
      simp only [Action.bind_apply, hland]
      exact ⟨_, ⟨(h₁.ready.landed hawaits.depth_lt).recorded _, hcourse, h₁.opened,
        List.forall_mem_nil _, (landed_depth h₁.ready.sound label).trans hdepth, fun _ => hpushes⟩,
        fun _ => rfl⟩

end QueryCompiler.Progress
