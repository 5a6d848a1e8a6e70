/-
Where nodes are lowered.

A registry can be probed: its rules then ask first whether anyone objects to a node where
it is, and stop with a fault if so.  As a fault is not caught by anything, a compiler with
probed rules tells of all the nodes that the lowering comes to, and of the workspaces it
finds there.

What it comes to are the nodes of the tree in preorder, and each of them is started with
the operands on the stack that can be read off the tree.  A `break` or `continue` is
therefore found to have stray operands by what lies between it and its loop in the tree.
-/
import QueryCompiler.Proofs.Script.Appending

namespace QueryCompiler

open Workspace

/-! ### Probes -/

/-- Someone who may object to a node where its lowering starts. -/
abbrev Probe := Node → Workspace → Option Fault

/-- The outcome, if there is no objection. -/
def Outcome.unless {σ α : Type} (outcome : Outcome σ α) : Option Fault → Outcome σ α
  | some objection => .fault objection
  | none => outcome

/-- The rules of a registry, each of which first hears what the probe has to say. -/
def Registry.probed (registry : Registry) (probe : Probe) : Registry :=
  ⟨fun construct => (registry.rule? construct).map fun rule lower node ws =>
    (rule lower node ws).unless (probe node ws)⟩

/-- Where a node that is lowered next would stand. -/
def Workspace.place (ws : Workspace) : Place := ⟨ws.code.depth, ws.level?⟩

/-- **What nodes an outcome has come by,** and what it becomes if there is an objection to one of
them: the nodes stand along a list of places, to its end if the outcome is done, and if one of them
cannot but fail then the outcome is that failure. -/
structure Outcome.Starts {α : Type} (outcome : Outcome Workspace α) (places : List (Node × Place))
    (probed : Probe → Outcome Workspace α) (starts : List (Node × Workspace)) : Prop where
  probed : ∀ probe, probed probe =
    outcome.unless (starts.findSome? fun start => probe start.1 start.2)
  along : (starts.map fun start => (start.1, start.2.place)) <+: places
  all : ∀ x ws, outcome = .done x ws → (starts.map fun start => (start.1, start.2.place)) = places
  failing : ∀ start ∈ starts, ∀ error,
    (∀ lower, ∃ ws, Rule.standard start.1.construct lower start.1 start.2 = .failed error ws) →
    ∃ ws, outcome = .failed error ws

namespace Outcome.Starts

variable {α β : Type} {ws : Workspace} {p q : List (Node × Place)}

/-- Nothing is started by an action of its own. -/
theorem nothing (outcome : Outcome Workspace α) : outcome.Starts [] (fun _ => outcome) [] :=
  ⟨fun _ => rfl, List.prefix_rfl, fun _ _ _ => rfl, nofun⟩

/-- Nothing is started by an action that gives up. -/
theorem giveUp (error : CompileError) (ws : Workspace) :
    (Outcome.failed (α := α) error ws).Starts p (fun _ => .failed error ws) [] :=
  ⟨fun _ => rfl, List.nil_prefix, nofun, nofun⟩

theorem bind {first : Action Workspace α} {firsts : Probe → Action Workspace α}
    {next : α → Action Workspace β} {nexts : Probe → α → Action Workspace β}
    {a : List (Node × Workspace)} (hfirst : (first ws).Starts p (fun probe => firsts probe ws) a)
    (hnext : ∀ x ws', first ws = .done x ws' →
      ∃ b, (next x ws').Starts q (fun probe => nexts probe x ws') b) :
    ∃ starts, ((first >>= next) ws).Starts (p ++ q)
      (fun probe => (firsts probe >>= nexts probe) ws) starts := by
  have hprobed := hfirst.probed
  have hfailing := hfirst.failing
  simp only [Action.bind_apply, hprobed]
  cases hdone : first ws with
  | done x ws' =>
      obtain ⟨b, hb⟩ := hnext x ws' hdone
      refine ⟨a ++ b, fun probe => ?_, ?_, fun y ws'' hlast => ?_,
        fun start hstart error hrule => ?_⟩
      · rw [List.findSome?_append]
        cases a.findSome? fun start => probe start.1 start.2 with
        | some fault => rfl
        | none => exact hb.probed probe
      · rw [List.map_append, hfirst.all x ws' hdone, List.prefix_append_right_inj]
        exact hb.along
      · rw [List.map_append, hfirst.all x ws' hdone, hb.all y ws'' hlast]
      · rcases List.mem_append.mp hstart with hold | hnew
        · obtain ⟨ws'', hfailed⟩ := hfailing start hold error hrule
          rw [hdone] at hfailed
          cases hfailed
        · exact hb.failing start hnew error hrule
  | failed error ws' =>
      refine ⟨a, fun probe => ?_, hfirst.along.trans (List.prefix_append p q), by rintro _ _ ⟨⟩, ?_⟩
      · cases a.findSome? fun start => probe start.1 start.2 <;> rfl
      · intro start hstart error' hrule
        obtain ⟨ws'', hfailed⟩ := hfailing start hstart error' hrule
        rw [hdone] at hfailed
        obtain ⟨rfl, rfl⟩ := Outcome.failed.inj hfailed
        exact ⟨ws', rfl⟩
  | fault fault =>
      refine ⟨a, fun probe => ?_, hfirst.along.trans (List.prefix_append p q), by rintro _ _ ⟨⟩, ?_⟩
      · cases a.findSome? fun start => probe start.1 start.2 <;> rfl
      · intro start hstart error' hrule
        obtain ⟨ws'', hfailed⟩ := hfailing start hstart error' hrule
        rw [hdone] at hfailed
        cases hfailed

/-- An objection inside a scope gets out of it, and so does a failure. -/
theorem within {state : FrameState} {body : FrameId → Action Workspace α}
    {bodies : Probe → FrameId → Action Workspace α} {starts : List (Node × Workspace)}
    (h : (body ⟨ws.scopes.nextSerial, state.scope⟩ (ws.entered state)).Starts p
      (fun probe => bodies probe ⟨ws.scopes.nextSerial, state.scope⟩ (ws.entered state)) starts) :
    (Workspace.within state body ws).Starts p
      (fun probe => Workspace.within state (bodies probe) ws) starts := by
  have hprobed := h.probed
  refine ⟨fun probe => ?_, h.along, fun x ws' hdone => ?_, fun start hstart error hrule => ?_⟩
  · rw [within_eq, within_eq, hprobed]
    cases starts.findSome? fun start => probe start.1 start.2 <;> rfl
  · obtain ⟨y, last⟩ := x
    obtain ⟨inside, frame, outer, hbody, -⟩ := within_done hdone
    exact h.all y inside hbody
  · obtain ⟨inside, hfailed⟩ := h.failing start hstart error hrule
    obtain ⟨after, houter, -⟩ := within_of_failed hfailed
    exact ⟨after, houter⟩

end Outcome.Starts

/-! ### Scripts -/

/-- The nodes that are lowered for some errands, and where. -/
def Errand.placed (list : List Errand) : List (Node × Place) :=
  (list.filterMap Errand.start?).flatMap fun child => child.1.placed child.2

theorem Errand.placed_append (p q : List Errand) : placed (p ++ q) = placed p ++ placed q := by
  rw [placed, List.filterMap_append, List.flatMap_append]
  rfl

theorem Errand.placed_singleton (errand : Errand) :
    placed [errand] = errand.start?.toList.flatMap fun child => child.1.placed child.2 := by
  rw [placed, List.filterMap_cons]
  cases errand.start? <;> rfl

/-- **An action on probed parts comes by the nodes of its list.** -/
theorem Scripted.starts {α : Type} {s : Scoping} {l : Ledger} {p : List Errand}
    {act : Lower → Action Workspace α} {post : α → Ledger → Prop} {lower : Lower}
    {others : Probe → Lower} (h : Scripted s l p act post)
    (hlower : ∀ node, lower.Accounted node)
    (hparts : ∀ node ws, ws.Prepared → ∃ starts, (lower node ws).Starts (node.placed ws.place)
      (fun probe => others probe node ws) starts)
    {o : Opening} {added : List PendingJump} {ws : Workspace} (hws : Accounts o s l added ws) :
    ∃ starts, (act lower ws).Starts (Errand.placed p) (fun probe => act (others probe) ws)
      starts := by
  induction h generalizing o added ws with
  | own | takeSlot => exact ⟨[], .nothing _⟩
  | mono _ _ ih => exact ih hws
  | bind hfirst _ ihfirst ihnext =>
      obtain ⟨a, ha⟩ := ihfirst hws
      rw [Errand.placed_append]
      refine ha.bind fun x ws' hdone => ?_
      have haccounts := hfirst.accounted hlower hws
      rw [hdone] at haccounts
      obtain ⟨l', added', hmid, hws'⟩ := haccounts
      exact ihnext x l' hmid hws'
  | fail | overfull => exact ⟨[], .giveUp _ _⟩
  | @part s l node =>
      have hplace : ws.place = ⟨l.depth, s.level?⟩ := by rw [place, hws.depth, hws.level_eq]
      have hpart := hparts node ws hws.prepared
      rw [hplace] at hpart
      rw [Errand.placed_singleton]
      simpa [Errand.start?] using hpart
  | within state _ _ hspot _ ih =>
      obtain ⟨starts, hstarts⟩ := ih _ rfl (hws.enter state hspot)
      exact ⟨starts, hstarts.within⟩
  | @function s l params node body _ _ ih =>
      obtain ⟨starts, hstarts⟩ := ih ⟨_, .function⟩ rfl
        (hws.enterFunction params.length.toUInt16)
      -- The slots of the parameters start nothing.
      have hplaced : Errand.placed ((params.map fun _ => .slot) ++ [.part node (.ofBody node)]) =
          Errand.placed [.function params node] := by
        have hslots : Errand.placed (params.map fun _ => Errand.slot) = [] := by
          simp [Errand.placed, Errand.start?]
        rw [Errand.placed_append, hslots]
        rfl
      rw [hplaced] at hstarts
      have hwithin : (Workspace.within (.function ws.code.routines.size 0) (fun _ => body lower)
          (Layout.opened ws params.length.toUInt16)).Starts (Errand.placed [.function params node])
          (fun probe => Workspace.within (.function ws.code.routines.size 0)
            (fun _ => body (others probe)) (Layout.opened ws params.length.toUInt16)) starts :=
        hstarts.within
      obtain ⟨all, hall⟩ := hwithin.bind fun x ws' _ => ⟨[], .nothing ((do
        let id ← onCode (Assembly.closeFunction (x.2.nextSlot?.getD params.length.toUInt16))
        Workspace.emitWith .makeLambda (.function id.toUInt32)) ws')⟩
      rw [List.append_nil] at hall
      exact ⟨all, hall⟩

/-! ### Nodes -/

/-- An objection to the lowering of a node gets through, and so does a failure. -/
theorem supervise_starts {settings : Settings} {node : Node} {lowering : Action Workspace Unit}
    {others : Probe → Action Workspace Unit} {ws : Workspace} {p : List (Node × Place)}
    (h : ∀ line, ∃ starts, (lowering (ws.atLine line)).Starts p
      (fun probe => others probe (ws.atLine line)) starts) :
    ∃ starts, (Contract.supervise settings node lowering ws).Starts p
      (fun probe => Contract.supervise settings node (others probe) ws) starts := by
  obtain ⟨starts, hstarts⟩ := h (Contract.startLine settings node ws.code.line)
  have hprobed := hstarts.probed
  refine ⟨starts, fun probe => ?_, hstarts.along, fun u ws' hdone => ?_,
    fun start hstart error hrule => ?_⟩
  · simp only [Contract.supervise_apply]
    rw [show others probe (ws.atLine _) = _ from hprobed probe]
    cases starts.findSome? fun start => probe start.1 start.2 <;> rfl
  · rw [Contract.supervise_apply] at hdone
    split at hdone
    · exact hstarts.all _ _ ‹_›
    · cases hdone
    · cases hdone
  · obtain ⟨inside, hfailed⟩ := hstarts.failing start hstart error hrule
    rw [Contract.supervise_apply, show lowering (ws.atLine _) = _ from hfailed]
    exact ⟨_, rfl⟩

/-- **The nodes of a tree are lowered in preorder,** each at the place that the tree gives it. -/
theorem lowerWithin_starts (settings : Settings) (room : Nat) (node : Node) (ws : Workspace)
    (hws : ws.Prepared) :
    ∃ starts, (lowerWithin .standard settings room node ws).Starts (node.placed ws.place)
      (fun probe => lowerWithin (.probed .standard probe) settings room node ws) starts := by
  induction room generalizing node ws with
  | zero => exact ⟨[], .giveUp _ _⟩
  | succ room ih =>
      refine supervise_starts fun line => ?_
      obtain ⟨starts, hstarts⟩ := (Rule.standard_serves node ws.place).starts
        (lowerWithin_accounted settings room) ih (hws.atLine line).accounts
      refine ⟨(node, ws.atLine line) :: starts, fun probe => ?_, ?_, fun u ws' hdone => ?_, ?_⟩
      · rw [List.findSome?_cons]
        show Outcome.unless _ (probe node (ws.atLine line)) = _
        cases probe node (ws.atLine line) with
        | some objection => rfl
        | none => exact hstarts.probed probe
      · rw [Node.placed_eq, List.map_cons]
        exact List.cons_prefix_cons.mpr ⟨rfl, hstarts.along⟩
      · rw [Node.placed_eq, List.map_cons, hstarts.all u ws' hdone]
        rfl
      · intro start hstart error hrule
        rcases List.mem_cons.mp hstart with rfl | hpart
        · exact hrule _
        · exact hstarts.failing start hpart error hrule

/-! ### Stray operands -/

/-- In a loop there are no fewer operands on the stack than where it starts. -/
def Place.Sane (place : Place) : Prop :=
  ∀ level ∈ place.level?, level ≤ place.depth

namespace Place.Sane

variable {place : Place}

theorem above (h : place.Sane) (operands : Nat) : (place.above operands).Sane :=
  fun level hlevel => Nat.le_add_right_of_le (h level hlevel)

theorem inLoop (place : Place) (operands : Nat) : (place.inLoop operands).Sane := by
  rintro level ⟨⟩
  exact Nat.le_refl _

theorem inTransform (place : Place) (operands : Nat) : (place.inTransform operands).Sane := nofun

end Place.Sane

/-- A part is lowered where a node may stand. -/
def Errand.Sane : Errand → Prop
  | part _ place => place.Sane
  | slot | function .. => True

theorem Errand.Sane.start {errand : Errand} (h : errand.Sane) {child : Node × Place}
    (hstart : errand.start? = some child) : child.2.Sane := by
  cases errand with
  | part node place =>
      cases hstart
      exact h
  | slot => cases hstart
  | function params body =>
      cases hstart
      exact nofun

theorem Node.errands_sane {place : Place} (h : place.Sane) (node : Node) :
    ∀ errand ∈ node.errands place, errand.Sane := by
  cases node with
  | call callee arguments =>
      simp only [errands, List.forall_mem_cons, List.mem_mapIdx]
      refine ⟨h, ?_⟩
      rintro errand ⟨i, hi, rfl⟩
      exact h.above (1 + i)
  | ifChain arms otherwise =>
      simp only [errands, List.mem_append, List.mem_flatMap, List.mem_map, List.mem_cons,
        List.not_mem_nil, or_false]
      rintro errand (⟨arm, -, rfl | rfl⟩ | ⟨body, -, rfl⟩) <;> exact h
  | object fields =>
      simp only [errands, List.forall_mem_map]
      exact fun _ _ => h.above 1
  | transform mode source shape =>
      cases mode <;> simp [errands, Errand.Sane, h, Place.Sane.inTransform]
  | tryCatch body binding handler => cases binding <;> simp [errands, Errand.Sane, h]
  | _ => simp [errands, Errand.Sane, h, h.above, Place.Sane.inLoop]

theorem Node.placed_sane {node : Node} {place : Place} (h : place.Sane) :
    ∀ entry ∈ node.placed place, entry.2.Sane := by
  fun_induction Node.placed node place with
  | case1 node place ih =>
      intro entry hentry
      rcases List.mem_cons.mp hentry with rfl | hpart
      · exact h
      · obtain ⟨child, -, hchild⟩ := List.mem_flatMap.mp hpart
        obtain ⟨errand, herrand, hstart⟩ := List.mem_filterMap.mp child.property
        exact ih child ((errands_sane h node errand herrand).start hstart) entry hchild

/-- Whether the error is that of a jump to a loop with stray operands on the stack. -/
def CompileError.isStray : CompileError → Bool
  | strayOperands .. => true
  | _ => false

/-- The action does not fail for stray operands. -/
def Straight {α : Type} (action : Action Workspace α) : Prop :=
  ∀ ws error ws', action ws = .failed error ws' → error.isStray = false

namespace Straight

variable {α β : Type}

theorem pure (x : α) : Straight (Pure.pure x : Action Workspace α) := by
  intro ws error ws' hfailed
  cases hfailed

theorem fail {error : CompileError} (h : error.isStray = false) :
    Straight (Action.fail error : Action Workspace α) := by
  intro ws error' ws' hfailed
  obtain ⟨rfl, -⟩ := Outcome.failed.inj hfailed
  exact h

theorem bind {first : Action Workspace α} {next : α → Action Workspace β}
    (hfirst : Straight first) (hnext : ∀ x, Straight (next x)) : Straight (first >>= next) := by
  intro ws error ws' hfailed
  rw [Action.bind_apply] at hfailed
  split at hfailed
  · exact hnext _ _ _ _ hfailed
  · obtain ⟨rfl, rfl⟩ := Outcome.failed.inj hfailed
    exact hfirst _ _ _ ‹_›
  · cases hfailed

theorem emit (op : Opcode) : Straight (Workspace.emit op) :=
  fun _ _ _ hfailed => absurd hfailed emitWith_ne_failed

theorem jump (op : Opcode) : Straight (Workspace.jump op) :=
  fun _ _ _ hfailed => absurd hfailed Books.jump_ne_failed

theorem jumpBack (target : Position) (level : Nat) :
    Straight (Workspace.jumpBack target level) := by
  intro ws error ws' hfailed
  rcases Books.jumpBack_eq target level ws with ⟨cause, hinternal⟩ | ⟨-, hemit⟩
  · rw [hinternal] at hfailed
    obtain ⟨rfl, -⟩ := Outcome.failed.inj hfailed
    rfl
  · rw [hemit] at hfailed
    exact absurd hfailed emitWith_ne_failed

theorem leaveHandlers (scope : Scope) : Straight (Workspace.leaveHandlers scope) := by
  have hcount : Straight (guardsWithin scope) := by
    intro ws error ws' hfailed
    cases hfailed
  refine bind hcount fun count => ?_
  generalize List.replicate count Opcode.tryEnd = ops
  induction ops with
  | nil => exact pure ()
  | cons op rest ih => exact bind (emit op) fun _ => ih

theorem enclosingLoop (span : Span) : Straight (Rule.enclosingLoop span) := by
  refine bind ?_ fun frame => ?_
  · intro ws error ws' hfailed
    simp only [onScopes, ScopeStack.enclosing] at hfailed
    split at hfailed
    · cases hfailed
    · rename_i hnone
      split at hnone
      · cases hnone
      · obtain ⟨rfl, -⟩ := Outcome.failed.inj hnone
        obtain ⟨rfl, -⟩ := Outcome.failed.inj hfailed
        rfl
    · cases hfailed
  · split
    · exact pure _
    · exact fail rfl

end Straight

/-- A loop that can be left is found. -/
theorem Rule.enclosingLoop_done {ws : Workspace} {level : Nat} (h : ws.level? = some level)
    (span : Span) : ∃ target, enclosingLoop span ws = .done (target, level) ws := by
  obtain ⟨frame, hframe, hlevel⟩ := Option.bind_eq_some_iff.mp h
  obtain ⟨⟨target, level'⟩, hentry, rfl⟩ := Option.map_eq_some_iff.mp hlevel
  refine ⟨target, ?_⟩
  simp only [enclosingLoop, Action.bind_apply, onScopes, ScopeStack.enclosing, hframe]
  rw [hentry]
  rfl

/-- What becomes of a jump to the loop: if control can get there with another depth than that of the
loop, it is told so. -/
theorem Rule.leaveForLoop_apply {ws : Workspace} {level : Nat} (h : ws.level? = some level)
    (construct : Construct) (span : Span) :
    leaveForLoop construct span ws =
      if ws.code.reachable = true ∧ ws.code.depth ≠ level then
        .failed (.strayOperands construct level ws.code.depth span) ws
      else
        (resetDepth level >>= fun _ => leaveHandlers .loop) ws := by
  obtain ⟨target, hdone⟩ := enclosingLoop_done h span
  rw [leaveForLoop, Action.bind_apply, hdone]
  simp only [depth_bind, reachable_bind, Bool.and_eq_true, decide_eq_true_eq]
  split <;> rfl

/-- Behind that check there is nothing left to say about stray operands. -/
theorem Rule.standard_leaves {node : Node}
    (hnode : node.construct = .breakLoop ∨ node.construct = .continueLoop) :
    ∃ rest : Action Workspace Unit, Straight rest ∧ ∀ lower,
      Rule.standard node.construct lower node =
        (leaveForLoop node.construct node.span >>= fun _ => rest) := by
  cases node <;> try (rcases hnode with hnode | hnode <;> cases hnode)
  · refine ⟨_, .bind (.jump .jump) fun label => ?_, fun lower => rfl⟩
    intro ws error ws' hfailed
    cases hfailed
  · exact ⟨_, .bind (.enclosingLoop _) fun entry => .jumpBack entry.1 entry.2, fun lower => rfl⟩

section

variable {node : Node} {ws : Workspace} {level : Nat}

theorem Rule.standard_stray (hnode : node.construct = .breakLoop ∨ node.construct = .continueLoop)
    (hlevel : ws.level? = some level) (hreachable : ws.code.reachable = true)
    (hdepth : ws.code.depth ≠ level) (lower : Lower) :
    Rule.standard node.construct lower node ws =
      .failed (.strayOperands node.construct level ws.code.depth node.span) ws := by
  obtain ⟨rest, -, hrule⟩ := standard_leaves hnode
  rw [hrule, Action.bind_apply, leaveForLoop_apply hlevel, if_pos ⟨hreachable, hdepth⟩]

theorem Rule.standard_straight
    (hnode : node.construct = .breakLoop ∨ node.construct = .continueLoop)
    (hlevel : ws.level? = some level)
    (hfits : ¬(ws.code.reachable = true ∧ ws.code.depth ≠ level)) {lower : Lower}
    {error : CompileError} {ws' : Workspace}
    (hfailed : Rule.standard node.construct lower node ws = .failed error ws') :
    error.isStray = false := by
  obtain ⟨rest, hrest, hrule⟩ := standard_leaves hnode
  have hreset : Straight (resetDepth level) := by
    intro ws error ws' hfailed
    cases hfailed
  have hgone : Straight ((resetDepth level >>= fun _ => leaveHandlers .loop) >>= fun _ => rest) :=
    .bind (.bind hreset fun _ => .leaveHandlers .loop) fun _ => hrest
  refine hgone ws error ws' ?_
  rw [← hfailed, hrule, Action.bind_apply, Action.bind_apply (leaveForLoop _ _),
    leaveForLoop_apply hlevel, if_neg hfits]

/-- Nor is it the contract of a node that diverges that has to do with stray operands. -/
theorem Contract.check_straight (settings : Settings) {node : Node} (height pushes start : Nat)
    (hbalance : node.construct.balance = .diverges) :
    Straight (check settings node height pushes start) := by
  have hscopes : Straight (checkScopes node.construct height pushes) :=
    fun _ _ _ hfailed => absurd hfailed checkScopes_ne_failed
  refine .bind hscopes fun _ => ?_
  unfold checkBalance
  rw [hbalance]
  intro ws error ws' hfailed
  cases hfailed

/-- **When a jump to a loop fails for stray operands:** if control can get there, and there are any
above those that the loop starts with. -/
theorem lowerWithin_stray_iff (settings : Settings) (room : Nat)
    (hnode : node.construct = .breakLoop ∨ node.construct = .continueLoop) {k : Nat}
    (hlevel : ws.level? = some level) (hdepth : ws.code.depth = level + k) (construct : Construct)
    (expected found : Nat) (span : Span) :
    (∃ ws', lowerWithin .standard settings (room + 1) node ws =
      .failed (.strayOperands construct expected found span) ws') ↔
    ws.code.reachable = true ∧ 0 < k ∧ construct = node.construct ∧ ws.level? = some expected ∧
      found = expected + k ∧ span = node.span := by
  have hlower : lowerWithin .standard settings (room + 1) node ws = Contract.supervise settings node
    (Rule.standard node.construct (lowerWithin .standard settings room) node) ws := rfl
  let ws₁ := ws.atLine (Contract.startLine settings node ws.code.line)
  have hlevel₁ : ws₁.level? = some level := hlevel
  rw [hlower, Contract.supervise_apply]
  by_cases hstray : ws.code.reachable = true ∧ ws.code.depth ≠ level
  · rw [show Rule.standard node.construct _ node (ws.atLine _) = _ from
      Rule.standard_stray hnode hlevel₁ hstray.1 hstray.2 _]
    constructor
    · rintro ⟨ws', hfailed⟩
      obtain ⟨rfl, rfl, rfl, rfl⟩ := CompileError.strayOperands.inj (Outcome.failed.inj hfailed).1
      exact ⟨hstray.1, by omega, rfl, hlevel, hdepth, rfl⟩
    · rintro ⟨-, -, rfl, hexpected, rfl, rfl⟩
      obtain rfl := Option.some.inj (hlevel.symm.trans hexpected)
      rw [← hdepth]
      exact ⟨_, rfl⟩
  · constructor
    · rintro ⟨ws', hfailed⟩
      have hstraight :
          (CompileError.strayOperands construct expected found span).isStray = false := by
        split at hfailed
        · have hbalance : node.construct.balance = .diverges := by
            rcases hnode with hnode | hnode <;> rw [hnode] <;> rfl
          exact Contract.check_straight settings _ _ _ hbalance _ _ _ hfailed
        · obtain ⟨rfl, -⟩ := Outcome.failed.inj hfailed
          exact Rule.standard_straight hnode hlevel₁ hstray ‹_›
        · cases hfailed
      cases hstraight
    · rintro ⟨hreachable, hpositive, -⟩
      exact absurd ⟨hreachable, by omega⟩ hstray

end

/-! ### Queries -/

namespace Compiler

theorem start_prepared (settings : Settings) (traced : Bool) :
    (start ⟨.standard, settings⟩ traced).Prepared :=
  ⟨Nat.zero_lt_one, ⟨nofun, nofun⟩, nofun⟩

/-- What is done at the end of the main function, given what its frame remembered. -/
def ending (frame : FrameState) : Action Workspace Unit := do
  let height ← onScopes (Action.read ScopeStack.height)
  if height ≠ 0 then
    Action.fail (.internal (.scopesLeftOpen height))
  onCode (Action.modify fun code => code.reserveLocals (frame.nextSlot?.getD 0))

theorem lowerMain_eq (compiler : Compiler) (root : Node) :
    compiler.lowerMain root = (within (.function 0 0)
      (fun _ => (lower compiler.registry compiler.settings).body root) >>= fun result =>
      ending result.2) := rfl

/-- A query is lowered along its places, as the body of the main function. -/
theorem lowerMain_starts (settings : Settings) (traced : Bool) (root : Node) :
    ∃ starts, (lowerMain ⟨.standard, settings⟩ root (start ⟨.standard, settings⟩ traced)).Starts
      (root.placed (.ofBody root))
      (fun probe => lowerMain ⟨.probed .standard probe, settings⟩ root
        (start ⟨.standard, settings⟩ traced)) starts := by
  obtain ⟨starts, hstarts⟩ := (Scripted.body root).starts
    (lowerWithin_accounted settings settings.maxDepth)
    (lowerWithin_starts settings settings.maxDepth)
    ((start_prepared settings traced).accounts.enter (.function 0 0) nofun)
  rw [Errand.placed_singleton, Errand.start?, Option.toList_some, List.flatMap_singleton] at hstarts
  have hwithin : (within (.function 0 0) (fun _ => (lower .standard settings).body root)
      (start ⟨.standard, settings⟩ traced)).Starts (root.placed (.ofBody root))
      (fun probe => within (.function 0 0)
        (fun _ => (lower (.probed .standard probe) settings).body root)
        (start ⟨.standard, settings⟩ traced)) starts := hstarts.within
  obtain ⟨all, hall⟩ := hwithin.bind fun result ws' _ => ⟨[], .nothing (ending result.2 ws')⟩
  rw [List.append_nil] at hall
  exact ⟨all, hall⟩

/-- A probe has no say in whether there is a rule. -/
theorem firstObjection?_probed (settings : Settings) (probe : Probe) (root : Node) :
    firstObjection? ⟨.probed .standard probe, settings⟩ root =
      firstObjection? ⟨.standard, settings⟩ root := rfl

theorem compile_of_objection {compiler : Compiler} {root : Node} {error : CompileError}
    (h : compiler.firstObjection? root = some error) :
    compiler.compile root = .error (.error error) := by
  rw [compile, run, h]
  rfl

/-- What is compiled if nothing is wrong with the tree as such. -/
theorem compile_apply {compiler : Compiler} {root : Node}
    (h : compiler.firstObjection? root = none) :
    compiler.compile root = match compiler.lowerMain root (compiler.start false) with
      | .done _ ws => .ok ws.code.toProgram
      | .failed error _ => .error (.error error)
      | .fault fault => .error (.fault fault) := by
  rw [compile, run, h]
  dsimp only
  cases compiler.lowerMain root (compiler.start false) <;> rfl

end Compiler

/-- **The depth of the operand stack is that of the tree.**  Lowering a query starts with nodes in
workspaces that a probe tells of: it is heard about each of them in turn, and an objection to one is
all that comes of the query.  These are the nodes of the tree in preorder, up to where lowering
ends, and each of them is started with as many operands on the stack as lie there on account of the
nodes around it.

So a `break` or `continue` inside a loop fails for stray operands if and only if control can get to
it and the nodes up to the loop have left some there, and the error tells how many. -/
theorem depth_is_structural (settings : Settings) (root : Node) :
    ∃ starts : List (Node × Workspace),
      (∀ probe : Probe, Compiler.compile ⟨.probed .standard probe, settings⟩ root =
        match starts.findSome? fun start => probe start.1 start.2 with
        | some fault => .error (.fault fault)
        | none => Compiler.compile ⟨.standard, settings⟩ root) ∧
      (starts.map fun start => (start.1, start.2.place)) <+: root.placed (.ofBody root) ∧
      (∀ program, Compiler.compile ⟨.standard, settings⟩ root = .ok program →
        (starts.map fun start => (start.1, start.2.place)) = root.placed (.ofBody root)) ∧
      ∀ node ws k, (node, ws) ∈ starts →
        node.construct = .breakLoop ∨ node.construct = .continueLoop → ws.place.stray? = some k →
        (∀ room construct expected found span,
          (∃ ws', lowerWithin .standard settings (room + 1) node ws =
            .failed (.strayOperands construct expected found span) ws') ↔
          ws.code.reachable = true ∧ 0 < k ∧ construct = node.construct ∧
            ws.level? = some expected ∧ found = expected + k ∧ span = node.span) ∧
        (ws.code.reachable = true → 0 < k → ∃ expected,
          Compiler.compile ⟨.standard, settings⟩ root =
            .error (.error (.strayOperands node.construct expected (expected + k) node.span))) := by
  cases hobjection : Compiler.firstObjection? ⟨.standard, settings⟩ root with
  | some error =>
      rw [Compiler.compile_of_objection hobjection]
      refine ⟨[], fun probe => ?_, List.nil_prefix, nofun, nofun⟩
      exact Compiler.compile_of_objection
        ((Compiler.firstObjection?_probed settings probe root).trans hobjection)
  | none =>
      obtain ⟨starts, hstarts⟩ := Compiler.lowerMain_starts settings false root
      have hcompile := Compiler.compile_apply hobjection
      refine ⟨starts, fun probe => ?_, hstarts.along, fun program hok => ?_, ?_⟩
      · rw [Compiler.compile_apply ((Compiler.firstObjection?_probed settings probe root).trans
          hobjection), hcompile]
        rw [show Compiler.lowerMain _ root
          (Compiler.start ⟨.probed .standard probe, settings⟩ false) = _ from hstarts.probed probe]
        cases starts.findSome? fun start => probe start.1 start.2 <;> rfl
      · rw [hcompile] at hok
        split at hok
        · exact hstarts.all _ _ ‹_›
        · cases hok
        · cases hok
      · intro node ws k hstart hnode hstray
        obtain ⟨level, hlevel, hk⟩ := Option.map_eq_some_iff.mp hstray
        have hplace : (node, ws.place) ∈ root.placed (.ofBody root) :=
          hstarts.along.subset (List.mem_map_of_mem hstart)
        have hsane : (Place.ofBody root).Sane := nofun
        have hle : level ≤ ws.place.depth := Node.placed_sane hsane _ hplace level hlevel
        have hdepth : ws.place.depth = level + k := by omega
        refine ⟨fun room => lowerWithin_stray_iff settings room hnode hlevel hdepth,
          fun hreachable hpositive => ?_⟩
        have hne : ws.place.depth ≠ level := by omega
        obtain ⟨ws', hfailed⟩ := hstarts.failing (node, ws) hstart _ fun lower =>
          ⟨ws, Rule.standard_stray hnode hlevel hreachable hne lower⟩
        rw [hcompile, hfailed]
        exact ⟨level, by rw [← hdepth]; rfl⟩

/-- A loop in which a `break` is to become the item of a list. -/
def breakInList : Node := .whileLoop (.param "p" {}) (.list [.breakLoop {}] {}) {}

/-- A probe objects to the `break`, so that the lowering comes by it; and it fails since the list
lies on the stack. -/
theorem breakInList_strays : ∃ expected, Compiler.compile ⟨.standard, {}⟩ breakInList =
    .error (.error (.strayOperands .breakLoop expected (expected + 1) {})) := by
  obtain ⟨starts, hprobed, -, -, hjump⟩ := depth_is_structural {} breakInList
  let probe : Probe := fun node ws =>
    if node.construct = .breakLoop ∧ node.span = {} ∧ ws.place.stray? = some 1 ∧
      ws.code.reachable = true then some .overflow else none
  have hfault : Compiler.compile ⟨.probed .standard probe, {}⟩ breakInList ≠
      Compiler.compile ⟨.standard, {}⟩ breakInList := by decide +kernel
  cases hfound : starts.findSome? fun start => probe start.1 start.2 with
  | none =>
      refine absurd ?_ hfault
      rw [hprobed probe, hfound]
  | some fault =>
      obtain ⟨⟨node, ws⟩, hstart, hprobe⟩ := List.exists_of_findSome?_eq_some hfound
      obtain ⟨⟨hnode, hspan, hstray, hreachable⟩, -⟩ := Option.ite_none_right_eq_some.mp hprobe
      obtain ⟨-, hfails⟩ := hjump node ws 1 hstart (.inl hnode) hstray
      rw [hnode, hspan] at hfails
      exact hfails hreachable Nat.one_pos

end QueryCompiler
