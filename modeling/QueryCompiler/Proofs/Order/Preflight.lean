/-
A tree is inspected and lowered in the same order.

Before a tree is lowered it is walked once, looking for a node that has no rule or is
too deep.  The lowering makes the same two checks, when it comes to a node, with all
the other errors in between.  Both come to the nodes in preorder: the walk because it
puts the parts of a node in front of everything else, the lowering because every rule
follows the plan of its node.  So the lowering never meets an objection that the walk
has not met first.
-/
import QueryCompiler.Proofs.Order.Rules
import QueryCompiler.Proofs.Order.Walk
import QueryCompiler.Proofs.Progress.Outcomes

namespace QueryCompiler

/-! ### Objections -/

/-- The outcome heeds the objection there is, if any: it is done only if there is none, and if it
fails with an objection then with this one. -/
def Outcome.Heeds {σ α : Type} (objection? : Option CompileError) : Outcome σ α → Prop
  | .done _ _ => objection? = none
  | .failed error _ => error.isObjection = true → objection? = some error
  | .fault _ => True

namespace Outcome.Heeds

variable {σ α β : Type} {s : σ}

theorem of_ends {outcome : Outcome σ α} {post : σ → Prop} (h : outcome.Ends post) :
    outcome.Heeds none := by
  cases outcome with
  | done x t => rfl
  | failed error t =>
      intro hobjection
      rw [h.1] at hobjection
      cases hobjection
  | fault fault => trivial

theorem bind {first : Action σ α} {next : α → Action σ β} {a b : Option CompileError}
    (hfirst : (first s).Heeds a) (hnext : ∀ x t, (next x t).Heeds b) :
    ((first >>= next) s).Heeds (a.or b) := by
  rw [Action.bind_apply]
  cases hdone : first s with
  | done x t =>
      rw [hdone] at hfirst
      obtain rfl : a = none := hfirst
      exact hnext x t
  | failed error t =>
      rw [hdone] at hfirst
      intro hobjection
      rw [hfirst hobjection]
      rfl
  | fault fault => trivial

end Outcome.Heeds

namespace Workspace

theorem pop_ends (id : FrameId) (ws : Workspace) :
    (onScopes (ScopeStack.pop id) ws).Ends fun _ => True := by
  obtain ⟨code, scopes, underway⟩ := ws
  simp only [onScopes, ScopeStack.pop]
  cases scopes.frames with
  | nil => exact ⟨rfl, trivial⟩
  | cons frame outer =>
      dsimp only
      by_cases hserial : frame.serial = id.serial
      · rw [if_pos hserial]
        trivial
      · rw [if_neg hserial]
        exact ⟨rfl, trivial⟩

theorem within_heeds {α : Type} {state : FrameState} {body : FrameId → Action Workspace α}
    {objection? : Option CompileError} (h : ∀ id ws, (body id ws).Heeds objection?)
    (ws : Workspace) : (within state body ws).Heeds objection? := by
  have hbody := h ⟨ws.scopes.nextSerial, state.scope⟩ (ws.entered state)
  rw [within_eq]
  cases hdone : body ⟨ws.scopes.nextSerial, state.scope⟩ (ws.entered state) with
  | done x inside =>
      rw [hdone] at hbody
      obtain rfl : objection? = none := hbody
      exact (Outcome.Heeds.of_ends (pop_ends _ inside)).bind fun _ _ => rfl
  | failed error inside =>
      rw [hdone] at hbody
      obtain ⟨closed, after, hpop⟩ := pop_attempt ⟨ws.scopes.nextSerial, state.scope⟩ inside
      simp only [Action.bind_apply, hpop]
      exact hbody
  | fault fault => trivial

end Workspace

/-- **An orderly action heeds the first objection to its parts,** if their lowering heeds the
objections to them. -/
theorem Orderly.heeds {α : Type} {K : Assembly → Assembly → Prop} {own : Option FrameId}
    {plan : Plan} {act : Lower → Action Workspace α} {lower : Lower}
    {inspect : Node → Option CompileError} (h : Orderly K own plan act)
    (hl : ∀ node ∈ plan.nodes, ∀ ws, (lower node ws).Heeds (inspect node)) (ws : Workspace) :
    (act lower ws).Heeds (plan.nodes.findSome? inspect) := by
  induction h generalizing ws with
  | own h => exact .of_ends (h ws)
  | part node =>
      have hnode := hl node List.mem_cons_self ws
      simpa [Plan.nodes] using hnode
  | bind _ _ ihfirst ihnext =>
      simp only [Plan.nodes_append, List.mem_append] at hl
      rw [Plan.nodes_append, List.findSome?_append]
      exact (ihfirst (fun node hnode => hl node (.inl hnode)) ws).bind fun x t =>
        ihnext x (fun node hnode => hl node (.inr hnode)) t
  | fail h =>
      intro hobjection
      rw [h] at hobjection
      cases hobjection
  | within state _ ih =>
      simp only [Plan.nodes, List.append_nil] at hl ⊢
      exact Workspace.within_heeds (fun id => ih id hl) ws

/-! ### Lowering -/

namespace Registry

/-- Withholding constructs leaves the standard rules of the others. -/
theorem rule?_foldl_withhold (withheld : List Construct) (construct : Construct) :
    (withheld.foldl withhold standard).rule? construct =
      if construct ∈ withheld then none else some (Rule.standard construct) := by
  induction withheld using List.reverseRecOn with
  | nil => rfl
  | append_singleton rest last ih =>
      rw [List.foldl_append]
      simp only [List.foldl_cons, List.foldl_nil, withhold, ih, List.mem_append,
        List.mem_singleton]
      by_cases hlast : construct = last
      · simp [hlast]
      · simp [hlast]

end Registry

namespace Compiler

variable {compiler : Compiler} {root node : Node}

/-- The objection to the first node of a tree, in preorder, to which there is one.  The root of the
tree is at the given depth. -/
def inspect (compiler : Compiler) (root : Node) (depth : Nat) : Option CompileError :=
  (root.preorder depth).findSome? fun entry => compiler.objection? entry.1 entry.2

theorem inspect_eq (node : Node) (depth : Nat) :
    compiler.inspect node depth =
      (compiler.objection? node depth).or
        (node.children.findSome? fun child => compiler.inspect child (depth + 1)) := by
  have hparts : ∀ nodes : List Node,
      (nodes.flatMap fun child => child.preorder (depth + 1)).findSome?
        (fun entry => compiler.objection? entry.1 entry.2) =
      nodes.findSome? fun child => compiler.inspect child (depth + 1) := by
    intro nodes
    induction nodes with
    | nil => rfl
    | cons child rest ih =>
        rw [List.flatMap_cons, List.findSome?_append, ih, List.findSome?_cons, inspect]
        cases (child.preorder (depth + 1)).findSome? _ <;> rfl
  rw [inspect, Node.preorder_eq, List.findSome?_cons, hparts]
  cases compiler.objection? node depth <;> rfl

theorem firstObjection?_eq (root : Node) :
    compiler.firstObjection? root = compiler.inspect root 1 := by
  rw [firstObjection?, Node.Walk.findSome?_start, inspect]

/-- The rules a registry has are the standard ones. -/
def Standard (compiler : Compiler) : Prop :=
  ∀ construct rule, compiler.registry.rule? construct = some rule → rule = Rule.standard construct

theorem supervise_heeds {settings : Settings} {lowering : Action Workspace Unit}
    {objection? : Option CompileError} (h : ∀ ws, (lowering ws).Heeds objection?)
    (ws : Workspace) : (Contract.supervise settings node lowering ws).Heeds objection? := by
  obtain ⟨line, height, pushes, start, heq⟩ :=
    Contract.supervise_eq settings node lowering ws
  have hlowering := h (ws.atLine line)
  rw [heq]
  cases hdone : lowering (ws.atLine line) with
  | done u inside =>
      rw [hdone] at hlowering
      obtain rfl : objection? = none := hlowering
      have hcheck : Tends Assembly.Continues none
          (Contract.check settings node height pushes start) :=
        Contract.check_tends settings node height pushes start
      exact .of_ends (hcheck _)
  | failed error inside =>
      rw [hdone] at hlowering
      exact hlowering
  | fault fault => trivial

/-- **The lowering heeds what an inspection finds,** wherever in a tree it is. -/
theorem lowerWithin_heeds (hstandard : compiler.Standard) (room : Nat) :
    ∀ (node : Node) (depth : Nat) (ws : Workspace), depth + room = compiler.settings.maxDepth + 1 →
      (lowerWithin compiler.registry compiler.settings room node ws).Heeds
        (compiler.inspect node depth) := by
  induction room with
  | zero =>
      intro node depth ws hdepth
      rw [inspect_eq, objection?, lowerWithin]
      dsimp only
      cases compiler.registry.ruleFor node.construct node.span with
      | error error => exact fun _ => rfl
      | ok rule =>
          dsimp only
          rw [if_pos (by omega)]
          exact fun _ => rfl
  | succ room ih =>
      intro node depth ws hdepth
      rw [inspect_eq, objection?, lowerWithin]
      dsimp only
      cases hrule : compiler.registry.ruleFor node.construct node.span with
      | error error => exact fun _ => rfl
      | ok rule =>
          dsimp only
          rw [if_neg (by omega), Option.none_or, ← Node.nodes_plan]
          obtain rfl : rule = Rule.standard node.construct := by
            refine hstandard node.construct rule ?_
            unfold Registry.ruleFor at hrule
            split at hrule
            · rename_i hrule'
              rw [hrule', Except.ok.inj hrule]
            · cases hrule
          refine supervise_heeds (fun ws => ?_) ws
          have horderly : Orderly Assembly.KeepsLine none node.plan
              fun lower => Rule.standard node.construct lower node := Rule.standard_orderly node
          exact horderly.heeds (fun child _ ws => ih child (depth + 1) ws (by omega)) ws

/-- What is done for the main function, besides lowering the query. -/
theorem lowerMain_orderly (compiler : Compiler) (root : Node) :
    ∃ act, compiler.lowerMain root = act (lower compiler.registry compiler.settings) ∧
      Orderly Assembly.Continues none (.scope .function (.parts [root]) .nothing) act := by
  refine ⟨fun lower =>
    Workspace.within (.function 0 0) (fun _ => lower.body root) >>= fun result => (do
      let height ← Workspace.onScopes (Action.read ScopeStack.height)
      if height ≠ 0 then
        Action.fail (.internal (.scopesLeftOpen height))
      Workspace.onCode (Action.modify fun code =>
        code.reserveLocals (result.2.nextSlot?.getD 0))), rfl, ?_⟩
  refine .bind (.within (.function 0 0) fun _ => .body root) fun result =>
    .own ((Tends.readScopes _).bind fun height => ?_)
  have hreserve : Tends Assembly.Continues none (Workspace.onCode (Action.modify fun code =>
      code.reserveLocals (result.2.nextSlot?.getD 0))) :=
    .onCode fun code => Assembly.modifyCurrent_continues code fun _ => rfl
  exact .ite ((Tends.fail rfl).bind fun _ => hreserve) hreserve

theorem lowerMain_heeds (hstandard : compiler.Standard) (root : Node) (ws : Workspace) :
    (compiler.lowerMain root ws).Heeds (compiler.inspect root 1) := by
  obtain ⟨act, hact, horderly⟩ := lowerMain_orderly compiler root
  have hl : ∀ node ws, (lower compiler.registry compiler.settings node ws).Heeds
      (compiler.inspect node 1) :=
    fun node ws => lowerWithin_heeds hstandard _ node 1 ws (Nat.add_comm _ _)
  have hheeds := horderly.heeds (fun node _ => hl node) ws
  rw [hact]
  simpa [Plan.nodes] using hheeds

/-! ### Preflight -/

/-- The tree is rejected because of the first node, in preorder, that has no rule or is too deep.
If both hold of the node, it is the missing rule that counts. -/
def Rejects (compiler : Compiler) (root : Node) (error : CompileError) : Prop :=
  ∃ before node depth after, root.preorder 1 = before ++ (node, depth) :: after ∧
    (∀ entry ∈ before, compiler.registry.contains entry.1.construct = true ∧
      entry.2 ≤ compiler.settings.maxDepth) ∧
    (compiler.registry.contains node.construct = false ∧
        error = .unsupported node.construct node.span ∨
      compiler.registry.contains node.construct = true ∧ compiler.settings.maxDepth < depth ∧
        error = .tooDeep compiler.settings.maxDepth node.span)

theorem objection?_eq_none {depth : Nat} :
    compiler.objection? node depth = none ↔
      compiler.registry.contains node.construct = true ∧ depth ≤ compiler.settings.maxDepth := by
  simp only [objection?, Registry.ruleFor, Registry.contains]
  cases compiler.registry.rule? node.construct with
  | none => simp
  | some rule => simp

theorem objection?_eq_some {depth : Nat} {error : CompileError} :
    compiler.objection? node depth = some error ↔
      compiler.registry.contains node.construct = false ∧
        error = .unsupported node.construct node.span ∨
      compiler.registry.contains node.construct = true ∧ compiler.settings.maxDepth < depth ∧
        error = .tooDeep compiler.settings.maxDepth node.span := by
  simp only [objection?, Registry.ruleFor, Registry.contains]
  cases compiler.registry.rule? node.construct with
  | none => simp [eq_comm]
  | some rule => simp [eq_comm]

/-- The walk before lowering finds what the tree is rejected for. -/
theorem firstObjection?_eq_some {error : CompileError} :
    compiler.firstObjection? root = some error ↔ compiler.Rejects root error := by
  simp only [firstObjection?_eq, inspect, List.findSome?_eq_some_iff, objection?_eq_none,
    objection?_eq_some, Rejects, Prod.exists]
  constructor
  · rintro ⟨before, node, depth, after, hsplit, herror, hbefore⟩
    exact ⟨before, node, depth, after, hsplit, hbefore, herror⟩
  · rintro ⟨before, node, depth, after, hsplit, hbefore, herror⟩
    exact ⟨before, node, depth, after, hsplit, herror, hbefore⟩

theorem Rejects.isObjection {error : CompileError} (h : compiler.Rejects root error) :
    error.isObjection = true := by
  obtain ⟨_, _, _, _, _, _, ⟨-, rfl⟩ | ⟨-, -, rfl⟩⟩ := h <;> rfl

/-- A compiler with the standard rules, less those of the constructs that are withheld. -/
def withholding (withheld : List Construct) (settings : Settings) : Compiler :=
  ⟨withheld.foldl Registry.withhold .standard, settings⟩

theorem withholding_contains {withheld : List Construct} {settings : Settings}
    {construct : Construct} :
    (withholding withheld settings).registry.contains construct = true ↔
      construct ∉ withheld := by
  simp only [withholding, Registry.contains, Registry.rule?_foldl_withhold]
  by_cases hmem : construct ∈ withheld
  · simp [hmem]
  · simp [hmem]

theorem withholding_standard (withheld : List Construct) (settings : Settings) :
    (withholding withheld settings).Standard := by
  intro construct rule hrule
  simp only [withholding, Registry.rule?_foldl_withhold] at hrule
  split at hrule
  · cases hrule
  · exact (Option.some.inj hrule).symm

/-- With standard rules, compiling fails with an objection exactly if the tree is rejected. -/
theorem compile_eq_objection (hstandard : compiler.Standard) {error : CompileError}
    (hobjection : error.isObjection = true) :
    compiler.compile root = .error (.error error) ↔ compiler.Rejects root error := by
  have hlower := lowerMain_heeds hstandard root (compiler.start false)
  rw [← firstObjection?_eq_some]
  unfold compile run
  cases hfirst : compiler.firstObjection? root with
  | some found => simp [Except.map]
  | none =>
      rw [← firstObjection?_eq, hfirst] at hlower
      refine iff_of_false ?_ nofun
      intro hcompile
      cases hdone : compiler.lowerMain root (compiler.start false) with
      | done u ws =>
          rw [hdone] at hcompile
          cases hcompile
      | failed found ws =>
          rw [hdone] at hcompile hlower
          obtain rfl : found = error := Failure.error.inj (Except.error.inj hcompile)
          cases hlower hobjection
      | fault fault =>
          rw [hdone] at hcompile
          cases Except.error.inj hcompile

/-- **The walk before lowering and the lowering agree on what a tree is rejected for,** whatever
constructs are withheld.  Compiling fails with an objection exactly if some node has no rule or is
too deep, and then because of the first such node in preorder.  A query that passes the walk is
never objected to while it is lowered; and without the walk, in any workspace, the lowering raises
no other objection than the walk would have. -/
theorem preflight_foresees_lowering (withheld : List Construct) (settings : Settings)
    (root : Node) :
    let compiler := withholding withheld settings
    ((∃ error, error.isObjection = true ∧ compiler.compile root = .error (.error error)) ↔
      ∃ entry ∈ root.preorder 1,
        entry.1.construct ∈ withheld ∨ settings.maxDepth < entry.2) ∧
    (∀ error, error.isObjection = true →
      (compiler.compile root = .error (.error error) ↔ compiler.Rejects root error)) ∧
    (compiler.firstObjection? root = none → ∀ ws error ws',
      compiler.lowerMain root ws = .failed error ws' → error.isObjection = false) ∧
    (∀ ws error ws', lower compiler.registry settings root ws = .failed error ws' →
      error.isObjection = true → compiler.firstObjection? root = some error) := by
  intro compiler
  have hstandard : compiler.Standard := withholding_standard withheld settings
  have hcompile : ∀ error, error.isObjection = true →
      (compiler.compile root = .error (.error error) ↔ compiler.Rejects root error) :=
    fun error hobjection => compile_eq_objection hstandard hobjection
  refine ⟨?_, hcompile, ?_, ?_⟩
  · have hfound : (∃ error, error.isObjection = true ∧
        compiler.compile root = .error (.error error)) ↔
        (compiler.firstObjection? root).isSome = true := by
      rw [Option.isSome_iff_exists]
      refine exists_congr fun error => ?_
      rw [firstObjection?_eq_some]
      exact ⟨fun h => (hcompile error h.1).mp h.2,
        fun h => ⟨h.isObjection, (hcompile error h.isObjection).mpr h⟩⟩
    rw [hfound, firstObjection?_eq, inspect, List.findSome?_isSome_iff]
    refine exists_congr fun entry => and_congr_right fun _ => ?_
    rw [Option.isSome_iff_ne_none, Ne, objection?_eq_none, withholding_contains, not_and_or,
      not_not, Nat.not_le]
    rfl
  · intro hpasses ws error ws' hfailed
    have hheeds := lowerMain_heeds hstandard root ws
    rw [hfailed, ← firstObjection?_eq, hpasses] at hheeds
    cases hobjection : error.isObjection with
    | false => rfl
    | true => cases hheeds hobjection
  · intro ws error ws' hfailed hobjection
    have hheeds := lowerWithin_heeds hstandard settings.maxDepth root 1 ws (Nat.add_comm _ _)
    rw [show lowerWithin compiler.registry compiler.settings settings.maxDepth root ws =
      .failed error ws' from hfailed] at hheeds
    rw [firstObjection?_eq]
    exact hheeds hobjection

/-- A query with a hint as its second statement. -/
def hinted : Node :=
  .block [.run (.literal (.int 1) {}) {}, .hint "maxRows" (.int 10) ⟨2, 1, 1⟩] {}

theorem hinted_rejected :
    (withholding [.hint] {}).compile hinted = .error (.error (.unsupported .hint ⟨2, 1, 1⟩)) ∧
      (withholding [.hint] {}).Rejects hinted (.unsupported .hint ⟨2, 1, 1⟩) := by
  have hcompile : (withholding [.hint] {}).compile hinted =
      .error (.error (.unsupported .hint ⟨2, 1, 1⟩)) := by decide +kernel
  obtain ⟨-, hobjection, -, -⟩ := preflight_foresees_lowering [.hint] {} hinted
  exact ⟨hcompile, (hobjection _ rfl).mp hcompile⟩

end Compiler

end QueryCompiler
