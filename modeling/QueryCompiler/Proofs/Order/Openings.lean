/-
Which functions are open when the lowering of a node is over.

A function is opened for the body of a lambda and closed once the body is lowered, so
a lowering that gets done leaves the same functions open that it found open.  One that
fails does not: the function of a lambda is only closed if its body could be lowered,
while scopes and source lines are put back in either case.  What stays open is on top
of what was open before, and it is at most one function for each level at which lambdas
nest.  The induction is on the levels that are left, and over the description of each
rule inside; the rule for lambdas is the one with a step of its own.
-/
import Mathlib.Data.List.MinMax
import QueryCompiler.Proofs.Layout.Program
import QueryCompiler.Proofs.Order.Preflight
import QueryCompiler.Proofs.Parallel.Rules
import QueryCompiler.Proofs.Progress.Lowering

namespace QueryCompiler

open Workspace Layout

/-! ### Levels of lambdas -/

namespace Node

/-- How many functions the parts of a node are in at most, beyond the one the node is in: the
greatest number of lambdas that nest in the tree. -/
def lambdaDepth (node : Node) : Nat :=
  (node.children.attach.map fun child => child.val.lambdaDepth).foldr max 0 +
    if node.construct = .lambda then 1 else 0
termination_by node.size
decreasing_by exact size_lt_of_mem_children child.property

theorem lambdaDepth_eq (node : Node) :
    node.lambdaDepth = (node.children.map lambdaDepth).foldr max 0 +
      if node.construct = .lambda then 1 else 0 := by
  rw [lambdaDepth]
  simp [List.map_subtype]

theorem lambdaDepth_part {parent node : Node} (h : node ∈ parent.children) :
    node.lambdaDepth ≤ parent.lambdaDepth := by
  rw [lambdaDepth_eq parent]
  exact Nat.le_trans (List.le_max_of_le' 0 (List.mem_map_of_mem h) (Nat.le_refl _))
    (Nat.le_add_right _ _)

theorem lambdaDepth_lambda (params : List Name) (body : Node) (span : Span) :
    (Node.lambda params body span).lambdaDepth = body.lambdaDepth + 1 := by
  rw [lambdaDepth_eq]
  simp [children, construct]

end Node

/-! ### Open functions -/

/-- The functions that are open were open before, and some more, none of which was there before. -/
structure Assembly.Reopens (levels : Nat) (code code' : Assembly) : Prop where
  size : code.routines.size ≤ code'.routines.size
  opened : ∃ left, code'.opened = left ++ code.opened ∧ left.length ≤ levels ∧
    ∀ function ∈ left, code.routines.size ≤ function

/-- What is done leaves the functions open that were open, and what fails may leave some more. -/
def Outcome.LeavesOpen {α : Type} (code : Assembly) (levels : Nat) :
    Outcome Workspace α → Prop
  | .done _ ws => code.Reopens 0 ws.code
  | .failed _ ws => code.Reopens levels ws.code
  | .fault _ => True

namespace Assembly.Reopens

variable {levels more : Nat} {code code₁ code₂ : Assembly}

theorem of_eq (hopened : code₁.opened = code.opened)
    (hsize : code.routines.size ≤ code₁.routines.size) : Reopens levels code code₁ :=
  ⟨hsize, [], hopened, Nat.zero_le _, nofun⟩

theorem opened_eq (h : Reopens 0 code code₁) : code₁.opened = code.opened := by
  obtain ⟨left, hopened, hlength, -⟩ := h.opened
  obtain rfl := List.eq_nil_of_length_eq_zero (Nat.le_zero.mp hlength)
  exact hopened

theorem mono (h : Reopens levels code code₁) (hle : levels ≤ more) : Reopens more code code₁ := by
  obtain ⟨left, hopened, hlength, hleft⟩ := h.opened
  exact ⟨h.size, left, hopened, Nat.le_trans hlength hle, hleft⟩

theorem after (h : Reopens 0 code code₁) (h' : Reopens levels code₁ code₂) :
    Reopens levels code code₂ := by
  obtain ⟨left, hopened, hlength, hleft⟩ := h'.opened
  rw [h.opened_eq] at hopened
  exact ⟨Nat.le_trans h.size h'.size, left, hopened, hlength,
    fun function hfunction => Nat.le_trans h.size (hleft function hfunction)⟩

end Assembly.Reopens

namespace Outcome.LeavesOpen

variable {α β : Type} {levels more : Nat} {code : Assembly} {ws : Workspace}

theorem mono {outcome : Outcome Workspace α} (h : outcome.LeavesOpen code levels)
    (hle : levels ≤ more) : outcome.LeavesOpen code more := by
  cases outcome with
  | done => exact h
  | failed => exact Assembly.Reopens.mono h hle
  | fault => trivial

/-- A step that works on the current function, however it ends. -/
theorem of_ends {outcome : Outcome Workspace α} {post : Workspace → Prop}
    (h : outcome.Ends fun ws => code.Continues ws.code ∧ post ws) :
    outcome.LeavesOpen code levels := by
  cases outcome with
  | done => exact .of_eq h.1.opened (Nat.le_of_eq h.1.size.symm)
  | failed => exact .of_eq h.2.1.opened (Nat.le_of_eq h.2.1.size.symm)
  | fault => trivial

theorem after {code₁ : Assembly} {outcome : Outcome Workspace α} (h : code.Reopens 0 code₁)
    (h' : outcome.LeavesOpen code₁ levels) : outcome.LeavesOpen code levels := by
  cases outcome with
  | done | failed => exact h.after h'
  | fault => trivial

theorem bind {first : Action Workspace α} {next : α → Action Workspace β}
    (hfirst : (first ws).LeavesOpen code levels)
    (hnext : ∀ x ws₁, first ws = .done x ws₁ → (next x ws₁).LeavesOpen ws₁.code levels) :
    ((first >>= next) ws).LeavesOpen code levels := by
  rw [Action.bind_apply]
  cases hdone : first ws with
  | done x ws₁ =>
      rw [hdone] at hfirst
      exact after hfirst (hnext x ws₁ hdone)
  | failed error ws₁ =>
      rw [hdone] at hfirst
      exact hfirst
  | fault fault => trivial

end Outcome.LeavesOpen

/-- A scope in which something failed, or that could not be closed, has code as it was left
inside. -/
theorem Workspace.within_failed {α : Type} {state : FrameState}
    {body : FrameId → Action Workspace α} {error : CompileError} {ws ws' : Workspace}
    (h : within state body ws = .failed error ws') :
    ∃ inside, ws'.code = inside.code ∧
      (body ⟨ws.scopes.nextSerial, state.scope⟩ (ws.entered state) = .failed error inside ∨
        ∃ x, body ⟨ws.scopes.nextSerial, state.scope⟩ (ws.entered state) = .done x inside) := by
  rw [within_eq] at h
  cases hbody : body ⟨ws.scopes.nextSerial, state.scope⟩ (ws.entered state) with
  | done x inside =>
      simp only [hbody, onScopes, Action.bind_apply] at h
      refine ⟨inside, ?_, .inr ⟨x, rfl⟩⟩
      cases hpop : ScopeStack.pop ⟨ws.scopes.nextSerial, state.scope⟩ inside.scopes with
      | failed found scopes =>
          rw [hpop] at h
          rw [← (Outcome.failed.inj h).2]
      | done | fault =>
          rw [hpop] at h
          cases h
  | failed found inside =>
      simp only [hbody, onScopes, Action.bind_apply, Action.attempt] at h
      cases hpop : ScopeStack.pop ⟨ws.scopes.nextSerial, state.scope⟩ inside.scopes with
      | done | failed =>
          rw [hpop] at h
          obtain ⟨rfl, rfl⟩ := Outcome.failed.inj h
          exact ⟨inside, rfl, .inl rfl⟩
      | fault =>
          rw [hpop] at h
          cases h
  | fault fault =>
      rw [hbody] at h
      cases h

namespace Outcome.LeavesOpen

theorem within {α : Type} {levels : Nat} {state : FrameState}
    {body : FrameId → Action Workspace α} {ws : Workspace}
    (h : (body ⟨ws.scopes.nextSerial, state.scope⟩ (ws.entered state)).LeavesOpen ws.code levels) :
    (Workspace.within state body ws).LeavesOpen ws.code levels := by
  cases hwithin : Workspace.within state body ws with
  | done result ws' =>
      obtain ⟨x, frame⟩ := result
      obtain ⟨inside, _, _, hbody, -, -, -, rfl⟩ := within_done hwithin
      rw [hbody] at h
      exact h
  | failed error ws' =>
      obtain ⟨inside, hcode, hbody | ⟨x, hbody⟩⟩ := within_failed hwithin
      · rw [hbody] at h
        show ws.code.Reopens levels ws'.code
        rw [hcode]
        exact h
      · rw [hbody] at h
        have hinside : ws.code.Reopens 0 inside.code := h
        show ws.code.Reopens levels ws'.code
        rw [hcode]
        exact hinside.mono (Nat.zero_le _)
  | fault fault => trivial

end Outcome.LeavesOpen

/-- **An action on the current function leaves open what its parts leave open.** -/
theorem Orderly.leavesOpen {α : Type} {own : Option FrameId} {plan : Plan}
    {act : Lower → Action Workspace α} {lower : Lower} {levels : Nat}
    (h : Orderly Assembly.Continues own plan act)
    (hparts : ∀ node ∈ plan.nodes, ∀ ws, (lower node ws).LeavesOpen ws.code levels)
    (ws : Workspace) : (act lower ws).LeavesOpen ws.code levels := by
  induction h generalizing ws with
  | own h => exact .of_ends (h ws)
  | part node => exact hparts node List.mem_cons_self ws
  | bind _ _ ihfirst ihnext =>
      simp only [Plan.nodes_append, List.mem_append] at hparts
      exact (ihfirst (fun node hnode => hparts node (.inl hnode)) ws).bind fun x ws₁ _ =>
        ihnext x (fun node hnode => hparts node (.inr hnode)) ws₁
  | fail => exact .of_eq rfl (Nat.le_refl _)
  | within state _ ih =>
      simp only [Plan.nodes, List.append_nil] at hparts
      exact .within (ih _ hparts _)

/-! ### Lambdas -/

/-- Writing an instruction gets done or ends in a fault. -/
theorem Workspace.emitWith_ne_failed {op : Opcode} {operand : Operand} {error : CompileError}
    {ws ws' : Workspace} : emitWith op operand ws ≠ .failed error ws' := by
  intro h
  obtain hcode | ⟨position, ws₁, -, hpure⟩ := Action.bind_failed.mp h
  · obtain ⟨code, hemit, -⟩ := onCode_failed.mp hcode
    exact Assembly.emit_ne_failed hemit
  · cases hpure

/-- What is done leaves the functions open that were open; what fails leaves one more open, the next
of the program, and what was opened inside it. -/
def Outcome.Abandons {α : Type} (code : Assembly) (levels : Nat) : Outcome Workspace α → Prop
  | .done _ ws => code.Reopens 0 ws.code
  | .failed _ ws => code.routines.size < ws.code.routines.size ∧
      ∃ left, ws.code.opened = left ++ code.routines.size :: code.opened ∧ left.length ≤ levels ∧
        ∀ function ∈ left, code.routines.size < function
  | .fault _ => True

theorem Outcome.Abandons.leavesOpen {α : Type} {code : Assembly} {levels : Nat}
    {outcome : Outcome Workspace α} (h : outcome.Abandons code levels) :
    outcome.LeavesOpen code (levels + 1) := by
  cases outcome with
  | done => exact h
  | failed =>
      obtain ⟨hsize, left, hopened, hlength, hleft⟩ := h
      refine ⟨Nat.le_of_lt hsize, left ++ [code.routines.size], ?_, ?_, ?_⟩
      · rw [hopened, List.append_assoc]
        rfl
      · rw [List.length_append]
        exact Nat.add_le_add_right hlength 1
      · intro function hfunction
        rcases List.mem_append.mp hfunction with hmem | hmem
        · exact Nat.le_of_lt (hleft function hmem)
        · exact Nat.le_of_eq (List.mem_singleton.mp hmem).symm
  | fault => trivial

/-- **A closure that cannot be made leaves its function open.** -/
theorem Workspace.emitClosure_abandons {body : Action Workspace Unit} {levels : Nat}
    (hbody : ∀ ws, (body ws).LeavesOpen ws.code levels) (arity : UInt16) (ws : Workspace) :
    (emitClosure arity body ws).Abandons ws.code levels := by
  have hopen : onCode (Assembly.openFunction arity) ws =
      .done ws.code.routines.size (opened ws arity) := rfl
  have hsize : (opened ws arity).code.routines.size = ws.code.routines.size + 1 :=
    Array.size_push ..
  have hwithin : (within (.function ws.code.routines.size 0) (fun _ => body)
      (opened ws arity)).LeavesOpen (opened ws arity).code levels := .within (hbody _)
  rw [emitClosure, Action.bind_apply, hopen]
  dsimp only
  rw [Action.bind_apply]
  cases hinside : within (.function ws.code.routines.size 0) (fun _ => body) (opened ws arity) with
  | fault fault => trivial
  | failed error inside =>
      rw [hinside] at hwithin
      obtain ⟨hgrown, left, hleft, hlength, hfresh⟩ := hwithin
      refine ⟨by omega, left, hleft, hlength, fun function hfunction => ?_⟩
      have hge := hfresh function hfunction
      omega
  | done result inside =>
      rw [hinside] at hwithin
      obtain ⟨⟨⟩, frame⟩ := result
      have hopened : inside.code.opened = ws.code.routines.size :: ws.code.opened :=
        Assembly.Reopens.opened_eq hwithin
      have hgrown := Assembly.Reopens.size hwithin
      dsimp only
      rw [Action.bind_apply]
      cases houter : ws.code.opened with
      | nil =>
          -- There is no function to go back to, which is found out only now.
          have hclose : onCode (Assembly.closeFunction (frame.nextSlot?.getD arity)) inside =
              .failed (.internal .noNestedFunction) inside := by
            simp only [onCode, Assembly.closeFunction, hopened, houter]
          rw [hclose]
          exact ⟨by omega, [], hopened, Nat.zero_le _, by rintro _ ⟨⟩⟩
      | cons outer rest =>
          rw [houter] at hopened
          have hclose : onCode (Assembly.closeFunction (frame.nextSlot?.getD arity)) inside =
              .done ws.code.routines.size
                (closed inside (frame.nextSlot?.getD arity) (outer :: rest)) := by
            simp only [onCode, Assembly.closeFunction, hopened, closed]
          rw [hclose]
          dsimp only
          cases hmake : emitWith .makeLambda (.function ws.code.routines.size.toUInt32)
              (closed inside (frame.nextSlot?.getD arity) (outer :: rest)) with
          | done u ws' =>
              obtain ⟨-, rfl⟩ := emitWith_done hmake
              refine .of_eq houter.symm ?_
              simp only [wrote, revise, Assembly.modifyCurrent, closed, Assembly.reserveLocals,
                Array.size_modify]
              omega
          | failed error ws' => exact absurd hmake emitWith_ne_failed
          | fault fault => trivial

section

variable {lower : Lower} {levels : Nat} {params : List Name} {body : Node} {span : Span}

/-- A lambda with a slot for each of its parameters abandons its function or is done. -/
theorem Rule.lambda_abandons (hfew : params.length ≤ Frame.slotLimit)
    (hbody : ∀ ws, (lower body ws).LeavesOpen ws.code levels) (ws : Workspace) :
    (lambda lower (.lambda params body span) ws).Abandons ws.code levels := by
  have hclosure : lambda lower (.lambda params body span) =
      emitClosure params.length.toUInt16 (do
        declareAll params
        lower.body body) := by
    simp only [lambda, if_neg (Nat.not_lt.mpr hfew)]
    rfl
  rw [hclosure]
  refine emitClosure_abandons (fun inside => ?_) _ ws
  have hdeclares : Tends Assembly.Continues none (declareAll params) :=
    .forM (fun param => (Tends.declare param).bind fun _ => .pure _) params
  have horderly : Orderly Assembly.Continues none (.part body .nothing) fun lower => (do
      declareAll params
      lower.body body) := .andThen hdeclares fun _ => .body body
  refine horderly.leavesOpen (fun node hnode => ?_) inside
  obtain rfl : node = body := List.mem_singleton.mp hnode
  exact hbody

end

/-! ### Lowering -/

section

variable {settings : Settings} {room : Nat} {node : Node} {ws ws' : Workspace}

/-- What a rule leaves open its lowering leaves open. -/
theorem supervise_leavesOpen {lowering : Action Workspace Unit} {levels : Nat}
    (h : ∀ ws, (lowering ws).LeavesOpen ws.code levels) (ws : Workspace) :
    (Contract.supervise settings node lowering ws).LeavesOpen ws.code levels := by
  rw [Contract.supervise_apply]
  have hlowering := h (ws.atLine (Contract.startLine settings node ws.code.line))
  cases hdone : lowering (ws.atLine (Contract.startLine settings node ws.code.line)) with
  | done u inside =>
      rw [hdone] at hlowering
      have hinside : (ws.code.moveToLine _).Reopens 0 inside.code := hlowering
      have hcheck : Tends Assembly.Continues none (Contract.check settings node ws.scopes.height
          ws.scopes.counts.pushes ws.code.depth) :=
        Contract.check_tends settings node _ _ _
      have hends := hcheck (inside.atLine ws.code.line)
      have hmoved : ws.code.Reopens 0 (inside.code.moveToLine ws.code.line) :=
        ⟨hinside.size, hinside.opened⟩
      exact .after hmoved (.of_ends hends)
  | failed error inside =>
      rw [hdone] at hlowering
      have hinside : (ws.code.moveToLine _).Reopens levels inside.code := hlowering
      exact ⟨hinside.size, hinside.opened⟩
  | fault fault => trivial

/-- **Whatever becomes of a node, at most one function for each level of lambdas in it stays open,**
and none if it is done. -/
theorem lowerWithin_leavesOpen (settings : Settings) (room : Nat) (node : Node) (ws : Workspace) :
    (lowerWithin .standard settings room node ws).LeavesOpen ws.code node.lambdaDepth := by
  induction room generalizing node ws with
  | zero => exact .of_eq rfl (Nat.le_refl _)
  | succ room ih =>
      refine supervise_leavesOpen (fun ws => ?_) ws
      by_cases hnode : node.construct = .lambda
      · cases node with
        | lambda params body span =>
            by_cases hfew : params.length ≤ Frame.slotLimit
            · rw [Node.lambdaDepth_lambda]
              exact (Rule.lambda_abandons hfew (ih body) ws).leavesOpen
            · have hfail : Rule.lambda (lowerWithin .standard settings room)
                  (.lambda params body span) ws =
                  .failed (.slotsExhausted Frame.slotLimit span) ws := by
                simp only [Rule.lambda, if_pos (Nat.not_le.mp hfew)]
                rfl
              have hkept : (Outcome.failed (α := Unit) (.slotsExhausted Frame.slotLimit span)
                  ws).LeavesOpen ws.code (Node.lambda params body span).lambdaDepth :=
                .of_eq rfl (Nat.le_refl _)
              rw [← hfail] at hkept
              exact hkept
        | _ => cases hnode
      · have horderly : Orderly Assembly.Continues none node.plan fun lower =>
            Rule.standard node.construct lower node := Rule.standard_continues hnode
        refine horderly.leavesOpen (fun child hchild ws => ?_) ws
        rw [Node.nodes_plan] at hchild
        exact (ih child ws).mono (Node.lambdaDepth_part hchild)

/-- A lambda that is done has put one value on the operand stack. -/
theorem Rule.lambda_depth {params : List Name} {body : Node} {span : Span} {u : Unit}
    (hs : ws.Sound)
    (h : lambda (lowerWithin .standard settings room) (.lambda params body span) ws = .done u ws') :
    ws'.code.depth = ws.code.depth + 1 := by
  obtain ⟨-, declared, inside, frame, outer, locals, last, closed, hparams, hbody, -, hclose,
    hmake⟩ := lambda_done h
  have hall := lambdaBody_passes (lowerWithin_faithful settings room) hs hparams hbody
  obtain ⟨hspot, hfunction⟩ := function_passes hs hall hclose
  obtain ⟨-, rfl⟩ := emitWith_done hmake
  have hdepth : closed.code.depth = ws.code.depth := congrArg Spot.depth hspot
  rw [Progress.wrote_depth hfunction.sound, hdepth]
  rfl

theorem checkScopes_ne_failed {construct : Construct} {height pushes : Nat}
    {error : CompileError} :
    Contract.checkScopes construct height pushes ws ≠ .failed error ws' := by
  intro h
  simp only [Contract.checkScopes, Action.bind_apply, onScopes, Action.read] at h
  split at h
  · cases h
  · cases hscope : construct.scope? with
    | none =>
        rw [hscope] at h
        cases h
    | some scope =>
        rw [hscope] at h
        dsimp only at h
        split at h <;> cases h

/-- No objection is made to a value that is there. -/
theorem check_ne_failed {height pushes start : Nat} {error : CompileError}
    (hvalue : node.construct.balance = .value) (hdepth : ws.code.depth = start + 1) :
    Contract.check settings node height pushes start ws ≠ .failed error ws' := by
  intro h
  rw [Contract.check, Action.bind_apply] at h
  cases hscopes : Contract.checkScopes node.construct height pushes ws with
  | done u checked =>
      obtain rfl := checkScopes_done hscopes
      simp only [hscopes, Contract.checkBalance, hvalue, Action.bind_apply] at h
      cases hword : addWord start 1 with
      | ok expected =>
          obtain ⟨rfl, -⟩ := addWord_ok hword
          rw [hword] at h
          have hfailed : Contract.checkDepth settings node (start + 1) ws = .failed error ws' := h
          rw [Progress.checkDepth_of_eq hdepth] at hfailed
          cases hfailed
      | error fault =>
          rw [hword] at h
          cases h
  | failed found checked => exact checkScopes_ne_failed hscopes
  | fault fault =>
      rw [hscopes] at h
      cases h

/-- **A lambda that fails has abandoned its function:** in a sound workspace, one that gets done is
as the contract wants it. -/
theorem lowerWithin_abandons (settings : Settings) (room : Nat) {params : List Name}
    (hfew : params.length ≤ Frame.slotLimit) (body : Node) (span : Span) (hs : ws.Sound) :
    (lowerWithin .standard settings (room + 1) (.lambda params body span) ws).Abandons ws.code
      body.lambdaDepth := by
  have hleaves := lowerWithin_leavesOpen settings (room + 1) (.lambda params body span) ws
  have hlower : lowerWithin .standard settings (room + 1) (.lambda params body span) ws =
      Contract.supervise settings (.lambda params body span)
        (Rule.lambda (lowerWithin .standard settings room) (.lambda params body span)) ws := rfl
  rw [hlower, Contract.supervise_apply] at hleaves ⊢
  generalize Contract.startLine settings (.lambda params body span) ws.code.line = line at *
  have hmoved : (ws.atLine line).Sound := { hs with }
  have habandons : (Rule.lambda (lowerWithin .standard settings room) (.lambda params body span)
      (ws.atLine line)).Abandons (ws.atLine line).code body.lambdaDepth :=
    Rule.lambda_abandons hfew (lowerWithin_leavesOpen settings room body) _
  cases hrule : Rule.lambda (lowerWithin .standard settings room) (.lambda params body span)
    (ws.atLine line) with
  | done u inside =>
      have hdepth : inside.code.depth = (ws.atLine line).code.depth + 1 :=
        Rule.lambda_depth hmoved hrule
      rw [hrule] at hleaves
      dsimp only at hleaves ⊢
      cases hcheck : Contract.check settings (.lambda params body span) ws.scopes.height
          ws.scopes.counts.pushes ws.code.depth (inside.atLine ws.code.line) with
      | done u' ws' =>
          rw [hcheck] at hleaves
          exact hleaves
      | failed error ws' => exact absurd hcheck (check_ne_failed rfl hdepth)
      | fault fault => trivial
  | failed error inside =>
      rw [hrule] at habandons
      exact habandons
  | fault fault => trivial

/-- **The functions that are open once a node was lowered,** whatever the settings, the node and the
workspace.  If the node is done they are those that were open before.  If it fails they are as well,
unless there are lambdas in the node; otherwise some functions that were opened for lambdas may
still be open on top of them, one for each level of lambdas at most.  A lambda that fails, and not
for having too many parameters or for being too deep, always leaves its function open. -/
theorem lowering_opens (settings : Settings) (room : Nat) (node : Node) (ws : Workspace) :
    (∀ ws', lowerWithin .standard settings room node ws = .done () ws' →
      ws'.code.opened = ws.code.opened) ∧
    (∀ error ws', lowerWithin .standard settings room node ws = .failed error ws' →
      (node.lambdaDepth = 0 → ws'.code.opened = ws.code.opened) ∧
      ∃ left, ws'.code.opened = left ++ ws.code.opened ∧ left.length ≤ node.lambdaDepth ∧
        ∀ function ∈ left, ws.code.routines.size ≤ function) ∧
    (∀ params body span error ws', node = .lambda params body span →
      params.length ≤ Frame.slotLimit → 0 < room → ws.Sound →
      lowerWithin .standard settings room node ws = .failed error ws' →
      ∃ left, ws'.code.opened = left ++ ws.code.routines.size :: ws.code.opened) := by
  have hleaves := lowerWithin_leavesOpen settings room node ws
  refine ⟨?_, ?_, ?_⟩
  · intro ws' hdone
    rw [hdone] at hleaves
    exact Assembly.Reopens.opened_eq hleaves
  · intro error ws' hfailed
    rw [hfailed] at hleaves
    refine ⟨fun hnone => ?_, hleaves.opened⟩
    rw [hnone] at hleaves
    exact Assembly.Reopens.opened_eq hleaves
  · rintro params body span error ws' rfl hfew hroom hs hfailed
    obtain ⟨room, rfl⟩ := Nat.exists_eq_succ_of_ne_zero (Nat.ne_of_gt hroom)
    have habandons := lowerWithin_abandons settings room hfew body span hs
    rw [hfailed] at habandons
    obtain ⟨-, left, hopened, -, -⟩ := habandons
    exact ⟨left, hopened⟩

end

/-- A lambda whose body is a `break` without a loop. -/
def strayLambda : Node := .lambda [] (.breakLoop {}) {}

/-- A workspace in which nothing has been done but to open the main function. -/
def atMain : Workspace := (Compiler.start {} false).entered (.function 0 0)

theorem strayLambda_opens :
    ∃ error ws' left, lowerWithin .standard {} 2 strayLambda atMain = .failed error ws' ∧
      ws'.code.opened = left ++ 1 :: atMain.code.opened := by
  obtain ⟨-, -, habandoned⟩ := lowering_opens {} 2 strayLambda atMain
  have hs : atMain.Sound := entered_sound (start_sound {} false) nofun
  have hfailed : ∃ error ws', lowerWithin .standard {} 2 strayLambda atMain = .failed error ws' :=
    ⟨_, _, rfl⟩
  obtain ⟨error, ws', hfailed⟩ := hfailed
  obtain ⟨left, hopened⟩ := habandoned [] (.breakLoop {}) {} error ws' rfl (by decide) (by decide)
    hs hfailed
  exact ⟨error, ws', left, hfailed, hopened⟩

/-- **The open functions are not restored when a lambda fails:** what is written next goes into its
function, though the frames are those there were. -/
theorem strayLambda_current :
    ∃ ws', lower .standard {} strayLambda atMain = .failed (.notEnclosed .loop {}) ws' ∧
      ws'.scopes.frames = atMain.scopes.frames ∧
      atMain.code.currentFunction = 0 ∧ ws'.code.currentFunction = 1 :=
  ⟨_, rfl, rfl, rfl, rfl⟩

end QueryCompiler
