/-
What a refused request leaves behind.

A request can be refused: there is no jump to aim, a frame is closed already, the slots are
used up.  Nearly all requests check whatever they have to check before they write, so that
whoever is refused finds the program and the scopes as they were.  `FailsClean` says this of
an action, and it is inherited by chains whose later parts cannot fail.

There is one exception.  A jump that is to land is aimed before the depths are compared, and
where they differ the landing is refused and the jump stays aimed, at the very place where it
may not land.  `Disagrees` tells when this happens, and `OnlyAims` all that it does.
-/
import QueryCompiler.Proofs.Actions

namespace QueryCompiler

/-! ### Failing without a trace -/

/-- The outcome is not a failure that left another state than `s`. -/
def Outcome.Clean {σ α : Type} (s : σ) : Outcome σ α → Prop
  | done _ _ => True
  | failed _ t => t = s
  | fault _ => True

namespace Action

variable {σ α β : Type}

/-- If the action fails it leaves the state as it was. -/
def FailsClean (action : Action σ α) : Prop :=
  ∀ s, (action s).Clean s

namespace FailsClean

variable {first : Action σ α}

theorem eq_of_failed (h : first.FailsClean) {s t : σ} {error : CompileError}
    (hfailed : first s = .failed error t) : t = s := by
  have hclean := h s
  rw [hfailed] at hclean
  exact hclean

/-- Once the first part is done nothing may fail any more. -/
theorem bind {next : α → Action σ β} (h : first.FailsClean)
    (hnext : ∀ x s error t, next x s ≠ .failed error t) : (first >>= next).FailsClean := by
  intro s
  cases hrun : (first >>= next) s with
  | done => trivial
  | failed error t =>
      obtain hfirst | ⟨x, u, -, hfailed⟩ := bind_failed.mp hrun
      · exact h.eq_of_failed hfirst
      · exact absurd hfailed (hnext x u error t)
  | fault => trivial

theorem discard (h : first.FailsClean) : FailsClean (do let _ ← first : Action σ Unit) :=
  h.bind fun _ _ _ _ => nofun

theorem onCode {action : Action Assembly α} (h : action.FailsClean) :
    (Workspace.onCode action).FailsClean := by
  intro ws
  cases hrun : Workspace.onCode action ws with
  | done => trivial
  | failed error ws' =>
      obtain ⟨code, hfailed, rfl⟩ := Workspace.onCode_failed.mp hrun
      exact congrArg (fun code => { ws with code }) (h.eq_of_failed hfailed)
  | fault => trivial

theorem onScopes {action : Action ScopeStack α} (h : action.FailsClean) :
    (Workspace.onScopes action).FailsClean := by
  intro ws
  cases hrun : Workspace.onScopes action ws with
  | done => trivial
  | failed error ws' =>
      obtain ⟨scopes, hfailed, rfl⟩ := Workspace.onScopes_failed.mp hrun
      exact congrArg (fun scopes => { ws with scopes }) (h.eq_of_failed hfailed)
  | fault => trivial

end FailsClean

end Action

/-! ### Requests to the program -/

namespace Assembly

theorem aim_failsClean (position : Position) (target : UInt32) :
    (aim position target).FailsClean := by
  intro code
  unfold aim
  split
  · rfl
  · split
    · rfl
    · trivial

theorem jumpBack_failsClean (target : Position) (depth : Nat) :
    (jumpBack target depth).FailsClean := by
  intro code
  unfold jumpBack
  split
  · rfl
  · split
    · rfl
    · cases hemit : emit .jump (.target target.index.toUInt32) code with
      | done => trivial
      | failed error code' => exact absurd hemit emit_ne_failed
      | fault => trivial

theorem closeFunction_failsClean (locals : UInt16) : (closeFunction locals).FailsClean := by
  intro code
  unfold closeFunction
  split
  · trivial
  · rfl

theorem constant_failsClean (value : Constant) : (constant value).FailsClean := by
  intro code
  unfold constant
  split
  · trivial
  · rfl

end Assembly

/-! ### Requests to the scopes -/

namespace ScopeStack

theorem pop_failsClean (id : FrameId) : (pop id).FailsClean := by
  intro stack
  unfold pop
  split
  · rfl
  · split
    · trivial
    · rfl

theorem frame_failsClean (id : FrameId) : (frame id).FailsClean := by
  intro stack
  unfold frame
  split
  · trivial
  · rfl

theorem update_failsClean (id : FrameId) (change : FrameState → FrameState) :
    (update id change).FailsClean := by
  intro stack
  unfold update
  split
  · trivial
  · rfl

theorem enclosing_failsClean (scope : Scope) (span : Span) :
    (enclosing scope span).FailsClean := by
  intro stack
  unfold enclosing
  split
  · trivial
  · rfl

theorem takeSlot_failsClean (span : Span) : (takeSlot span).FailsClean := by
  intro stack
  unfold takeSlot
  split
  · rfl
  · split
    · rfl
    · trivial

/-- A slot is taken before the name is bound, but binding a name cannot fail. -/
theorem declare_failsClean (name : String) (span : Span) : (declare name span).FailsClean :=
  (takeSlot_failsClean span).bind fun _ _ _ _ => nofun

end ScopeStack

/-! ### Jumps that may not land -/

namespace Assembly

/-- The jump of the label is there, in the function that is being written. -/
structure Holds (code : Assembly) (label : PendingJump) : Prop where
  function : label.position.function = code.currentFunction
  jump : ∃ op old, code.instruction? label.position = some ⟨op, .target old⟩

/-- The jump of the label is there, but control also gets to the next instruction from the one
before it, and with another depth than the jump would arrive with. -/
structure Disagrees (code : Assembly) (label : PendingJump) : Prop
    extends code.Holds label where
  reachable : code.reachable = true
  depth : code.depth ≠ label.depth

/-- The program with the jump of the label aimed at the next instruction. -/
def aimedHere (code : Assembly) (label : PendingJump) : Assembly :=
  code.modifyCurrent fun routine => routine.aim label.position.index code.length.toUInt32

variable {code code' : Assembly} {label : PendingJump} {error : CompileError}

/-- What aiming a jump leaves alone can be read off as before. -/
theorem aimedHere_view {β : Type} (view : Routine → β)
    (h : ∀ (routine : Routine) (index : Nat) (target : UInt32),
      view (routine.aim index target) = view routine) :
    view (code.aimedHere label).current = view code.current :=
  Workspace.revise_view view (fun routine => routine.aim label.position.index _)
    (fun routine => h routine _ _) ⟨code, {}, 0⟩

theorem land_of_function (h : label.position.function = code.currentFunction) :
    land label code =
      (aim label.position code.length.toUInt32 >>= fun _ => join label) code :=
  if_neg (Decidable.not_not.mpr h)

/-- A jump that is there is aimed before anything else. -/
theorem Holds.land_eq (h : code.Holds label) :
    land label code = join label (code.aimedHere label) := by
  obtain ⟨op, old, hfound⟩ := h.jump
  have haim : aim label.position code.length.toUInt32 code = .done () (code.aimedHere label) := by
    simp only [aim, hfound, Instruction.target?, h.function]
    rfl
  rw [land_of_function h.function, Action.bind_apply, haim]

/-- A jump that is not there is missed before anything is written. -/
theorem land_of_not_holds (h : ¬ code.Holds label) :
    ∃ defect, land label code = .failed (.internal defect) code := by
  by_cases hfunction : label.position.function = code.currentFunction
  · rw [land_of_function hfunction, Action.bind_apply]
    unfold aim
    cases hfound : code.instruction? label.position with
    | none => exact ⟨_, rfl⟩
    | some instruction =>
        obtain ⟨op, operand⟩ := instruction
        cases operand with
        | target old => exact absurd ⟨hfunction, op, old, hfound⟩ h
        | _ => exact ⟨_, rfl⟩
  · exact ⟨_, if_pos hfunction⟩

/-- The depths that are compared are those from before the jump was aimed. -/
theorem join_aimedHere (code : Assembly) (label : PendingJump) :
    join label (code.aimedHere label) =
      if code.reachable && code.depth ≠ label.depth then
        .failed (.internal (.joinDepth code.depth code.length label.position.index label.depth))
          (code.aimedHere label)
      else
        .done () ((code.aimedHere label).modifyCurrent fun routine => routine.land label.depth) := by
  have hreachable : (code.aimedHere label).reachable = code.reachable :=
    aimedHere_view Routine.reachable fun _ _ _ => rfl
  have hdepth : (code.aimedHere label).depth = code.depth :=
    aimedHere_view Routine.depth fun _ _ _ => rfl
  have hlength : (code.aimedHere label).length = code.length :=
    aimedHere_view (fun routine => routine.code.size) fun _ _ _ => Array.size_modify
  simp only [join, position, hreachable, hdepth, hlength]

/-- **Where the depths disagree the landing is refused, and the jump is aimed.** -/
theorem Disagrees.land_eq (h : code.Disagrees label) :
    land label code =
      .failed (.internal (.joinDepth code.depth code.length label.position.index label.depth))
        (code.aimedHere label) := by
  have hdepths : (code.reachable && decide (code.depth ≠ label.depth)) = true := by
    simpa [h.reachable] using h.depth
  rw [h.toHolds.land_eq, join_aimedHere, if_pos hdepths]

/-- Any other landing that is refused is refused before the jump is aimed. -/
theorem land_failed (h : land label code = .failed error code') :
    (∃ defect, error = .internal defect) ∧
      (code' = code ∨ code.Disagrees label ∧ code' = code.aimedHere label) := by
  by_cases hholds : code.Holds label
  · rw [hholds.land_eq, join_aimedHere] at h
    split at h
    · rename_i hdepths
      obtain ⟨rfl, rfl⟩ := Outcome.failed.inj h
      rw [Bool.and_eq_true, decide_eq_true_iff] at hdepths
      exact ⟨⟨_, rfl⟩, .inr ⟨⟨hholds, hdepths.1, hdepths.2⟩, rfl⟩⟩
    · cases h
  · obtain ⟨defect, hland⟩ := land_of_not_holds hholds
    obtain ⟨rfl, rfl⟩ := Outcome.failed.inj (hland.symm.trans h)
    exact ⟨⟨defect, rfl⟩, .inl rfl⟩

end Assembly

/-! ### What a refused landing changes -/

/-- What a function is beside its instructions. -/
def Routine.bare (routine : Routine) : Routine :=
  { routine with code := #[] }

theorem Routine.eq_of_bare {routine routine' : Routine} (hbare : routine'.bare = routine.bare)
    (hcode : routine'.code = routine.code) : routine' = routine :=
  calc routine' = { routine'.bare with code := routine'.code } := rfl
    _ = { routine.bare with code := routine.code } := by rw [hbare, hcode]

namespace Assembly

variable {code code' : Assembly} {label : PendingJump}

/-- The second program is the first one with the jump of the label aimed at the end of the first,
and with nothing else changed. -/
structure OnlyAims (label : PendingJump) (code code' : Assembly) : Prop where
  jump : ∃ op old, code.instruction? label.position = some ⟨op, .target old⟩ ∧
    code'.instruction? label.position = some ⟨op, .target code.length.toUInt32⟩
  others : ∀ position, position ≠ label.position →
    code'.instruction? position = code.instruction? position
  functions : code'.routines.map Routine.bare = code.routines.map Routine.bare
  rest : code' = { code with routines := code'.routines }

theorem Holds.instruction?_aimedHere (h : code.Holds label) (position : Position) :
    (code.aimedHere label).instruction? position =
      if position = label.position then
        (code.instruction? position).map fun instruction =>
          instruction.aimedAt code.length.toUInt32
      else code.instruction? position := by
  have hroutine : (code.aimedHere label).routines[position.function]? =
      if label.position.function = position.function then
        code.routines[position.function]?.map fun routine =>
          routine.aim label.position.index code.length.toUInt32
      else code.routines[position.function]? := by
    rw [h.function]
    exact Array.getElem?_modify
  obtain ⟨function, index⟩ := position
  obtain ⟨⟨function', index'⟩, depth⟩ := label
  simp only [instruction?, hroutine, Position.mk.injEq]
  by_cases hfunction : function' = function
  · subst hfunction
    cases code.routines[function']? with
    | none => simp
    | some routine =>
      simp only [if_true, true_and, Option.map_some, Option.bind_some, Routine.aim,
        Array.getElem?_modify, eq_comm (a := index)]
  · simp [hfunction, Ne.symm hfunction]

theorem Holds.onlyAims (h : code.Holds label) : code.OnlyAims label (code.aimedHere label) where
  jump := by
    obtain ⟨op, old, hfound⟩ := h.jump
    refine ⟨op, old, hfound, ?_⟩
    rw [h.instruction?_aimedHere, if_pos rfl, hfound]
    rfl
  others position hne := by
    rw [h.instruction?_aimedHere, if_neg hne]
  functions := by
    refine Array.ext_getElem? fun i => ?_
    simp only [aimedHere, modifyCurrent, Array.getElem?_map, Array.getElem?_modify]
    split
    · rw [Option.map_map]
      rfl
    · rfl
  rest := rfl

/-- Functions are known by their instructions and by what they are beside them. -/
theorem routines_eq (hbare : code'.routines.map Routine.bare = code.routines.map Routine.bare)
    (hcode : ∀ position, code'.instruction? position = code.instruction? position) :
    code'.routines = code.routines := by
  refine Array.ext_getElem? fun f => ?_
  have hbare : code'.routines[f]?.map Routine.bare = code.routines[f]?.map Routine.bare := by
    rw [← Array.getElem?_map, hbare, Array.getElem?_map]
  have hcode : ∀ i, code'.routines[f]?.bind (·.code[i]?) = code.routines[f]?.bind (·.code[i]?) :=
    fun i => hcode ⟨f, i⟩
  cases hnew : code'.routines[f]? with
  | none =>
      rw [hnew, Option.map_none, eq_comm, Option.map_eq_none_iff] at hbare
      exact hbare.symm
  | some routine' =>
      cases hold : code.routines[f]? with
      | none =>
          rw [hnew, hold] at hbare
          cases hbare
      | some routine =>
          simp only [hnew, hold, Option.bind_some] at hcode
          rw [hnew, hold, Option.map_some, Option.map_some, Option.some.injEq] at hbare
          exact congrArg some (Routine.eq_of_bare hbare (Array.ext_getElem? hcode))

/-- The program is what it was only if the jump was aimed there before. -/
theorem OnlyAims.eq_iff (h : code.OnlyAims label code') :
    code' = code ↔ code'.instruction? label.position = code.instruction? label.position := by
  constructor
  · intro hsame
    rw [hsame]
  · intro hjump
    have hroutines : code'.routines = code.routines := by
      refine routines_eq h.functions fun position => ?_
      by_cases hposition : position = label.position
      · rw [hposition, hjump]
      · exact h.others position hposition
    rw [h.rest, hroutines]

end Assembly

/-! ### Requests -/

/-- Something asked of the program or of the scopes that can be refused. -/
inductive Request where
  | aim (position : Position) (target : UInt32)
  | land (label : PendingJump)
  | jumpBack (target : Position) (depth : Nat)
  | closeFunction (locals : UInt16)
  | constant (value : Constant)
  | pop (id : FrameId)
  | frame (id : FrameId)
  | update (id : FrameId) (change : FrameState → FrameState)
  | enclosing (scope : Scope) (span : Span)
  | updateEnclosing (scope : Scope) (span : Span) (change : FrameState → FrameState)
  | takeSlot (span : Span)
  | declare (name : String) (span : Span)

namespace Request

open Workspace

/-- Carry out a request, whatever it hands back. -/
def perform : Request → Action Workspace Unit
  | aim position target => onCode (Assembly.aim position target)
  | land label => onCode (Assembly.land label)
  | jumpBack target depth => do let _ ← onCode (Assembly.jumpBack target depth)
  | closeFunction locals => do let _ ← onCode (Assembly.closeFunction locals)
  | constant value => do let _ ← onCode (Assembly.constant value)
  | pop id => do let _ ← onScopes (ScopeStack.pop id)
  | frame id => do let _ ← onScopes (ScopeStack.frame id)
  | update id change => onScopes (ScopeStack.update id change)
  | enclosing scope span => do let _ ← onScopes (ScopeStack.enclosing scope span)
  | updateEnclosing scope span change => do
    let _ ← onScopes (ScopeStack.enclosing scope span)
    onScopes (Action.modify (ScopeStack.modifyEnclosing scope change))
  | takeSlot span => do let _ ← onScopes (ScopeStack.takeSlot span)
  | declare name span => do let _ ← onScopes (ScopeStack.declare name span)

/-- Whatever is not a landing is refused before anything is written. -/
theorem perform_failsClean {request : Request} (h : ∀ label, request ≠ .land label) :
    request.perform.FailsClean := by
  cases request with
  | aim position target => exact (Assembly.aim_failsClean position target).onCode
  | land label => exact absurd rfl (h label)
  | jumpBack target depth => exact (Assembly.jumpBack_failsClean target depth).onCode.discard
  | closeFunction locals => exact (Assembly.closeFunction_failsClean locals).onCode.discard
  | constant value => exact (Assembly.constant_failsClean value).onCode.discard
  | pop id => exact (ScopeStack.pop_failsClean id).onScopes.discard
  | frame id => exact (ScopeStack.frame_failsClean id).onScopes.discard
  | update id change => exact (ScopeStack.update_failsClean id change).onScopes
  | enclosing scope span => exact (ScopeStack.enclosing_failsClean scope span).onScopes.discard
  | updateEnclosing scope span change =>
      exact (ScopeStack.enclosing_failsClean scope span).onScopes.bind fun _ _ _ _ => nofun
  | takeSlot span => exact (ScopeStack.takeSlot_failsClean span).onScopes.discard
  | declare name span => exact (ScopeStack.declare_failsClean name span).onScopes.discard

theorem perform_land {ws : Workspace} {label : PendingJump} (h : ws.code.Disagrees label) :
    (land label).perform ws =
      .failed (.internal (.joinDepth ws.code.depth ws.code.length label.position.index label.depth))
        { ws with code := ws.code.aimedHere label } :=
  onCode_failed.mpr ⟨_, h.land_eq, rfl⟩

end Request

/-- **A request that is refused has changed nothing, unless it was a landing where the depths
disagree.**  Such a landing is always refused, and leaves its jump aimed at the place where it may
not land.  That is all it changes, and it is no change only if the jump was aimed there before. -/
theorem Workspace.refused_request (ws : Workspace) :
    (∀ (request : Request) (error : CompileError) (ws' : Workspace),
      request.perform ws = .failed error ws' →
        ws' = ws ∨ ∃ label, request = .land label ∧ ws.code.Disagrees label) ∧
    ∀ label, ws.code.Disagrees label →
      ∃ code', (Request.land label).perform ws =
          .failed (.internal
            (.joinDepth ws.code.depth ws.code.length label.position.index label.depth))
            { ws with code := code' } ∧
        ws.code.OnlyAims label code' ∧
        (code' = ws.code ↔
          code'.instruction? label.position = ws.code.instruction? label.position) := by
  refine ⟨?_, ?_⟩
  · intro request error ws' hfailed
    by_cases hland : ∃ label, request = .land label
    · obtain ⟨label, rfl⟩ := hland
      obtain ⟨code', hcode, rfl⟩ := onCode_failed.mp hfailed
      obtain ⟨-, rfl | ⟨hdisagrees, -⟩⟩ := Assembly.land_failed hcode
      · exact .inl rfl
      · exact .inr ⟨label, rfl, hdisagrees⟩
    · have hclean : request.perform.FailsClean :=
        Request.perform_failsClean fun label heq => hland ⟨label, heq⟩
      exact .inl (hclean.eq_of_failed hfailed)
  · intro label h
    have haims := h.toHolds.onlyAims
    exact ⟨ws.code.aimedHere label, Request.perform_land h, haims, haims.eq_iff⟩

/-- A program in which a value is pushed after a conditional jump. -/
def Assembly.uneven : Assembly where
  routines := #[{
    params := 0
    locals := 0
    code := #[⟨.pushTrue, .none⟩, ⟨.jumpIfFalse, .unaimed⟩, ⟨.pushNull, .none⟩]
    lines := #[0, 0, 0]
    depth := 1
    maxDepth := 1
    reachable := true }]
  opened := [0]
  pool := {}
  regions := #[]
  keepLines := true
  line := 0

/-- The main function cannot be closed, and stays as it is.  The jump over the value cannot land
behind it, and leads there all the same. -/
theorem Workspace.uneven_refused :
    (∃ error ws', (Request.closeFunction 0).perform { code := .uneven, scopes := .start true } =
        .failed error ws' ∧
      ws' = { code := .uneven, scopes := .start true }) ∧
    ∃ code', (Request.land ⟨⟨0, 1⟩, 0⟩).perform { code := .uneven, scopes := .start true } =
        .failed (.internal (.joinDepth 1 3 1 0)) { code := code', scopes := .start true } ∧
      code'.instruction? ⟨0, 1⟩ = some ⟨.jumpIfFalse, .target 3⟩ := by
  obtain ⟨hclean, hland⟩ := refused_request { code := .uneven, scopes := .start true }
  refine ⟨?_, ?_⟩
  · obtain hsame | ⟨label, hother, -⟩ := hclean (.closeFunction 0) _ _ rfl
    · exact ⟨_, _, rfl, hsame⟩
    · cases hother
  · have hfound : Assembly.uneven.instruction? ⟨0, 1⟩ =
        some ⟨.jumpIfFalse, .target 4294967295⟩ := rfl
    obtain ⟨code', hrefused, haims, -⟩ :=
      hland ⟨⟨0, 1⟩, 0⟩ ⟨⟨rfl, _, _, hfound⟩, rfl, by decide⟩
    obtain ⟨op, old, hold, hnew⟩ := haims.jump
    obtain rfl : .jumpIfFalse = op :=
      congrArg Instruction.op (Option.some.inj (hfound.symm.trans hold))
    exact ⟨code', hrefused, hnew⟩

/-- Writing the program hands out the label of its jump.  Landing there is refused, and not without
a trace. -/
theorem Assembly.uneven_changed :
    (do
      let _ ← emit .pushTrue .none
      let label ← jump .jumpIfFalse
      let _ ← emit .pushNull .none
      return label : Action Assembly PendingJump) (start true) = .done ⟨⟨0, 1⟩, 0⟩ uneven ∧
    ∃ error ws', (Request.land ⟨⟨0, 1⟩, 0⟩).perform { code := uneven, scopes := .start true } =
        .failed error ws' ∧
      ws' ≠ { code := uneven, scopes := .start true } := by
  refine ⟨rfl, _, _, rfl, ?_⟩
  intro hsame
  have hjump := congrArg (fun ws => ws.code.instruction? ⟨0, 1⟩) hsame
  revert hjump
  decide

end QueryCompiler
