/-
Actions that get done.

A lowering is a long chain of actions, and nearly everything there is to say about
it concerns chains that reach their end.  Such a chain comes apart at every link:
if `first >>= next` got done then `first` did, with some value and some state, and
`next` went on from there.  The lemmas here take one link off at a time, first for
the ways of putting actions together and then for the operations on a workspace,
whose effect they give as a plain function of the workspace before.  Chains that fail
come apart in the same way, at the link that failed.
-/
import QueryCompiler.Lowering.Workspace

namespace QueryCompiler

namespace Action

variable {σ α β : Type} {s t : σ}

/-- **A chain got done exactly if each of its two parts did.** -/
theorem bind_done {first : Action σ α} {next : α → Action σ β} {y : β} :
    (first >>= next) s = .done y t ↔ ∃ x u, first s = .done x u ∧ next x u = .done y t := by
  rw [bind_apply]
  constructor
  · intro h
    cases hfirst : first s with
    | done x u => rw [hfirst] at h; exact ⟨x, u, rfl, h⟩
    | failed error u => rw [hfirst] at h; cases h
    | fault fault => rw [hfirst] at h; cases h
  · intro h
    obtain ⟨x, u, hfirst, hnext⟩ := h
    rw [hfirst]
    exact hnext

/-- A chain failed exactly if its first part did, or its second part after the first got done. -/
theorem bind_failed {first : Action σ α} {next : α → Action σ β} {error : CompileError} :
    (first >>= next) s = .failed error t ↔
      first s = .failed error t ∨ ∃ x u, first s = .done x u ∧ next x u = .failed error t := by
  rw [bind_apply]
  cases first s <;> simp [and_assoc]

theorem pure_done {x y : α} : (Pure.pure x : Action σ α) s = .done y t ↔ x = y ∧ s = t := by
  rw [pure_apply, Outcome.done.injEq]

theorem not_fail_done {error : CompileError} {y : α} :
    ¬ (fail error : Action σ α) s = .done y t := nofun

theorem not_raise_done {fault : Fault} {y : α} :
    ¬ (raise fault : Action σ α) s = .done y t := nofun

theorem read_done {view : σ → α} {y : α} : read view s = .done y t ↔ view s = y ∧ s = t := by
  rw [read, Outcome.done.injEq]

theorem modify_done {change : σ → σ} {u : Unit} :
    modify change s = .done u t ↔ change s = t := by
  simp [modify]

theorem ofWord_done {result : Except Fault α} {y : α} :
    (ofWord result : Action σ α) s = .done y t ↔ result = .ok y ∧ s = t := by
  cases result with
  | ok value =>
      rw [Except.ok.injEq]
      exact pure_done
  | error fault => exact ⟨nofun, nofun⟩

theorem ofResult_done {result : Except CompileError α} {y : α} :
    (ofResult result : Action σ α) s = .done y t ↔ result = .ok y ∧ s = t := by
  cases result with
  | ok value =>
      rw [Except.ok.injEq]
      exact pure_done
  | error error => exact ⟨nofun, nofun⟩

/-- An attempt that ends in a value is one whose action got done. -/
theorem attempt_ok {action : Action σ α} {x : α} :
    action.attempt s = .done (.ok x) t ↔ action s = .done x t := by
  unfold attempt
  cases action s <;> simp

theorem forM_nil_done {each : β → Action σ Unit} {u : Unit} :
    ([] : List β).forM each s = .done u t ↔ s = t := by
  show (Pure.pure () : Action σ Unit) s = .done u t ↔ s = t
  rw [pure_done]
  simp

theorem forM_cons_done {each : β → Action σ Unit} {x : β} {rest : List β} {u : Unit} :
    (x :: rest).forM each s = .done u t ↔
      ∃ r, each x s = .done () r ∧ rest.forM each r = .done () t := by
  show (each x >>= fun _ => rest.forM each) s = .done u t ↔ _
  rw [bind_done]
  exact ⟨fun ⟨_, r, hx, hrest⟩ => ⟨r, hx, hrest⟩, fun ⟨r, hx, hrest⟩ => ⟨(), r, hx, hrest⟩⟩

end Action

theorem addWord_ok {a b sum : Nat} (h : addWord a b = .ok sum) : sum = a + b ∧ sum < wordLimit := by
  unfold addWord at h
  split at h
  · rename_i hlt
    cases h
    exact ⟨rfl, hlt⟩
  · cases h

/-- The frames with a name declared in the innermost one. -/
def Frame.bindName (name : String) (slot : UInt16) : List Frame → List Frame
  | [] => []
  | frame :: outer => frame.declare name slot :: outer

/-- Writing an instruction gets done or ends in a fault. -/
theorem Assembly.emit_ne_failed {op : Opcode} {operand : Operand} {error : CompileError}
    {code code' : Assembly} : emit op operand code ≠ .failed error code' := by
  unfold emit
  dsimp only
  split
  · nofun
  · split
    · nofun
    · split <;> nofun

namespace Workspace

variable {α : Type} {ws ws' : Workspace}

theorem onCode_done {action : Action Assembly α} {x : α} :
    onCode action ws = .done x ws' ↔
      ∃ code, action ws.code = .done x code ∧ { ws with code } = ws' := by
  obtain ⟨code, scopes, underway⟩ := ws
  simp only [onCode]
  cases action code <;> simp [and_assoc]

theorem onScopes_done {action : Action ScopeStack α} {x : α} :
    onScopes action ws = .done x ws' ↔
      ∃ scopes, action ws.scopes = .done x scopes ∧ { ws with scopes } = ws' := by
  obtain ⟨code, scopes, underway⟩ := ws
  simp only [onScopes]
  cases action scopes <;> simp [and_assoc]

theorem onCode_failed {action : Action Assembly α} {error : CompileError} :
    onCode action ws = .failed error ws' ↔
      ∃ code, action ws.code = .failed error code ∧ { ws with code } = ws' := by
  obtain ⟨code, scopes, underway⟩ := ws
  simp only [onCode]
  cases action code <;> simp [and_assoc]

theorem onScopes_failed {action : Action ScopeStack α} {error : CompileError} :
    onScopes action ws = .failed error ws' ↔
      ∃ scopes, action ws.scopes = .failed error scopes ∧ { ws with scopes } = ws' := by
  obtain ⟨code, scopes, underway⟩ := ws
  simp only [onScopes]
  cases action scopes <;> simp [and_assoc]

/-! ### Code

Whatever is done to the code, bar opening and closing functions, is done to the
routine that is being written: an instruction is put at its end, a jump in it is
aimed at that end, or the depth at that end is set.
-/

/-- The workspace with another routine in the place of the one that is being written. -/
def revise (ws : Workspace) (change : Routine → Routine) : Workspace :=
  { ws with code := ws.code.modifyCurrent change }

/-- The workspace with one more instruction. -/
def wrote (ws : Workspace) (instruction : Instruction) : Workspace :=
  ws.revise fun routine => routine.append instruction ws.code.noted?
    (ws.code.depth - instruction.stackUse.pops + instruction.stackUse.pushes)

/-- The workspace with a jump aimed at the next instruction. -/
def landed (ws : Workspace) (label : PendingJump) : Workspace :=
  ws.revise fun routine =>
    (routine.aim label.position.index ws.code.length.toUInt32).land label.depth

/-- The workspace with the source line of the instructions to come. -/
def atLine (ws : Workspace) (line : Nat) : Workspace :=
  { ws with code := ws.code.moveToLine line }

/-- The workspace with another constant pool. -/
def pooled (ws : Workspace) (pool : Pool) : Workspace :=
  { ws with code := { ws.code with pool } }

theorem emit_done {op : Opcode} {operand : Operand} {position : Position} {code : Assembly}
    (h : Assembly.emit op operand ws.code = .done position code) :
    position = ws.code.position ∧
      ws.code.depth - (Instruction.mk op operand).stackUse.pops +
        (Instruction.mk op operand).stackUse.pushes < wordLimit ∧
      { ws with code } = ws.wrote ⟨op, operand⟩ := by
  simp only [Assembly.emit] at h
  split at h
  · cases h
  · split at h
    · cases h
    · split at h
      · cases h
      · rename_i after hafter
        obtain ⟨rfl, hlt⟩ := addWord_ok hafter
        simp only [Outcome.done.injEq] at h
        exact ⟨h.1.symm, hlt, by rw [← h.2]; rfl⟩

theorem emitWith_done {op : Opcode} {operand : Operand} {u : Unit}
    (h : emitWith op operand ws = .done u ws') :
    ws.code.depth - (Instruction.mk op operand).stackUse.pops +
        (Instruction.mk op operand).stackUse.pushes < wordLimit ∧
      ws' = ws.wrote ⟨op, operand⟩ := by
  simp only [emitWith, Action.bind_done, onCode_done, Action.pure_done] at h
  obtain ⟨_, _, ⟨code, hemit, rfl⟩, -, rfl⟩ := h
  exact (emit_done hemit).2

theorem constant_done {value : Constant} {id : UInt32}
    (h : onCode (Assembly.constant value) ws = .done id ws') :
    ∃ pool, ws.code.pool.add value = .ok (id, pool) ∧ ws' = ws.pooled pool := by
  simp only [onCode_done, Assembly.constant] at h
  obtain ⟨code, hadd, rfl⟩ := h
  split at hadd
  · rename_i hok
    simp only [Outcome.done.injEq] at hadd
    obtain ⟨rfl, rfl⟩ := hadd
    exact ⟨_, hok, rfl⟩
  · cases hadd

theorem pushConstant_done {value : Constant} {u : Unit}
    (h : pushConstant value ws = .done u ws') :
    ∃ id pool, ws.code.pool.add value = .ok (id, pool) ∧
      emitWith .loadConst (.const id) (ws.pooled pool) = .done () ws' := by
  simp only [pushConstant, Assembly.pushConstant, Action.bind_done, onCode_done,
    Action.pure_done] at h
  obtain ⟨_, _, ⟨code, ⟨id, c, hconst, hemit⟩, rfl⟩, -, rfl⟩ := h
  obtain ⟨pool, hadd, hpool⟩ := constant_done (onCode_done.mpr ⟨c, hconst, rfl⟩)
  refine ⟨id, pool, hadd, ?_⟩
  rw [← hpool]
  simp only [emitWith, Action.bind_done, onCode_done, Action.pure_done]
  exact ⟨_, _, ⟨code, hemit, rfl⟩, trivial, rfl⟩

theorem emitName_done {op : Opcode} {text : String} {u : Unit}
    (h : emitName op text ws = .done u ws') :
    ∃ id pool, ws.code.pool.add (.string text) = .ok (id, pool) ∧
      emitWith op (.const id) (ws.pooled pool) = .done () ws' := by
  simp only [emitName, Action.bind_done] at h
  obtain ⟨id, ws₁, hname, hemit⟩ := h
  obtain ⟨pool, hadd, rfl⟩ := constant_done hname
  exact ⟨id, pool, hadd, hemit⟩

/-- A forward jump carries the depth it will arrive with. -/
theorem jump_done {op : Opcode} {label : PendingJump} (h : jump op ws = .done label ws') :
    ∃ use, op.branchUse? = some use ∧
      label = ⟨ws.code.position, ws.code.depth - use.pops + use.pushes⟩ ∧
      label.depth < wordLimit ∧ emitWith op .unaimed ws = .done () ws' := by
  simp only [jump, onCode_done, Assembly.jump] at h
  obtain ⟨code, hjump, rfl⟩ := h
  split at hjump
  · cases hjump
  · rename_i use huse
    split at hjump
    · cases hjump
    · rename_i depth hdepth
      obtain ⟨rfl, hlt⟩ := addWord_ok hdepth
      split at hjump
      · rename_i position code' hemit
        simp only [Outcome.done.injEq] at hjump
        obtain ⟨rfl, rfl⟩ := hjump
        refine ⟨use, huse, ?_, hlt, ?_⟩
        · rw [(emit_done hemit).1]
        · simp only [emitWith, Action.bind_done, onCode_done, Action.pure_done]
          exact ⟨_, _, ⟨_, hemit, rfl⟩, trivial, rfl⟩
      · cases hjump
      · cases hjump

theorem jumpBack_done {target : Position} {depth : Nat} {u : Unit}
    (h : jumpBack target depth ws = .done u ws') :
    (ws.code.reachable = true → ws.code.depth = depth) ∧
      emitWith .jump (.target target.index.toUInt32) ws = .done () ws' := by
  simp only [jumpBack, Action.bind_done, onCode_done, Action.pure_done, Assembly.jumpBack] at h
  obtain ⟨position, _, ⟨code, hjump, rfl⟩, -, rfl⟩ := h
  split at hjump
  · cases hjump
  · split at hjump
    · cases hjump
    · rename_i hdepth
      refine ⟨?_, ?_⟩
      · intro hreach
        simpa [hreach] using hdepth
      · simp only [emitWith, Action.bind_done, onCode_done, Action.pure_done]
        exact ⟨_, _, ⟨_, hjump, rfl⟩, trivial, rfl⟩

theorem revise_revise (ws : Workspace) (f g : Routine → Routine) :
    (ws.revise f).revise g = ws.revise fun routine => g (f routine) := by
  have hmodify : ∀ (xs : Array Routine) (i : Nat),
      (xs.modify i f).modify i g = xs.modify i fun routine => g (f routine) := by
    intro xs i
    refine Array.ext (by simp) fun j _ _ => ?_
    simp only [Array.getElem_modify]
    split <;> rfl
  simp only [revise, Assembly.modifyCurrent, Assembly.currentFunction, hmodify]

/-- What a change to the routine leaves alone can be read off as before. -/
theorem revise_view {β : Type} (view : Routine → β) (f : Routine → Routine)
    (h : ∀ routine, view (f routine) = view routine) (ws : Workspace) :
    view (ws.revise f).code.current = view ws.code.current := by
  simp only [revise, Assembly.current, Assembly.modifyCurrent, Assembly.currentFunction,
    Array.getD_eq_getD_getElem?, Array.getElem?_modify, if_true]
  cases ws.code.routines[ws.code.opened.headD 0]? with
  | none => rfl
  | some routine => exact h routine

/-- A forward jump lands in its own function, and control that gets there otherwise has the depth
the jump arrives with. -/
theorem land_done {label : PendingJump} {u : Unit} (h : land label ws = .done u ws') :
    label.position.function = ws.code.currentFunction ∧
      (ws.code.reachable = true → ws.code.depth = label.depth) ∧ ws' = ws.landed label := by
  simp only [land, onCode_done, Assembly.land] at h
  obtain ⟨code, hland, rfl⟩ := h
  split at hland
  · cases hland
  · rename_i hfun
    have hcur : label.position.function = ws.code.currentFunction := Decidable.not_not.mp hfun
    obtain ⟨_, aimed, haim, hjoin⟩ := Action.bind_done.mp hland
    let aim : Routine → Routine :=
      fun routine => routine.aim label.position.index ws.code.length.toUInt32
    have haimed : { ws with code := aimed } = ws.revise aim := by
      simp only [Assembly.aim] at haim
      split at haim
      · cases haim
      · split at haim
        · cases haim
        · simp only [Outcome.done.injEq, true_and] at haim
          rw [← haim, hcur]
          rfl
    have hreach : aimed.reachable = ws.code.reachable := by
      rw [show aimed = (ws.revise aim).code from congrArg Workspace.code haimed]
      exact revise_view Routine.reachable aim (fun _ => rfl) ws
    have hdepth : aimed.depth = ws.code.depth := by
      rw [show aimed = (ws.revise aim).code from congrArg Workspace.code haimed]
      exact revise_view Routine.depth aim (fun _ => rfl) ws
    simp only [Assembly.join] at hjoin
    split at hjoin
    · cases hjoin
    · rename_i hagree
      rw [hreach, hdepth] at hagree
      simp only [Outcome.done.injEq, true_and] at hjoin
      refine ⟨hcur, ?_, ?_⟩
      · intro hlive
        simpa [hlive] using hagree
      · calc { ws with code }
            = { ws with code := aimed }.revise fun routine => routine.land label.depth := by
              rw [← hjoin]
              rfl
          _ = (ws.revise aim).revise fun routine => routine.land label.depth := by rw [haimed]
          _ = ws.landed label := revise_revise ..

theorem resetDepth_done {depth : Nat} {u : Unit} (h : resetDepth depth ws = .done u ws') :
    ws' = ws.revise fun routine => routine.setDepth depth := by
  simp only [resetDepth, onCode_done, Action.modify_done] at h
  obtain ⟨_, rfl, rfl⟩ := h
  rfl

theorem depth_done {depth : Nat} (h : Workspace.depth ws = .done depth ws') :
    depth = ws.code.depth ∧ ws = ws' := by
  simp only [Workspace.depth, onCode_done, Action.read_done] at h
  obtain ⟨_, ⟨rfl, rfl⟩, rfl⟩ := h
  exact ⟨rfl, rfl⟩

theorem position_done {position : Position} (h : Workspace.position ws = .done position ws') :
    position = ws.code.position ∧ ws = ws' := by
  simp only [Workspace.position, onCode_done, Action.read_done] at h
  obtain ⟨_, ⟨rfl, rfl⟩, rfl⟩ := h
  exact ⟨rfl, rfl⟩

theorem reachable_done {reachable : Bool} (h : Workspace.reachable ws = .done reachable ws') :
    reachable = ws.code.reachable ∧ ws = ws' := by
  simp only [Workspace.reachable, onCode_done, Action.read_done] at h
  obtain ⟨_, ⟨rfl, rfl⟩, rfl⟩ := h
  exact ⟨rfl, rfl⟩

/-! ### Scopes -/

/-- The workspace with other frames. -/
def reframe (ws : Workspace) (change : List Frame → List Frame) : Workspace :=
  { ws with scopes := { ws.scopes with frames := change ws.scopes.frames } }

/-- The workspace inside a new scope. -/
def entered (ws : Workspace) (state : FrameState) : Workspace :=
  { ws with scopes := { ws.scopes with
    frames := ⟨ws.scopes.nextSerial, [], state⟩ :: ws.scopes.frames
    nextSerial := ws.scopes.nextSerial + 1
    counts := { ws.scopes.counts with
      pushes := ws.scopes.counts.pushes + 1
      maxHeight := max ws.scopes.counts.maxHeight (ws.scopes.height + 1) }
    events := ws.scopes.events.map fun events =>
      events.push (.entered ws.scopes.nextSerial state.scope (ws.scopes.height + 1)) } }

/-- The workspace after the innermost scope, whose frame is `frame`. -/
def left (ws : Workspace) (frame : Frame) : Workspace :=
  { ws with scopes := { ws.scopes with
    frames := ws.scopes.frames.tail
    counts := { ws.scopes.counts with pops := ws.scopes.counts.pops + 1 }
    events := ws.scopes.events.map fun events => events.push (.left frame.serial frame.scope) } }

/-- **A scope that was closed in the end was the innermost one then.** -/
theorem within_done {state last : FrameState} {body : FrameId → Action Workspace α} {x : α}
    (h : within state body ws = .done (x, last) ws') :
    ∃ (inside : Workspace) (frame : Frame) (outer : List Frame),
      body ⟨ws.scopes.nextSerial, state.scope⟩ (ws.entered state) = .done x inside ∧
      inside.scopes.frames = frame :: outer ∧ frame.serial = ws.scopes.nextSerial ∧
      frame.state = last ∧ ws' = inside.left frame := by
  simp only [within, Action.bind_done, onScopes_done, Action.ofResult_done, Action.pure_done,
    ScopeStack.push, Outcome.done.injEq] at h
  obtain ⟨id, _, ⟨_, ⟨rfl, rfl⟩, rfl⟩, result, inside, hbody, closed, _, hpop, value, _,
    ⟨rfl, rfl⟩, frame, _, ⟨rfl, rfl⟩, hvalue, rfl⟩ := h
  simp only [Prod.mk.injEq] at hvalue
  obtain ⟨rfl, rfl⟩ := hvalue
  rw [Action.attempt_ok] at hbody hpop
  simp only [onScopes_done, ScopeStack.pop] at hpop
  obtain ⟨scopes, hpop, rfl⟩ := hpop
  split at hpop
  · cases hpop
  · rename_i top outer hframes
    split at hpop
    · rename_i hserial
      simp only [Outcome.done.injEq] at hpop
      obtain ⟨rfl, rfl⟩ := hpop
      refine ⟨inside, top, outer, hbody, hframes, hserial, rfl, ?_⟩
      simp only [left, hframes, List.tail_cons]
      rfl
    · cases hpop

theorem update_done {id : FrameId} {change : FrameState → FrameState} {u : Unit}
    (h : update id change ws = .done u ws') :
    ws' = ws.reframe fun frames => frames.map fun frame =>
      if frame.serial = id.serial then frame.modify change else frame := by
  simp only [update, onScopes_done, ScopeStack.update] at h
  obtain ⟨scopes, hupdate, rfl⟩ := h
  split at hupdate
  · simp only [Outcome.done.injEq, true_and] at hupdate
    rw [← hupdate]
    rfl
  · cases hupdate

/-- A slot is the next one of the innermost function, which then has one less to give. -/
theorem takeSlot_done {span : Span} {slot : UInt16} (h : takeSlot span ws = .done slot ws') :
    ws.scopes.nextSlot? = some slot ∧ slot.toNat < Frame.slotLimit ∧
      ws' = ws.reframe (Frame.modifyInnermost .function FrameState.takeSlot) := by
  simp only [takeSlot, onScopes_done, ScopeStack.takeSlot] at h
  obtain ⟨scopes, htake, rfl⟩ := h
  split at htake
  · cases htake
  · rename_i next hnext
    split at htake
    · cases htake
    · rename_i hroom
      simp only [Outcome.done.injEq] at htake
      obtain ⟨rfl, rfl⟩ := htake
      exact ⟨hnext, Nat.lt_of_not_le hroom, rfl⟩

theorem declare_done {name : Name} {slot : UInt16} (h : declare name ws = .done slot ws') :
    ∃ ws₁, takeSlot name.span ws = .done slot ws₁ ∧
      ws' = ws₁.reframe (Frame.bindName name.text slot) := by
  simp only [declare, onScopes_done, ScopeStack.declare, Action.bind_done, Action.modify_done,
    Action.pure_done] at h
  obtain ⟨_, ⟨_, taken, htake, _, _, rfl, rfl, rfl⟩, rfl⟩ := h
  refine ⟨{ ws with scopes := taken }, ?_, ?_⟩
  · simp only [takeSlot, onScopes_done]
    exact ⟨taken, htake, rfl⟩
  · simp only [reframe, ScopeStack.bindName]
    cases hframes : taken.frames with
    | nil => simp [Frame.bindName, ← hframes]
    | cons frame outer => simp [Frame.bindName]

theorem findLocal_done {name : String} {found : Option SlotRef}
    (h : findLocal name ws = .done found ws') :
    Frame.findLocal name 0 ws.scopes.frames = .ok found ∧ ws = ws' := by
  simp only [findLocal, onScopes_done, ScopeStack.findLocal] at h
  obtain ⟨scopes, hfind, rfl⟩ := h
  split at hfind
  · rename_i hok
    simp only [Outcome.done.injEq] at hfind
    obtain ⟨rfl, rfl⟩ := hfind
    exact ⟨hok, rfl⟩
  · cases hfind

theorem findElement_done {span : Span} {ref : SlotRef}
    (h : findElement span ws = .done ref ws') :
    Frame.findElement 0 ws.scopes.frames = .ok (some ref) ∧ ws = ws' := by
  simp only [findElement, onScopes_done, ScopeStack.findElement] at h
  obtain ⟨scopes, hfind, rfl⟩ := h
  split at hfind
  · rename_i hok
    simp only [Outcome.done.injEq] at hfind
    obtain ⟨rfl, rfl⟩ := hfind
    exact ⟨hok, rfl⟩
  · cases hfind
  · cases hfind

end Workspace

end QueryCompiler
