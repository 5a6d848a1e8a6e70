/-
Actions that end as they may.

Where `Actions` takes apart a chain that got done, the lemmas here put one together:
if every link ends as it may, the chain does.  An outcome *meets* a postcondition if
it is done and the postcondition holds, or if it is a failure of an allowed kind.  A
scope is the one place where a failure is not passed on at once; it is closed first,
and whatever becomes of that, the failure that counts is the one from inside.
-/
import QueryCompiler.Compiler
import QueryCompiler.Proofs.Actions

namespace QueryCompiler

/-- The outcome is a value and a state with a property, or an allowed failure. -/
def Outcome.Meets {σ α : Type} (allowed : Failure → Prop) (post : α → σ → Prop) :
    Outcome σ α → Prop
  | .done x s => post x s
  | .failed error _ => allowed (.error error)
  | .fault cause => allowed (.fault cause)

namespace Outcome.Meets

variable {σ α β : Type} {allowed : Failure → Prop} {s : σ}

theorem mono {outcome : Outcome σ α} {post other : α → σ → Prop}
    (h : outcome.Meets allowed post) (himp : ∀ x t, post x t → other x t) :
    outcome.Meets allowed other := by
  cases outcome with
  | done x t => exact himp x t h
  | failed error t => exact h
  | fault fault => exact h

/-- **A chain ends as it may if each of its links does.** -/
theorem bind {first : Action σ α} {next : α → Action σ β} {mid : α → σ → Prop}
    {post : β → σ → Prop} (hfirst : (first s).Meets allowed mid)
    (hnext : ∀ x t, mid x t → (next x t).Meets allowed post) :
    ((first >>= next) s).Meets allowed post := by
  rw [Action.bind_apply]
  cases hdone : first s with
  | done x t =>
      rw [hdone] at hfirst
      exact hnext x t hfirst
  | failed error t =>
      rw [hdone] at hfirst
      exact hfirst
  | fault fault =>
      rw [hdone] at hfirst
      exact hfirst

/-- A loop ends as it may if each round leads from the invariant after what was done to the
invariant after one item more. -/
theorem forM {each : β → Action σ Unit} {items : List β} (inv : List β → σ → Prop)
    (hstart : inv [] s)
    (hround : ∀ (before : List β) (item : β) (after : List β) (t : σ),
      items = before ++ item :: after → inv before t →
      (each item t).Meets allowed fun _ u => inv (before ++ [item]) u) :
    (items.forM each s).Meets allowed fun _ t => inv items t := by
  suffices hrest : ∀ (after before : List β) (t : σ), items = before ++ after → inv before t →
      (after.forM each t).Meets allowed fun _ u => inv items u from hrest items [] s rfl hstart
  intro after
  induction after with
  | nil =>
      intro before t hitems hinv
      rw [List.append_nil] at hitems
      rw [hitems]
      exact hinv
  | cons item after ih =>
      intro before t hitems hinv
      refine bind (hround before item after t hitems hinv) fun _ u hu => ?_
      exact ih (before ++ [item]) u (by simp [hitems]) hu

/-- What is computed in a machine word is at hand, or it did not fit and that is allowed. -/
theorem addWord {a b : Nat} {post : Nat → σ → Prop} (hfit : a + b < wordLimit → post (a + b) s)
    (hover : ¬ a + b < wordLimit → allowed (.fault .overflow)) :
    ((Action.ofWord (QueryCompiler.addWord a b) : Action σ Nat) s).Meets allowed post := by
  unfold QueryCompiler.addWord
  split
  · rename_i hlt
    exact hfit hlt
  · rename_i hlt
    exact hover hlt

/-- Whatever becomes of an action, something is put back after it, and only then does a failure
count. -/
theorem restoring {action : Action σ α} {restore : Action σ Unit} (change : σ → σ)
    {next : α → Action σ β} {mid : α → σ → Prop} {post : β → σ → Prop}
    (hrestore : ∀ t, restore t = .done () (change t)) (haction : (action s).Meets allowed mid)
    (hnext : ∀ x t, mid x t → (next x (change t)).Meets allowed post) :
    ((do
      let result ← action.attempt
      restore
      let x ← Action.ofResult result
      next x : Action σ β) s).Meets allowed post := by
  simp only [Action.bind_apply, Action.attempt]
  cases hdone : action s with
  | done x t =>
      rw [hdone] at haction
      simp only [hrestore]
      exact hnext x t haction
  | failed error t =>
      rw [hdone] at haction
      simp only [hrestore]
      exact haction
  | fault fault =>
      rw [hdone] at haction
      exact haction

end Outcome.Meets

namespace Workspace

variable {α : Type} {allowed : Failure → Prop} {ws : Workspace}

/-- A chain of actions on the code is a chain of actions on the workspace. -/
theorem onCode_bind {β : Type} (first : Action Assembly α) (next : α → Action Assembly β) :
    onCode (first >>= next) = onCode first >>= fun x => onCode (next x) := by
  funext ⟨code, scopes, underway⟩
  simp only [onCode, Action.bind_apply]
  cases first code <;> rfl

theorem onScopes_bind {β : Type} (first : Action ScopeStack α) (next : α → Action ScopeStack β) :
    onScopes (first >>= next) = onScopes first >>= fun x => onScopes (next x) := by
  funext ⟨code, scopes, underway⟩
  simp only [onScopes, Action.bind_apply]
  cases first scopes <;> rfl

theorem onCode_meets {action : Action Assembly α} {post : α → Workspace → Prop}
    (h : (action ws.code).Meets allowed fun x code => post x { ws with code }) :
    (onCode action ws).Meets allowed post := by
  obtain ⟨code, scopes, underway⟩ := ws
  simp only [onCode]
  cases haction : action code <;> rw [haction] at h <;> exact h

theorem onScopes_meets {action : Action ScopeStack α} {post : α → Workspace → Prop}
    (h : (action ws.scopes).Meets allowed fun x scopes => post x { ws with scopes }) :
    (onScopes action ws).Meets allowed post := by
  obtain ⟨code, scopes, underway⟩ := ws
  simp only [onScopes]
  cases haction : action scopes <;> rw [haction] at h <;> exact h

/-- What is done to the scopes leaves the code alone. -/
theorem onScopes_keeps {action : Action ScopeStack α} {post : α → Workspace → Prop}
    (h : (onScopes action ws).Meets allowed post) :
    (onScopes action ws).Meets allowed fun x ws' => post x ws' ∧ ws'.code = ws.code := by
  obtain ⟨code, scopes, underway⟩ := ws
  simp only [onScopes] at h ⊢
  cases haction : action scopes with
  | done x scopes' =>
      rw [haction] at h
      exact ⟨h, rfl⟩
  | failed error scopes' =>
      rw [haction] at h
      exact h
  | fault fault =>
      rw [haction] at h
      exact h

/-! ### Looking at the workspace -/

theorem depth_bind (next : Nat → Action Workspace α) (ws : Workspace) :
    (depth >>= next) ws = next ws.code.depth ws := rfl

theorem position_bind (next : Position → Action Workspace α) (ws : Workspace) :
    (position >>= next) ws = next ws.code.position ws := rfl

theorem reachable_bind (next : Bool → Action Workspace α) (ws : Workspace) :
    (reachable >>= next) ws = next ws.code.reachable ws := rfl

/-! ### Scopes -/

/-- The innermost frame can be closed by whoever opened it. -/
theorem pop_innermost (id : FrameId) {frame : Frame} {outer : List Frame}
    (hframes : ws.scopes.frames = frame :: outer) (hserial : frame.serial = id.serial) :
    onScopes (ScopeStack.pop id) ws = .done frame (ws.left frame) := by
  rw [onScopes_done]
  refine ⟨_, by rw [ScopeStack.pop, hframes]; exact if_pos hserial, ?_⟩
  simp only [left, hframes, List.tail_cons]
  rfl

/-- An attempt to close a frame has no fault. -/
theorem pop_attempt (id : FrameId) (ws : Workspace) :
    ∃ closed after, (onScopes (ScopeStack.pop id)).attempt ws = .done closed after := by
  have hpop : ∀ fault, ScopeStack.pop id ws.scopes ≠ .fault fault := by
    intro fault hfault
    unfold ScopeStack.pop at hfault
    split at hfault
    · cases hfault
    · split at hfault <;> cases hfault
  obtain ⟨code, scopes, underway⟩ := ws
  simp only [Action.attempt, onScopes]
  cases hscopes : ScopeStack.pop id scopes with
  | done frame after => exact ⟨_, _, rfl⟩
  | failed error after => exact ⟨_, _, rfl⟩
  | fault fault => exact absurd hscopes (hpop fault)

/-- **A scope ends as it may if its body does and leaves the frame of the scope innermost.** -/
theorem within_meets {state : FrameState} {body : FrameId → Action Workspace α}
    {post : α × FrameState → Workspace → Prop}
    (h : (body ⟨ws.scopes.nextSerial, state.scope⟩ (ws.entered state)).Meets allowed
      fun x inside => ∃ frame outer, inside.scopes.frames = frame :: outer ∧
        frame.serial = ws.scopes.nextSerial ∧ post (x, frame.state) (inside.left frame)) :
    (within state body ws).Meets allowed post := by
  have hpush : onScopes (ScopeStack.push state) ws =
      .done ⟨ws.scopes.nextSerial, state.scope⟩ (ws.entered state) := rfl
  rw [within, Action.bind_apply, hpush]
  cases hbody : body ⟨ws.scopes.nextSerial, state.scope⟩ (ws.entered state) with
  | done x inside =>
      rw [hbody] at h
      obtain ⟨frame, outer, hframes, hserial, hpost⟩ := h
      have hpop := Action.attempt_ok.mpr
        (pop_innermost ⟨ws.scopes.nextSerial, state.scope⟩ hframes hserial)
      simp only [Action.bind_apply, Action.attempt_ok.mpr hbody, hpop]
      exact hpost
  | failed error inside =>
      rw [hbody] at h
      have hattempt : (body ⟨ws.scopes.nextSerial, state.scope⟩).attempt (ws.entered state) =
          .done (.error error) inside := by rw [Action.attempt, hbody]
      -- Whether the frame can be closed does not matter any more.
      obtain ⟨closed, after, hpop⟩ := pop_attempt ⟨ws.scopes.nextSerial, state.scope⟩ inside
      simp only [Action.bind_apply, hattempt, hpop]
      exact h
  | fault fault =>
      rw [hbody] at h
      have hattempt : (body ⟨ws.scopes.nextSerial, state.scope⟩).attempt (ws.entered state) =
          .fault fault := by rw [Action.attempt, hbody]
      simp only [Action.bind_apply, hattempt]
      exact h

end Workspace

end QueryCompiler
