/-
What is put in order again when a node was lowered.

Whatever becomes of the lowering of a node, done or failed at any depth, the frames that
were open are open again, the line is the one it was, and so is the count of the nodes
that are being lowered.  The count is kept by a dispatcher, which raises it and lowers it
again around every rule.  Rules do not look at it (`Lineless`), so what they do at one
count they do at another, and a dispatcher whose count stands at `n` lowers a node as
`lowerWithin` does with `maxDepth - n` levels left (`dispatchWithin_eq`).  The induction is
on the bound of the dispatcher's recursion, any bound that is not below these levels.
-/
import QueryCompiler.Lowering.Dispatch
import QueryCompiler.Proofs.Lines.Lineless
import QueryCompiler.Proofs.Order.Scopes

namespace QueryCompiler

open Workspace

variable {α : Type} {settings : Settings} {ws : Workspace}

/-! ### Rules and the count -/

namespace Workspace

/-- The workspace with another count of the nodes that are being lowered. -/
def counting (ws : Workspace) (count : Nat) : Workspace :=
  { ws with underway := count }

theorem relined_counting (ws : Workspace) (count : Nat) :
    (Relining.ofLine id).workspace (fun _ => count) ws = ws.counting count := by
  have hroutine : (Relining.ofLine id).routine = id := by
    funext routine
    simp [Relining.routine, Relining.ofLine]
  have hcode : (Relining.ofLine id).code ws.code = ws.code := by
    rw [Relining.code, hroutine, Array.map_id]
    rfl
  rw [Relining.workspace, hcode]
  rfl

/-- The second action does at a count what the first does at any. -/
abbrev CountsAs (count : Nat) (first second : Action Workspace α) : Prop :=
  Action.Shows (fun ws => ws.counting count) id first second

theorem countsAs_iff {count : Nat} {first second : Action Workspace α} :
    CountsAs count first second ↔
      (Relining.ofLine id).Shows (fun _ => count) first second := by
  rw [Relining.Shows, show (Relining.ofLine id).workspace (fun _ => count) =
    fun ws => ws.counting count from funext fun ws => relined_counting ws count]

end Workspace

theorem Lineless.countsAs {act : Lower → Action Workspace α} (h : Lineless act) (count : Nat)
    {lower lower' : Lower} (hlower : ∀ node, CountsAs count (lower node) (lower' node)) :
    CountsAs count (act lower) (act lower') :=
  countsAs_iff.mpr (h.relines _ _ fun node => countsAs_iff.mp (hlower node))

/-- A node is lowered alike at every count. -/
theorem lowerWithin_countsAs (settings : Settings) (count room : Nat) (node : Node) :
    CountsAs count (lowerWithin .standard settings room node)
      (lowerWithin .standard settings room node) := by
  induction room generalizing node with
  | zero => exact fun ws => rfl
  | succ room ih =>
      have hrule := (Rule.standard_lineless node).countsAs count ih
      have hline : ∀ line, Contract.startLine settings node (id line) =
          id (Contract.startLine settings node line) := fun line => rfl
      exact countsAs_iff.mpr
        (Contract.supervise_relined (r := .ofLine id) hline (countsAs_iff.mp hrule))

/-- What comes out the same at the count it started from has kept the count. -/
theorem Workspace.CountsAs.keeps {action : Action Workspace α}
    (h : CountsAs ws.underway action action) :
    (action ws).Leaves fun ws' => ws'.underway = ws.underway := by
  have hsame : action ws = (action ws).seen (fun ws' => ws'.counting ws.underway) id := h ws
  cases haction : action ws with
  | done x ws' =>
      rw [haction] at hsame
      exact (congrArg Workspace.underway (Outcome.done.inj hsame).2).trans rfl
  | failed error ws' =>
      rw [haction] at hsame
      exact (congrArg Workspace.underway (Outcome.failed.inj hsame).2).trans rfl
  | fault fault => trivial

/-! ### A dispatcher and its counter -/

/-- Counting one more node makes no difference to what does not look at the count. -/
theorem Workspace.further_eq {action action' : Action Workspace α}
    (hcounts : CountsAs (ws.underway + 1) action action')
    (hkeeps : (action ws).Leaves fun ws' => ws'.underway = ws.underway) :
    further action' ws = action ws := by
  have hcounted : action' (ws.counting (ws.underway + 1)) =
      (action ws).seen (fun ws' => ws'.counting (ws.underway + 1)) id := hcounts ws
  have hdown : ∀ ws' : Workspace, ws'.underway = ws.underway →
      (ws'.counting (ws.underway + 1)).counting (ws.underway + 1 - 1) = ws' := by
    intro ws' hsame
    rw [Nat.add_sub_cancel, ← hsame]
    rfl
  show ((action'.attempt >>= _) (ws.counting (ws.underway + 1)) : Outcome Workspace α) = _
  rw [Action.bind_apply, Action.attempt, hcounted]
  cases haction : action ws with
  | done x ws' =>
      rw [haction] at hkeeps
      exact congrArg (Outcome.done x) (hdown ws' hkeeps)
  | failed error ws' =>
      rw [haction] at hkeeps
      exact congrArg (Outcome.failed error) (hdown ws' hkeeps)
  | fault fault => rfl

/-- A dispatcher whose counter is at the limit turns every node away. -/
theorem dispatchWithin_full {bound : Nat} (hfull : settings.maxDepth ≤ ws.underway) (node : Node) :
    dispatchWithin .standard settings bound node ws =
      .failed (.tooDeep settings.maxDepth node.span) ws := by
  unfold dispatchWithin
  show (if settings.maxDepth ≤ ws.underway then _ else _ : Action Workspace Unit) ws = _
  rw [if_pos hfull]
  rfl

/-- Otherwise it has the rule of the node applied as the lowering of one more node. -/
theorem dispatchWithin_next {bound : Nat} (hroom : ws.underway < settings.maxDepth) (node : Node) :
    dispatchWithin .standard settings (bound + 1) node ws =
      Contract.supervise settings node (further (Rule.standard node.construct
        (dispatchWithin .standard settings bound) node)) ws := by
  conv => lhs; unfold dispatchWithin
  show (if settings.maxDepth ≤ ws.underway then _ else _ : Action Workspace Unit) ws = _
  rw [if_neg (Nat.not_le_of_lt hroom)]

/-- A rule whose parts are lowered one count further up does what it does with `lowerWithin`. -/
theorem further_rule {count room : Nat} {lower : Lower}
    (hlower : ∀ part, CountsAs (count + 1) (lowerWithin .standard settings room part) (lower part))
    (node : Node) (hcount : ws.underway = count) :
    further (Rule.standard node.construct lower node) ws =
      Rule.standard node.construct (lowerWithin .standard settings room) node ws := by
  subst hcount
  have hlineless := Rule.standard_lineless node
  exact further_eq (hlineless.countsAs (ws.underway + 1) hlower)
    (hlineless.countsAs ws.underway (lowerWithin_countsAs settings _ room)).keeps

/-- A dispatcher that agrees with `lowerWithin` wherever the counter is at `count` does at that count
what `lowerWithin` does at any. -/
theorem dispatchWithin_countsAs {bound count room : Nat} {node : Node}
    (h : ∀ inside : Workspace, inside.underway = count →
      dispatchWithin .standard settings bound node inside =
        lowerWithin .standard settings room node inside) :
    CountsAs count (lowerWithin .standard settings room node)
      (dispatchWithin .standard settings bound node) := by
  intro inside
  exact (h (inside.counting count) rfl).trans (lowerWithin_countsAs settings count room node inside)

/-- **Keeping count comes to the same as being told how many levels are left.** -/
theorem dispatchWithin_eq {bound : Nat} (h : settings.maxDepth - ws.underway ≤ bound)
    (node : Node) :
    dispatchWithin .standard settings bound node ws =
      lowerWithin .standard settings (settings.maxDepth - ws.underway) node ws := by
  induction bound generalizing node ws with
  | zero =>
      rw [dispatchWithin_full (Nat.le_of_sub_eq_zero (Nat.le_zero.mp h)), Nat.le_zero.mp h]
      rfl
  | succ bound ih =>
      obtain hfull | hroom := le_or_gt settings.maxDepth ws.underway
      · rw [dispatchWithin_full hfull, Nat.sub_eq_zero_of_le hfull]
        rfl
      · obtain ⟨room, hleft⟩ : ∃ room, settings.maxDepth - ws.underway = room + 1 :=
          ⟨settings.maxDepth - ws.underway - 1, by omega⟩
        have hpart : ∀ part, CountsAs (ws.underway + 1)
            (lowerWithin .standard settings room part)
            (dispatchWithin .standard settings bound part) := by
          intro part
          refine dispatchWithin_countsAs fun inside hcount => ?_
          rw [ih (by omega) part, show settings.maxDepth - inside.underway = room by omega]
        have hrule : ∀ line, further (Rule.standard node.construct
              (dispatchWithin .standard settings bound) node) (ws.atLine line) =
            Rule.standard node.construct (lowerWithin .standard settings room) node
              (ws.atLine line) := fun line => further_rule hpart node rfl
        have hlower : lowerWithin .standard settings (room + 1) node ws =
            Contract.supervise settings node (Rule.standard node.construct
              (lowerWithin .standard settings room) node) ws := rfl
        rw [dispatchWithin_next hroom, hleft, hlower, Contract.supervise_apply,
          Contract.supervise_apply, hrule]

/-- A dispatcher lowers with the levels that its counter leaves. -/
theorem dispatch_eq (settings : Settings) (node : Node) (ws : Workspace) :
    dispatch .standard settings node ws =
      lowerWithin .standard settings (settings.maxDepth - ws.underway) node ws :=
  dispatchWithin_eq (Nat.sub_le ..) node

/-! ### Restored scopes -/

/-- What was changed was put in order again: the same frames are open, and what lasts of them is the
same; the events in between are well nested; as many scopes were closed as were opened; and the
line and the count of nodes are the ones they were. -/
structure Workspace.Restored (before after : Workspace) : Prop where
  serials : after.scopes.frames.map Frame.serial = before.scopes.frames.map Frame.serial
  scopes : after.scopes.frames.map Frame.scope = before.scopes.frames.map Frame.scope
  lasting : Frame.lasting after.scopes.frames = Frame.lasting before.scopes.frames
  events : ∃ events, ScopeEvent.wellNested events = true ∧
    after.scopes.history = before.scopes.history ++ events
  balanced : ∃ count, after.scopes.counts.pushes = before.scopes.counts.pushes + count ∧
    after.scopes.counts.pops = before.scopes.counts.pops + count
  line : after.code.line = before.code.line
  underway : after.underway = before.underway

theorem ScopeStack.Passed.restored {n : Nesting} {ws ws' : Workspace}
    (h : ws.scopes.Passed none n ws'.scopes) (hline : ws'.code.line = ws.code.line)
    (hunderway : ws'.underway = ws.underway) : ws.Restored ws' where
  serials := h.serials
  scopes := Frame.map_scope_of_lasting h.frames
  lasting := h.frames
  events := by
    unfold ScopeStack.history
    rw [h.events]
    cases ws.scopes.events with
    | none => exact ⟨[], rfl, rfl⟩
    | some events =>
        exact ⟨_, n.wellNested_events ws.scopes.nextSerial ws.scopes.height, by simp⟩
  balanced := ⟨n.count, h.pushes, h.pops⟩
  line := hline
  underway := hunderway

theorem Outcome.Nests.restores {n : Nesting} {outcome : Outcome Workspace α}
    (h : outcome.Nests none n ws)
    (hunderway : outcome.Leaves fun ws' => ws'.underway = ws.underway) :
    outcome.Leaves ws.Restored := by
  cases outcome with
  | done x ws' => exact h.1.restored h.2 hunderway
  | failed error ws' =>
      obtain ⟨m, hpassed, hline⟩ := h
      exact hpassed.restored hline hunderway
  | fault fault => trivial

/-- An orderly action that does not look at the count puts everything in order again. -/
theorem Orderly.restores {plan : Plan} {act : Lower → Action Workspace α}
    (h : Orderly Assembly.KeepsLine none plan act) (hlineless : Lineless act) (settings : Settings)
    (room : Nat) (hws : ws.scopes.Reached) :
    (act (lowerWithin .standard settings room) ws).Leaves ws.Restored := by
  have hkeeps : CountsAs ws.underway (act (lowerWithin .standard settings room)) _ :=
    hlineless.countsAs _ (lowerWithin_countsAs settings _ room)
  exact (h.nests (fun node _ => lowerWithin_nests settings room node) hws.fit).restores hkeeps.keeps

namespace Lower

variable {lower lower' : Lower} {node : Node}

/-- A node is only asked for once where a value is needed. -/
theorem value_at (h : lower' node ws = lower node ws) :
    lower'.value node ws = lower.value node ws := by
  unfold Lower.value
  cases node.construct.balance with
  | value => exact h
  | diverges =>
      show (lower' node >>= _) ws = (lower node >>= _) ws
      rw [Action.bind_apply, Action.bind_apply, h]
  | effect => rfl

theorem statement_at (h : lower' node ws = lower node ws) :
    lower'.statement node ws = lower.statement node ws := by
  unfold Lower.statement
  rw [Action.bind_apply, Action.bind_apply, h]

end Lower

/-- **Everything is in order again on every way out of a lowering,** whether it gets done or fails,
at any depth of any tree and wherever the counter of the dispatcher stands: the frames that were
open are open again, nothing about them has changed that may not change, all events are well
nested, and the line and the counter are put back. -/
theorem dispatch_restores (settings : Settings) (node : Node) (ws : Workspace)
    (hws : ws.scopes.Reached) :
    (dispatch .standard settings node ws).Leaves ws.Restored ∧
      ((dispatch .standard settings).value node ws).Leaves ws.Restored ∧
      ((dispatch .standard settings).statement node ws).Leaves ws.Restored := by
  have hdispatch := dispatch_eq settings node ws
  rw [hdispatch, Lower.value_at hdispatch, Lower.statement_at hdispatch]
  refine ⟨?_, ?_, ?_⟩
  · exact Orderly.restores (.part node) (.part node) settings _ hws
  · exact Orderly.restores (Orderly.value node).keepsLine
      (Matched.value (a := .keep) node).lineless settings _ hws
  · exact Orderly.restores (Orderly.statement node).keepsLine
      (Matched.statement (a := .keep) node).lineless settings _ hws

/-- A `break` inside of a list, which lies on the operand stack and does not belong to the loop. -/
def heldBreak : Node :=
  .whileLoop (.param "p" {}) (.block [.run (.list [.breakLoop ⟨2, 3, 5⟩] {}) {}] {}) {}

/-- The body of a function that is lowered while two nodes are. -/
def belowTwo : Workspace :=
  { (Compiler.start {} true).entered (.function 0 0) with underway := 2 }

theorem heldBreak_restored :
    ∃ error ws', dispatch .standard {} heldBreak belowTwo = .failed error ws' ∧
      belowTwo.Restored ws' ∧ ws'.scopes.counts.pushes = 3 ∧ ws'.underway = 2 := by
  have hreached : belowTwo.scopes.Reached := .push (.start true) rfl
  have hfails : (match dispatch .standard {} heldBreak belowTwo with
      | .failed _ ws' => some ws'.scopes.counts.pushes
      | _ => none) = some 3 := by decide +kernel
  have hleaves := (dispatch_restores {} heldBreak belowTwo hreached).1
  cases hlower : dispatch .standard {} heldBreak belowTwo with
  | done u ws' =>
      rw [hlower] at hfails
      cases hfails
  | failed error ws' =>
      rw [hlower] at hfails hleaves
      exact ⟨error, ws', rfl, hleaves, Option.some.inj hfails, hleaves.underway⟩
  | fault fault =>
      rw [hlower] at hfails
      cases hfails

end QueryCompiler
