/-
What the rules for conditionals write.

The jumps from the ends of the arms are noted in the frame of the conditional and
land once the frame is closed.  Until then they are both exits of the passage and
holes in it, and that the frame gives back just these is what `Passes.leave` says.
-/
import QueryCompiler.Proofs.Layout.Statements

namespace QueryCompiler.Layout

open Workspace

variable {lower : Lower} {ws ws' : Workspace} {u : Unit}

/-- Jump to the end of a conditional, if that is wanted. -/
def exitArm (id : FrameId) (wanted : Bool) : Action Workspace Unit :=
  if wanted then do
    let exit ← jump .jump
    update id (FrameState.addExit exit)
  else pure ()

/-- The rest of a conditional is the same, whether its last arm jumps to the end or not. -/
theorem exitArm_done {α : Type} {id : FrameId} {wanted : Bool} {rest : Action Workspace α} {x : α}
    (h : (if wanted = true then do
      let exit ← jump .jump
      update id (FrameState.addExit exit)
      rest
    else rest) ws = .done x ws') :
    ∃ ws₁, exitArm id wanted ws = .done () ws₁ ∧ rest ws₁ = .done x ws' := by
  cases wanted with
  | true =>
      simp only [if_true, Action.bind_done] at h
      obtain ⟨exit, ws₁, hjump, _, ws₂, hupdate, hrest⟩ := h
      exact ⟨ws₂, Action.bind_done.mpr ⟨exit, ws₁, hjump, hupdate⟩, hrest⟩
  | false => exact ⟨ws, rfl, h⟩

theorem exitArm_passes {id : FrameId} (wanted : Bool) (hs : ws.Sound)
    (hid : ws.shape.head?.map Prod.fst = some id.serial)
    (h : exitArm id (wanted && ws.code.reachable) ws = .done u ws') :
    ∃ exits, Passes (fun F _ => ∀ target, (∀ label ∈ exits, F.Aims .jump label target) →
        Leaves F wanted target (exits.map PendingJump.depth) ws.spot ws'.spot) exits
      (exits.map fun label => (.jump, label)) ws ws' := by
  unfold exitArm at h
  split at h
  · rename_i hwanted
    obtain ⟨exit, ws₁, hjump, hupdate⟩ := Action.bind_done.mp h
    obtain ⟨htaken, hjump⟩ := Passes.jump hs hjump
    have hid₁ : ws₁.shape.head?.map Prod.fst = some id.serial := by
      rw [hjump.shape]
      exact hid
    obtain ⟨hspot, hupdate⟩ := Passes.addExit hjump.sound hid₁ hupdate
    refine ⟨[exit], (hjump.and hs hupdate).mono ?_⟩
    intro F s hF target haimed
    rw [hspot, List.map_singleton, htaken]
    exact .jumps hwanted (hF.1 target (haimed exit List.mem_cons_self))
  · rename_i hwanted
    obtain ⟨-, rfl⟩ := Action.pure_done.mp h
    refine ⟨[], (Passes.stay hs).mono ?_⟩
    intro F s _ target _
    exact .stays (eq_false_of_ne_true hwanted)

theorem ternary_lays (hl : Faithful lower) {condition whenTrue whenFalse : Node} {span : Span}
    (hs : ws.Sound)
    (h : Rule.ternary lower (.ternary condition whenTrue whenFalse span) ws = .done u ws') :
    Lays (.rule (.ternary condition whenTrue whenFalse span)) ws ws' := by
  simp only [Rule.ternary, Action.bind_done] at h
  obtain ⟨⟨_, last⟩, _, hwithin, hlandAll⟩ := h
  obtain ⟨inside, frame, outer, hbody, hframes, -, rfl, rfl⟩ := within_done hwithin
  simp only [Action.bind_done] at hbody
  obtain ⟨_, ws₁, hcondition, otherwise, ws₂, hskip, _, ws₃, htrue, reached, _, hreached, hbody⟩ :=
    hbody
  obtain ⟨rfl, rfl⟩ := reachable_done hreached
  obtain ⟨ws₄, hexit, hbody⟩ := exitArm_done hbody
  simp only [Action.bind_done] at hbody
  obtain ⟨_, ws₅, hland, _, ws₆, harm, hfalse⟩ := hbody
  have hs₀ : (ws.entered (.branch 0 #[])).Sound := entered_sound hs nofun
  have hcondition := value_lays hl hs₀ hcondition
  obtain ⟨htaken, hskip⟩ := Passes.jump hcondition.sound hskip
  have htrue := value_lays hl hskip.sound htrue
  have harms := (hcondition.and hs₀ hskip).and hs₀ htrue
  obtain ⟨exits, hexit⟩ := exitArm_passes true htrue.sound (by rw [harms.shape]; rfl) hexit
  obtain ⟨hspot₅, harms⟩ := Passes.land hs₀ (harms.and hs₀ hexit) hland
  obtain ⟨hspot₆, harm⟩ := Passes.setArm harms.sound harm
  have hfalse := value_lays hl harm.sound hfalse
  have hall : Passes _ exits (exits.map fun label => (.jump, label)) _ inside :=
    ((harms.and hs₀ harm).and hs₀ hfalse).relist (by simp) (by simp)
  obtain ⟨hall, hnoted⟩ := Passes.leave (.inr rfl) hall hframes
  obtain rfl := hnoted rfl
  obtain ⟨hspot, -, hall⟩ := Passes.landAll hs hall hlandAll
  refine hall.mono ?_
  intro F s hF
  obtain ⟨⟨⟨⟨⟨⟨⟨hcondition, hskip⟩, htrue⟩, hexit⟩, haimed⟩, -⟩, hfalse⟩, hexits⟩ := hF
  rw [left_spot] at hspot hexits
  rw [hspot₆, hspot₅, htaken] at hfalse
  exact .ternary hcondition (hskip _ haimed) htrue (hexit inside.spot.index hexits) hfalse hspot

/-- The arms of a conditional, whose ends jump to wherever the exits are going to land. -/
theorem ifArms_passes (hl : Faithful lower) {id : FrameId} {moreFollows : Bool} {arm : Nat}
    {arms : List (Node × Node)} (hs : ws.Sound)
    (hid : ws.shape.head?.map Prod.fst = some id.serial)
    (h : Rule.ifArms lower id moreFollows arm arms ws = .done u ws') :
    ∃ exits, Passes (fun F s => ∀ target, (∀ label ∈ exits, F.Aims .jump label target) →
        Laid F s (.arms moreFollows target (exits.map PendingJump.depth) arms) ws.spot ws'.spot)
      exits (exits.map fun label => (.jump, label)) ws ws' := by
  induction arms generalizing arm ws with
  | nil =>
      obtain ⟨-, rfl⟩ := Action.pure_done.mp h
      exact ⟨[], (Passes.stay hs).mono fun _ _ _ _ _ => .noArms⟩
  | cons pair rest ih =>
      obtain ⟨condition, body⟩ := pair
      simp only [Rule.ifArms, Action.bind_done] at h
      obtain ⟨_, ws₁, harm, _, ws₂, hcondition, next, ws₃, hskip, _, ws₄, hbody, reached, _,
        hreached, h⟩ := h
      obtain ⟨rfl, rfl⟩ := reachable_done hreached
      obtain ⟨ws₅, hexit, h⟩ := exitArm_done h
      obtain ⟨_, ws₆, hland, hrest⟩ := Action.bind_done.mp h
      obtain ⟨hspot₁, harm⟩ := Passes.setArm hs harm
      have hcondition := value_lays hl harm.sound hcondition
      obtain ⟨htaken, hskip⟩ := Passes.jump hcondition.sound hskip
      have hbody := statement_lays hl hskip.sound hbody
      have hall := ((harm.and hs hcondition).and hs hskip).and hs hbody
      obtain ⟨exits, hexit⟩ := exitArm_passes _ hbody.sound (by rw [hall.shape]; exact hid) hexit
      obtain ⟨hspot₆, hall⟩ := Passes.land hs (hall.and hs hexit) hland
      obtain ⟨exits', hrest⟩ := ih hall.sound (by rw [hall.shape]; exact hid) hrest
      refine ⟨exits ++ exits', ((hall.and hs hrest).relist (by simp) (by simp)).mono ?_⟩
      intro F s hF target haimed
      obtain ⟨⟨⟨⟨⟨⟨-, hcondition⟩, hskip⟩, hbody⟩, hexit⟩, hnext⟩, hrest⟩ := hF
      have hexit := hexit target fun label hmem => haimed label (List.mem_append_left _ hmem)
      have hrest := hrest target fun label hmem => haimed label (List.mem_append_right _ hmem)
      rw [hspot₁] at hcondition
      rw [hspot₆, htaken] at hrest
      rw [List.map_append]
      exact .moreArms hcondition (hskip _ hnext) hbody hexit hrest

/-- What to do if all arms fail is nothing or one more statement. -/
theorem otherwise_lays (hl : Faithful lower) {id : FrameId} {arm : Nat} {otherwise : Option Node}
    (hs : ws.Sound)
    (h : (match otherwise with
      | some body => do
        update id (FrameState.setArm arm)
        lower.statement body
      | none => pure ()) ws = .done u ws') : Lays (.statements otherwise.toList) ws ws' := by
  cases otherwise with
  | none =>
      obtain ⟨-, rfl⟩ := Action.pure_done.mp h
      exact (Passes.stay hs).mono fun _ _ _ => .noStatements
  | some body =>
      obtain ⟨_, ws₁, harm, hbody⟩ := Action.bind_done.mp h
      obtain ⟨hspot, harm⟩ := Passes.setArm hs harm
      have hbody := statement_lays hl harm.sound hbody
      rw [Lays, hspot] at hbody
      exact (harm.and hs hbody).mono fun F s hF => .moreStatements hF.2 .noStatements

theorem ifChain_lays (hl : Faithful lower) {arms : List (Node × Node)} {otherwise : Option Node}
    {span : Span} (hs : ws.Sound)
    (h : Rule.ifChain lower (.ifChain arms otherwise span) ws = .done u ws') :
    Lays (.rule (.ifChain arms otherwise span)) ws ws' := by
  simp only [Rule.ifChain, Action.bind_done] at h
  obtain ⟨⟨_, last⟩, _, hwithin, hlandAll⟩ := h
  obtain ⟨inside, frame, outer, hbody, hframes, -, rfl, rfl⟩ := within_done hwithin
  obtain ⟨_, ws₁, harms, hrest⟩ := Action.bind_done.mp hbody
  have hs₀ : (ws.entered (.branch 0 #[])).Sound := entered_sound hs nofun
  obtain ⟨exits, harms⟩ := ifArms_passes hl hs₀ rfl harms
  have hrest := otherwise_lays hl harms.sound hrest
  have hall : Passes _ exits (exits.map fun label => (.jump, label)) _ inside :=
    (harms.and hs₀ hrest).relist (by simp) (by simp)
  obtain ⟨hall, hnoted⟩ := Passes.leave (.inr rfl) hall hframes
  obtain rfl := hnoted rfl
  obtain ⟨hspot, -, hall⟩ := Passes.landAll hs hall hlandAll
  refine hall.mono ?_
  intro F s hF
  obtain ⟨⟨harms, hrest⟩, hexits⟩ := hF
  rw [left_spot] at hspot hexits
  exact .ifChain (harms inside.spot.index hexits) hrest hspot

end QueryCompiler.Layout
