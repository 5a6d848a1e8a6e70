/-
What the rules for transforms and for straight statements write.

These rules declare names or open a scope, so the places between their instructions
differ in their scopes too.  No jump crosses them, apart from the loop of a transform
over the elements of a list, which is closed before the rule is done.
-/
import QueryCompiler.Proofs.Layout.Expressions

namespace QueryCompiler.Layout

open Workspace

variable {lower : Lower} {ws ws' : Workspace} {u : Unit}

/-! ### Transforms -/

/-- The shape sees the element and no loop. -/
theorem shapeWith_passes (hl : Faithful lower) {element : UInt16} {shape : Node} (hs : ws.Sound)
    (h : Rule.shapeWith lower element shape ws = .done u ws') :
    ∃ b, ws'.spot = b.leave ∧
      Passes (fun F s => Laid F s.inTransform (.value shape)
        (ws.spot.enter (.transform element)) b) [] [] ws ws' := by
  simp only [Rule.shapeWith, Action.bind_done, Action.pure_done] at h
  obtain ⟨⟨_, last⟩, _, hwithin, -, rfl⟩ := h
  obtain ⟨inside, frame, outer, hbody, hframes, -, -, rfl⟩ := within_done hwithin
  have hshape := value_lays hl (entered_sound hs (by nofun)) hbody
  exact ⟨inside.spot, left_spot frame, Passes.leaveTransform hshape⟩

theorem transformSingle_lays (hl : Faithful lower) {source shape : Node} {span : Span}
    (hs : ws.Sound) (h : Rule.transformSingle lower source shape span ws = .done u ws') :
    Lays (.rule (.transform .single source shape span)) ws ws' := by
  simp only [Rule.transformSingle, Action.bind_done] at h
  obtain ⟨element, ws₁, htake, _, ws₂, hsource, _, ws₃, hstore, hshape⟩ := h
  obtain ⟨hfree, hspot₁, htake⟩ := Passes.takeSlot hs htake
  have hsource := value_lays hl htake.sound hsource
  have hstore := Passes.write hsource.sound hstore
  obtain ⟨b, hspot, hshape⟩ := shapeWith_passes hl hstore.sound hshape
  refine (((htake.and hs hsource).and hs hstore).and hs hshape).mono ?_
  intro F s hF
  obtain ⟨⟨⟨-, hsource⟩, hstore⟩, hshape⟩ := hF
  rw [hspot₁] at hsource
  exact .transformSingle hfree hsource hstore hshape hspot

theorem transformEach_lays (hl : Faithful lower) {source shape : Node} {span : Span}
    (hs : ws.Sound) (h : Rule.transformEach lower source shape span ws = .done u ws') :
    Lays (.rule (.transform .each source shape span)) ws ws' := by
  simp only [Rule.transformEach, Action.bind_done] at h
  obtain ⟨collected, ws₁, htake₁, element, ws₂, htake₂, _, ws₃, hnew, _, ws₄, hkeep, _, ws₅,
    hsource, _, ws₆, hstart, next, _, hnext, level, _, hlevel, exit, ws₇, hiter, _, ws₈, hstore, _,
    ws₉, hload, _, ws₁₀, hshape, _, ws₁₁, hpush, _, ws₁₂, hdrop, _, ws₁₃, hback, _, ws₁₄, hland, _,
    ws₁₅, hdone, hyield⟩ := h
  obtain ⟨rfl, rfl⟩ := position_done hnext
  obtain ⟨rfl, rfl⟩ := depth_done hlevel
  obtain ⟨hfree₁, hspot₁, htake₁⟩ := Passes.takeSlot hs htake₁
  obtain ⟨hfree₂, hspot₂, htake₂⟩ := Passes.takeSlot htake₁.sound htake₂
  have hnew := Passes.write htake₂.sound hnew
  have hkeep := Passes.write hnew.sound hkeep
  have hsource := value_lays hl hkeep.sound hsource
  have hstart := Passes.write hsource.sound hstart
  have hbefore := ((((htake₁.and hs htake₂).and hs hnew).and hs hkeep).and hs hsource).and hs hstart
  obtain ⟨htaken, hiter⟩ := Passes.jump hstart.sound hiter
  have hstore := Passes.write hiter.sound hstore
  have hload := Passes.write hstore.sound hload
  obtain ⟨i, hspot₁₀, hshape⟩ := shapeWith_passes hl hload.sound hshape
  have hpush := Passes.write hshape.sound hpush
  have hdrop := Passes.write hpush.sound hdrop
  have hround := ((((hiter.and hstart.sound hstore).and hstart.sound hload).and hstart.sound
    hshape).and hstart.sound hpush).and hstart.sound hdrop
  have hback := Passes.jumpBack_position hdrop.sound hback hround.length
  have hround := hround.and hstart.sound hback
  obtain ⟨hspot₁₄, hround⟩ := Passes.land hstart.sound hround hland
  have hdone := Passes.write hround.sound hdone
  have hyield := Passes.write hdone.sound hyield
  refine (((hbefore.and hs hround).and hs hdone).and hs hyield).mono ?_
  intro F s hF
  obtain ⟨⟨⟨⟨⟨⟨⟨-, hnew⟩, hkeep⟩, hsource⟩, hstart⟩,
    ⟨⟨⟨⟨⟨⟨hiter, hstore⟩, hload⟩, hshape⟩, hpush⟩, hdrop⟩, hback⟩, haimed⟩, hdone⟩, hyield⟩ := hF
  rw [hspot₁] at hfree₂ hspot₂
  rw [hspot₂] at hnew
  rw [hspot₁₀] at hpush
  rw [hspot₁₄, htaken] at hdone
  exact .transformEach hfree₁ hfree₂ hnew hkeep hsource hstart (hiter _ haimed) hstore hload hshape
    hpush hdrop hback hdone hyield

/-! ### Statements that run straight through -/

theorem block_lays (hl : Faithful lower) {statements : List Node} {span : Span} (hs : ws.Sound)
    (h : Rule.block lower (.block statements span) ws = .done u ws') :
    Lays (.rule (.block statements span)) ws ws' := by
  simp only [Rule.block, Action.bind_done, Action.pure_done] at h
  obtain ⟨⟨_, last⟩, _, hwithin, -, rfl⟩ := h
  obtain ⟨inside, frame, outer, hbody, hframes, -, -, rfl⟩ := within_done hwithin
  have hinside := statements_lays hl (entered_sound hs (by nofun)) hbody
  obtain ⟨hleave, -⟩ := Passes.leave (.inl rfl) hinside hframes
  exact hleave.mono fun F s hF => .block hF (left_spot frame)

/-- A name is declared behind its initial value and stored into at once. -/
theorem varDecl_lays (hl : Faithful lower) {name : Name} {init : Node} {span : Span}
    (hs : ws.Sound) (h : Rule.varDecl lower (.varDecl name init span) ws = .done u ws') :
    Lays (.rule (.varDecl name init span)) ws ws' := by
  simp only [Rule.varDecl, Action.bind_done] at h
  obtain ⟨_, ws₁, hinit, slot, ws₂, hdeclare, hstore⟩ := h
  have hinit := value_lays hl hs hinit
  obtain ⟨hfree, hspot, hdeclare⟩ := Passes.declare hinit.sound hdeclare
  have hstore := Passes.write hdeclare.sound hstore
  refine ((hinit.and hs hdeclare).and hs hstore).mono ?_
  intro F s hF
  obtain ⟨⟨hinit, -⟩, hstore⟩ := hF
  rw [hspot] at hstore
  exact .varDecl hinit hfree hstore

theorem assign_lays (hl : Faithful lower) {name : Name} {value : Node} {span : Span}
    (hs : ws.Sound) (h : Rule.assign lower (.assign name value span) ws = .done u ws') :
    Lays (.rule (.assign name value span)) ws ws' := by
  simp only [Rule.assign, Action.bind_done] at h
  obtain ⟨found, _, hfound, h⟩ := h
  obtain ⟨hlocal, rfl⟩ := Passes.findLocal hfound
  cases found with
  | some ref =>
      obtain ⟨_, ws₁, hvalue, hstore⟩ := Action.bind_done.mp h
      have hvalue := value_lays hl hs hvalue
      have hstore := Passes.write hvalue.sound hstore
      exact (hvalue.and hs hstore).mono fun F s hF => .assign hlocal hF.1 hF.2
  | none => exact absurd h Action.not_fail_done

theorem run_lays (hl : Faithful lower) {inner : Node} {span : Span} (hs : ws.Sound)
    (h : Rule.run lower (.run inner span) ws = .done u ws') :
    Lays (.rule (.run inner span)) ws ws' :=
  (statement_lays hl hs h).mono fun _ _ hF => .run hF

theorem hint_lays (lower : Lower) {name : String} {value : Constant} {span : Span} (hs : ws.Sound)
    (h : Rule.hint lower (.hint name value span) ws = .done u ws') :
    Lays (.rule (.hint name value span)) ws ws' := by
  simp only [Rule.hint, Action.bind_done] at h
  obtain ⟨key, ws₁, hkey, id, ws₂, hid, hset⟩ := h
  obtain ⟨hspot₁, hkey⟩ := Passes.constant hs hkey
  obtain ⟨hspot₂, hid⟩ := Passes.constant hkey.sound hid
  have hset := Passes.write hid.sound hset
  refine ((hkey.and hs hid).and hs hset).mono ?_
  intro F s hF
  obtain ⟨⟨hkey, hid⟩, hset⟩ := hF
  rw [hspot₂, hspot₁] at hset
  exact .hint hkey hid hset

theorem importAs_lays (lower : Lower) {source : ImportSource} {path : String} {binding : Name}
    {span : Span} (hs : ws.Sound)
    (h : Rule.importAs lower (.importAs source path binding span) ws = .done u ws') :
    Lays (.rule (.importAs source path binding span)) ws ws' := by
  simp only [Rule.importAs, Action.bind_done] at h
  obtain ⟨id, ws₁, hid, slot, ws₂, hdeclare, _, ws₃, hload, hstore⟩ := h
  obtain ⟨hspot₁, hid⟩ := Passes.constant hs hid
  obtain ⟨hfree, hspot₂, hdeclare⟩ := Passes.declare hid.sound hdeclare
  have hload := Passes.write hdeclare.sound hload
  have hstore := Passes.write hload.sound hstore
  refine (((hid.and hs hdeclare).and hs hload).and hs hstore).mono ?_
  intro F s hF
  obtain ⟨⟨⟨hid, -⟩, hload⟩, hstore⟩ := hF
  rw [hspot₁] at hfree hspot₂
  rw [hspot₂] at hload
  exact .importAs hid hfree hload hstore

end QueryCompiler.Layout
