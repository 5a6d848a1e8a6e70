/-
The slots of functions.

A script takes the slots of what is on its list.  So every node takes those that can be
counted below it, a function in the end has as many locals as it was given slots, and
what the functions of a program have can be told from the tree alone: it is too much for
one of them exactly if slots run out.
-/
import QueryCompiler.Proofs.Script.Handing
import QueryCompiler.Proofs.Script.Starts

namespace QueryCompiler

open Workspace

/-! ### Scripts -/

section

variable {α : Type} {ws : Workspace} {f n : Nat} {outer : List (Nat × UInt16)}

theorem Books.allots {s : Scoping} {l : Ledger} {action : Action Workspace α}
    {post : α → Ledger → Prop} (h : Books s l action post) {o : Opening} {added : List PendingJump}
    (hws : Accounts o s l added ws) (hcounts : ws.Counts f n outer) :
    action.Allots f n outer 0 [] ws := by
  have hbooks := h o added ws hws
  refine .still hcounts (fun x ws' hdone => ?_) fun error ws' hfailed => ?_
  · rw [hdone] at hbooks
    exact hbooks.2
  · rw [hfailed] at hbooks
    exact hbooks.1

theorem Quiet.allots {value : α → Prop} {action : Action Workspace α} (h : Quiet value action)
    (hcounts : ws.Counts f n outer) : action.Allots f n outer 0 [] ws := by
  have hquiet := h ws
  refine .still hcounts (fun x ws' hdone => ?_) fun error ws' hfailed => ?_
  · rw [hdone] at hquiet
    exact hquiet.2.sameSlots
  · rw [hfailed] at hquiet
    exact hquiet.1

theorem Action.Allots.moveToLine (line : Nat) (hcounts : ws.Counts f n outer) :
    (Workspace.moveToLine line).Allots f n outer 0 [] ws := by
  refine .still hcounts (fun u ws' hdone => ?_) fun error ws' hfailed => ?_
  · obtain ⟨-, rfl⟩ := Outcome.done.inj hdone
    exact ⟨rfl, rfl, rfl⟩
  · cases hfailed

/-- The contract takes no slot. -/
theorem Contract.check_allots (settings : Settings) (node : Node) (height pushes start : Nat)
    (hcounts : ws.Counts f n outer) :
    (check settings node height pushes start).Allots f n outer 0 [] ws := by
  have hdepth : ∀ expected ws', ws'.Counts f n outer →
      (checkDepth settings node expected).Allots f n outer 0 [] ws' := by
    intro expected ws' hws'
    refine .quietly ((Quiet.readCode _).allots hws') fun found ws₁ _ h₁ => ?_
    split
    · exact .failed rfl
    · exact (Quiet.pure _).allots h₁
  refine .quietly ((Quiet.checkScopes _ _ _).allots hcounts) fun _ ws₁ _ h₁ => ?_
  unfold checkBalance
  cases node.construct.balance with
  | diverges =>
      refine .still h₁ (fun u ws' hdone => ?_) fun error ws' hfailed => nomatch hfailed
      obtain ⟨-, rfl⟩ := Outcome.done.inj hdone
      exact ⟨rfl, rfl, Assembly.tallies_modifyCurrent _ (fun _ => rfl) fun _ => rfl⟩
  | value => exact .quietly ((Quiet.ofWord _).allots h₁) fun _ ws₂ _ h₂ => hdepth _ ws₂ h₂
  | effect => exact hdepth start ws₁ h₁

end

/-- **An action takes the slots of what is on its list,** if the parts do. -/
theorem Scripted.allots {α : Type} {s : Scoping} {l : Ledger} {p : List Errand}
    {act : Lower → Action Workspace α} {post : α → Ledger → Prop} {lower : Lower}
    (h : Scripted s l p act post) (hlower : ∀ node, lower.Accounted node)
    (hparts : ∀ node ws, ws.Prepared → ∀ f n outer, ws.Counts f n outer →
      (lower node).Allots f n outer node.slots node.tallies ws)
    {o : Opening} {added : List PendingJump} {ws : Workspace} (hws : Accounts o s l added ws)
    {f n : Nat} {outer : List (Nat × UInt16)} (hcounts : ws.Counts f n outer) :
    (act lower).Allots f n outer (p.map Errand.slots).sum (p.flatMap Errand.tallies) ws := by
  induction h generalizing o added ws f n outer with
  | own h => exact h.allots hws hcounts
  | mono _ _ ih => exact ih hws hcounts
  | bind hfirst _ ihfirst ihnext =>
      rw [List.map_append, List.sum_append, List.flatMap_append]
      refine (ihfirst hws hcounts).bind fun x ws' hdone hcounts' => ?_
      have haccounts := hfirst.accounted hlower hws
      rw [hdone] at haccounts
      obtain ⟨l', added', hmid, hws'⟩ := haccounts
      exact ihnext x l' hmid hws' hcounts'
  | fail h => exact .failed h
  | part node =>
      have hpart := hparts node ws hws.prepared f n outer hcounts
      simpa [Errand.slots, Errand.tallies] using hpart
  | takeSlot span => exact .takeSlot span hcounts
  | @within l p α level? state body inside hscope hfresh hspot hbody ih =>
      have hws' := hws.enter state hspot
      refine .within hscope hcounts (fun x ws' hdone => ?_) fun hentered => ih _ rfl hws' hentered
      have haccounts := (hbody _ rfl).accounted hlower hws'
      rw [hdone] at haccounts
      obtain ⟨l₁, added₁, -, hinside⟩ := haccounts
      obtain ⟨frame, rest, hframes, hserial, hsame, -⟩ := hws.leave hscope hfresh rfl hinside
      exact ⟨frame, rest, hframes, hserial, hsame⟩
  | @function s l params node body hfew hbody ih =>
      have hws' := hws.enterFunction params.length.toUInt16
      have hcount : params.length.toUInt16.toNat = params.length :=
        Nat.mod_eq_of_lt (Nat.lt_succ_of_le hfew)
      have hclosure : (emitClosure params.length.toUInt16 (body lower)).Allots f n outer 0
          ((params.length.toUInt16.toNat, params.length + node.slots) :: node.tallies) ws := by
        refine .closure hcounts (by omega) (fun inside hdone => ?_) fun hentered => ?_
        · have haccounts := (hbody _ rfl).accounted hlower hws'
          rw [hdone] at haccounts
          obtain ⟨l₁, added₁, hheld, hinside⟩ := haccounts
          exact Accounts.ended rfl hheld hinside
        · have hinside := ih ⟨_, .function⟩ rfl hws' hentered
          rw [Errand.slots_body, Errand.tallies_body] at hinside
          exact hinside
      rw [hcount] at hclosure
      simpa [Errand.slots, Errand.tallies] using hclosure
  | overfull hmany =>
      exact fun _ => .inr ⟨_, List.mem_cons_self, Nat.lt_add_right _ hmany⟩

/-! ### Nodes -/

/-- Supervision takes no slot, and hands out those of the lowering. -/
theorem supervise_allots {settings : Settings} {node : Node} {lowering : Action Workspace Unit}
    {ws : Workspace} {f n c : Nat} {outer : List (Nat × UInt16)} {a : List (Nat × Nat)}
    (hcounts : ws.Counts f n outer)
    (h : ∀ line, (ws.atLine line).Counts f n outer →
      lowering.Allots f n outer c a (ws.atLine line)) :
    (Contract.supervise settings node lowering).Allots f n outer c a ws := by
  have hrest : ∀ line, (do
      let start ← depth
      let height ← onScopes (Action.read fun scopes => scopes.height)
      let pushes ← onScopes (Action.read fun scopes => scopes.counts.pushes)
      let result ← lowering.attempt
      moveToLine ws.code.line
      Action.ofResult result
      Contract.check settings node height pushes start : Action Workspace Unit).Allots f n outer c a
        (ws.atLine line) := by
    intro line
    have hline : (ws.atLine line).Counts f n outer := ⟨hcounts.there, hcounts.functions⟩
    refine .quietly ((Quiet.readCode _).allots hline) ?_
    rintro start _ ⟨⟩ -
    refine .quietly ((Quiet.readScopes _).allots hline) ?_
    rintro height _ ⟨⟩ -
    refine .quietly ((Quiet.readScopes _).allots hline) ?_
    rintro pushes _ ⟨⟩ -
    refine (h line hline).attempted (fun error ws' => ⟨_, rfl⟩) fun u inside _ hinside => ?_
    exact .quietly (.moveToLine ws.code.line hinside) fun _ _ _ hback =>
      .quietly ((Quiet.pure _).allots hback) fun _ _ _ hws' =>
        Contract.check_allots settings node _ _ _ hws'
  unfold Contract.supervise
  refine .quietly ((Quiet.readCode _).allots hcounts) ?_
  rintro line _ ⟨⟩ -
  by_cases hline : (settings.lineInfo && !node.span.isSynthetic) = true
  · simp only [if_pos hline]
    refine .quietly (.moveToLine node.span.line hcounts) fun u ws' hdone _ => ?_
    obtain ⟨-, rfl⟩ := Outcome.done.inj hdone
    exact hrest node.span.line
  · simp only [if_neg hline]
    exact hrest ws.code.line

/-- **Every node takes the slots it is said to take.** -/
theorem lowerWithin_allots (settings : Settings) (room : Nat) (node : Node) (ws : Workspace)
    (hws : ws.Prepared) (f n : Nat) (outer : List (Nat × UInt16)) (hcounts : ws.Counts f n outer) :
    (lowerWithin .standard settings room node).Allots f n outer node.slots node.tallies ws := by
  induction room generalizing node ws f n outer with
  | zero => exact fun hexhausts => nomatch hexhausts
  | succ room ih =>
      refine supervise_allots hcounts fun line hline => ?_
      have hserves := (Rule.standard_serves node ws.place).allots
        (lowerWithin_accounted settings room) ih (hws.atLine line).accounts hline
      rw [node.slots_errands, node.tallies_errands] at hserves
      exact hserves

/-! ### Queries -/

/-- **The functions of a query,** with their parameters and locals: the main function, and those
that lambdas make, in order. -/
def Node.functions (root : Node) : List (Nat × Nat) := (0, root.slots) :: root.tallies

namespace Compiler

/-- The body of the main function takes the slots it is said to take. -/
theorem body_allots (settings : Settings) (root : Node) :
    ((lower .standard settings).body root).Allots 0 0 [] root.slots root.tallies
      ((start ⟨.standard, settings⟩ false).entered (.function 0 0)) := by
  have hallots := (Scripted.body root).allots (lowerWithin_accounted settings settings.maxDepth)
    (lowerWithin_allots settings settings.maxDepth)
    ((start_prepared settings false).accounts.enter (.function 0 0) nofun)
    (show Counts _ 0 0 [] from ⟨Nat.zero_lt_one, 0, rfl, rfl⟩)
  simp only [List.map_singleton, List.sum_singleton, List.flatMap_singleton] at hallots
  exact hallots

/-- The main function ends with as many locals as its frame has handed out. -/
theorem ending_done {inside : Workspace} {frame : Frame} {next : UInt16}
    (hframes : inside.scopes.frames = [frame]) (hlast : frame.state.nextSlot? = some next) :
    ending frame.state (inside.left frame) =
      .done () { inside.left frame with code := inside.code.reserveLocals next } := by
  have hheight : (inside.left frame).scopes.height = 0 := by
    simp [left, ScopeStack.height, hframes]
  rw [ending, hlast]
  simp only [Action.bind_apply, onScopes, Action.read, hheight]
  rfl

/-- What is lowered has the functions of the query, and slots run out only if they are too many. -/
theorem lowerMain_allots (settings : Settings) (root : Node) :
    match lowerMain ⟨.standard, settings⟩ root (start ⟨.standard, settings⟩ false) with
    | .done _ ws => ws.code.counts = root.functions ∧
        ∃ log, Hands (lowerMain ⟨.standard, settings⟩ root) (start ⟨.standard, settings⟩ false)
          log () ws ∧ ∀ g, issued g log = List.range ((root.functions[g]?.map Prod.snd).getD 0)
    | .failed error _ => error.exhaustsSlots = true →
        ∃ tally ∈ root.functions, Frame.slotLimit < tally.2
    | .fault _ => True := by
  have hbody := body_allots settings root
  have haccounts := (Scripted.body root).accounted
    (lowerWithin_accounted settings settings.maxDepth)
    ((start_prepared settings false).accounts.enter (.function 0 0) nofun)
  rw [lowerMain_eq]
  unfold Action.Allots at hbody
  rw [Action.bind_apply]
  cases hact : (lower .standard settings).body root
      ((start ⟨.standard, settings⟩ false).entered (.function 0 0)) with
  | done u inside =>
      rw [hact] at hbody
      rw [show (lowerWithin .standard settings settings.maxDepth).body root _ = _ from hact]
        at haccounts
      obtain ⟨log, hhands, hallots⟩ := hbody
      obtain ⟨l₁, added₁, hheld, hinside⟩ := haccounts
      obtain ⟨frame, hframe⟩ := Accounts.ended rfl hheld hinside
      obtain ⟨rest, hframes, hrest⟩ := hframe.frames
      obtain ⟨next, hfunctions, hnext⟩ := hallots.counts.functions
      obtain ⟨hlast, -⟩ := hframe.lastSlot hfunctions
      have hwithin : within (.function 0 0) (fun _ => (lower .standard settings).body root)
          (start ⟨.standard, settings⟩ false) = .done (u, frame.state) (inside.left frame) :=
        within_of_done hact hframes hframe.serial
      obtain rfl := List.map_eq_nil_iff.mp hrest
      have hend := ending_done hframes hlast
      rw [hwithin]
      dsimp only
      rw [hend]
      have hlastly : Hands (ending frame.state) (inside.left frame) [] ()
          { inside.left frame with code := inside.code.reserveLocals next } := .still hend rfl rfl
      have hall : Hands (within (.function 0 0) (fun _ => (lower .standard settings).body root) >>=
          fun result => ending result.2) (start ⟨.standard, settings⟩ false) (log ++ []) () _ :=
        .bind (.within hhands hwithin) hlastly
      rw [List.append_nil] at hall
      refine ⟨?_, log, hall, fun g => ?_⟩
      · have hcurrent : inside.code.currentFunction = 0 := hframe.pends.currentFunction
        have hcounts : inside.code.counts = [] ++ (0, 0) :: root.tallies := hallots.tallies
        rw [Node.functions, ← Nat.zero_add root.slots, ← hnext]
        exact Assembly.counts_reserveLocals hcounts hcurrent (Nat.zero_le _)
      · rw [hallots.issued]
        exact allotment_main root.slots root.tallies g
  | failed error inside =>
      rw [hact] at hbody
      have hfailed : ∃ after, within (.function 0 0) (fun _ => (lower .standard settings).body root)
          (start ⟨.standard, settings⟩ false) = .failed error after ∧ after.code = inside.code :=
        within_of_failed hact
      obtain ⟨after, hfailed, -⟩ := hfailed
      rw [hfailed]
      intro hexhausts
      rcases hbody hexhausts with hown | ⟨tally, htally, hmany⟩
      · exact ⟨_, List.mem_cons_self, by simpa using hown⟩
      · exact ⟨tally, List.mem_cons_of_mem _ htally, hmany⟩
  | fault fault =>
      rw [within_eq, show (lower .standard settings).body root (entered _ _) = _ from hact]
      trivial

end Compiler

theorem Assembly.map_toProgram (code : Assembly) :
    code.toProgram.functions.toList.map (fun function =>
      (function.params.toNat, function.locals.toNat)) = code.counts := by
  refine List.ext_getElem? fun g => ?_
  rw [getElem?_counts, List.getElem?_map, Array.getElem?_toList, toProgram, Array.getElem?_mapIdx,
    Option.map_map]
  rfl

/-- **Slots are accounted for.**  A program has the functions of its query, with the parameters and
locals that can be counted in the tree; and to each function slots were handed out as `0`, `1`, `2`
and so on, up to that number.  There is no program if one of the numbers is beyond the limit, and
only then slots can run out. -/
theorem slots_are_accounted (settings : Settings) (root : Node) :
    (∀ program, Compiler.compile ⟨.standard, settings⟩ root = .ok program →
      program.functions.toList.map (fun function =>
        (function.params.toNat, function.locals.toNat)) = root.functions ∧
      ∃ log ws, Hands (Compiler.lowerMain ⟨.standard, settings⟩ root)
          (Compiler.start ⟨.standard, settings⟩ false) log () ws ∧
        ws.code.toProgram = program ∧
        ∀ g, issued g log = List.range ((root.functions[g]?.map Prod.snd).getD 0)) ∧
    ((∃ tally ∈ root.functions, 65535 < tally.2) →
      ∀ program, Compiler.compile ⟨.standard, settings⟩ root ≠ .ok program) ∧
    ∀ limit span, Compiler.compile ⟨.standard, settings⟩ root =
        .error (.error (.slotsExhausted limit span)) →
      ∃ tally ∈ root.functions, 65535 < tally.2 := by
  have hlowered := Compiler.lowerMain_allots settings root
  cases hobjection : Compiler.firstObjection? ⟨.standard, settings⟩ root with
  | some error =>
      rw [Compiler.compile_of_objection hobjection]
      refine ⟨nofun, fun _ => nofun, ?_⟩
      rintro limit span ⟨⟩
      cases (Compiler.firstObjection?_eq_some.mp hobjection).isObjection
  | none =>
      rw [Compiler.compile_apply hobjection]
      cases hmain : Compiler.lowerMain ⟨.standard, settings⟩ root
          (Compiler.start ⟨.standard, settings⟩ false) with
      | done u ws =>
          rw [hmain] at hlowered
          obtain ⟨hcounts, log, hhands, hissued⟩ := hlowered
          refine ⟨?_, ?_, nofun⟩
          · rintro program ⟨⟩
            exact ⟨ws.code.map_toProgram.trans hcounts, log, ws, hhands, rfl, hissued⟩
          · -- The numbers of a program are those of words.
            rintro ⟨tally, htally, hmany⟩
            rw [← hcounts, ← Assembly.map_toProgram] at htally
            obtain ⟨function, -, rfl⟩ := List.mem_map.mp htally
            exact absurd function.locals.toNat_lt (Nat.not_lt.mpr hmany)
      | failed error ws =>
          rw [hmain] at hlowered
          refine ⟨nofun, fun _ => nofun, ?_⟩
          rintro limit span ⟨⟩
          exact hlowered rfl
      | fault fault => exact ⟨nofun, fun _ => nofun, nofun⟩

end QueryCompiler
