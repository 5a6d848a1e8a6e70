/-
The machine does what the interpreter does.

A statement is followed from the place where its code starts.  If it completes
normally the machine gets to the end of the code with the stack and the handlers it
started with.  If it leaves or restarts a loop the machine gets to the end or the start
of that loop, with the handlers in between removed.  If it raises an error the machine
gets to an instruction that does so, with the handlers it started with, and the code
of the `try` around it knows what happens then.  Otherwise the run ends.

The interpreter runs on fuel, and all of this is shown by induction on it: the tree is
not enough, because a loop that goes on is carried out again.
-/
import QueryCompiler.Proofs.Execution.Expressions
import QueryCompiler.Proofs.Execution.Interpreter
import QueryCompiler.Proofs.Verifier.Program

namespace QueryCompiler.Layout

variable {V : Type} {F : Image} {host : Host V} {s : Surroundings} {a b c d e f g : Spot}
  {stack : List V} {locals : SlotRef → V} {handlers : List Handler}
  {history history' : List (Event V)} {fuel : Nat} {completion : Completion V} {σ : State V}

/-! ### What it means to follow a task -/

variable (F host s b) in
/-- The machine gets from a state to where a completion leads.  Code that comes to its end does so
at `b`. -/
def Concludes (σ : State V) : Completion V → List (Event V) → Prop
  | .normal, history =>
    b.reachable = true ∧
      ∃ locals, Steps F host σ ⟨b.index, σ.stack, locals, σ.handlers, history⟩
  | .breaks, history =>
    ∃ loop locals, s.loop? = some loop ∧
      Steps F host σ ⟨loop.exit, σ.stack, locals, σ.handlers.drop loop.crossed, history⟩
  | .continues, history =>
    ∃ loop locals, s.loop? = some loop ∧
      Steps F host σ ⟨loop.head, σ.stack, locals, σ.handlers.drop loop.crossed, history⟩
  | .threw code data, history =>
    -- A loop that is left so has its iterator on the stack still.
    ∃ index locals above, F.code[index]? = some ⟨.throw, .none⟩ ∧
      Steps F host σ ⟨index, data :: host.constant (.int code) :: (above ++ σ.stack), locals,
        σ.handlers, history⟩
  | .returned code data, history =>
    Halts F host σ (.returned (host.constant (.int code)) data) history
  | .exited code data, history => Halts F host σ (.exited (host.constant (.int code)) data) history

/-- Control gets to a place, and as many handlers are installed as guard it. -/
structure Stage (s : Surroundings) (a : Spot) (handlers : List Handler) : Prop where
  falls : a.reachable = true
  sane : s.Sane
  guards : handlers.length = s.guards.length

variable (F) in
/-- The code of a task stands between two places. -/
def Stands (s : Surroundings) (a b : Spot) : Task V → Prop
  | .statement node => node.IsStructured ∧ Laid F s (.statement node) a b
  | .statements nodes =>
    (∀ node ∈ nodes, node.IsStructured) ∧ Laid F s (.statements nodes) a b
  | .arms arms otherwise =>
    (∀ arm ∈ arms, arm.1.IsParam) ∧ (∀ arm ∈ arms, arm.2.IsStructured) ∧
      (∀ node ∈ otherwise, node.IsStructured) ∧
      ∃ c d exits, Laid F s (.arms otherwise.isSome d.index exits arms) a c ∧
        Laid F s (.statements otherwise.toList) c d ∧ b = d.landAll exits
  | .items _ body =>
    body.IsStructured ∧ ∃ d e f g name slot, F.Jumps .iterNext g.index a d ∧
      F.Writes ⟨.store, .slot ⟨0, slot⟩⟩ (Spot.declare d name slot) e ∧
      Laid F (s.inLoop a.index g.index a.depth) (.statement body) e f ∧
      F.Jumps .jump a.index f g ∧ b = Spot.land g (a.taken .iterNext)

/-- The items of a loop are those of the iterator on top of the stack. -/
def Ready (stack : List V) : Task V → Prop
  | .items iterator _ => stack.head? = some iterator
  | _ => True

variable (F host) in
/-- Whatever the interpreter does with this much fuel, the machine does. -/
def Follows (fuel : Nat) : Prop :=
  ∀ {task : Task V} {s : Surroundings} {a b : Spot} {handlers : List Handler}
    {history history' : List (Event V)} {completion : Completion V},
    execute host fuel task history = some (completion, history') →
    Stands F s a b task → Stage s a handlers →
    ∀ (stack : List V) (locals : SlotRef → V), Ready stack task →
    Concludes F host s b ⟨a.index, stack, locals, handlers, history⟩ completion history'

/-- Code before that does not touch what is on the stack or the handlers makes no difference. -/
theorem Concludes.before {index : Nat} {locals' : SlotRef → V}
    (hsteps : Steps F host ⟨index, stack, locals, handlers, history⟩
      ⟨a.index, stack, locals', handlers, history'⟩) {final : List (Event V)}
    (h : Concludes F host s b ⟨a.index, stack, locals', handlers, history'⟩ completion final) :
    Concludes F host s b ⟨index, stack, locals, handlers, history⟩ completion final := by
  cases completion with
  | normal =>
      obtain ⟨hfalls, locals, h⟩ := h
      exact ⟨hfalls, locals, hsteps.trans h⟩
  | breaks =>
      obtain ⟨loop, locals, hloop, h⟩ := h
      exact ⟨loop, locals, hloop, hsteps.trans h⟩
  | continues =>
      obtain ⟨loop, locals, hloop, h⟩ := h
      exact ⟨loop, locals, hloop, hsteps.trans h⟩
  | threw code data =>
      obtain ⟨index, locals, above, hthrow, h⟩ := h
      exact ⟨index, locals, above, hthrow, hsteps.trans h⟩
  | returned code data => exact h.after hsteps
  | exited code data => exact h.after hsteps

/-! ### Steps that several statements take -/

theorem read_steps {node : Node} {value : V} (hparam : node.IsParam)
    (h : Laid F s (.value node) a b) (hfalls : a.reachable = true)
    (hread : host.read node history = some (value, history')) (stack : List V)
    (locals : SlotRef → V) (handlers : List Handler) :
    b.reachable = true ∧ Steps F host ⟨a.index, stack, locals, handlers, history⟩
      ⟨b.index, value :: stack, locals, handlers, history'⟩ := by
  obtain ⟨name, span, rfl⟩ := hparam
  have hcomputed : Phrase.Computed F host (.inside a.scopes locals) a b
      (.value (.param name span)) := h.computed ⟨.inl hfalls, Scene.inside_fits _ _⟩
  obtain ⟨hcarries, hyields⟩ := hcomputed .param
  obtain ⟨value', history₁, hvalue, hsteps⟩ := hyields stack handlers history
  rw [evaluate] at hvalue
  obtain ⟨rfl, rfl⟩ := Prod.mk.inj (Option.some.inj (hvalue.symm.trans hread))
  exact ⟨hcarries.falls hfalls, hsteps⟩

/-- A result code and its data are pushed. -/
theorem result_steps {code : Int64} {data : Option Node} {value : V}
    (hparam : ∀ node ∈ data, node.IsParam) (h : Laid F s (.result code data) a b)
    (hfalls : a.reachable = true) (hread : host.readData data history = some (value, history'))
    (stack : List V) (locals : SlotRef → V) (handlers : List Handler) :
    Steps F host ⟨a.index, stack, locals, handlers, history⟩
      ⟨b.index, value :: host.constant (.int code) :: stack, locals, handlers, history'⟩ := by
  cases h with
  | resultNull holds push null =>
      obtain ⟨rfl, rfl⟩ := Prod.mk.inj (Option.some.inj hread)
      exact (push.goes (holds.onConstant _)).trans (null.goes rfl)
  | resultData holds push ofData =>
      have hpushed := (push.carries rfl).falls hfalls
      obtain ⟨-, hsteps⟩ := read_steps (hparam _ rfl) ofData hpushed hread _ _ _
      exact (push.goes (holds.onConstant _)).trans hsteps

/-- Handlers are removed one by one. -/
theorem unwind_steps {count : Nat} (h : Unwinds F count a b) (hcount : count ≤ handlers.length) :
    Steps F host ⟨a.index, stack, locals, handlers, history⟩
      ⟨b.index, stack, locals, handlers.drop count, history⟩ := by
  induction h generalizing handlers with
  | done => exact .done
  | next leaves rest ih =>
      cases handlers with
      | nil => exact absurd hcount (Nat.not_succ_le_zero _)
      | cons handler outer =>
          exact (leaves.goes rfl).trans (ih (Nat.le_of_succ_le_succ hcount))

/-! ### Statements that do not come to their end -/

theorem break_concludes {span : Span} (h : Laid F s (.rule (.breakLoop span)) a b)
    (stage : Stage s a handlers) :
    Concludes F host s c ⟨a.index, stack, locals, handlers, history⟩ .breaks history := by
  cases h with
  | breakLoop inside level unwinds jump =>
      have hcount := stage.guards ▸ stage.sane _ inside
      exact ⟨_, locals, inside, (unwind_steps unwinds hcount).trans jump.goes⟩

theorem continue_concludes {span : Span} (h : Laid F s (.rule (.continueLoop span)) a b)
    (stage : Stage s a handlers) :
    Concludes F host s c ⟨a.index, stack, locals, handlers, history⟩ .continues history := by
  cases h with
  | continueLoop inside level unwinds jump =>
      have hcount := stage.guards ▸ stage.sane _ inside
      exact ⟨_, locals, inside, (unwind_steps unwinds hcount).trans jump.goes⟩

theorem return_concludes {code : Int64} {data : Option Node} {span : Span} {value : V}
    (hparam : ∀ node ∈ data, node.IsParam) (h : Laid F s (.rule (.returnWith code data span)) a b)
    (stage : Stage s a handlers) (hread : host.readData data history = some (value, history')) :
    Concludes F host s c ⟨a.index, stack, locals, handlers, history⟩ (.returned code value)
      history' := by
  cases h with
  | returnWith ofResult unwinds leave =>
      have hcount : s.guards.length ≤ handlers.length := Nat.le_of_eq stage.guards.symm
      have hpushed := result_steps hparam ofResult stage.falls hread stack locals handlers
      exact ⟨_, hpushed.trans (unwind_steps unwinds hcount), leave.step, rfl⟩

theorem exit_concludes {code : Int64} {data : Option Node} {span : Span} {value : V}
    (hparam : ∀ node ∈ data, node.IsParam) (h : Laid F s (.rule (.exitWith code data span)) a b)
    (stage : Stage s a handlers) (hread : host.readData data history = some (value, history')) :
    Concludes F host s c ⟨a.index, stack, locals, handlers, history⟩ (.exited code value)
      history' := by
  cases h with
  | exitWith ofResult leave =>
      have hpushed := result_steps hparam ofResult stage.falls hread stack locals handlers
      exact ⟨_, hpushed, leave.step, rfl⟩

theorem throw_concludes {code : Int64} {data : Node} {span : Span} {value : V}
    (hparam : data.IsParam) (h : Laid F s (.rule (.throwWith code data span)) a b)
    (stage : Stage s a handlers) (hread : host.read data history = some (value, history')) :
    Concludes F host s c ⟨a.index, stack, locals, handlers, history⟩ (.threw code value)
      history' := by
  cases h with
  | throwWith ofResult throw =>
      refine ⟨_, locals, [], throw.at_index, ?_⟩
      refine result_steps ?_ ofResult stage.falls hread stack locals handlers
      intro node hmem
      obtain rfl := Option.some.inj hmem
      exact hparam

/-! ### Statements in order -/

theorem Stage.move (stage : Stage s a handlers) (hfalls : b.reachable = true) :
    Stage s b handlers where
  falls := hfalls
  sane := stage.sane
  guards := stage.guards

/-- Where the code ends is a matter of its index, and of whether control gets there. -/
theorem Concludes.endingAt (h : Concludes F host s b σ completion history')
    (hindex : c.index = b.index) (hfalls : b.reachable = true → c.reachable = true) :
    Concludes F host s c σ completion history' := by
  cases completion with
  | normal =>
      obtain ⟨hend, locals, hsteps⟩ := h
      refine ⟨hfalls hend, locals, ?_⟩
      rw [hindex]
      exact hsteps
  | breaks => exact h
  | continues => exact h
  | threw code data => exact h
  | returned code data => exact h
  | exited code data => exact h

/-- Only a normal completion has to do with the end of the code. -/
theorem Concludes.elsewhere (h : Concludes F host s b σ completion history')
    (hleaves : completion ≠ .normal) : Concludes F host s c σ completion history' := by
  cases completion with
  | normal => exact absurd rfl hleaves
  | breaks => exact h
  | continues => exact h
  | threw code data => exact h
  | returned code data => exact h
  | exited code data => exact h

/-- After a normal completion the code behind is followed. -/
theorem Concludes.andThen {final : List (Event V)} (stage : Stage s a handlers)
    (h : Concludes F host s b ⟨a.index, stack, locals, handlers, history⟩ .normal history')
    (rest : ∀ locals', Stage s b handlers →
      Concludes F host s c ⟨b.index, stack, locals', handlers, history'⟩ completion final) :
    Concludes F host s c ⟨a.index, stack, locals, handlers, history⟩ completion final := by
  obtain ⟨hfalls, locals', hsteps⟩ := h
  exact (rest locals' (stage.move hfalls)).before hsteps

theorem statements_conclude {nodes : List Node} (ih : Follows F host fuel)
    (hnodes : ∀ node ∈ nodes, node.IsStructured) (h : Laid F s (.statements nodes) a b)
    (stage : Stage s a handlers)
    (hexec : execute host (fuel + 1) (.statements nodes) history = some (completion, history')) :
    Concludes F host s b ⟨a.index, stack, locals, handlers, history⟩ completion history' := by
  cases h with
  | noStatements =>
      obtain ⟨rfl, rfl⟩ := Prod.mk.inj (Option.some.inj hexec)
      exact ⟨stage.falls, locals, .done⟩
  | moreStatements ofFirst ofRest =>
      obtain ⟨⟨first, history₁⟩, hfirst, hexec⟩ := Option.bind_eq_some_iff.mp hexec
      have hnode := hnodes _ (List.mem_cons_self ..)
      have hconcludes := ih hfirst ⟨hnode, ofFirst⟩ stage stack locals trivial
      by_cases hnormal : first = .normal
      · subst hnormal
        refine hconcludes.andThen stage fun locals' stage' => ?_
        have hrest := fun node hmem => hnodes node (List.mem_cons_of_mem _ hmem)
        exact ih hexec ⟨hrest, ofRest⟩ stage' stack locals' trivial
      · have hexec : some (first, history₁) = some (completion, history') := by
          cases first <;> first | exact hexec | exact absurd rfl hnormal
        obtain ⟨rfl, rfl⟩ := Prod.mk.inj (Option.some.inj hexec)
        exact hconcludes.elsewhere hnormal

/-! ### Conditionals -/

/-- From the end of an arm control gets to the end of the conditional: by a jump, or because
nothing follows. -/
theorem arm_ends {rest : List (Node × Node)} {otherwise : Option Node} {exit exits : List Nat}
    {depth : Nat} (h : Concludes F host s b σ .normal history')
    (leaves : Leaves F (otherwise.isSome || !rest.isEmpty) d.index exit b e)
    (ofOthers : Laid F s (.arms otherwise.isSome d.index exits rest) (e.land depth) c)
    (ofRest : Laid F s (.statements otherwise.toList) c d) :
    Concludes F host s (d.landAll (exit ++ exits)) σ .normal history' := by
  obtain ⟨hfalls, locals, hsteps⟩ := h
  cases leaves with
  | jumps _ jump =>
      refine ⟨Spot.landAll_reachable.mpr (.inr (List.cons_ne_nil _ _)), locals, ?_⟩
      rw [Spot.landAll_index]
      exact hsteps.trans jump.goes
  | stays ends =>
      rw [hfalls, Bool.and_true, Bool.or_eq_false_iff, Option.isSome_eq_false_iff,
        Option.isNone_iff_eq_none, Bool.not_eq_false', List.isEmpty_iff] at ends
      obtain ⟨rfl, rfl⟩ := ends
      cases ofOthers with
      | noArms =>
          cases ofRest with
          | noStatements => exact ⟨rfl, locals, hsteps⟩

theorem arms_conclude {arms : List (Node × Node)} {otherwise : Option Node}
    (ih : Follows F host fuel) (h : Stands F s a b (Task.arms (V := V) arms otherwise))
    (stage : Stage s a handlers)
    (hexec : execute host (fuel + 1) (.arms arms otherwise) history =
      some (completion, history')) :
    Concludes F host s b ⟨a.index, stack, locals, handlers, history⟩ completion history' := by
  obtain ⟨hconditions, hbodies, hotherwise, c, d, exits, ofArms, ofRest, rfl⟩ := h
  cases ofArms with
  | noArms =>
      cases otherwise with
      | none =>
          cases ofRest with
          | noStatements =>
              obtain ⟨rfl, rfl⟩ := Prod.mk.inj (Option.some.inj hexec)
              exact ⟨stage.falls, locals, .done⟩
      | some node =>
          cases ofRest with
          | moreStatements ofFirst ofNone =>
              cases ofNone with
              | noStatements =>
                  exact ih hexec ⟨hotherwise _ rfl, ofFirst⟩ stage stack locals trivial
  | moreArms ofCondition skip ofBody leaves ofOthers =>
      obtain ⟨⟨value, history₁⟩, hread, hexec⟩ := Option.bind_eq_some_iff.mp hexec
      have hparam := hconditions _ (List.mem_cons_self ..)
      obtain ⟨hfalls, hsteps⟩ :=
        read_steps hparam ofCondition stage.falls hread stack locals handlers
      have htest := hsteps.trans (skip.test false rfl)
      have hbranch := (skip.carries rfl).falls hfalls
      have hexec : (if host.truthy value = true then execute host fuel (.statement _) history₁
          else execute host fuel (.arms _ otherwise) history₁) = some (completion, history') :=
        hexec
      cases htruthy : host.truthy value with
      | true =>
          rw [htruthy, if_neg nofun] at htest
          rw [htruthy, if_pos rfl] at hexec
          have hbody := hbodies _ (List.mem_cons_self ..)
          have hconcludes := ih hexec ⟨hbody, ofBody⟩ (stage.move hbranch) stack locals trivial
          refine Concludes.before htest ?_
          by_cases hnormal : completion = .normal
          · subst hnormal
            exact arm_ends hconcludes leaves ofOthers ofRest
          · exact hconcludes.elsewhere hnormal
      | false =>
          rw [htruthy, if_pos rfl] at htest
          rw [htruthy, if_neg nofun] at hexec
          have hconditions := fun arm hmem => hconditions arm (List.mem_cons_of_mem _ hmem)
          have hbodies := fun arm hmem => hbodies arm (List.mem_cons_of_mem _ hmem)
          have hconcludes := ih hexec
            ⟨hconditions, hbodies, hotherwise, _, _, _, ofOthers, ofRest, rfl⟩ (stage.move rfl)
            stack locals trivial
          refine Concludes.before htest (hconcludes.endingAt ?_ ?_)
          · rw [Spot.landAll_index, Spot.landAll_index]
          · intro hend
            rcases Spot.landAll_reachable.mp hend with hend | hsome
            · exact Spot.landAll_reachable.mpr (.inl hend)
            · exact Spot.landAll_reachable.mpr (.inr (List.append_ne_nil_of_right_ne_nil _ hsome))

/-! ### Loops -/

/-- Once the body has completed so that the loop goes on, the machine is at its start. -/
theorem Concludes.again {head exit level : Nat}
    (h : Concludes F host (s.inLoop head exit level) b σ completion history')
    (again : F.Jumps .jump head b c) (hgoes : completion.leavesLoop? = none) :
    ∃ locals, Steps F host σ ⟨head, σ.stack, locals, σ.handlers, history'⟩ := by
  cases completion with
  | normal =>
      obtain ⟨-, locals, hsteps⟩ := h
      exact ⟨locals, hsteps.trans again.goes⟩
  | continues =>
      obtain ⟨loop, locals, hloop, hsteps⟩ := h
      obtain rfl := Option.some.inj hloop
      exact ⟨locals, hsteps⟩
  | breaks => cases hgoes
  | threw code data => cases hgoes
  | returned code data => cases hgoes
  | exited code data => cases hgoes

/-- Once the body has completed so that the loop is left, it is. -/
theorem Concludes.leaves {head exit level : Nat} {result : Completion V}
    (h : Concludes F host (s.inLoop head exit level) b σ completion history')
    (hleaves : completion.leavesLoop? = some result) (hindex : c.index = exit)
    (hfalls : c.reachable = true) : Concludes F host s c σ result history' := by
  cases completion with
  | normal => cases hleaves
  | continues => cases hleaves
  | breaks =>
      obtain rfl := Option.some.inj hleaves
      obtain ⟨loop, locals, hloop, hsteps⟩ := h
      obtain rfl := Option.some.inj hloop
      refine ⟨hfalls, locals, ?_⟩
      rw [hindex]
      exact hsteps
  | threw code data =>
      obtain rfl := Option.some.inj hleaves
      exact h
  | returned code data =>
      obtain rfl := Option.some.inj hleaves
      exact h
  | exited code data =>
      obtain rfl := Option.some.inj hleaves
      exact h

theorem Stage.inLoop {head exit level : Nat} (stage : Stage s a handlers)
    (hfalls : b.reachable = true) : Stage (s.inLoop head exit level) b handlers where
  falls := hfalls
  sane := .inLoop
  guards := stage.guards

theorem while_concludes {condition body : Node} {span : Span} (ih : Follows F host fuel)
    (hcondition : condition.IsParam) (hbody : body.IsStructured)
    (h : Laid F s (.rule (.whileLoop condition body span)) a b) (stage : Stage s a handlers)
    (hexec : execute host (fuel + 1) (.statement (.whileLoop condition body span)) history =
      some (completion, history')) :
    Concludes F host s b ⟨a.index, stack, locals, handlers, history⟩ completion history' := by
  cases h with
  | whileLoop ofCondition exit ofBody again land =>
      subst land
      obtain ⟨⟨value, history₁⟩, hread, hexec⟩ := Option.bind_eq_some_iff.mp hexec
      obtain ⟨hfalls, hsteps⟩ :=
        read_steps hcondition ofCondition stage.falls hread stack locals handlers
      have htest := hsteps.trans (exit.test false rfl)
      cases htruthy : host.truthy value with
      | true =>
          rw [htruthy, if_neg nofun] at htest
          simp only [htruthy, if_true] at hexec
          obtain ⟨⟨inner, history₂⟩, hinner, hexec⟩ := Option.bind_eq_some_iff.mp hexec
          have hstart := (exit.carries rfl).falls hfalls
          have hconcludes := ih hinner ⟨hbody, ofBody⟩ (stage.inLoop hstart) stack locals trivial
          cases hleaves : inner.leavesLoop? with
          | some result =>
              simp only [hleaves] at hexec
              obtain ⟨rfl, rfl⟩ := Prod.mk.inj (Option.some.inj hexec)
              exact Concludes.before htest (hconcludes.leaves hleaves rfl rfl)
          | none =>
              simp only [hleaves] at hexec
              obtain ⟨locals', hagain⟩ := hconcludes.again again hleaves
              have hloop : Laid F s (.statement (.whileLoop condition body span)) a _ :=
                .plain nofun (.settles nofun (.whileLoop ofCondition exit ofBody again rfl))
              have hnode : (Node.whileLoop condition body span).IsStructured :=
                .whileLoop hcondition hbody
              have hrest := ih hexec ⟨hnode, hloop⟩ stage stack locals' trivial
              exact Concludes.before (htest.trans hagain) hrest
      | false =>
          rw [htruthy, if_pos rfl] at htest
          simp only [htruthy] at hexec
          obtain ⟨rfl, rfl⟩ := Prod.mk.inj (Option.some.inj hexec)
          exact ⟨rfl, locals, htest⟩

/-- The machine asks for an item and gets one. -/
theorem next_item {target : Nat} {iterator : V} {rest : List V}
    (hgives : host.gives (.next iterator :: history) = true) (h : F.Jumps .iterNext target a b) :
    Steps F host ⟨a.index, iterator :: rest, locals, handlers, history⟩
      ⟨b.index, host.answer (.next iterator :: history) :: iterator :: rest, locals, handlers,
        .next iterator :: history⟩ := by
  obtain ⟨word, rfl, h⟩ := h
  refine .more (h.step.trans ?_) .done
  rw [h.index]
  simp [Image.perform, Operand.onTarget, State.take, State.go, hgives]

/-- The machine asks for an item and there is none. -/
theorem next_none {target : Nat} {iterator : V} {rest : List V}
    (hgives : host.gives (.next iterator :: history) = false) (h : F.Jumps .iterNext target a b) :
    Steps F host ⟨a.index, iterator :: rest, locals, handlers, history⟩
      ⟨target, iterator :: rest, locals, handlers, .next iterator :: history⟩ := by
  obtain ⟨word, rfl, h⟩ := h
  refine .more (h.step.trans ?_) .done
  simp [Image.perform, Operand.onTarget, State.take, State.goTo, hgives]

theorem items_conclude {iterator : V} {body : Node} (ih : Follows F host fuel)
    (h : Stands F s a b (.items iterator body)) (stage : Stage s a handlers)
    (hready : Ready stack (.items iterator body))
    (hexec : execute host (fuel + 1) (.items iterator body) history =
      some (completion, history')) :
    Concludes F host s b ⟨a.index, stack, locals, handlers, history⟩ completion history' := by
  obtain ⟨hbody, d, e, f, g, name, slot, next, store, ofBody, again, rfl⟩ := h
  obtain ⟨rest, rfl⟩ : ∃ rest, stack = iterator :: rest := List.head?_eq_some_iff.mp hready
  simp only [execute] at hexec
  cases hgives : host.gives (.next iterator :: history) with
  | true =>
      simp only [hgives, if_true] at hexec
      obtain ⟨⟨inner, history₁⟩, hinner, hexec⟩ := Option.bind_eq_some_iff.mp hexec
      have hstart := (store.carries rfl).falls ((next.carries rfl).falls stage.falls)
      obtain ⟨locals₁, hitem⟩ : ∃ locals₁, Steps F host
          ⟨a.index, iterator :: rest, locals, handlers, history⟩
          ⟨e.index, iterator :: rest, locals₁, handlers, .next iterator :: history⟩ :=
        ⟨_, (next_item hgives next).trans (store.goes rfl)⟩
      have hconcludes := ih hinner ⟨hbody, ofBody⟩ (stage.inLoop hstart) (iterator :: rest) locals₁
        trivial
      cases hleaves : inner.leavesLoop? with
      | some result =>
          simp only [hleaves] at hexec
          obtain ⟨rfl, rfl⟩ := Prod.mk.inj (Option.some.inj hexec)
          exact Concludes.before hitem (hconcludes.leaves hleaves rfl rfl)
      | none =>
          simp only [hleaves] at hexec
          obtain ⟨locals', hagain⟩ := hconcludes.again again hleaves
          have hrest := ih hexec
            ⟨hbody, d, e, f, g, name, slot, next, store, ofBody, again, rfl⟩ stage
            (iterator :: rest) locals' rfl
          exact Concludes.before (hitem.trans hagain) hrest
  | false =>
      simp only [hgives] at hexec
      obtain ⟨rfl, rfl⟩ := Prod.mk.inj (Option.some.inj hexec)
      exact ⟨rfl, locals, next_none hgives next⟩

/-- A loop over items is not left by what leaves its body. -/
theorem items_stay {iterator : V} {body : Node}
    (hexec : execute host fuel (.items iterator body) history = some (completion, history')) :
    completion ≠ .breaks ∧ completion ≠ .continues := by
  induction fuel generalizing history with
  | zero => cases hexec
  | succ fuel ih =>
      simp only [execute] at hexec
      split at hexec
      · obtain ⟨⟨inner, history₁⟩, -, hexec⟩ := Option.bind_eq_some_iff.mp hexec
        cases hleaves : inner.leavesLoop? with
        | some result =>
            simp only [hleaves] at hexec
            obtain ⟨rfl, rfl⟩ := Prod.mk.inj (Option.some.inj hexec)
            exact Completion.leavesLoop?_stays hleaves
        | none =>
            simp only [hleaves] at hexec
            exact ih hexec
      · obtain ⟨rfl, rfl⟩ := Prod.mk.inj (Option.some.inj hexec)
        exact ⟨nofun, nofun⟩

theorem forEach_concludes {binding : Name} {iterable body : Node} {span : Span}
    (ih : Follows F host fuel) (hiterable : iterable.IsParam) (hbody : body.IsStructured)
    (h : Laid F s (.rule (.forEach binding iterable body span)) a b) (stage : Stage s a handlers)
    (hexec : execute host (fuel + 1) (.statement (.forEach binding iterable body span)) history =
      some (completion, history')) :
    Concludes F host s b ⟨a.index, stack, locals, handlers, history⟩ completion history' := by
  cases h with
  | forEach ofIterable start next free store ofBody again drop =>
      obtain ⟨⟨source, history₁⟩, hread, hexec⟩ := Option.bind_eq_some_iff.mp hexec
      obtain ⟨hfalls, hsteps⟩ :=
        read_steps hiterable ofIterable stage.falls hread stack locals handlers
      have hstarted := hsteps.trans (start.goes rfl)
      have hstart := (start.carries rfl).falls hfalls
      obtain ⟨hbreaks, hcontinues⟩ := items_stay hexec
      have hitems := ih hexec ⟨hbody, _, _, _, _, _, _, next, store, ofBody, again, rfl⟩
        (stage.move hstart) (host.iterator source :: stack) locals rfl
      cases completion with
      | normal =>
          obtain ⟨hend, locals', hitems⟩ := hitems
          refine ⟨(drop.carries rfl).falls rfl, locals', ?_⟩
          exact (hstarted.trans hitems).trans (drop.goes rfl)
      | breaks => exact absurd rfl hbreaks
      | continues => exact absurd rfl hcontinues
      | threw code data =>
          obtain ⟨index, locals', above, hthrow, hitems⟩ := hitems
          refine ⟨index, locals', above ++ [host.iterator source], hthrow, ?_⟩
          rw [List.append_assoc]
          exact hstarted.trans hitems
      | returned code data => exact hitems.after hstarted
      | exited code data => exact hitems.after hstarted

/-! ### Handlers -/

/-- An error that is raised under a handler starts its catch path. -/
theorem throw_steps {index catchAt : Nat} {code data : V} {above : List V}
    (h : F.code[index]? = some ⟨.throw, .none⟩) :
    Steps F host
      ⟨index, data :: code :: (above ++ stack), locals, ⟨catchAt, stack.length⟩ :: handlers,
        history⟩
      ⟨catchAt, host.raised code data :: stack, locals, handlers, history⟩ := by
  refine .more ?_ .done
  have hdrop : (above ++ stack).drop ((above ++ stack).length - stack.length) = stack := by
    rw [List.length_append, Nat.add_sub_cancel, List.drop_left]
  simp only [Image.step, h, Image.perform, State.takeTwo, State.raise, hdrop]

/-- The caught error is stored or dropped. -/
theorem catch_steps {binding : Option Name} {error : V} (h : Catches F binding a b) :
    ∃ locals', Steps F host ⟨a.index, error :: stack, locals, handlers, history⟩
      ⟨b.index, stack, locals', handlers, history⟩ := by
  cases h with
  | named free store => exact ⟨_, store.goes rfl⟩
  | dropped pop => exact ⟨_, pop.goes rfl⟩

theorem Catches.falls {binding : Option Name} (h : Catches F binding a b)
    (hfalls : a.reachable = true) : b.reachable = true := by
  cases h with
  | named free store => exact (store.carries rfl).falls hfalls
  | dropped pop => exact (pop.carries rfl).falls hfalls

theorem Stage.guarded {start : Nat} (stage : Stage s a handlers) (handler : Handler)
    (hfalls : b.reachable = true) : Stage (s.guarded start) b (handler :: handlers) where
  falls := hfalls
  sane := stage.sane.guarded start
  guards := congrArg (· + 1) stage.guards

/-- A loop around a guarded body is the loop around the `try`, with one more handler to remove. -/
theorem guarded_loop {start : Nat} {loop : Loop} (h : (s.guarded start).loop? = some loop) :
    ∃ outer, s.loop? = some outer ∧ loop = { outer with crossed := outer.crossed + 1 } := by
  obtain ⟨outer, houter, rfl⟩ := Option.map_eq_some_iff.mp h
  exact ⟨outer, houter, rfl⟩

/-- A guarded body that raises no error is left with its handler removed. -/
theorem Concludes.unguarded {index start : Nat} {exits : List Nat} {handler : Handler}
    (install : Steps F host ⟨index, stack, locals, handlers, history⟩
      ⟨b.index, stack, locals, handler :: handlers, history⟩)
    (h : Concludes F host (s.guarded start) c
      ⟨b.index, stack, locals, handler :: handlers, history⟩ completion history')
    (escapes : Escapes F f.index exits c d) (hquiet : ∀ code data, completion ≠ .threw code data) :
    Concludes F host s (f.leave.landAll exits) ⟨index, stack, locals, handlers, history⟩ completion
      history' := by
  cases completion with
  | normal =>
      obtain ⟨hfalls, locals', hsteps⟩ := h
      cases escapes with
      | stays ends => exact absurd (hfalls.symm.trans ends) nofun
      | jumps _ leaves jump =>
          refine ⟨Spot.landAll_reachable.mpr (.inr (List.cons_ne_nil _ _)), locals', ?_⟩
          rw [Spot.landAll_index]
          exact ((install.trans hsteps).trans (leaves.goes rfl)).trans jump.goes
  | breaks =>
      obtain ⟨loop, locals', hloop, hsteps⟩ := h
      obtain ⟨outer, houter, rfl⟩ := guarded_loop hloop
      exact ⟨outer, locals', houter, install.trans hsteps⟩
  | continues =>
      obtain ⟨loop, locals', hloop, hsteps⟩ := h
      obtain ⟨outer, houter, rfl⟩ := guarded_loop hloop
      exact ⟨outer, locals', houter, install.trans hsteps⟩
  | threw code data => exact absurd rfl (hquiet code data)
  | returned code data => exact h.after install
  | exited code data => exact h.after install

theorem install_steps {target : Nat} (h : F.Jumps .tryBegin target a b) :
    Steps F host ⟨a.index, stack, locals, handlers, history⟩
      ⟨b.index, stack, locals, ⟨target, stack.length⟩ :: handlers, history⟩ := by
  obtain ⟨word, rfl, h⟩ := h
  exact h.goes rfl

theorem try_concludes {body handler : Node} {binding : Option Name} {span : Span}
    (ih : Follows F host fuel) (hbody : body.IsStructured) (hhandler : handler.IsStructured)
    (h : Laid F s (.rule (.tryCatch body binding handler span)) a b) (stage : Stage s a handlers)
    (hexec : execute host (fuel + 1) (.statement (.tryCatch body binding handler span)) history =
      some (completion, history')) :
    Concludes F host s b ⟨a.index, stack, locals, handlers, history⟩ completion history' := by
  cases h with
  | @tryCatch _ _ b c d e f _ _ _ _ _ _ install ofBody escapes catches ofHandler land =>
      subst land
      obtain ⟨⟨inner, history₁⟩, hinner, hexec⟩ := Option.bind_eq_some_iff.mp hexec
      have hguarded := (install.carries rfl).falls stage.falls
      have hconcludes := ih hinner ⟨hbody, ofBody⟩ (stage.guarded ⟨d.index, stack.length⟩ hguarded)
        stack locals trivial
      by_cases hthrew : ∃ code data, inner = .threw code data
      · obtain ⟨code, data, rfl⟩ := hthrew
        obtain ⟨index, locals₁, above, hthrow, hraised⟩ := hconcludes
        obtain ⟨locals₂, hcaught⟩ := catch_steps catches
        have hthrown := (install_steps install).trans (hraised.trans (throw_steps hthrow))
        have hpath := hthrown.trans hcaught
        have hlast := ih hexec ⟨hhandler, ofHandler⟩ (stage.move (catches.falls rfl)) stack locals₂
          trivial
        refine (hlast.before hpath).endingAt (Spot.landAll_index ..) ?_
        intro hend
        exact Spot.landAll_reachable.mpr (.inl hend)
      · have hquiet : ∀ code data, inner ≠ .threw code data := by
          intro code data heq
          exact hthrew ⟨code, data, heq⟩
        have hexec : some (inner, history₁) = some (completion, history') := by
          cases inner <;> first | exact hexec | exact absurd rfl (hquiet _ _)
        obtain ⟨rfl, rfl⟩ := Prod.mk.inj (Option.some.inj hexec)
        exact hconcludes.unguarded (install_steps install) escapes hquiet

/-! ### All statements -/

/-- Statements about control leave no value. -/
theorem structured_balance {node : Node} (h : node.IsStructured) :
    node.construct.balance ≠ .value := by
  cases h <;> exact nofun

/-- The code of a statement is what its rule writes.  What is made of the depth behind it does not
matter to control. -/
theorem statement_rule {node : Node} (hnode : node.IsStructured)
    (h : Laid F s (.statement node) a b) :
    ∃ c, Laid F s (.rule node) a c ∧ b.index = c.index ∧ b.reachable = c.reachable := by
  cases h with
  | dropped kind _ _ => exact absurd kind (structured_balance hnode)
  | plain _ ofNode =>
      cases ofNode with
      | settles _ ofRule => exact ⟨_, ofRule, rfl, rfl⟩
      | diverges _ ofRule reset =>
          subst reset
          exact ⟨_, ofRule, rfl, rfl⟩

theorem run_concludes {inner : Node} {span : Span} {value : V} (hinner : inner.IsParam)
    (h : Laid F s (.rule (.run inner span)) a b) (stage : Stage s a handlers)
    (hread : host.read inner history = some (value, history')) :
    Concludes F host s b ⟨a.index, stack, locals, handlers, history⟩ .normal history' := by
  cases h with
  | run ofInner =>
      cases ofInner with
      | plain kind _ =>
          obtain ⟨name, span, rfl⟩ := hinner
          exact absurd rfl kind
      | dropped kind ofNode drop =>
          obtain ⟨hfalls, hsteps⟩ :=
            read_steps hinner (.valueOf kind ofNode) stage.falls hread stack locals handlers
          exact ⟨(drop.carries rfl).falls hfalls, locals, hsteps.trans (drop.goes rfl)⟩

theorem if_concludes {arms : List (Node × Node)} {otherwise : Option Node} {span : Span}
    (ih : Follows F host fuel) (hconditions : ∀ arm ∈ arms, arm.1.IsParam)
    (hbodies : ∀ arm ∈ arms, arm.2.IsStructured)
    (hotherwise : ∀ node ∈ otherwise, node.IsStructured)
    (h : Laid F s (.rule (.ifChain arms otherwise span)) a b) (stage : Stage s a handlers)
    (hexec : execute host fuel (.arms arms otherwise) history = some (completion, history')) :
    Concludes F host s b ⟨a.index, stack, locals, handlers, history⟩ completion history' := by
  cases h with
  | ifChain ofArms ofRest land =>
      subst land
      have hconcludes := ih hexec
        ⟨hconditions, hbodies, hotherwise, _, _, _, ofArms, ofRest, rfl⟩ (stage.move stage.falls)
        stack locals trivial
      refine hconcludes.endingAt ?_ ?_
      · rw [Spot.landAll_index, Spot.landAll_index]
        rfl
      · intro hend
        have hland := Spot.landAll_reachable.mp hend
        exact Spot.landAll_reachable.mpr hland

/-- What the rule of a statement writes is followed, if all that takes less fuel is. -/
theorem statement_concludes {node : Node} (ih : Follows F host fuel) (hnode : node.IsStructured)
    (h : Laid F s (.rule node) a b) (stage : Stage s a handlers)
    (hexec : execute host (fuel + 1) (.statement node) history = some (completion, history')) :
    Concludes F host s b ⟨a.index, stack, locals, handlers, history⟩ completion history' := by
  cases hnode with
  | block ofStatements =>
      cases h with
      | block inside leave =>
          subst leave
          have hconcludes := ih hexec ⟨ofStatements, inside⟩ (stage.move stage.falls) stack locals
            trivial
          exact hconcludes.endingAt rfl id
  | run ofInner =>
      obtain ⟨⟨value, history₁⟩, hread, hexec⟩ := Option.bind_eq_some_iff.mp hexec
      obtain ⟨rfl, rfl⟩ := Prod.mk.inj (Option.some.inj hexec)
      exact run_concludes ofInner h stage hread
  | ifChain ofConditions ofBodies ofOtherwise =>
      exact if_concludes ih ofConditions ofBodies ofOtherwise h stage hexec
  | whileLoop ofCondition ofBody => exact while_concludes ih ofCondition ofBody h stage hexec
  | forEach ofIterable ofBody => exact forEach_concludes ih ofIterable ofBody h stage hexec
  | tryCatch ofBody ofHandler => exact try_concludes ih ofBody ofHandler h stage hexec
  | breakLoop =>
      obtain ⟨rfl, rfl⟩ := Prod.mk.inj (Option.some.inj hexec)
      exact break_concludes h stage
  | continueLoop =>
      obtain ⟨rfl, rfl⟩ := Prod.mk.inj (Option.some.inj hexec)
      exact continue_concludes h stage
  | returnWith ofData =>
      obtain ⟨⟨value, history₁⟩, hread, hexec⟩ := Option.bind_eq_some_iff.mp hexec
      obtain ⟨rfl, rfl⟩ := Prod.mk.inj (Option.some.inj hexec)
      exact return_concludes ofData h stage hread
  | exitWith ofData =>
      obtain ⟨⟨value, history₁⟩, hread, hexec⟩ := Option.bind_eq_some_iff.mp hexec
      obtain ⟨rfl, rfl⟩ := Prod.mk.inj (Option.some.inj hexec)
      exact exit_concludes ofData h stage hread
  | throwWith ofData =>
      obtain ⟨⟨value, history₁⟩, hread, hexec⟩ := Option.bind_eq_some_iff.mp hexec
      obtain ⟨rfl, rfl⟩ := Prod.mk.inj (Option.some.inj hexec)
      exact throw_concludes ofData h stage hread

/-- **The machine follows the interpreter.** -/
theorem follows (F : Image) (host : Host V) (fuel : Nat) : Follows F host fuel := by
  induction fuel with
  | zero =>
      intro task s a b handlers history history' completion hexec
      cases hexec
  | succ fuel ih =>
      intro task s a b handlers history history' completion hexec hstands stage stack locals hready
      cases task with
      | statement node =>
          obtain ⟨hnode, hlaid⟩ := hstands
          obtain ⟨c, hrule, hindex, hreachable⟩ := statement_rule hnode hlaid
          refine (statement_concludes ih hnode hrule stage hexec).endingAt hindex ?_
          intro hfalls
          exact hreachable.trans hfalls
      | statements nodes => exact statements_conclude ih hstands.1 hstands.2 stage hexec
      | arms arms otherwise => exact arms_conclude ih hstands stage hexec
      | items iterator body => exact items_conclude ih hstands stage hready hexec

end QueryCompiler.Layout
