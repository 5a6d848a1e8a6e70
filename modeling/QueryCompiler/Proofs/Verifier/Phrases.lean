/-
The code of every phrase can be marked.

A value leaves one more value on the operand stack, a statement leaves the stack as it
was, and a statement that does not come to its end is followed by a place that control
does not get to.  So much holds of the depth that was followed while the code was
written, in code that control gets to and in code that it does not.  From it follow
the marks: wherever paths meet, they bring the same depth and the same handlers.

Jumps out of a phrase are those of `break` and `continue`, which lead to the loop
around it with the handlers that were installed when the loop was entered, and those
of the arms of a conditional.
-/
import QueryCompiler.Proofs.Verifier.Flow

namespace QueryCompiler.Layout

/-! ### What is said of a phrase -/

/-- A loop is left by leaving handlers that are there. -/
def Surroundings.Sane (s : Surroundings) : Prop :=
  ∀ loop, s.loop? = some loop → loop.crossed ≤ s.guards.length

/-- Where `break` and `continue` lead, and with which mark. -/
def Surroundings.Leads (s : Surroundings) (j : Nat) (m : Mark) : Prop :=
  ∃ loop, s.loop? = some loop ∧ (j = loop.head ∨ j = loop.exit) ∧
    m = ⟨loop.level, s.guards.drop loop.crossed⟩

namespace Phrase

/-- What a phrase expects: something to fill, or not to be guarded if it is a whole function. -/
def Ready (s : Surroundings) (a : Spot) : Phrase → Prop
  | items _ | fields _ => 1 ≤ a.depth
  | body _ => s.guards = []
  | _ => True

/-- What a phrase does to the depth of the operand stack. -/
def Balanced : Phrase → Spot → Spot → Prop
  | rule tree, a, b =>
    match tree.construct.balance with
    | .value => b.depth = a.depth + 1
    | .effect => b.depth = a.depth
    | .diverges => b.reachable = false
  | node tree, a, b =>
    match tree.construct.balance with
    | .value => b.depth = a.depth + 1
    | .effect => b.depth = a.depth
    | .diverges => b.depth = a.depth ∧ b.reachable = false
  | value _, a, b => b.depth = a.depth + 1
  | statement _, a, b => b.depth = a.depth
  | body _, _, b => b.reachable = false
  | result _ _, a, b => b.depth = a.depth + 2
  | values nodes, a, b => b.depth = a.depth + nodes.length
  | statements _, a, b | items _, a, b | fields _, a, b => b.depth = a.depth
  | arms _ _ exits _, a, b => b.depth = a.depth ∧ ∀ exit ∈ exits, exit = a.depth

/-- Where jumps out of a phrase lead, and with which mark. -/
def Leads (s : Surroundings) (a : Spot) : Phrase → Nat → Mark → Prop
  | arms _ finish exits _ => Also (exits ≠ []) s.Leads finish ⟨a.depth, s.guards⟩
  | _ => s.Leads

end Phrase

/-- The code of a phrase keeps the balance and can be marked. -/
structure Verified (F : Image) (s : Surroundings) (phrase : Phrase) (a b : Spot) : Prop where
  balanced : phrase.Balanced a b
  runs : Runs F (phrase.Leads s a) a s.guards b s.guards

section

variable {F : Image} {s : Surroundings} {a b c d e f g h : Spot}

theorem Image.Writes.depth {instruction : Instruction} (h : F.Writes instruction a b) :
    b.depth = a.depth - instruction.stackUse.pops + instruction.stackUse.pushes := by
  rw [h.next]
  rfl

theorem Image.Writes.stops {instruction : Instruction} (h : F.Writes instruction a b)
    (hterminal : instruction.op.isTerminal = true) : b.reachable = false := by
  rw [h.next]
  simp [Spot.step, hterminal]

theorem Image.Jumps.depth {op : Opcode} {target : Nat} (h : F.Jumps op target a b) :
    b.depth = a.depth - (op.stackUse 0).pops + (op.stackUse 0).pushes := by
  obtain ⟨word, -, h⟩ := h
  exact h.depth

theorem Image.Jumps.stops {target : Nat} (h : F.Jumps .jump target a b) : b.reachable = false := by
  obtain ⟨word, -, h⟩ := h
  exact h.stops rfl

/-! ### Jumps out of phrases -/

/-- Nothing jumps out of the shape of a transform. -/
theorem Runs.inTransform {X : Nat → Mark → Prop} {before after : List Nat}
    (h : Runs F s.inTransform.Leads a before b after) : Runs F X a before b after := by
  refine h.mono fun j n hleads => ?_
  obtain ⟨loop, hloop, -⟩ := hleads
  cases hloop

/-- Inside a loop there is one way to start it over and one to leave it. -/
theorem Runs.inLoop {X : Nat → Mark → Prop} {head exit level : Nat} {before after : List Nat}
    (h : Runs F (s.inLoop head exit level).Leads a before b after) :
    Runs F (Also True (Also True X head ⟨level, s.guards⟩) exit ⟨level, s.guards⟩) a before b
      after := by
  refine h.mono fun j n hleads => ?_
  obtain ⟨loop, hloop, hgoal, rfl⟩ := hleads
  obtain rfl := Option.some.inj hloop
  rcases hgoal with rfl | rfl
  · exact Also.old (Also.new trivial)
  · exact Also.new trivial

/-- A handler makes no difference to where the loop around it starts and ends, for it is left
first. -/
theorem Runs.guarded {start : Nat} {before after : List Nat}
    (h : Runs F (s.guarded start).Leads a before b after) : Runs F s.Leads a before b after := by
  refine h.mono fun j n hleads => ?_
  obtain ⟨loop, hloop, hgoal, rfl⟩ := hleads
  obtain ⟨outer, houter, rfl⟩ := Option.map_eq_some_iff.mp hloop
  exact ⟨outer, houter, hgoal, rfl⟩

/-- The jump at the end of an arm, if there is one. -/
theorem Leaves.runs {X : Nat → Mark → Prop} {wanted : Bool} {finish : Nat} {exits : List Nat}
    {handlers : List Nat} (h : Leaves F wanted finish exits a b) :
    Runs F (Also (exits ≠ []) X finish ⟨a.depth, handlers⟩) a handlers b handlers := by
  cases h with
  | jumps falls jump => exact .jump jump rfl nofun (Nat.zero_le _) (Also.new nofun)
  | stays ends => exact .refl

theorem Leaves.depth {wanted : Bool} {finish : Nat} {exits : List Nat}
    (h : Leaves F wanted finish exits a b) :
    b.depth = a.depth ∧ ∀ exit ∈ exits, exit = a.depth := by
  cases h with
  | jumps falls jump => exact ⟨jump.depth, fun exit hmem => List.mem_singleton.mp hmem⟩
  | stays ends => exact ⟨rfl, fun exit hmem => nomatch hmem⟩

theorem Leaves.stops {finish : Nat} {exits : List Nat} (h : Leaves F true finish exits a b) :
    b.reachable = false := by
  cases h with
  | jumps falls jump => exact jump.stops
  | stays ends => exact ends

theorem Unwinds.depth {count : Nat} (h : Unwinds F count a b) : b.depth = a.depth := by
  induction h with
  | done => rfl
  | next leaves rest ih => exact ih.trans leaves.depth

/-- The way out of a guarded body, if control gets to its end. -/
theorem Escapes.runs {X : Nat → Mark → Prop} {finish handler : Nat} {exits handlers : List Nat}
    (h : Escapes F finish exits a b) :
    Runs F (Also (exits ≠ []) X finish ⟨a.depth, handlers⟩) a (handler :: handlers) b handlers := by
  cases h with
  | jumps falls leaves jump =>
      refine (Runs.remove leaves).append (.jump jump rfl nofun (Nat.zero_le _) ?_)
      exact .inr ⟨nofun, rfl, congrArg (Mark.mk · handlers) leaves.depth⟩
  | stays ends => exact Runs.refl.reset ends

theorem Escapes.depth {finish : Nat} {exits : List Nat} (h : Escapes F finish exits a b) :
    ∀ exit ∈ exits, exit = a.depth := by
  cases h with
  | jumps falls leaves jump =>
      intro exit hmem
      exact (List.mem_singleton.mp hmem).trans leaves.depth
  | stays ends =>
      intro exit hmem
      cases hmem

theorem Escapes.stops {finish : Nat} {exits : List Nat} (h : Escapes F finish exits a b) :
    b.reachable = false := by
  cases h with
  | jumps falls leaves jump => exact jump.stops
  | stays ends => exact ends

theorem Catches.depth {binding : Option Name} (h : Catches F binding a b) :
    b.depth = a.depth - 1 := by
  cases h with
  | named free store => exact store.depth
  | dropped pop => exact pop.depth

theorem Catches.runs {X : Nat → Mark → Prop} {binding : Option Name} {handlers : List Nat}
    (h : Catches F binding a b) (hdepth : 1 ≤ a.depth) : Runs F X a handlers b handlers := by
  cases h with
  | named free store => exact Runs.write (a := a.declare _ _) store rfl rfl hdepth
  | dropped pop => exact .write pop rfl rfl hdepth

namespace Verified

/-! ### Values -/

/-- One instruction that pushes the value. -/
theorem pushed {node : Node} {instruction : Instruction} (h : F.Writes instruction a b)
    (hkind : node.construct.balance = .value) (hop : instruction.op.unconcerned = true)
    (htarget : instruction.target? = none) (huse : instruction.stackUse = ⟨0, 1⟩) :
    Verified F s (.rule node) a b := by
  have hdepth : b.depth = a.depth + 1 := by rw [h.depth, huse]; rfl
  refine ⟨?_, .write h hop htarget (by rw [huse]; exact Nat.zero_le _)⟩
  simpa only [Phrase.Balanced, hkind] using hdepth

/-- A value that is made empty and filled afterwards. -/
theorem filled {node : Node} {instruction : Instruction}
    (new : F.Writes instruction a b) (hkind : node.construct.balance = .value)
    (hop : instruction.op.unconcerned = true) (htarget : instruction.target? = none)
    (huse : instruction.stackUse = ⟨0, 1⟩) (fill : 1 ≤ b.depth → c.depth = b.depth ∧
      Runs F s.Leads b s.guards c s.guards) : Verified F s (.rule node) a c := by
  have hnew : b.depth = a.depth + 1 := by rw [new.depth, huse]; rfl
  obtain ⟨hfill, hruns⟩ := fill (by omega)
  refine ⟨?_, (Runs.write new hop htarget (by rw [huse]; exact Nat.zero_le _)).append hruns⟩
  simpa only [Phrase.Balanced, hkind] using hfill.trans hnew

theorem list {items : List Node} {span : Span} (new : F.Writes ⟨.newList, .none⟩ a b)
    (fill : 1 ≤ b.depth → Verified F s (.items items) b c) :
    Verified F s (.rule (.list items span)) a c :=
  filled new rfl rfl rfl rfl fun hready => ⟨(fill hready).balanced, (fill hready).runs⟩

theorem object {fields : List (String × Node)} {span : Span}
    (new : F.Writes ⟨.newObject, .none⟩ a b)
    (fill : 1 ≤ b.depth → Verified F s (.fields fields) b c) :
    Verified F s (.rule (.object fields span)) a c :=
  filled new rfl rfl rfl rfl fun hready => ⟨(fill hready).balanced, (fill hready).runs⟩

theorem member {owner : Node} {name : String} {span : Span} {id : UInt32}
    (ofOwner : Verified F s (.value owner) a b) (get : F.Writes ⟨.getMember, .const id⟩ b c) :
    Verified F s (.rule (.member owner name span)) a c := by
  have howner : b.depth = a.depth + 1 := ofOwner.balanced
  have hget : c.depth = b.depth - 1 + 1 := get.depth
  refine ⟨show c.depth = a.depth + 1 by omega, ?_⟩
  exact ofOwner.runs.append (.write get rfl rfl (show 1 ≤ b.depth by omega))

theorem index {owner subscript : Node} {span : Span} (ofOwner : Verified F s (.value owner) a b)
    (ofSubscript : Verified F s (.value subscript) b c) (get : F.Writes ⟨.getIndex, .none⟩ c d) :
    Verified F s (.rule (.index owner subscript span)) a d := by
  have howner : b.depth = a.depth + 1 := ofOwner.balanced
  have hsubscript : c.depth = b.depth + 1 := ofSubscript.balanced
  have hget : d.depth = c.depth - 2 + 1 := get.depth
  refine ⟨show d.depth = a.depth + 1 by omega, ?_⟩
  exact (ofOwner.runs.append ofSubscript.runs).append
    (.write get rfl rfl (show 2 ≤ c.depth by omega))

theorem call {callee : Node} {arguments : List Node} {span : Span}
    (few : arguments.length ≤ 65535) (ofCallee : Verified F s (.value callee) a b)
    (ofArguments : Verified F s (.values arguments) b c)
    (call : F.Writes ⟨.call, .count arguments.length.toUInt16⟩ c d) :
    Verified F s (.rule (.call callee arguments span)) a d := by
  have hcount : arguments.length.toUInt16.toNat = arguments.length :=
    Nat.mod_eq_of_lt (Nat.lt_succ_of_le few)
  have hcallee : b.depth = a.depth + 1 := ofCallee.balanced
  have harguments : c.depth = b.depth + arguments.length := ofArguments.balanced
  have hcall : d.depth = c.depth - (arguments.length.toUInt16.toNat + 1) + 1 := call.depth
  refine ⟨show d.depth = a.depth + 1 by omega, ?_⟩
  exact (ofCallee.runs.append ofArguments.runs).append
    (.write call rfl rfl (show arguments.length.toUInt16.toNat + 1 ≤ c.depth by omega))

theorem unary {op : UnaryOperator} {operand : Node} {span : Span}
    (ofOperand : Verified F s (.value operand) a b) (apply : F.Writes ⟨op.opcode, .none⟩ b c) :
    Verified F s (.rule (.unary op operand span)) a c := by
  have huse : (Instruction.mk op.opcode .none).stackUse = ⟨1, 1⟩ := by cases op <;> rfl
  have hop : op.opcode.unconcerned = true := by cases op <;> rfl
  have hoperand : b.depth = a.depth + 1 := ofOperand.balanced
  have happly : c.depth = b.depth - 1 + 1 := by rw [apply.depth, huse]
  refine ⟨show c.depth = a.depth + 1 by omega, ?_⟩
  exact ofOperand.runs.append (.write apply hop rfl (by rw [huse]; show 1 ≤ b.depth; omega))

theorem binary {op : BinaryOperator} {left right : Node} {span : Span}
    (ofLeft : Verified F s (.value left) a b) (ofRight : Verified F s (.value right) b c)
    (apply : F.Writes ⟨op.opcode, .none⟩ c d) :
    Verified F s (.rule (.binary op left right span)) a d := by
  have huse : (Instruction.mk op.opcode .none).stackUse = ⟨2, 1⟩ := by cases op <;> rfl
  have hop : op.opcode.unconcerned = true := by cases op <;> rfl
  have hleft : b.depth = a.depth + 1 := ofLeft.balanced
  have hright : c.depth = b.depth + 1 := ofRight.balanced
  have happly : d.depth = c.depth - 2 + 1 := by rw [apply.depth, huse]
  refine ⟨show d.depth = a.depth + 1 by omega, ?_⟩
  exact (ofLeft.runs.append ofRight.runs).append
    (.write apply hop rfl (by rw [huse]; show 2 ≤ c.depth; omega))

theorem logical {op : LogicalOperator} {left right : Node} {span : Span}
    (ofLeft : Verified F s (.value left) a b) (dup : F.Writes ⟨.dup, .none⟩ b c)
    (skip : F.Jumps op.skip f.index c d) (pop : F.Writes ⟨.pop, .none⟩ d e)
    (ofRight : Verified F s (.value right) e f) :
    Verified F s (.rule (.logical op left right span)) a (f.land (c.taken op.skip)) := by
  have hop : op.skip.unconcerned = true := by cases op <;> rfl
  have hbranch : op.skip.branchUse? = some ⟨1, 0⟩ := by cases op <;> rfl
  have hjumps : op.skip.branchUse? ≠ none := by simp [hbranch]
  have huse : op.skip.stackUse 0 = ⟨1, 0⟩ := by cases op <;> rfl
  have htaken : c.taken op.skip = c.depth - 1 := by rw [Spot.taken, hbranch]; rfl
  have hleft : b.depth = a.depth + 1 := ofLeft.balanced
  have hdup : c.depth = b.depth - 1 + 2 := dup.depth
  have hskip : d.depth = c.depth - 1 := by rw [skip.depth, huse]; rfl
  have hpop : e.depth = d.depth - 1 := pop.depth
  have hright : f.depth = e.depth + 1 := ofRight.balanced
  refine ⟨show c.taken op.skip = a.depth + 1 by omega, ?_⟩
  have htest : Runs F (Also True s.Leads f.index ⟨c.taken op.skip, s.guards⟩) a s.guards d
      s.guards :=
    (ofLeft.runs.also.append (.write dup rfl rfl (show 1 ≤ b.depth by omega))).append
      (.jump skip hop hjumps (by rw [huse]; show 1 ≤ c.depth; omega) (Also.new trivial))
  have hrest := htest.append (.write pop rfl rfl (show 1 ≤ d.depth by omega))
  exact (hrest.append ofRight.runs.also).land fun _ => by omega

theorem ternary {condition whenTrue whenFalse : Node} {span : Span} {exits : List Nat}
    (ofCondition : Verified F s (.value condition) (a.enter (.branch 0 #[])) b)
    (skip : F.Jumps .jumpIfFalse e.index b c) (ofTrue : Verified F s (.value whenTrue) c d)
    (leaves : Leaves F true f.index exits d e)
    (ofFalse : Verified F s (.value whenFalse) (e.land (b.taken .jumpIfFalse)) f) :
    Verified F s (.rule (.ternary condition whenTrue whenFalse span)) a
      (f.leave.landAll exits) := by
  have hcondition : b.depth = a.depth + 1 := ofCondition.balanced
  have hskip : c.depth = b.depth - 1 := skip.depth
  have htrue : d.depth = c.depth + 1 := ofTrue.balanced
  have hfalse : f.depth = (b.depth - 1) + 1 := ofFalse.balanced
  have hexits : ∀ exit ∈ exits, exit = f.depth := by
    intro exit hmem
    rw [leaves.depth.2 exit hmem]
    omega
  have hfinish : (⟨d.depth, s.guards⟩ : Mark) = ⟨f.depth, s.guards⟩ := by
    rw [show d.depth = f.depth by omega]
  refine ⟨show (f.leave.landAll exits).depth = a.depth + 1 from ?_, ?_⟩
  · rw [Spot.landAll_depth (a := f.leave) hexits]
    show f.depth = a.depth + 1
    omega
  · have hleaves : Runs F (Also (exits ≠ []) s.Leads f.index ⟨f.depth, s.guards⟩) d s.guards e
        s.guards := hfinish ▸ leaves.runs
    have hthen := ((ofCondition.runs.also.also.append
      (.jump skip rfl nofun (show 1 ≤ b.depth by omega) (Also.new trivial))).append
        ofTrue.runs.also.also).append hleaves.also
    have hstops : e.reachable ≠ true := by
      rw [leaves.stops]
      exact nofun
    have helse := (hthen.land fun hfalls => absurd hfalls hstops).append ofFalse.runs.also
    exact Runs.landAll (b := f.leave) helse hexits fun _ => rfl

theorem transformEach {i j k l m n : Spot} {source shape : Node} {span : Span}
    {collected element : UInt16} (new : F.Writes ⟨.newList, .none⟩ a.takeSlot.takeSlot b)
    (keep : F.Writes ⟨.store, .slot ⟨0, collected⟩⟩ b c)
    (ofSource : Verified F s (.value source) c d) (start : F.Writes ⟨.iterStart, .none⟩ d e)
    (next : F.Jumps .iterNext l.index e f) (store : F.Writes ⟨.store, .slot ⟨0, element⟩⟩ f g)
    (load : F.Writes ⟨.load, .slot ⟨0, collected⟩⟩ g h)
    (ofShape : Verified F s.inTransform (.value shape) (h.enter (.transform element)) i)
    (push : F.Writes ⟨.push, .none⟩ i.leave j) (drop : F.Writes ⟨.pop, .none⟩ j k)
    (again : F.Jumps .jump e.index k l)
    (done : F.Writes ⟨.pop, .none⟩ (l.land (e.taken .iterNext)) m)
    (yields : F.Writes ⟨.load, .slot ⟨0, collected⟩⟩ m n) :
    Verified F s (.rule (.transform .each source shape span)) a n := by
  have hnew : b.depth = a.depth + 1 := new.depth
  have hkeep : c.depth = b.depth - 1 := keep.depth
  have hsource : d.depth = c.depth + 1 := ofSource.balanced
  have hstart : e.depth = d.depth - 1 + 1 := start.depth
  have hnext : f.depth = e.depth - 1 + 2 := next.depth
  have hstore : g.depth = f.depth - 1 := store.depth
  have hload : h.depth = g.depth + 1 := load.depth
  have hshape : i.depth = h.depth + 1 := ofShape.balanced
  have hpush : j.depth = i.depth - 2 + 1 := push.depth
  have hdrop : k.depth = j.depth - 1 := drop.depth
  have htaken : e.taken .iterNext = e.depth := show e.depth - 1 + 1 = e.depth by omega
  have hdone : m.depth = e.taken .iterNext - 1 := done.depth
  have hyields : n.depth = m.depth + 1 := yields.depth
  refine ⟨show n.depth = a.depth + 1 by omega, ?_⟩
  let X := Also True (Also True s.Leads e.index ⟨e.depth, s.guards⟩) l.index
    ⟨e.taken .iterNext, s.guards⟩
  have hhead : Runs F X e s.guards h s.guards :=
    ((Runs.jump next rfl nofun (show 1 ≤ e.depth by omega) (Also.new trivial)).append
      (.write store rfl rfl (show 1 ≤ f.depth by omega))).append
        (.write load rfl rfl (Nat.zero_le _))
  have hfilled : Runs F X h s.guards i.leave s.guards := ofShape.runs.inTransform
  have hback : Runs F X i.leave s.guards l s.guards := by
    have hagain : X e.index ⟨k.taken .jump, s.guards⟩ := by
      rw [show k.taken .jump = e.depth from show k.depth = e.depth by omega]
      exact Also.old (Also.new trivial)
    exact ((Runs.write push rfl rfl (show 2 ≤ i.depth by omega)).append
      (.write drop rfl rfl (show 1 ≤ j.depth by omega))).append
        (.jump again rfl nofun (Nat.zero_le _) hagain)
  have hloop := ((hhead.append hfilled).append hback).land
    fun hfalls => absurd hfalls (by rw [again.stops]; exact nofun)
  have hstarted : Runs F s.Leads a s.guards e s.guards :=
    (((Runs.write new rfl rfl (Nat.zero_le _)).append
      (.write keep rfl rfl (show 1 ≤ b.depth by omega))).append ofSource.runs).append
        (.write start rfl rfl (show 1 ≤ d.depth by omega))
  exact ((hstarted.append hloop.loop).append
    (.write done rfl rfl (show 1 ≤ e.taken .iterNext by omega))).append
      (.write yields rfl rfl (Nat.zero_le _))

theorem transformSingle {source shape : Node} {span : Span} {element : UInt16}
    (ofSource : Verified F s (.value source) a.takeSlot b)
    (store : F.Writes ⟨.store, .slot ⟨0, element⟩⟩ b c)
    (ofShape : Verified F s.inTransform (.value shape) (c.enter (.transform element)) d) :
    Verified F s (.rule (.transform .single source shape span)) a d.leave := by
  have hsource : b.depth = a.depth + 1 := ofSource.balanced
  have hstore : c.depth = b.depth - 1 := store.depth
  have hshape : d.depth = c.depth + 1 := ofShape.balanced
  refine ⟨show d.depth = a.depth + 1 by omega, ?_⟩
  exact (ofSource.runs.append (.write store rfl rfl (show 1 ≤ b.depth by omega))).append
    ofShape.runs.inTransform

/-! ### Statements that run straight through -/

theorem varDecl {name : Name} {init : Node} {span : Span} {slot : UInt16}
    (ofInit : Verified F s (.value init) a b)
    (store : F.Writes ⟨.store, .slot ⟨0, slot⟩⟩ (b.declare name.text slot) c) :
    Verified F s (.rule (.varDecl name init span)) a c := by
  have hinit : b.depth = a.depth + 1 := ofInit.balanced
  have hstore : c.depth = b.depth - 1 := store.depth
  have hwrite : Runs F s.Leads (b.declare name.text slot) s.guards c s.guards :=
    .write store rfl rfl (show 1 ≤ b.depth by omega)
  exact ⟨show c.depth = a.depth by omega, ofInit.runs.append hwrite⟩

theorem assign {name : Name} {value : Node} {span : Span} {ref : SlotRef}
    (ofValue : Verified F s (.value value) a b) (store : F.Writes ⟨.store, .slot ref⟩ b c) :
    Verified F s (.rule (.assign name value span)) a c := by
  have hvalue : b.depth = a.depth + 1 := ofValue.balanced
  have hstore : c.depth = b.depth - 1 := store.depth
  refine ⟨show c.depth = a.depth by omega, ?_⟩
  exact ofValue.runs.append (.write store rfl rfl (show 1 ≤ b.depth by omega))

theorem importAs {source : ImportSource} {path : String} {binding : Name} {span : Span}
    {id : UInt32} {slot : UInt16}
    (load : F.Writes ⟨source.opcode, .const id⟩ (a.declare binding.text slot) b)
    (store : F.Writes ⟨.store, .slot ⟨0, slot⟩⟩ b c) :
    Verified F s (.rule (.importAs source path binding span)) a c := by
  have huse : (Instruction.mk source.opcode (.const id)).stackUse = ⟨0, 1⟩ := by
    cases source <;> rfl
  have hop : source.opcode.unconcerned = true := by cases source <;> rfl
  have hload : b.depth = a.depth + 1 := by rw [load.depth, huse]; rfl
  have hstore : c.depth = b.depth - 1 := store.depth
  refine ⟨show c.depth = a.depth by omega, ?_⟩
  exact (Runs.write load hop rfl (by rw [huse]; exact Nat.zero_le _)).append
    (.write store rfl rfl (show 1 ≤ b.depth by omega))

/-! ### Statements that branch -/

theorem ifChain {arms : List (Node × Node)} {otherwise : Option Node} {span : Span}
    {exits : List Nat}
    (ofArms : Verified F s (.arms otherwise.isSome c.index exits arms) (a.enter (.branch 0 #[])) b)
    (ofRest : Verified F s (.statements otherwise.toList) b c) :
    Verified F s (.rule (.ifChain arms otherwise span)) a (c.leave.landAll exits) := by
  obtain ⟨harms, hexits⟩ := ofArms.balanced
  have harms : b.depth = a.depth := harms
  have hrest : c.depth = b.depth := ofRest.balanced
  have hexits : ∀ exit ∈ exits, exit = c.leave.depth := by
    intro exit hmem
    rw [hexits exit hmem]
    show a.depth = c.depth
    omega
  refine ⟨show (c.leave.landAll exits).depth = a.depth from ?_, ?_⟩
  · rw [Spot.landAll_depth hexits]
    show c.depth = a.depth
    omega
  · have hall : Runs F (Also (exits ≠ []) s.Leads c.index ⟨a.depth, s.guards⟩) a s.guards c
        s.guards := ofArms.runs.append ofRest.runs.also
    rw [show a.depth = c.leave.depth from show a.depth = c.depth by omega] at hall
    exact Runs.landAll (b := c.leave) hall hexits fun _ => rfl

theorem moreArms {moreFollows : Bool} {finish : Nat} {exit exits : List Nat}
    {condition body : Node} {rest : List (Node × Node)}
    (ofCondition : Verified F s (.value condition) a b)
    (skip : F.Jumps .jumpIfFalse e.index b c) (ofBody : Verified F s (.statement body) c d)
    (leaves : Leaves F (moreFollows || !rest.isEmpty) finish exit d e)
    (ofRest : Verified F s (.arms moreFollows finish exits rest)
      (e.land (b.taken .jumpIfFalse)) f) :
    Verified F s (.arms moreFollows finish (exit ++ exits) ((condition, body) :: rest)) a f := by
  obtain ⟨hleaves, hexit⟩ := leaves.depth
  obtain ⟨hrest, hexits⟩ := ofRest.balanced
  have hcondition : b.depth = a.depth + 1 := ofCondition.balanced
  have hskip : c.depth = b.depth - 1 := skip.depth
  have hbody : d.depth = c.depth := ofBody.balanced
  have hstart : (e.land (b.taken .jumpIfFalse)).depth = a.depth :=
    show b.depth - 1 = a.depth by omega
  refine ⟨⟨hrest.trans hstart, ?_⟩, ?_⟩
  · intro taken hmem
    rcases List.mem_append.mp hmem with hmem | hmem
    · rw [hexit taken hmem]
      omega
    · exact (hexits taken hmem).trans hstart
  · let X := Also (exit ++ exits ≠ []) s.Leads finish ⟨a.depth, s.guards⟩
    have hjumps : Runs F X d s.guards e s.guards := by
      have hruns : Runs F (Also (exit ≠ []) s.Leads finish ⟨d.depth, s.guards⟩) d s.guards e
        s.guards := leaves.runs
      refine hruns.mono fun j n hout => ?_
      rcases hout with hout | ⟨hsome, rfl, rfl⟩
      · exact .inl hout
      · refine .inr ⟨List.append_ne_nil_of_left_ne_nil hsome _, rfl, ?_⟩
        rw [show d.depth = a.depth by omega]
    have hothers : Runs F X (e.land (b.taken .jumpIfFalse)) s.guards f s.guards := by
      refine ofRest.runs.mono fun j n hout => ?_
      rcases hout with hout | ⟨hsome, rfl, rfl⟩
      · exact .inl hout
      · refine .inr ⟨List.append_ne_nil_of_right_ne_nil _ hsome, rfl, ?_⟩
        rw [hstart]
    have hfirst := ((ofCondition.runs.also.also.append
      (.jump skip rfl nofun (show 1 ≤ b.depth by omega) (Also.new trivial))).append
        ofBody.runs.also.also).append hjumps.also
    exact (hfirst.land fun _ => show e.depth = b.depth - 1 by omega).append hothers

theorem whileLoop {condition body : Node} {span : Span}
    (ofCondition : Verified F (s.inLoop a.index e.index a.depth) (.value condition)
      (a.enter (.loop ⟨0, 0⟩ 0 #[])) b)
    (exit : F.Jumps .jumpIfFalse e.index b c)
    (ofBody : Verified F (s.inLoop a.index e.index a.depth) (.statement body) c d)
    (again : F.Jumps .jump a.index d e) :
    Verified F s (.rule (.whileLoop condition body span)) a
      (e.land (b.taken .jumpIfFalse)).leave := by
  have hcondition : b.depth = a.depth + 1 := ofCondition.balanced
  have hexit : c.depth = b.depth - 1 := exit.depth
  have hbody : d.depth = c.depth := ofBody.balanced
  have htaken : b.taken .jumpIfFalse = a.depth := show b.depth - 1 = a.depth by omega
  have hback : d.taken .jump = a.depth := show d.depth = a.depth by omega
  refine ⟨htaken, ?_⟩
  let X := Also True (Also True s.Leads a.index ⟨a.depth, s.guards⟩) e.index ⟨a.depth, s.guards⟩
  have htest : Runs F X a s.guards c s.guards := by
    refine ofCondition.runs.inLoop.append
      (.jump exit rfl nofun (show 1 ≤ b.depth by omega) ?_)
    rw [htaken]
    exact Also.new trivial
  have hrest : Runs F X c s.guards e s.guards := by
    refine ofBody.runs.inLoop.append (.jump again rfl nofun (Nat.zero_le _) ?_)
    rw [hback]
    exact Also.old (Also.new trivial)
  have hwhole := (htest.append hrest).land fun hfalls => absurd hfalls (by
    rw [again.stops]
    exact nofun)
  rw [htaken]
  exact hwhole.loop

theorem forEach {binding : Name} {iterable body : Node} {span : Span} {slot : UInt16}
    (ofIterable : Verified F s (.value iterable) a b) (start : F.Writes ⟨.iterStart, .none⟩ b c)
    (next : F.Jumps .iterNext g.index (c.enter (.loop ⟨0, 0⟩ 0 #[])) d)
    (store : F.Writes ⟨.store, .slot ⟨0, slot⟩⟩ (d.declare binding.text slot) e)
    (ofBody : Verified F (s.inLoop c.index g.index c.depth) (.statement body) e f)
    (again : F.Jumps .jump c.index f g)
    (drop : F.Writes ⟨.pop, .none⟩ ((g.land (c.taken .iterNext)).leave) h) :
    Verified F s (.rule (.forEach binding iterable body span)) a h := by
  have hiterable : b.depth = a.depth + 1 := ofIterable.balanced
  have hstart : c.depth = b.depth - 1 + 1 := start.depth
  have hnext : d.depth = c.depth - 1 + 2 := next.depth
  have hstore : e.depth = d.depth - 1 := store.depth
  have hbody : f.depth = e.depth := ofBody.balanced
  have htaken : c.taken .iterNext = c.depth := show c.depth - 1 + 1 = c.depth by omega
  have hback : f.taken .jump = c.depth := show f.depth = c.depth by omega
  have hdrop : h.depth = c.taken .iterNext - 1 := drop.depth
  refine ⟨show h.depth = a.depth by omega, ?_⟩
  let X := Also True (Also True s.Leads c.index ⟨c.depth, s.guards⟩) g.index ⟨c.depth, s.guards⟩
  have hitem : Runs F X c s.guards d s.guards := by
    refine Runs.jump (a := c.enter (.loop ⟨0, 0⟩ 0 #[])) next rfl nofun
      (show 1 ≤ c.depth by omega) ?_
    rw [show (c.enter (.loop ⟨0, 0⟩ 0 #[])).taken .iterNext = c.depth from htaken]
    exact Also.new trivial
  have hbound : Runs F X d s.guards e s.guards :=
    Runs.write (a := d.declare binding.text slot) store rfl rfl (show 1 ≤ d.depth by omega)
  have hrest : Runs F X e s.guards g s.guards := by
    refine ofBody.runs.inLoop.append (.jump again rfl nofun (Nat.zero_le _) ?_)
    rw [hback]
    exact Also.old (Also.new trivial)
  have hloop := ((hitem.append hbound).append hrest).land fun hfalls => absurd hfalls (by
    rw [again.stops]
    exact nofun)
  have hstarted : Runs F s.Leads a s.guards c s.guards :=
    ofIterable.runs.append (.write start rfl rfl (show 1 ≤ b.depth by omega))
  rw [htaken] at drop
  exact (hstarted.append hloop.loop).append
    (Runs.write (a := (g.land c.depth).leave) drop rfl rfl (show 1 ≤ c.depth by omega))

/-! ### Handlers -/

theorem tryCatch {body handler : Node} {binding : Option Name} {span : Span} {exits : List Nat}
    (install : F.Jumps .tryBegin d.index a b)
    (ofBody : Verified F (s.guarded a.index) (.statement body)
      (b.enter (.handler ⟨0, 0⟩ false 0)) c)
    (escapes : Escapes F f.index exits c d)
    (catches : Catches F binding (d.land (a.taken .tryBegin)) e)
    (ofHandler : Verified F s (.statement handler) e f) :
    Verified F s (.rule (.tryCatch body binding handler span)) a (f.leave.landAll exits) := by
  have hinstall : b.depth = a.depth := install.depth
  have hbody : c.depth = b.depth := ofBody.balanced
  have hcatches : e.depth = (a.depth + 1) - 1 := catches.depth
  have hhandler : f.depth = e.depth := ofHandler.balanced
  have hexits : ∀ exit ∈ exits, exit = f.leave.depth := by
    intro exit hmem
    rw [escapes.depth exit hmem]
    show c.depth = f.depth
    omega
  refine ⟨show (f.leave.landAll exits).depth = a.depth from ?_, ?_⟩
  · rw [Spot.landAll_depth hexits]
    show f.depth = a.depth
    omega
  · let X := Also (exits ≠ []) s.Leads f.index ⟨f.depth, s.guards⟩
    have hescapes : Runs F X c (a.index :: s.guards) d s.guards := by
      rw [show X = Also (exits ≠ []) s.Leads f.index ⟨c.depth, s.guards⟩ by
        rw [show c.depth = f.depth by omega]]
      exact escapes.runs
    have hguarded : Runs F (Also True X d.index ⟨a.depth + 1, s.guards⟩) a s.guards d s.guards :=
      ((Runs.install install (Also.new trivial)).append ofBody.runs.guarded.also.also).append
        hescapes.also
    have hcaught : Runs F X a s.guards (d.land (a.taken .tryBegin)) s.guards :=
      hguarded.land fun hfalls => absurd hfalls (by rw [escapes.stops]; exact nofun)
    have hall := (hcaught.append (catches.runs (Nat.le_add_left 1 a.depth))).append
      ofHandler.runs.also
    exact Runs.landAll (b := f.leave) hall hexits fun _ => rfl

/-! ### Statements that do not come to their end -/

/-- What `break` and `continue` have in common. -/
theorem leaveLoop {node : Node} {loop : Loop} {target : Nat} (hs : s.Sane)
    (hkind : node.construct.balance = .diverges) (inside : s.loop? = some loop)
    (htarget : target = loop.head ∨ target = loop.exit)
    (level : a.reachable = true → a.depth = loop.level)
    (unwinds : Unwinds F loop.crossed (a.reset loop.level) b) (jump : F.Jumps .jump target b c) :
    Verified F s (.rule node) a c := by
  have hstart : (a.reset loop.level).mark s.guards = a.mark s.guards := by
    by_cases hreachable : a.reachable = true
    · rw [← level hreachable]
      rfl
    · have hdead : a.reachable = false := Bool.eq_false_iff.mpr hreachable
      exact (Spot.mark_unreachable (show (a.reset loop.level).reachable = false from hdead) _).trans
        (Spot.mark_unreachable hdead _).symm
  have hlevel : b.taken .jump = loop.level := unwinds.depth
  have hleads : s.Leads target ⟨b.taken .jump, s.guards.drop loop.crossed⟩ :=
    ⟨loop, inside, htarget, by rw [hlevel]⟩
  have hruns := (Runs.unwind unwinds (hs loop inside)).append
    (.jump jump rfl nofun (Nat.zero_le _) hleads)
  refine ⟨?_, ?_⟩
  · simpa only [Phrase.Balanced, hkind] using jump.stops
  · obtain ⟨marks, hpiece⟩ : Runs F s.Leads (a.reset loop.level) s.guards c s.guards :=
      hruns.reset jump.stops
    exact ⟨marks, hstart ▸ hpiece⟩

theorem returnWith {code : Int64} {data : Option Node} {span : Span}
    (ofResult : Verified F s (.result code data) a b) (unwinds : Unwinds F s.guards.length b c)
    (leave : F.Writes ⟨.ret, .none⟩ c d) :
    Verified F s (.rule (.returnWith code data span)) a d := by
  have hresult : b.depth = a.depth + 2 := ofResult.balanced
  have hunwinds : c.depth = b.depth := unwinds.depth
  have hunwound : Runs F s.Leads b s.guards c [] := by
    have hruns : Runs F s.Leads b s.guards c (s.guards.drop s.guards.length) :=
      .unwind unwinds (Nat.le_refl _)
    rwa [List.drop_length] at hruns
  exact ⟨leave.stops rfl, (ofResult.runs.append hunwound).append (.ret leave (by omega))⟩

/-- A result is taken from the stack by an instruction that does not go on. -/
theorem outcome {node : Node} {op : Opcode} {code : Int64} {data : Option Node}
    (hkind : node.construct.balance = .diverges) (hop : op.unconcerned = true)
    (hterminal : op.isTerminal = true) (huse : op.stackUse 0 = ⟨2, 0⟩)
    (ofResult : Verified F s (.result code data) a b) (leave : F.Writes ⟨op, .none⟩ b c) :
    Verified F s (.rule node) a c := by
  have hresult : b.depth = a.depth + 2 := ofResult.balanced
  have hpops : (Instruction.mk op .none).stackUse.pops ≤ b.depth := by
    rw [show (Instruction.mk op .none).stackUse = ⟨2, 0⟩ from huse]
    show 2 ≤ b.depth
    omega
  refine ⟨?_, ofResult.runs.append (.write leave hop rfl hpops)⟩
  simpa only [Phrase.Balanced, hkind] using leave.stops hterminal

theorem resultNull {code : Int64} {id : UInt32} (push : F.Writes ⟨.loadConst, .const id⟩ a b)
    (null : F.Writes ⟨.pushNull, .none⟩ b c) : Verified F s (.result code none) a c := by
  have hpush : b.depth = a.depth + 1 := push.depth
  have hnull : c.depth = b.depth + 1 := null.depth
  refine ⟨show c.depth = a.depth + 2 by omega, ?_⟩
  exact (Runs.write push rfl rfl (Nat.zero_le _)).append (.write null rfl rfl (Nat.zero_le _))

theorem resultData {code : Int64} {data : Node} {id : UInt32}
    (push : F.Writes ⟨.loadConst, .const id⟩ a b) (ofData : Verified F s (.value data) b c) :
    Verified F s (.result code (some data)) a c := by
  have hpush : b.depth = a.depth + 1 := push.depth
  have hdata : c.depth = b.depth + 1 := ofData.balanced
  refine ⟨show c.depth = a.depth + 2 by omega, ?_⟩
  exact (Runs.write push rfl rfl (Nat.zero_le _)).append ofData.runs

/-! ### The contract of a node -/

theorem settles {node : Node} (kind : node.construct.balance ≠ .diverges)
    (ofRule : Verified F s (.rule node) a b) : Verified F s (.node node) a b := by
  refine ⟨?_, ofRule.runs⟩
  have hrule := ofRule.balanced
  unfold Phrase.Balanced at hrule ⊢
  cases hkind : node.construct.balance with
  | value => simpa only [hkind] using hrule
  | effect => simpa only [hkind] using hrule
  | diverges => exact absurd hkind kind

theorem diverges {node : Node} (kind : node.construct.balance = .diverges)
    (ofRule : Verified F s (.rule node) a b) : Verified F s (.node node) a (b.reset a.depth) := by
  have hrule := ofRule.balanced
  simp only [Phrase.Balanced, kind] at hrule
  refine ⟨?_, ofRule.runs.reset hrule⟩
  simp only [Phrase.Balanced, kind]
  exact ⟨rfl, hrule⟩

theorem valueOf {node : Node} (kind : node.construct.balance = .value)
    (ofNode : Verified F s (.node node) a b) : Verified F s (.value node) a b := by
  have hnode := ofNode.balanced
  simp only [Phrase.Balanced, kind] at hnode
  exact ⟨hnode, ofNode.runs⟩

theorem valueNever {node : Node} (kind : node.construct.balance = .diverges)
    (ofNode : Verified F s (.node node) a b) :
    Verified F s (.value node) a (b.reset (a.depth + 1)) := by
  have hnode := ofNode.balanced
  simp only [Phrase.Balanced, kind] at hnode
  exact ⟨rfl, ofNode.runs.reset hnode.2⟩

theorem dropped {node : Node} (kind : node.construct.balance = .value)
    (ofNode : Verified F s (.node node) a b) (drop : F.Writes ⟨.pop, .none⟩ b c) :
    Verified F s (.statement node) a c := by
  have hnode : b.depth = a.depth + 1 := (valueOf kind ofNode).balanced
  have hdrop : c.depth = b.depth - 1 := drop.depth
  refine ⟨show c.depth = a.depth by omega, ?_⟩
  exact ofNode.runs.append (.write drop rfl rfl (show 1 ≤ b.depth by omega))

theorem plain {node : Node} (kind : node.construct.balance ≠ .value)
    (ofNode : Verified F s (.node node) a b) : Verified F s (.statement node) a b := by
  have hnode := ofNode.balanced
  cases hkind : node.construct.balance with
  | value => exact absurd hkind kind
  | effect =>
      simp only [Phrase.Balanced, hkind] at hnode
      exact ⟨hnode, ofNode.runs⟩
  | diverges =>
      simp only [Phrase.Balanced, hkind] at hnode
      exact ⟨hnode.1, ofNode.runs⟩

theorem bodyValue {node : Node} {id : UInt32} (hs : s.guards = [])
    (push : F.Writes ⟨.loadConst, .const id⟩ a b) (ofNode : Verified F s (.value node) b c)
    (leave : F.Writes ⟨.ret, .none⟩ c d) : Verified F s (.body node) a d := by
  have hpush : b.depth = a.depth + 1 := push.depth
  have hnode : c.depth = b.depth + 1 := ofNode.balanced
  have hruns : Runs F s.Leads a s.guards c s.guards :=
    (Runs.write push rfl rfl (Nat.zero_le _)).append ofNode.runs
  have hleave : Runs F s.Leads c s.guards d s.guards := by
    rw [hs]
    exact .ret leave (by omega)
  exact ⟨leave.stops rfl, hruns.append hleave⟩

theorem bodyFalls {node : Node} {id : UInt32} (hs : s.guards = [])
    (ofNode : Verified F s (.node node) a b)
    (push : F.Writes ⟨.loadConst, .const id⟩ b c) (null : F.Writes ⟨.pushNull, .none⟩ c d)
    (leave : F.Writes ⟨.ret, .none⟩ d e) : Verified F s (.body node) a e := by
  have hpush : c.depth = b.depth + 1 := push.depth
  have hnull : d.depth = c.depth + 1 := null.depth
  have hruns : Runs F s.Leads a s.guards d s.guards :=
    (ofNode.runs.append (.write push rfl rfl (Nat.zero_le _))).append
      (.write null rfl rfl (Nat.zero_le _))
  have hleave : Runs F s.Leads d s.guards e s.guards := by
    rw [hs]
    exact .ret leave (by omega)
  exact ⟨leave.stops rfl, hruns.append hleave⟩

theorem bodyNever {node : Node} (kind : node.construct.balance = .diverges)
    (ofNode : Verified F s (.node node) a b) : Verified F s (.body node) a b := by
  have hnode := ofNode.balanced
  simp only [Phrase.Balanced, kind] at hnode
  exact ⟨hnode.2, ofNode.runs⟩

/-! ### Several nodes -/

/-- A value that is put into the one below it, and what is put there afterwards. -/
theorem oneMore {node : Node} {instruction : Instruction} (ready : 1 ≤ a.depth)
    (ofFirst : Verified F s (.value node) a b) (store : F.Writes instruction b c)
    (hop : instruction.op.unconcerned = true) (htarget : instruction.target? = none)
    (huse : instruction.stackUse = ⟨2, 1⟩) (ofRest : 1 ≤ c.depth → d.depth = c.depth ∧
      Runs F s.Leads c s.guards d s.guards) :
    d.depth = a.depth ∧ Runs F s.Leads a s.guards d s.guards := by
  have hfirst : b.depth = a.depth + 1 := ofFirst.balanced
  have hstore : c.depth = b.depth - 2 + 1 := by rw [store.depth, huse]
  obtain ⟨hrest, hruns⟩ := ofRest (by omega)
  have hpops : instruction.stackUse.pops ≤ b.depth := by
    rw [huse]
    show 2 ≤ b.depth
    omega
  exact ⟨by omega, (ofFirst.runs.append (.write store hop htarget hpops)).append hruns⟩

theorem moreItems {node : Node} {rest : List Node} (ready : 1 ≤ a.depth)
    (ofFirst : Verified F s (.value node) a b) (push : F.Writes ⟨.push, .none⟩ b c)
    (ofRest : 1 ≤ c.depth → Verified F s (.items rest) c d) :
    Verified F s (.items (node :: rest)) a d := by
  obtain ⟨hdepth, hruns⟩ := oneMore ready ofFirst push rfl rfl rfl
    fun hready => ⟨(ofRest hready).balanced, (ofRest hready).runs⟩
  exact ⟨hdepth, hruns⟩

theorem moreFields {key : String} {node : Node} {rest : List (String × Node)} {id : UInt32}
    (ready : 1 ≤ a.depth) (ofFirst : Verified F s (.value node) a b)
    (put : F.Writes ⟨.put, .const id⟩ b c)
    (ofRest : 1 ≤ c.depth → Verified F s (.fields rest) c d) :
    Verified F s (.fields ((key, node) :: rest)) a d := by
  obtain ⟨hdepth, hruns⟩ := oneMore ready ofFirst put rfl rfl rfl
    fun hready => ⟨(ofRest hready).balanced, (ofRest hready).runs⟩
  exact ⟨hdepth, hruns⟩

theorem moreValues {node : Node} {rest : List Node} (ofFirst : Verified F s (.value node) a b)
    (ofRest : Verified F s (.values rest) b c) : Verified F s (.values (node :: rest)) a c := by
  have hfirst : b.depth = a.depth + 1 := ofFirst.balanced
  have hrest : c.depth = b.depth + rest.length := ofRest.balanced
  refine ⟨show c.depth = a.depth + (rest.length + 1) by omega, ?_⟩
  exact ofFirst.runs.append ofRest.runs

end Verified

/-! ### Every phrase -/

theorem Surroundings.Sane.inLoop {head exit level : Nat} : (s.inLoop head exit level).Sane := by
  intro loop hloop
  obtain rfl := Option.some.inj hloop
  exact Nat.zero_le _

theorem Surroundings.Sane.inTransform : s.inTransform.Sane := by
  intro loop hloop
  cases hloop

theorem Surroundings.Sane.guarded (hs : s.Sane) (start : Nat) : (s.guarded start).Sane := by
  intro loop hloop
  obtain ⟨outer, houter, rfl⟩ := Option.map_eq_some_iff.mp hloop
  exact Nat.succ_le_succ (hs outer houter)

/-- **What is laid out keeps the balance and can be marked.** -/
theorem Laid.verified {phrase : Phrase} (h : Laid F s phrase a b) (hs : s.Sane)
    (ready : phrase.Ready s a) : Verified F s phrase a b := by
  induction h with
  | literal pushes push =>
      cases pushes <;> exact .pushed push rfl rfl rfl rfl
  | localName found load => exact .pushed load rfl rfl rfl rfl
  | globalName found holds load => exact .pushed load rfl rfl rfl rfl
  | param holds load => exact .pushed load rfl rfl rfl rfl
  | current found load => exact .pushed load rfl rfl rfl rfl
  | lambda make => exact .pushed make rfl rfl rfl rfl
  | list new fill ihFill => exact .list new (ihFill hs)
  | object new fill ihFill => exact .object new (ihFill hs)
  | member ofOwner holds get ihOwner => exact .member (ihOwner hs trivial) get
  | index ofOwner ofSubscript get ihOwner ihSubscript =>
      exact .index (ihOwner hs trivial) (ihSubscript hs trivial) get
  | call few ofCallee ofArguments call ihCallee ihArguments =>
      exact .call few (ihCallee hs trivial) (ihArguments hs trivial) call
  | unary ofOperand apply ihOperand => exact .unary (ihOperand hs trivial) apply
  | binary ofLeft ofRight apply ihLeft ihRight =>
      exact .binary (ihLeft hs trivial) (ihRight hs trivial) apply
  | logical ofLeft dup skip pop ofRight land ihLeft ihRight =>
      subst land
      exact .logical (ihLeft hs trivial) dup skip pop (ihRight hs trivial)
  | ternary ofCondition skip ofTrue leaves ofFalse land ihCondition ihTrue ihFalse =>
      subst land
      exact .ternary (ihCondition hs trivial) skip (ihTrue hs trivial) leaves (ihFalse hs trivial)
  | group ofInner ihInner => exact ⟨(ihInner hs trivial).balanced, (ihInner hs trivial).runs⟩
  | transformEach first second new keep ofSource start next store load ofShape push drop again done
      yields ihSource ihShape =>
      exact .transformEach new keep (ihSource hs trivial) start next store load
        (ihShape .inTransform trivial) push drop again done yields
  | transformSingle free ofSource store ofShape leave ihSource ihShape =>
      subst leave
      exact .transformSingle (ihSource hs trivial) store (ihShape .inTransform trivial)
  | block inside leave ihInside =>
      subst leave
      exact ⟨(ihInside hs trivial).balanced, (ihInside hs trivial).runs⟩
  | varDecl ofInit free store ihInit => exact .varDecl (ihInit hs trivial) store
  | assign found ofValue store ihValue => exact .assign (ihValue hs trivial) store
  | run ofInner ihInner => exact ⟨(ihInner hs trivial).balanced, (ihInner hs trivial).runs⟩
  | hint named holds set => exact ⟨set.depth, .write set rfl rfl (Nat.zero_le _)⟩
  | importAs holds free load store => exact .importAs load store
  | ifChain ofArms ofRest land ihArms ihRest =>
      subst land
      exact .ifChain (ihArms hs trivial) (ihRest hs trivial)
  | whileLoop ofCondition exit ofBody again land ihCondition ihBody =>
      subst land
      exact .whileLoop (ihCondition .inLoop trivial) exit (ihBody .inLoop trivial)
        again
  | forEach ofIterable start next free store ofBody again drop ihIterable ihBody =>
      exact .forEach (ihIterable hs trivial) start next store (ihBody .inLoop trivial) again
        drop
  | tryCatch install ofBody escapes catches ofHandler land ihBody ihHandler =>
      subst land
      exact .tryCatch install (ihBody (hs.guarded _) trivial) escapes catches (ihHandler hs trivial)
  | breakLoop inside level unwinds jump =>
      exact .leaveLoop hs rfl inside (.inr rfl) level unwinds jump
  | continueLoop inside level unwinds jump =>
      exact .leaveLoop hs rfl inside (.inl rfl) level unwinds jump
  | returnWith ofResult unwinds leave ihResult =>
      exact .returnWith (ihResult hs trivial) unwinds leave
  | exitWith ofResult leave ihResult =>
      exact .outcome rfl rfl rfl rfl (ihResult hs trivial) leave
  | throwWith ofResult throw ihResult =>
      exact .outcome rfl rfl rfl rfl (ihResult hs trivial) throw
  | resultNull holds push null => exact .resultNull push null
  | resultData holds push ofData ihData => exact .resultData push (ihData hs trivial)
  | settles kind ofRule ihRule => exact .settles kind (ihRule hs trivial)
  | diverges kind ofRule reset ihRule =>
      subst reset
      exact .diverges kind (ihRule hs trivial)
  | valueOf kind ofNode ihNode => exact .valueOf kind (ihNode hs trivial)
  | valueNever kind ofNode reset ihNode =>
      subst reset
      exact .valueNever kind (ihNode hs trivial)
  | dropped kind ofNode drop ihNode => exact .dropped kind (ihNode hs trivial) drop
  | plain kind ofNode ihNode => exact .plain kind (ihNode hs trivial)
  | bodyValue kind holds push ofNode leave ihNode =>
      exact .bodyValue ready push (ihNode hs trivial) leave
  | bodyFalls kind ofNode falls holds push null leave ihNode =>
      exact .bodyFalls ready (ihNode hs trivial) push null leave
  | bodyEnds kind ofNode ends ihNode => exact ⟨ends, (ihNode hs trivial).runs⟩
  | bodyNever kind ofNode ihNode => exact .bodyNever kind (ihNode hs trivial)
  | noValues => exact ⟨rfl, .refl⟩
  | moreValues ofFirst ofRest ihFirst ihRest =>
      exact .moreValues (ihFirst hs trivial) (ihRest hs trivial)
  | noStatements => exact ⟨rfl, .refl⟩
  | moreStatements ofFirst ofRest ihFirst ihRest =>
      have hfirst := ihFirst hs trivial
      have hrest := ihRest hs trivial
      exact ⟨hrest.balanced.trans hfirst.balanced, hfirst.runs.append hrest.runs⟩
  | noItems => exact ⟨rfl, .refl⟩
  | moreItems ofFirst push ofRest ihFirst ihRest =>
      exact .moreItems ready (ihFirst hs trivial) push (ihRest hs)
  | noFields => exact ⟨rfl, .refl⟩
  | moreFields ofFirst holds put ofRest ihFirst ihRest =>
      exact .moreFields ready (ihFirst hs trivial) put (ihRest hs)
  | noArms => exact ⟨⟨rfl, fun exit hmem => nomatch hmem⟩, .refl⟩
  | moreArms ofCondition skip ofBody leaves ofRest ihCondition ihBody ihRest =>
      exact .moreArms (ihCondition hs trivial) skip (ihBody hs trivial) leaves (ihRest hs trivial)

end

end QueryCompiler.Layout
