/-
The script of every rule.

There is one description for each rule, in the order in which the rule proceeds.  It
starts with an empty ledger at the place of the node and follows the list that the tree
gives for the node; at its end no jump is held any more, and the operand stack has the
depth that the balance of the construct asks for.
-/
import QueryCompiler.Proofs.Script.Script

namespace QueryCompiler.Rule

open Workspace

/-- What the ledger of a node is to be in the end: nothing is held or noted, and if control gets
there the depth is that of the balance. -/
def Settled (place : Place) (balance : Balance) (l : Ledger) : Prop :=
  (balance ≠ .diverges → l.depth = place.depth + balance.gain) ∧ l.held = [] ∧ l.exits = []

/-- The rule carries out what is to be done for the node, wherever the node stands. -/
def Serves (rule : Rule) (node : Node) : Prop :=
  ∀ place : Place, Scripted ⟨none, place.level?⟩ ⟨place.depth, [], [], []⟩ (node.errands place)
    (fun lower => rule lower node) fun _ l => Settled place node.construct.balance l

/-- In a frame that is none of a loop no breaks are noted. -/
theorem breaks_eq_nil {labels : List PendingJump}
    (h : ∀ label ∈ labels, (none : Option Nat) = some label.depth) : labels = [] :=
  List.eq_nil_iff_forall_not_mem.mpr fun label hlabel => nomatch h label hlabel

variable {span : Span}

/-! ### Expressions -/

theorem literal_serves (value : Constant) : Serves literal (.literal value span) := by
  intro place
  cases value with
  | null => exact .last (.emit .pushNull) fun _ => ⟨fun _ => rfl, rfl, rfl⟩
  | bool b =>
      cases b with
      | true => exact .last (.emit .pushTrue) fun _ => ⟨fun _ => rfl, rfl, rfl⟩
      | false => exact .last (.emit .pushFalse) fun _ => ⟨fun _ => rfl, rfl, rfl⟩
  | int | float | string => exact .last (.pushConstant _) fun _ => ⟨fun _ => rfl, rfl, rfl⟩

theorem list_serves (items : List Node) : Serves list (.list items span) := by
  intro place
  refine .step (.emit .newList) fun _ => .last (.as
    (.forM (fun item => [.part item (place.above 1)]) (fun item => ?_) items)
    (List.map_eq_flatMap ..).symm) fun _ => ⟨fun _ => rfl, rfl, rfl⟩
  exact .step (.value item) fun _ => .emit .push

theorem object_serves (fields : List (String × Node)) : Serves object (.object fields span) := by
  intro place
  refine .step (.emit .newObject) fun _ => .last (.as
    (.forM (fun field => [.part field.2 (place.above 1)]) (fun field => ?_) fields)
    (List.map_eq_flatMap ..).symm) fun _ => ⟨fun _ => rfl, rfl, rfl⟩
  exact .step (.value field.2) fun _ => .emitName .put field.1

theorem ident_serves (name : String) : Serves ident (.ident name span) := by
  intro place
  refine .quietly (.findLocal name) fun found _ => ?_
  cases found with
  | some ref => exact .last (.emitWith .load nofun) fun _ => ⟨fun _ => rfl, rfl, rfl⟩
  | none => exact .last (.emitName .loadGlobal name) fun _ => ⟨fun _ => rfl, rfl, rfl⟩

theorem param_serves (name : String) : Serves param (.param name span) :=
  fun _ => .last (.emitName .loadParam name) fun _ => ⟨fun _ => rfl, rfl, rfl⟩

theorem current_serves : Serves current (.current span) :=
  fun _ => .quietly (.findElement span) fun _ _ =>
    .last (.emitWith .load nofun) fun _ => ⟨fun _ => rfl, rfl, rfl⟩

theorem member_serves (owner : Node) (name : String) : Serves member (.member owner name span) :=
  fun _ => .step (.value owner) fun _ =>
    .last (.emitName .getMember name) fun _ => ⟨fun _ => rfl, rfl, rfl⟩

theorem index_serves (owner subscript : Node) : Serves index (.index owner subscript span) :=
  fun _ => .step (.value owner) fun _ => .step (.value subscript) fun _ =>
    .last (.emit .getIndex) fun _ => ⟨fun _ => rfl, rfl, rfl⟩

theorem call_serves (callee : Node) (arguments : List Node) :
    Serves call (.call callee arguments span) := by
  intro place
  by_cases hmany : 65535 < arguments.length
  · simp only [call, if_pos hmany]
    exact .failing rfl
  · simp only [call, if_neg hmany]
    have hplaces : (arguments.mapIdx fun i argument =>
        Errand.part argument ⟨place.depth + 1 + i, place.level?⟩) ++ [] =
          arguments.mapIdx fun i argument => .part argument (place.above (1 + i)) := by
      simp only [List.append_nil, Place.above, Nat.add_assoc]
    refine .step (.value callee) fun _ => .as (.step (.values arguments) fun _ =>
      .last (.emitWith .call (by rintro ⟨⟩)) fun _ => ⟨fun _ => ?_, rfl, rfl⟩) hplaces
    have hcount : arguments.length.toUInt16.toNat = arguments.length :=
      Nat.mod_eq_of_lt (Nat.lt_succ_of_le (Nat.le_of_not_lt hmany))
    simp only [Instruction.stackUse, Opcode.stackUse, hcount]
    show _ = place.depth + 1
    omega

theorem unary_serves (op : UnaryOperator) (operand : Node) :
    Serves unary (.unary op operand span) :=
  fun _ => .step (.value operand) fun _ =>
    .last (.emit op.opcode) fun _ => ⟨fun _ => by cases op <;> rfl, rfl, rfl⟩

theorem binary_serves (op : BinaryOperator) (left right : Node) :
    Serves binary (.binary op left right span) :=
  fun _ => .step (.value left) fun _ => .step (.value right) fun _ =>
    .last (.emit op.opcode) fun _ => ⟨fun _ => by cases op <;> rfl, rfl, rfl⟩

theorem logical_serves (op : LogicalOperator) (left right : Node) :
    Serves logical (.logical op left right span) := by
  intro place
  have huse : op.skip.branchUse? = some ⟨1, 0⟩ ∧
      (Instruction.mk op.skip .unaimed).stackUse = ⟨1, 0⟩ := by cases op <;> exact ⟨rfl, rfl⟩
  refine .step (.value left) fun _ => .step (.emit .dup) fun _ => .bind (.jump op.skip huse.1) ?_
  rintro decided _ ⟨hdecided, rfl⟩
  rw [huse.2]
  exact .step (.emit .pop) fun _ => .step (.value right) fun _ =>
    .last (.land (List.Perm.refl [decided])) fun _ => ⟨fun _ => hdecided, rfl, rfl⟩

theorem group_serves (inner : Node) : Serves group (.group inner span) :=
  fun _ => .last (.value inner) fun _ => ⟨fun _ => rfl, rfl, rfl⟩

theorem lambda_serves (params : List Name) (body : Node) :
    Serves lambda (.lambda params body span) :=
  fun _ => .last (.lambda params body span) fun _ => ⟨fun _ => rfl, rfl, rfl⟩

/-! ### Transforms -/

/-- The shape leaves a value on top of what is there, and no jump. -/
theorem shapeWith_scripted {level? : Option Nat} {l : Ledger} (hexits : l.exits = [])
    (element : UInt16) (shape : Node) :
    Scripted ⟨none, level?⟩ l [.part shape ⟨l.depth, none⟩]
      (fun lower => shapeWith lower element shape)
      fun _ l' => l' = { l with depth := l.depth + 1 } := by
  refine .as (.bind (.within (.transform element) nofun ⟨rfl, rfl⟩ nofun fun _ _ => .value shape)
    ?_) (List.append_nil _)
  rintro ⟨⟨⟩, state⟩ _ ⟨_, rfl, hexits', hbreaks, rfl⟩
  have hnone : state.breaks = [] := breaks_eq_nil hbreaks
  refine .mono (.quiet (.pure _)) fun _ l' h => h.2.trans ?_
  simp [hexits', hnone, hexits]

theorem transform_serves (mode : Shaping) (source shape : Node) :
    Serves transform (.transform mode source shape span) := by
  intro place
  cases mode with
  | each =>
      refine .step (.takeSlot _) fun _ => .step (.takeSlot _) fun _ => .step (.emit .newList)
        fun _ => .step (.emitSlot .store _) fun _ => .step (.value source) fun _ =>
        .step (.emit .iterStart) fun _ => ?_
      show Scripted _ ⟨place.depth + 1, [], [], []⟩ _ _ _
      refine .bind .position ?_
      rintro next _ rfl
      refine .bind .depth ?_
      rintro level _ ⟨rfl, rfl⟩
      refine .bind (.jump .iterNext rfl) ?_
      rintro exit _ ⟨hexit, rfl⟩
      show Scripted _ ⟨place.depth + 2, [exit], [], [next]⟩ _ _ _
      refine .step (.emitSlot .store _) fun _ => .step (.emitSlot .load _) fun _ =>
        .step (shapeWith_scripted rfl _ shape) fun _ => .step (.emit .push) fun _ =>
        .step (.emit .pop) fun _ => .step (.jumpBack _ List.mem_cons_self) fun _ =>
        .step (.land (List.Perm.refl [exit])) fun _ => ?_
      rw [hexit]
      exact .step (.emit .pop) fun _ =>
        .last (.emitSlot .load _) fun _ => ⟨fun _ => rfl, rfl, rfl⟩
  | single =>
      exact .step (.takeSlot _) fun _ => .step (.value source) fun _ =>
        .step (.emitSlot .store _) fun _ => .last (shapeWith_scripted rfl _ shape)
        fun _ => ⟨fun _ => rfl, rfl, rfl⟩

/-! ### Blocks, variables and directives -/

theorem block_serves (statements : List Node) : Serves block (.block statements span) := by
  intro place
  refine .as (.bind (.within .block nofun ⟨rfl, rfl⟩ nofun fun _ _ => .statements statements) ?_)
    (List.append_nil _)
  rintro ⟨⟨⟩, state⟩ _ ⟨_, rfl, hexits, hbreaks, rfl⟩
  have hnone : state.breaks = [] := breaks_eq_nil hbreaks
  refine .mono (.quiet (.pure _)) fun _ l' h => h.2 ▸ ⟨fun _ => rfl, ?_, rfl⟩
  simp [hexits, hnone]

theorem varDecl_serves (name : Name) (init : Node) : Serves varDecl (.varDecl name init span) :=
  fun _ => .step (.value init) fun _ => .step (.declare name) fun slot =>
    .last (.emitSlot .store slot) fun _ => ⟨fun _ => rfl, rfl, rfl⟩

theorem assign_serves (name : Name) (value : Node) : Serves assign (.assign name value span) := by
  intro place
  refine .quietly (.findLocal name.text) fun found _ => ?_
  cases found with
  | some ref =>
      exact .step (.value value) fun _ =>
        .last (.emitWith .store nofun) fun _ => ⟨fun _ => rfl, rfl, rfl⟩
  | none => exact .fail rfl

theorem run_serves (inner : Node) : Serves run (.run inner span) :=
  fun _ => .last (.statement inner) fun _ => ⟨fun _ => rfl, rfl, rfl⟩

theorem hint_serves (name : String) (value : Constant) : Serves hint (.hint name value span) :=
  fun _ => .quietly (.constant _) fun _ _ => .quietly (.constant _) fun _ _ =>
    .last (.emitWith .hint nofun) fun _ => ⟨fun _ => rfl, rfl, rfl⟩

theorem importAs_serves (source : ImportSource) (path : String) (binding : Name) :
    Serves importAs (.importAs source path binding span) := by
  intro place
  refine .quietly (.constant (.string path)) fun id _ => .step (.declare binding) fun slot =>
    .step (.emitWith source.opcode (show (Operand.const id).shape ≠ .target from nofun)) fun _ =>
    .last (.emitSlot .store slot) fun _ => ?_
  cases source <;> exact ⟨fun _ => rfl, rfl, rfl⟩

/-! ### Conditionals -/

/-- The jump over the rest, if there is one, is noted in the frame of the conditional. -/
theorem leaveArm_scripted {s : Scoping} {l : Ledger} {id : FrameId} (hown : s.own = some id)
    (hscope : id.scope = .branch) {c : Bool} {β : Type} {p : List Errand}
    {next : Lower → Action Workspace β} {post : β → Ledger → Prop}
    (hnext : ∀ exits : List PendingJump, (∀ exit ∈ exits, exit.depth = l.depth) →
      Scripted s { l with exits := l.exits ++ exits } p next post) :
    Scripted s l p (fun lower => do
      if c then
        let exit ← jump .jump
        update id (FrameState.addExit exit)
      next lower) post := by
  cases c with
  | true =>
      refine .bind (.jump .jump rfl) ?_
      rintro exit _ ⟨hexit, rfl⟩
      exact .step (.addExit (List.Perm.refl _) hown hscope) fun _ =>
        hnext [exit] fun other hother => List.mem_singleton.mp hother ▸ hexit
  | false =>
      have hnone := hnext [] nofun
      rw [List.append_nil] at hnone
      exact hnone

/-- The paths of a conditional so far: nothing is held, and those that have left the frame have the
depth of the one that is there. -/
def Meets (depth : Nat) (l : Ledger) : Prop :=
  l.held = [] ∧ l.depth = depth ∧ ∀ exit ∈ l.exits, exit.depth = depth

/-- The paths of a conditional meet behind its frame. -/
theorem conditional_scripted {place : Place} {balance : Balance} {p : List Errand}
    {body : FrameId → Lower → Action Workspace Unit}
    (h : ∀ id, id.scope = .branch → Scripted ⟨some id, place.level?⟩ ⟨place.depth, [], [], []⟩ p
      (body id) fun _ l => Meets (place.depth + balance.gain) l) :
    Scripted ⟨none, place.level?⟩ ⟨place.depth, [], [], []⟩ p
      (fun lower => do
        let ((), frame) ← within (.branch 0 #[]) fun id => body id lower
        landAll frame.exits)
      fun _ l => Settled place balance l := by
  refine .as (.bind (.within (.branch 0 #[]) nofun ⟨rfl, rfl⟩ nofun h) ?_) (List.append_nil _)
  rintro ⟨⟨⟩, state⟩ _ ⟨l, ⟨hheld, hdepth, hexits⟩, hsame, hbreaks, rfl⟩
  have hall : l.held ++ (state.exits ++ state.breaks) = state.exits := by
    rw [show state.breaks = [] from breaks_eq_nil hbreaks, hheld, List.nil_append, List.append_nil]
  simp only [hall]
  refine .last (.landAll fun exit hexit => ?_) fun _ => ⟨fun _ => hdepth, rfl, rfl⟩
  exact (hexits exit (hsame ▸ hexit)).trans hdepth.symm

theorem ternary_serves (condition whenTrue whenFalse : Node) :
    Serves ternary (.ternary condition whenTrue whenFalse span) := by
  intro place
  refine conditional_scripted fun id hid => ?_
  refine .step (.value condition) fun _ => .bind (.jump .jumpIfFalse rfl) ?_
  rintro otherwise _ ⟨hotherwise, rfl⟩
  refine .step (.value whenTrue) fun _ => .quietly .reachable fun falls _ =>
    leaveArm_scripted rfl hid fun exits hexits =>
      .step (.land (List.Perm.refl [otherwise])) fun _ => ?_
  rw [hotherwise]
  exact .quietly (.setArm id 1) fun _ _ => .last (.value whenFalse) fun _ => ⟨rfl, rfl, hexits⟩

/-- Every arm starts and ends at the same depth. -/
theorem ifArms_scripted {place : Place} {id : FrameId} (hid : id.scope = .branch)
    (moreFollows : Bool) (arms : List (Node × Node)) (arm : Nat) (exits : List PendingJump)
    (hexits : ∀ exit ∈ exits, exit.depth = place.depth) :
    Scripted ⟨some id, place.level?⟩ ⟨place.depth, [], exits, []⟩
      (arms.flatMap fun arm => [.part arm.1 place, .part arm.2 place])
      (fun lower => ifArms lower id moreFollows arm arms)
      fun _ l => l.spots = [] ∧ Meets place.depth l := by
  induction arms generalizing arm exits with
  | nil => exact .mono (.quiet (.pure ())) fun _ _ h => h.2 ▸ ⟨rfl, rfl, rfl, hexits⟩
  | cons entry rest ih =>
      obtain ⟨condition, body⟩ := entry
      refine .quietly (p := .part condition place :: .part body place :: _) (.setArm id arm)
        fun _ _ => .step (.value condition) fun _ => .bind (.jump .jumpIfFalse rfl) ?_
      rintro next _ ⟨hnext, rfl⟩
      refine .step (.statement body) fun _ => .quietly .reachable fun falls _ =>
        leaveArm_scripted rfl hid fun more hmore =>
          .step (.land (List.Perm.refl [next])) fun _ => ?_
      rw [hnext]
      exact ih (arm + 1) (exits ++ more) fun exit hexit =>
        (List.mem_append.mp hexit).elim (hexits exit) (hmore exit)

theorem ifChain_serves (arms : List (Node × Node)) (otherwise : Option Node) :
    Serves ifChain (.ifChain arms otherwise span) := by
  intro place
  refine conditional_scripted fun id hid =>
    .bind (ifArms_scripted hid otherwise.isSome arms 0 [] nofun) ?_
  rintro ⟨⟩ ⟨depth, held, exits, spots⟩ ⟨rfl, rfl, rfl, hexits⟩
  cases otherwise with
  | some body =>
      exact .quietly (.setArm id arms.length) fun _ _ =>
        .last (.statement body) fun _ => ⟨rfl, rfl, hexits⟩
  | none => exact .mono (.quiet (.pure ())) fun _ _ h => h.2 ▸ ⟨rfl, rfl, hexits⟩

/-! ### Loops -/

/-- The round of a loop and its breaks meet behind its frame. -/
theorem loop_scripted {depth : Nat} {next : Position} {p q : List Errand}
    {body : Lower → Action Workspace Unit} (level? : Option Nat)
    (after : Lower → Action Workspace Unit) {post : Unit → Ledger → Prop}
    (h : ∀ id, Scripted ⟨some id, some depth⟩ ⟨depth, [], [], [next]⟩ p body
      fun _ l => l = ⟨depth, [], [], [next]⟩)
    (hafter : Scripted ⟨none, level?⟩ ⟨depth, [], [], [next]⟩ q after post) :
    Scripted ⟨none, level?⟩ ⟨depth, [], [], [next]⟩ (p ++ q)
      (fun lower => do
        let ((), frame) ← within (.loop next depth #[]) fun _ => body lower
        landAll frame.breaks
        after lower)
      post := by
  refine .bind (.within (.loop next depth #[]) nofun ⟨rfl, rfl⟩ ?_ fun id _ => h id) ?_
  · rintro _ ⟨⟩
    exact List.mem_singleton_self _
  · rintro ⟨⟨⟩, state⟩ _ ⟨l, rfl, hexits, hbreaks, rfl⟩
    have hall : ([] : List PendingJump) ++ (state.exits ++ state.breaks) = state.breaks := by
      rw [show state.exits = [] from hexits, List.nil_append, List.nil_append]
    simp only [hall]
    exact .step (.landAll fun label hlabel => (Option.some.inj (hbreaks label hlabel)).symm)
      fun _ => hafter

theorem whileLoop_serves (condition body : Node) :
    Serves whileLoop (.whileLoop condition body span) := by
  intro place
  refine .bind .position ?_
  rintro start _ rfl
  refine .bind .depth ?_
  rintro level _ ⟨rfl, rfl⟩
  have hround : ∀ id, Scripted ⟨some id, some place.depth⟩ ⟨place.depth, [], [], [start]⟩
      [.part condition (place.inLoop 0), .part body (place.inLoop 0)] (fun lower => do
        lower.value condition
        let exit ← jump .jumpIfFalse
        lower.statement body
        jumpBack start place.depth
        land exit) fun _ l => l = ⟨place.depth, [], [], [start]⟩ := by
    intro id
    refine .step (.value condition) fun _ => .bind (.jump .jumpIfFalse rfl) ?_
    rintro exit _ ⟨hexit, rfl⟩
    refine .step (.statement body) fun _ => .step (.jumpBack _ List.mem_cons_self) fun _ =>
      .last (.land (List.Perm.refl [exit])) fun _ => ?_
    exact congrArg (Ledger.mk · [] [] [start]) hexit
  have hall := loop_scripted place.level? (fun _ => pure ()) hround (.quiet (.pure ()))
  simp only [bind_pure_unit, List.append_nil] at hall
  exact .mono hall fun _ l h => h.2 ▸ ⟨fun _ => rfl, rfl, rfl⟩

theorem forEach_serves (binding : Name) (iterable body : Node) :
    Serves forEach (.forEach binding iterable body span) := by
  intro place
  refine .step (.value iterable) fun _ => .step (.emit .iterStart) fun _ => ?_
  show Scripted _ ⟨place.depth + 1, [], [], []⟩ _ _ _
  refine .bind .position ?_
  rintro next _ rfl
  refine .bind .depth ?_
  rintro level _ ⟨rfl, rfl⟩
  refine .as (loop_scripted _ _ (fun _ => ?_)
    (.last (.emit .pop) fun _ => ⟨fun _ => rfl, rfl, rfl⟩)) (List.append_nil _)
  refine .bind (.jump .iterNext rfl) ?_
  rintro exit _ ⟨hexit, rfl⟩
  refine .step (.declare binding) fun slot => .step (.emitSlot .store slot) fun _ =>
    .step (.statement body) fun _ => .step (.jumpBack _ List.mem_cons_self) fun _ =>
    .last (.land (List.Perm.refl [exit])) fun _ => ?_
  exact congrArg (Ledger.mk · [] [] [next]) hexit

/-- Control leaves for the loop with its depth. -/
theorem leaveForLoop_scripted {s : Scoping} {l : Ledger} (construct : Construct) :
    Scripted s l [] (fun _ => leaveForLoop construct span)
      fun _ l' => s.level? = some l'.depth ∧ l'.held = l.held ∧ l'.exits = l.exits := by
  refine .bind (.enclosingLoop span) ?_
  rintro ⟨target, expected⟩ _ ⟨hlevel, rfl⟩
  refine .bind .depth ?_
  rintro found _ ⟨rfl, rfl⟩
  refine .quietly .reachable fun _ _ => ?_
  split
  · exact .failing rfl
  · exact .step (.resetDepth expected) fun _ => .last (.leaveHandlers .loop) fun _ =>
      ⟨hlevel, rfl, rfl⟩

theorem breakLoop_serves : Serves breakLoop (.breakLoop span) := by
  intro place
  refine .bind (leaveForLoop_scripted _) ?_
  rintro ⟨⟩ ⟨depth, held, exits, spots⟩ ⟨hlevel, rfl, rfl⟩
  exact .last (.own (.leave hlevel)) fun _ => ⟨nofun, rfl, rfl⟩

theorem continueLoop_serves : Serves continueLoop (.continueLoop span) := by
  intro place
  refine .bind (leaveForLoop_scripted _) ?_
  rintro ⟨⟩ ⟨depth, held, exits, spots⟩ ⟨hlevel, rfl, rfl⟩
  refine .bind (.enclosingLoop span) ?_
  rintro ⟨target, level⟩ _ ⟨_, rfl⟩
  exact .last (.jumpBack _ List.mem_cons_self) fun _ => ⟨nofun, rfl, rfl⟩

/-! ### Handlers and leaving a function -/

/-- The end of a guarded body, where control leaves for the end of the catch path if it can. -/
theorem leaveBody_scripted {s : Scoping} {l : Ledger} {c : Bool} {β : Type} {p : List Errand}
    {next : Option PendingJump → Lower → Action Workspace β} {post : β → Ledger → Prop}
    (hnext : ∀ exit? : Option PendingJump, (∀ exit ∈ exit?, exit.depth = l.depth) →
      Scripted s { l with held := exit?.toList ++ l.held } p (next exit?) post) :
    Scripted s l p (fun lower => do
      let exit ←
        if c then do
          emit .tryEnd
          let exit ← jump .jump
          pure (some exit)
        else
          pure none
      next exit lower) post := by
  cases c with
  | true =>
      refine .step (.emit .tryEnd) fun _ => .bind (.jump .jump rfl) ?_
      rintro exit _ ⟨hexit, rfl⟩
      exact hnext (some exit) fun other hother => Option.some.inj hother ▸ hexit
  | false => exact hnext none nofun

/-- The two paths of a handler.  The jump that installs it lands between them, and the one over the
catch path is still held. -/
theorem tryPaths_scripted {place : Place} {id : FrameId} {install : PendingJump}
    (hinstall : install.depth = place.depth + 1) (body : Node) (binding : Option Name)
    (handler : Node) :
    Scripted ⟨some id, place.level?⟩ ⟨place.depth, [install], [], []⟩
      (.part body place :: ((binding.toList.map fun _ => .slot) ++ [.part handler place]))
      (fun lower => tryPaths lower install id body binding handler)
      fun result l => l.depth = place.depth ∧ l.held = result.2.2.toList ∧ l.exits = [] ∧
        ∀ exit ∈ result.2.2, exit.depth = place.depth := by
  refine .step (.statement body) fun _ => .bind (p := []) .position ?_
  rintro stop _ rfl
  refine .quietly .reachable fun falls _ => leaveBody_scripted fun exit? hexit => ?_
  refine .quietly (.setGuarded id false) fun _ _ => .bind (p := []) .position ?_
  rintro catchAt _ rfl
  refine .step (p := []) (.land (List.perm_append_singleton install exit?.toList)) fun _ => ?_
  rw [hinstall]
  have hhandler : ∀ spots, Scripted ⟨some id, place.level?⟩ ⟨place.depth, exit?.toList, [], spots⟩
      [.part handler place] (fun lower => do
        lower.statement handler
        return (stop.index, catchAt.index, exit?))
      fun result l => l.depth = place.depth ∧ l.held = result.2.2.toList ∧ l.exits = [] ∧
        ∀ exit ∈ result.2.2, exit.depth = place.depth := by
    intro spots
    refine .step (.statement handler) fun _ => .mono (.quiet (.pure _)) ?_
    rintro _ _ ⟨rfl, rfl⟩
    exact ⟨rfl, rfl, rfl, hexit⟩
  cases binding with
  | some name =>
      exact .step (.declare name) fun slot => .step (.emitSlot .store slot) fun _ => hhandler _
  | none => exact .step (.emit .pop) fun _ => hhandler _

theorem tryCatch_serves (body : Node) (binding : Option Name) (handler : Node) :
    Serves tryCatch (.tryCatch body binding handler span) := by
  intro place
  refine .bind (.jump .tryBegin rfl) ?_
  rintro install _ ⟨hinstall, rfl⟩
  refine .as (.bind (.within (.handler install.position true 0) nofun ⟨rfl, rfl⟩ nofun fun id _ =>
    tryPaths_scripted hinstall body binding handler) ?_) (List.append_nil _)
  rintro ⟨⟨stop, catchAt, exit?⟩, state⟩ _ ⟨l, ⟨hdepth, hheld, hexits, hexit⟩, hsame, hbreaks, rfl⟩
  have hall : l.held ++ (state.exits ++ state.breaks) = exit?.toList := by
    rw [show state.breaks = [] from breaks_eq_nil hbreaks, show state.exits = [] from
      hsame.trans hexits, hheld, List.append_nil, List.append_nil]
  simp only [hall, hdepth]
  cases exit? with
  | some exit =>
      refine .step (.land (List.Perm.refl [exit])) fun _ => .mono (.quiet (.addRegion _)) ?_
      rintro _ _ ⟨-, rfl⟩
      exact ⟨fun _ => hexit exit rfl, rfl, rfl⟩
  | none =>
      refine .mono (.quiet (.addRegion _)) ?_
      rintro _ _ ⟨-, rfl⟩
      exact ⟨fun _ => rfl, rfl, rfl⟩

/-- The code and the data lie on top of what is there. -/
theorem result_scripted {s : Scoping} {l : Ledger} (code : Int64) (data : Option Node) :
    Scripted s l (data.toList.map fun data => .part data ⟨l.depth + 1, s.level?⟩)
      (fun lower => result lower code data)
      fun _ l' => l' = { l with depth := l.depth + 2 } := by
  refine .step (.pushConstant _) fun _ => ?_
  cases data with
  | some data => exact .value data
  | none => exact .emit .pushNull

theorem returnWith_serves (code : Int64) (data : Option Node) :
    Serves returnWith (.returnWith code data span) :=
  fun _ => .as (.step (result_scripted code data) fun _ => .step (.leaveHandlers .function) fun _ =>
    .last (.emit .ret) fun _ => ⟨nofun, rfl, rfl⟩) (List.append_nil _)

theorem exitWith_serves (code : Int64) (data : Option Node) :
    Serves exitWith (.exitWith code data span) :=
  fun _ => .as (.step (result_scripted code data) fun _ =>
    .last (.emit .exit) fun _ => ⟨nofun, rfl, rfl⟩) (List.append_nil _)

theorem throwWith_serves (code : Int64) (data : Node) :
    Serves throwWith (.throwWith code data span) :=
  fun _ => .step (.pushConstant _) fun _ => .step (.value data) fun _ =>
    .quietly .countThrow fun _ _ => .last (.emit .throw) fun _ => ⟨nofun, rfl, rfl⟩

/-- **Every rule of the standard registry** carries out what its node asks for. -/
theorem standard_serves (node : Node) : Serves (standard node.construct) node := by
  cases node with
  | literal value => exact literal_serves value
  | list items => exact list_serves items
  | object fields => exact object_serves fields
  | ident name => exact ident_serves name
  | param name => exact param_serves name
  | current => exact current_serves
  | member owner name => exact member_serves owner name
  | index owner subscript => exact index_serves owner subscript
  | call callee arguments => exact call_serves callee arguments
  | unary op operand => exact unary_serves op operand
  | binary op left right => exact binary_serves op left right
  | logical op left right => exact logical_serves op left right
  | ternary condition whenTrue whenFalse => exact ternary_serves condition whenTrue whenFalse
  | group inner => exact group_serves inner
  | lambda params body => exact lambda_serves params body
  | transform mode source shape => exact transform_serves mode source shape
  | block statements => exact block_serves statements
  | varDecl name init => exact varDecl_serves name init
  | assign name value => exact assign_serves name value
  | run inner => exact run_serves inner
  | hint name value => exact hint_serves name value
  | importAs source path binding => exact importAs_serves source path binding
  | ifChain arms otherwise => exact ifChain_serves arms otherwise
  | whileLoop condition body => exact whileLoop_serves condition body
  | forEach binding iterable body => exact forEach_serves binding iterable body
  | breakLoop => exact breakLoop_serves
  | continueLoop => exact continueLoop_serves
  | tryCatch body binding handler => exact tryCatch_serves body binding handler
  | returnWith code data => exact returnWith_serves code data
  | exitWith code data => exact exitWith_serves code data
  | throwWith code data => exact throwWith_serves code data

end QueryCompiler.Rule

namespace QueryCompiler

open Workspace

/-- Looking at the scopes again leaves everything at rest. -/
theorem Quiet.checkScopes (construct : Construct) (height pushes : Nat) :
    Quiet (fun _ => True) (Contract.checkScopes construct height pushes) := by
  intro ws
  cases hdone : Contract.checkScopes construct height pushes ws with
  | done u ws' => exact ⟨trivial, Layout.checkScopes_done hdone ▸ .refl ws⟩
  | failed error ws' => exact absurd hdone checkScopes_ne_failed
  | fault fault => trivial

/-- The contract is checked once the ledger is settled.  Behind a node that diverges the depth is
what it was at its start. -/
theorem Contract.check_scripted {s : Scoping} {l : Ledger} (settings : Settings) (node : Node)
    (height pushes start : Nat)
    (hdepth : node.construct.balance ≠ .diverges → l.depth = start + node.construct.balance.gain) :
    Scripted s l [] (fun _ => check settings node height pushes start)
      fun _ l' => l' = { l with depth := start + node.construct.balance.gain } := by
  have hcheck : ∀ expected, expected = start + node.construct.balance.gain → l.depth = expected →
      Scripted s l [] (fun _ => checkDepth settings node expected)
        fun _ l' => l' = { l with depth := start + node.construct.balance.gain } := by
    rintro _ rfl hsame
    unfold checkDepth
    refine .bind .depth fun found l' ⟨_, hl⟩ => .ite (.fail rfl) (.mono (.quiet (.pure _)) ?_)
    rintro - _ ⟨-, rfl⟩
    rw [hl, ← hsame]
  unfold check checkBalance
  refine .quietly (.checkScopes node.construct height pushes) fun _ _ => ?_
  cases hbalance : node.construct.balance with
  | diverges => exact .resetDepth start
  | value =>
      rw [hbalance] at hcheck hdepth
      refine .quietly (.ofWord _) fun expected hexpected => ?_
      rw [(addWord_ok hexpected).1]
      exact hcheck _ rfl (hdepth nofun)
  | effect =>
      rw [hbalance] at hcheck hdepth
      exact hcheck _ rfl (hdepth nofun)

end QueryCompiler
