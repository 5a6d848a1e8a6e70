/-
What rules are made of.

`Scripted` describes an action by what it has done for its node, in order, and by the
ledgers it moves between, whatever it is that lowers the parts.  There are steps of its
own, which say themselves what becomes of the ledger; parts that are lowered and leave
behind what their balance says; scopes, whose notes the rule finds itself holding when
they are closed; functions, which leave nothing behind but the instruction that makes
them; and slots.

The description of each rule is in `Script/Rules`.  What follows from it, about the
places where nodes are lowered, the slots of functions and the jumps that stay open, are
inductions on the description.
-/
import QueryCompiler.Proofs.Script.Operations
import QueryCompiler.Proofs.Script.Places

namespace QueryCompiler

open Workspace

/-- The depth of the loop that can be left from inside a frame, given that from outside. -/
def FrameState.levelInside (level? : Option Nat) : FrameState → Option Nat
  | loop _ depth _ => some depth
  | function .. | transform _ => none
  | handler .. | branch .. | block => level?

/-- The action follows a script: from a ledger it carries out what is on a list, and if it gets done
its value and the ledger then are as the last argument says.  An action that only fails may give up
on any list. -/
inductive Scripted : Scoping → Ledger → List Errand → {α : Type} →
    (Lower → Action Workspace α) → (α → Ledger → Prop) → Prop
  | own {s : Scoping} {l : Ledger} {α : Type} {action : Action Workspace α}
      {post : α → Ledger → Prop} (h : Books s l action post) :
      Scripted s l [] (fun _ => action) post
  | mono {s : Scoping} {l : Ledger} {p : List Errand} {α : Type}
      {act : Lower → Action Workspace α} {mid post : α → Ledger → Prop}
      (h : Scripted s l p act mid) (hpost : ∀ x l', mid x l' → post x l') : Scripted s l p act post
  | bind {s : Scoping} {l : Ledger} {p q : List Errand} {α β : Type}
      {first : Lower → Action Workspace α} {next : α → Lower → Action Workspace β}
      {mid : α → Ledger → Prop} {post : β → Ledger → Prop} (hfirst : Scripted s l p first mid)
      (hnext : ∀ x l', mid x l' → Scripted s l' q (next x) post) :
      Scripted s l (p ++ q) (fun lower => first lower >>= fun x => next x lower) post
  | fail {s : Scoping} {l : Ledger} {p : List Errand} {α : Type} {error : CompileError}
      {post : α → Ledger → Prop} (h : error.exhaustsSlots = false) :
      Scripted s l p (fun _ => Action.fail error) post
  | part {s : Scoping} {l : Ledger} (node : Node) :
      Scripted s l [.part node ⟨l.depth, s.level?⟩] (fun lower => lower node)
        fun _ l' => l' = { l with depth := l.depth + node.construct.balance.gain }
  | takeSlot {s : Scoping} {l : Ledger} (span : Span) :
      Scripted s l [.slot] (fun _ => Workspace.takeSlot span) fun _ l' => l' = l
  | within {l : Ledger} {p : List Errand} {α : Type} {level? : Option Nat} (state : FrameState)
      {body : FrameId → Lower → Action Workspace α} {inside : α → Ledger → Prop}
      (hscope : state.scope ≠ .function) (hfresh : state.exits = [] ∧ state.breaks = [])
      (hspot : ∀ entry, state.loopEntry? = some entry → entry.1 ∈ l.spots)
      (h : ∀ id, id.scope = state.scope →
        Scripted ⟨some id, state.levelInside level?⟩ { l with exits := [] } p (body id) inside) :
      Scripted ⟨none, level?⟩ l p (fun lower => Workspace.within state fun id => body id lower)
        -- What was noted in the frame is held now.
        fun result l' => ∃ l₁, inside result.1 l₁ ∧ result.2.exits = l₁.exits ∧
          (∀ label ∈ result.2.breaks, state.loopEntry?.map Prod.snd = some label.depth) ∧
          l' = { l₁ with held := l₁.held ++ (result.2.exits ++ result.2.breaks), exits := l.exits }
  | function {s : Scoping} {l : Ledger} {params : List Name} {node : Node}
      {body : Lower → Action Workspace Unit} (hfew : params.length ≤ Frame.slotLimit)
      (h : ∀ id, id.scope = .function → Scripted ⟨some id, none⟩ ⟨0, [], [], []⟩
        ((params.map fun _ => .slot) ++ [.part node (.ofBody node)]) body
        fun _ l' => l'.held = []) :
      Scripted s l [.function params node]
        (fun lower => emitClosure params.length.toUInt16 (body lower))
        fun _ l' => l' = { l with depth := l.depth + 1 }
  /-- The parameters of a function already take more slots than there are. -/
  | overfull {s : Scoping} {l : Ledger} {params : List Name} {node : Node} {α : Type} {span : Span}
      {post : α → Ledger → Prop} (hmany : Frame.slotLimit < params.length) :
      Scripted s l [.function params node]
        (fun _ => Action.fail (.slotsExhausted Frame.slotLimit span)) post

namespace Scripted

variable {s : Scoping} {l : Ledger} {p q : List Errand} {α β : Type} {post : β → Ledger → Prop}

/-- The same list in another form. -/
theorem as {act : Lower → Action Workspace β} (h : Scripted s l p act post) (hlist : p = q) :
    Scripted s l q act post := hlist ▸ h

/-- A step after which the ledger is known, and then the rest. -/
theorem step {l₁ : Ledger} {first : Lower → Action Workspace α}
    {next : α → Lower → Action Workspace β} (hfirst : Scripted s l p first fun _ l' => l' = l₁)
    (hnext : ∀ x, Scripted s l₁ q (next x) post) :
    Scripted s l (p ++ q) (fun lower => first lower >>= fun x => next x lower) post :=
  .bind hfirst fun x _ h => h ▸ hnext x

/-- A last step after which the ledger is known. -/
theorem last {l₁ : Ledger} {act : Lower → Action Workspace β}
    (h : Scripted s l p act fun _ l' => l' = l₁) (hpost : ∀ x, post x l₁) :
    Scripted s l p act post :=
  .mono h fun x _ h => h ▸ hpost x

theorem quiet {value : β → Prop} {action : Action Workspace β} (h : Quiet value action) :
    Scripted s l [] (fun _ => action) fun x l' => value x ∧ l' = l := .own (.quiet h)

/-- A quiet step, and then the rest. -/
theorem quietly {first : Action Workspace α} {next : α → Lower → Action Workspace β}
    {value : α → Prop} (hfirst : Quiet value first)
    (hnext : ∀ x, value x → Scripted s l p (next x) post) :
    Scripted s l p (fun lower => first >>= fun x => next x lower) post :=
  .bind (.own (.quiet hfirst)) fun x _ h => h.2 ▸ hnext x h.1

/-- Nothing comes after a failure. -/
theorem failing {error : CompileError} {next : α → Lower → Action Workspace β}
    (h : error.exhaustsSlots = false) :
    Scripted s l p (fun lower => Action.fail error >>= fun x => next x lower) post :=
  show Scripted s l p (fun _ => Action.fail error) post from .fail h

theorem ite {c : Prop} [Decidable c] {a b : Lower → Action Workspace β} (ha : Scripted s l p a post)
    (hb : Scripted s l p b post) :
    Scripted s l p (fun lower => if c then a lower else b lower) post := by
  by_cases hc : c
  · simp only [if_pos hc]
    exact ha
  · simp only [if_neg hc]
    exact hb

/-- Rounds that each come back to where they started. -/
theorem forM {each : α → Lower → Action Workspace Unit} (list : α → List Errand)
    (heach : ∀ x, Scripted s l (list x) (each x) fun _ l' => l' = l) (items : List α) :
    Scripted s l (items.flatMap list) (fun lower => items.forM fun x => each x lower)
      fun _ l' => l' = l := by
  induction items with
  | nil => exact .mono (.quiet (.pure ())) fun _ _ h => h.2
  | cons x rest ih => exact .step (heach x) fun _ => ih

/-! ### Looking at the workspace -/

theorem depth : Scripted s l [] (fun _ => Workspace.depth) fun x l' => x = l.depth ∧ l' = l :=
  .own .depth

theorem position : Scripted s l [] (fun _ => Workspace.position)
    fun x l' => l' = { l with spots := x :: l.spots } := .own .position

theorem enclosingLoop (span : Span) : Scripted s l [] (fun _ => Rule.enclosingLoop span)
    fun x l' => s.level? = some x.2 ∧ l' = { l with spots := x.1 :: l.spots } :=
  .own (.enclosingLoop span)

/-! ### Code -/

theorem emitWith (op : Opcode) {operand : Operand} (h : operand.shape ≠ .target) :
    Scripted s l [] (fun _ => Workspace.emitWith op operand) fun _ l' => l' = { l with
      depth := l.depth - (Instruction.mk op operand).stackUse.pops +
        (Instruction.mk op operand).stackUse.pushes } := .own (.emitWith op h)

theorem jump (op : Opcode) {use : StackUse} (h : op.branchUse? = some use) :
    Scripted s l [] (fun _ => Workspace.jump op) fun label l' =>
      label.depth = l.depth - use.pops + use.pushes ∧ l' = { l with
        depth := l.depth - (Instruction.mk op .unaimed).stackUse.pops +
          (Instruction.mk op .unaimed).stackUse.pushes
        held := label :: l.held } := .own (.jump op h)

theorem jumpBack {target : Position} (level : Nat) (h : target ∈ l.spots) :
    Scripted s l [] (fun _ => Workspace.jumpBack target level) fun _ l' => l' = l :=
  .own (.jumpBack level h)

theorem land {label : PendingJump} {rest : List PendingJump} (h : l.held.Perm (label :: rest)) :
    Scripted s l [] (fun _ => Workspace.land label)
      fun _ l' => l' = { l with depth := label.depth, held := rest } := .own (.land h)

theorem resetDepth (depth : Nat) :
    Scripted s l [] (fun _ => Workspace.resetDepth depth) fun _ l' => l' = { l with depth } :=
  .own (.resetDepth depth)

theorem addExit {id : FrameId} {label : PendingJump} {rest : List PendingJump}
    (h : l.held.Perm (label :: rest)) (hown : s.own = some id) (hscope : id.scope = .branch) :
    Scripted s l [] (fun _ => Workspace.update id (FrameState.addExit label))
      fun _ l' => l' = { l with held := rest, exits := l.exits ++ [label] } :=
  .own (.addExit h hown hscope)

theorem emit (op : Opcode) :
    Scripted s l [] (fun _ => Workspace.emit op) fun _ l' => l' = { l with
      depth := l.depth - (op.stackUse 0).pops + (op.stackUse 0).pushes } :=
  .emitWith op nofun

theorem emitSlot (op : Opcode) (slot : UInt16) :
    Scripted s l [] (fun _ => Workspace.emitSlot op slot) fun _ l' => l' = { l with
      depth := l.depth - (op.stackUse 0).pops + (op.stackUse 0).pushes } :=
  .emitWith op nofun

theorem emitName (op : Opcode) (text : String) :
    Scripted s l [] (fun _ => Workspace.emitName op text) fun _ l' => l' = { l with
      depth := l.depth - (op.stackUse 0).pops + (op.stackUse 0).pushes } :=
  .quietly (.constant _) fun _ _ => .emitWith op nofun

theorem pushConstant (value : Constant) :
    Scripted s l [] (fun _ => Workspace.pushConstant value)
      fun _ l' => l' = { l with depth := l.depth + 1 } := by
  have hpush : Workspace.pushConstant value = (do
      let id ← onCode (Assembly.constant value)
      Workspace.emitWith .loadConst (.const id)) := by
    unfold Workspace.pushConstant Assembly.pushConstant
    rw [onCode_bind, bind_assoc]
    rfl
  rw [hpush]
  exact .quietly (.constant _) fun _ _ => .emitWith .loadConst nofun

/-- All jumps that are held land, and they arrive with the depth that there is. -/
theorem landAll (hdepth : ∀ label ∈ l.held, label.depth = l.depth) :
    Scripted s l [] (fun _ => Workspace.landAll l.held) fun _ l' => l' = { l with held := [] } := by
  have hland : ∀ labels : List PendingJump, (∀ label ∈ labels, label.depth = l.depth) →
      Scripted s { l with held := labels } [] (fun _ => Workspace.landAll labels)
        fun _ l' => l' = { l with held := [] } := by
    intro labels
    induction labels with
    | nil => exact fun _ => .mono (.quiet (.pure ())) fun _ _ h => h.2
    | cons label rest ih =>
        intro hall
        have hforM : Workspace.landAll (label :: rest) =
            (Workspace.land label >>= fun _ => Workspace.landAll rest) := by
          unfold Workspace.landAll Assembly.landAll
          rw [List.forM_eq_forM, List.forM_cons, onCode_bind]
          rfl
        rw [hforM]
        refine .step (.land (List.Perm.refl (label :: rest))) fun _ => ?_
        rw [hall label List.mem_cons_self]
        exact ih fun other hother => hall other (List.mem_cons_of_mem _ hother)
  exact hland l.held hdepth

theorem leaveHandlers (scope : Scope) :
    Scripted s l [] (fun _ => Workspace.leaveHandlers scope) fun _ l' => l' = l := by
  refine .quietly (.guardsWithin scope) fun count _ => ?_
  have hemit : ∀ op ∈ List.replicate count Opcode.tryEnd, op = .tryEnd :=
    fun op hop => List.eq_of_mem_replicate hop
  generalize List.replicate count Opcode.tryEnd = ops at hemit
  induction ops with
  | nil => exact .mono (.quiet (.pure ())) fun _ _ h => h.2
  | cons op rest ih =>
      obtain rfl := hemit op List.mem_cons_self
      exact .step (.emit .tryEnd) fun _ =>
        ih fun other hother => hemit other (List.mem_cons_of_mem _ hother)

/-! ### Slots -/

theorem declare (name : Name) :
    Scripted s l [.slot] (fun _ => Workspace.declare name) fun _ l' => l' = l := by
  have hdeclare : Workspace.declare name = (do
      let slot ← Workspace.takeSlot name.span
      Workspace.onScopes (Action.modify (ScopeStack.bindName name.text slot))
      return slot) := by
    unfold Workspace.declare ScopeStack.declare
    rw [onScopes_bind]
    rfl
  rw [hdeclare]
  exact .step (.takeSlot name.span) fun slot => .quietly (.bindName name.text slot) fun _ _ =>
    .mono (.quiet (.pure slot)) fun _ _ h => h.2

/-! ### The ways to ask for parts -/

theorem value (node : Node) :
    Scripted s l [.part node ⟨l.depth, s.level?⟩] (fun lower => lower.value node)
      fun _ l' => l' = { l with depth := l.depth + 1 } := by
  unfold Lower.value
  refine .bind .depth fun start l' ⟨hstart, hl⟩ => ?_
  obtain ⟨rfl, rfl⟩ : start = l.depth ∧ l' = l := ⟨hstart, hl⟩
  cases hbalance : node.construct.balance with
  | value => exact .last (.part node) fun _ => by rw [hbalance]; rfl
  | diverges =>
      refine .step (.part node) fun _ => .quietly (.ofWord _) fun after hafter => ?_
      rw [(addWord_ok hafter).1]
      exact .resetDepth _
  | effect => exact .quietly (.ofWord _) fun _ _ => .fail rfl

theorem statement (node : Node) :
    Scripted s l [.part node ⟨l.depth, s.level?⟩] (fun lower => lower.statement node)
      fun _ l' => l' = l := by
  unfold Lower.statement
  refine .step (.part node) fun _ => ?_
  cases node.construct.balance with
  | value => exact .emit .pop
  | effect | diverges => exact .mono (.quiet (.pure _)) fun _ _ h => h.2

theorem statements (nodes : List Node) :
    Scripted s l (nodes.map fun node => .part node ⟨l.depth, s.level?⟩)
      (fun lower => lower.statements nodes) fun _ l' => l' = l :=
  .as (.forM (fun node => [.part node ⟨l.depth, s.level?⟩]) (fun node => .statement node) nodes)
    (List.map_eq_flatMap ..).symm

/-- Every value lies under those that come after it. -/
theorem values (nodes : List Node) :
    Scripted s l (nodes.mapIdx fun i node => .part node ⟨l.depth + i, s.level?⟩)
      (fun lower => lower.values nodes)
      fun _ l' => l' = { l with depth := l.depth + nodes.length } := by
  induction nodes generalizing l with
  | nil => exact .mono (.quiet (.pure ())) fun _ _ h => h.2
  | cons node rest ih =>
      refine .as (.step (.value node) fun _ => .last ih fun _ => ?_) ?_
      · simp only [List.length_cons, Nat.add_assoc, Nat.add_comm 1]
      · rw [List.mapIdx_cons]
        simp only [Nat.add_assoc, Nat.add_comm 1, Nat.add_zero]
        rfl

/-- The body of a function, which starts with nothing on the stack. -/
theorem body {own : Option FrameId} (node : Node) :
    Scripted ⟨own, none⟩ ⟨0, [], [], []⟩ [.part node (.ofBody node)]
      (fun lower => lower.body node) fun _ l' => l'.held = [] := by
  unfold Lower.body Place.ofBody
  cases hbalance : node.construct.balance with
  | value =>
      exact .step (.pushConstant _) fun _ => .step (.value node) fun _ =>
        .last (.emit .ret) fun _ => rfl
  | effect =>
      refine .step (.part node) fun _ => .quietly .reachable fun falls _ => .ite ?_ ?_
      · exact .step (.pushConstant _) fun _ => .step (.emit .pushNull) fun _ =>
          .last (.emit .ret) fun _ => rfl
      · exact .mono (.quiet (.pure _)) fun _ _ h => h.2 ▸ rfl
  | diverges => exact .last (.part node) fun _ => rfl

/-- A function takes a slot for each of its parameters before its body is lowered. -/
theorem lambda (params : List Name) (body : Node) (span : Span) :
    Scripted s l [.function params body]
      (fun lower => Rule.lambda lower (.lambda params body span))
      fun _ l' => l' = { l with depth := l.depth + 1 } := by
  by_cases hfew : params.length ≤ Frame.slotLimit
  · have hclosure : (fun lower : Lower => Rule.lambda lower (.lambda params body span)) =
        fun lower => emitClosure params.length.toUInt16 (do
          Layout.declareAll params
          lower.body body) := by
      funext lower
      simp only [Rule.lambda, if_neg (Nat.not_lt.mpr hfew)]
      rfl
    rw [hclosure]
    refine .function hfew fun id _ => .step (.as (.forM (fun _ => [.slot]) (fun param => ?_) params)
      (List.map_eq_flatMap ..).symm) fun _ => .body body
    exact .step (.declare param) fun _ => .mono (.quiet (.pure ())) fun _ _ h => h.2
  · have hfail : (fun lower : Lower => Rule.lambda lower (.lambda params body span)) =
        fun _ => Action.fail (.slotsExhausted Frame.slotLimit span) := by
      funext lower
      simp only [Rule.lambda, if_pos (Nat.lt_of_not_le hfew)]
      rfl
    rw [hfail]
    exact .overfull (Nat.lt_of_not_le hfew)

end Scripted

end QueryCompiler
