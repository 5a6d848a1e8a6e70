/-
The query machine.

The machine is the one that the opcodes speak of.  It has an operand stack, locals
and a stack of installed handlers, and it knows nothing about values: what a constant,
a list or a sum is, and whether a value counts as true, is up to a host.  The host
also answers when the machine asks for a name, a parameter, a member, an item or the
result of a call.  Its answers may depend on everything it was asked before, so the
history of what was asked is part of the state.

A step is a function of the state, so there is at most one run.
-/
import QueryCompiler.Proofs.Layout.Spot
import QueryCompiler.Query.Node

namespace QueryCompiler

/-! ### Hosts -/

/-- What the machine asks its host. -/
inductive Event (V : Type) where
  | global (name : String)
  | param (name : String)
  | member (owner : V) (name : String)
  | index (owner subscript : V)
  | call (callee : V) (arguments : List V)
  /-- The next item of an iterator, if there is one. -/
  | next (iterator : V)
deriving DecidableEq

/-- What the machine leaves to its host. -/
structure Host (V : Type) where
  constant : Constant → V
  emptyList : V
  /-- A list with an item added. -/
  push : V → V → V
  emptyObject : V
  /-- An object with a field set. -/
  put : V → String → V → V
  closure : UInt32 → V
  imported : ImportSource → String → V
  unary : UnaryOperator → V → V
  binary : BinaryOperator → V → V → V
  iterator : V → V
  /-- The error that is raised with a code and data. -/
  raised : V → V → V
  truthy : V → Bool
  /-- The answer to the first event of a history, which is the last that was asked. -/
  answer : List (Event V) → V
  /-- Whether the first event of a history, which asks for an item, gets one. -/
  gives : List (Event V) → Bool

/-! ### States -/

/-- An installed handler: where its catch path starts, and how many values were on the operand
stack when it was installed. -/
structure Handler where
  catchAt : Nat
  height : Nat
deriving DecidableEq

/-- The state of the machine in one function.  What comes last is first in all its lists. -/
structure State (V : Type) where
  index : Nat
  stack : List V
  locals : SlotRef → V
  handlers : List Handler
  history : List (Event V)

/-- How a run ends, with a code and data. -/
inductive Ending (V : Type) where
  | returned (code data : V)
  | exited (code data : V)
  | threw (code data : V)
deriving DecidableEq

/-- What a step leads to. -/
inductive Next (V : Type) where
  | goes (state : State V)
  | halts (ending : Ending V)
  | stuck

namespace State

variable {V : Type}

/-- On to the next instruction with another stack. -/
def go (state : State V) (stack : List V) : Next V :=
  .goes { state with index := state.index + 1, stack }

/-- To another instruction with another stack. -/
def goTo (state : State V) (target : Nat) (stack : List V) : Next V :=
  .goes { state with index := target, stack }

/-- Ask the host and push its answer. -/
def ask (state : State V) (host : Host V) (event : Event V) (stack : List V) : Next V :=
  let history := event :: state.history
  .goes { state with index := state.index + 1, stack := host.answer history :: stack, history }

/-- Take a value from the stack. -/
def take (state : State V) (use : V → List V → Next V) : Next V :=
  match state.stack with
  | value :: rest => use value rest
  | _ => .stuck

/-- Take two values from the stack, of which the second is the last that was pushed. -/
def takeTwo (state : State V) (use : V → V → List V → Next V) : Next V :=
  match state.stack with
  | second :: first :: rest => use first second rest
  | _ => .stuck

/-- Take so many values from the stack and one more from below them.  The values are handed on in
the order in which they were pushed. -/
def takeCall (state : State V) (count : Nat) (use : V → List V → List V → Next V) : Next V :=
  match state.stack.drop count with
  | callee :: rest => use callee (state.stack.take count).reverse rest
  | _ => .stuck

/-- Raise an error.  The innermost handler is removed, the stack goes back to what it was when the
handler was installed, and the catch path starts with the error.  Without a handler the run ends. -/
def raise (state : State V) (host : Host V) (code data : V) (rest : List V) : Next V :=
  match state.handlers with
  | [] => .halts (.threw code data)
  | handler :: outer =>
    .goes { state with
      index := handler.catchAt
      stack := host.raised code data :: rest.drop (rest.length - handler.height)
      handlers := outer }

end State

/-! ### Operands -/

namespace Operand

variable {V : Type}

def onTarget (operand : Operand) (use : Nat → Next V) : Next V :=
  match operand with
  | target index => use index.toNat
  | _ => .stuck

def onSlot (operand : Operand) (use : SlotRef → Next V) : Next V :=
  match operand with
  | slot ref => use ref
  | _ => .stuck

def onCount (operand : Operand) (use : Nat → Next V) : Next V :=
  match operand with
  | count n => use n.toNat
  | _ => .stuck

def onFunction (operand : Operand) (use : UInt32 → Next V) : Next V :=
  match operand with
  | function id => use id
  | _ => .stuck

def onConstant (operand : Operand) (constants : Array Constant) (use : Constant → Next V) :
    Next V :=
  match operand with
  | const id =>
    match constants[id.toNat]? with
    | some value => use value
    | Option.none => .stuck
  | _ => .stuck

def onName (operand : Operand) (constants : Array Constant) (use : String → Next V) : Next V :=
  operand.onConstant constants fun value =>
    match value with
    | .string name => use name
    | _ => .stuck

end Operand

/-! ### Steps -/

namespace Layout.Image

variable {V : Type}

/-- Execute an instruction. -/
def perform (F : Image) (host : Host V) (σ : State V) (op : Opcode) (operand : Operand) : Next V :=
  match op with
  | .loadConst => operand.onConstant F.constants fun value => σ.go (host.constant value :: σ.stack)
  | .pushNull => σ.go (host.constant .null :: σ.stack)
  | .pushTrue => σ.go (host.constant (.bool true) :: σ.stack)
  | .pushFalse => σ.go (host.constant (.bool false) :: σ.stack)
  | .pop => σ.take fun _ rest => σ.go rest
  | .dup => σ.take fun value rest => σ.go (value :: value :: rest)
  | .load => operand.onSlot fun ref => σ.go (σ.locals ref :: σ.stack)
  | .store => operand.onSlot fun ref => σ.take fun value rest =>
      { σ with locals := fun other => if other = ref then value else σ.locals other }.go rest
  | .loadGlobal => operand.onName F.constants fun name => σ.ask host (.global name) σ.stack
  | .loadParam => operand.onName F.constants fun name => σ.ask host (.param name) σ.stack
  | .getMember => operand.onName F.constants fun name =>
      σ.take fun owner rest => σ.ask host (.member owner name) rest
  | .getIndex => σ.takeTwo fun owner subscript rest => σ.ask host (.index owner subscript) rest
  | .newList => σ.go (host.emptyList :: σ.stack)
  | .push => σ.takeTwo fun list item rest => σ.go (host.push list item :: rest)
  | .newObject => σ.go (host.emptyObject :: σ.stack)
  | .put => operand.onName F.constants fun key =>
      σ.takeTwo fun object value rest => σ.go (host.put object key value :: rest)
  | .makeLambda => operand.onFunction fun id => σ.go (host.closure id :: σ.stack)
  | .call => operand.onCount fun count => σ.takeCall count fun callee arguments rest =>
      σ.ask host (.call callee arguments) rest
  | .neg => σ.take fun value rest => σ.go (host.unary .neg value :: rest)
  | .not => σ.take fun value rest => σ.go (host.unary .not value :: rest)
  | .bitNot => σ.take fun value rest => σ.go (host.unary .bitNot value :: rest)
  | .add => σ.takeTwo fun left right rest => σ.go (host.binary .add left right :: rest)
  | .sub => σ.takeTwo fun left right rest => σ.go (host.binary .sub left right :: rest)
  | .mul => σ.takeTwo fun left right rest => σ.go (host.binary .mul left right :: rest)
  | .div => σ.takeTwo fun left right rest => σ.go (host.binary .div left right :: rest)
  | .intDiv => σ.takeTwo fun left right rest => σ.go (host.binary .intDiv left right :: rest)
  | .mod => σ.takeTwo fun left right rest => σ.go (host.binary .mod left right :: rest)
  | .eq => σ.takeTwo fun left right rest => σ.go (host.binary .eq left right :: rest)
  | .ne => σ.takeTwo fun left right rest => σ.go (host.binary .ne left right :: rest)
  | .lt => σ.takeTwo fun left right rest => σ.go (host.binary .lt left right :: rest)
  | .le => σ.takeTwo fun left right rest => σ.go (host.binary .le left right :: rest)
  | .gt => σ.takeTwo fun left right rest => σ.go (host.binary .gt left right :: rest)
  | .ge => σ.takeTwo fun left right rest => σ.go (host.binary .ge left right :: rest)
  | .bitAnd => σ.takeTwo fun left right rest => σ.go (host.binary .bitAnd left right :: rest)
  | .bitOr => σ.takeTwo fun left right rest => σ.go (host.binary .bitOr left right :: rest)
  | .bitXor => σ.takeTwo fun left right rest => σ.go (host.binary .bitXor left right :: rest)
  | .shl => σ.takeTwo fun left right rest => σ.go (host.binary .shl left right :: rest)
  | .shr => σ.takeTwo fun left right rest => σ.go (host.binary .shr left right :: rest)
  | .ushr => σ.takeTwo fun left right rest => σ.go (host.binary .ushr left right :: rest)
  | .jump => operand.onTarget fun target => σ.goTo target σ.stack
  | .jumpIfFalse => operand.onTarget fun target => σ.take fun value rest =>
      if host.truthy value then σ.go rest else σ.goTo target rest
  | .jumpIfTrue => operand.onTarget fun target => σ.take fun value rest =>
      if host.truthy value then σ.goTo target rest else σ.go rest
  | .iterStart => σ.take fun source rest => σ.go (host.iterator source :: rest)
  | .iterNext => operand.onTarget fun target => σ.take fun iterator rest =>
      let asked := { σ with history := .next iterator :: σ.history }
      if host.gives asked.history then asked.go (host.answer asked.history :: iterator :: rest)
      else asked.goTo target (iterator :: rest)
  | .tryBegin => operand.onTarget fun target =>
      { σ with handlers := ⟨target, σ.stack.length⟩ :: σ.handlers }.go σ.stack
  | .tryEnd =>
    match σ.handlers with
    | [] => .stuck
    | _ :: outer => { σ with handlers := outer }.go σ.stack
  | .hint => σ.go σ.stack
  | .importModule => operand.onName F.constants fun path =>
      σ.go (host.imported .library path :: σ.stack)
  | .importResource => operand.onName F.constants fun path =>
      σ.go (host.imported .resource path :: σ.stack)
  | .ret => σ.takeTwo fun code data _ => .halts (.returned code data)
  | .exit => σ.takeTwo fun code data _ => .halts (.exited code data)
  | .throw => σ.takeTwo fun code data rest => σ.raise host code data rest

/-- Execute the instruction the state is at. -/
def step (F : Image) (host : Host V) (σ : State V) : Next V :=
  match F.code[σ.index]? with
  | some instruction => F.perform host σ instruction.op instruction.operand
  | none => .stuck

end Layout.Image

/-! ### Runs -/

namespace Layout

variable {V : Type} {F : Image} {host : Host V} {σ τ υ : State V}

/-- One state leads to another, in any number of steps. -/
inductive Steps (F : Image) (host : Host V) : State V → State V → Prop
  | done {σ : State V} : Steps F host σ σ
  | more {σ τ υ : State V} (first : F.step host σ = .goes τ) (rest : Steps F host τ υ) :
      Steps F host σ υ

/-- The run from a state ends, with this history. -/
def Halts (F : Image) (host : Host V) (σ : State V) (ending : Ending V)
    (history : List (Event V)) : Prop :=
  ∃ τ, Steps F host σ τ ∧ F.step host τ = .halts ending ∧ τ.history = history

theorem Steps.trans (h : Steps F host σ τ) (h' : Steps F host τ υ) : Steps F host σ υ := by
  induction h with
  | done => exact h'
  | more first rest ih => exact .more first (ih h')

theorem Halts.after {ending : Ending V} {history : List (Event V)} (h : Steps F host σ τ)
    (h' : Halts F host τ ending history) : Halts F host σ ending history := by
  obtain ⟨υ, hsteps, hhalts, hhistory⟩ := h'
  exact ⟨υ, h.trans hsteps, hhalts, hhistory⟩

/-- A run can get stuck in one state only. -/
theorem Steps.stuck_unique (h : Steps F host σ τ) (h' : Steps F host σ υ)
    (hτ : F.step host τ = .stuck) (hυ : F.step host υ = .stuck) : τ = υ := by
  induction h with
  | done =>
      cases h' with
      | done => rfl
      | more first rest =>
          rw [hτ] at first
          cases first
  | more first rest ih =>
      cases h' with
      | done =>
          rw [hυ] at first
          cases first
      | more first' rest' =>
          obtain rfl := Next.goes.inj (first.symm.trans first')
          exact ih rest' hτ

/-! ### Instructions that stand in the code -/

section

variable {a b : Spot} {instruction : Instruction} {stack stack' : List V}
  {locals locals' : SlotRef → V} {handlers handlers' : List Handler}
  {history history' : List (Event V)}

theorem Image.Writes.index (h : F.Writes instruction a b) : b.index = a.index + 1 := by
  rw [h.next]
  rfl

/-- The step at an instruction that stands in the code. -/
theorem Image.Writes.step (h : F.Writes instruction a b) :
    F.step host ⟨a.index, stack, locals, handlers, history⟩ =
      F.perform host ⟨a.index, stack, locals, handlers, history⟩ instruction.op
        instruction.operand := by
  rw [Image.step, h.at_index]

/-- An instruction that goes on to the next. -/
theorem Image.Writes.goes (h : F.Writes instruction a b)
    (hperform : F.perform host ⟨a.index, stack, locals, handlers, history⟩ instruction.op
      instruction.operand = .goes ⟨a.index + 1, stack', locals', handlers', history'⟩) :
    Steps F host ⟨a.index, stack, locals, handlers, history⟩
      ⟨b.index, stack', locals', handlers', history'⟩ := by
  rw [h.index]
  exact .more (h.step.trans hperform) .done

theorem Image.Holds.onConstant {id : UInt32} {value : Constant} (h : F.Holds id value)
    (use : Constant → Next V) : (Operand.const id).onConstant F.constants use = use value := by
  rw [Operand.onConstant, h]

theorem Image.Holds.onName {id : UInt32} {name : String} (h : F.Holds id (.string name))
    (use : String → Next V) : (Operand.const id).onName F.constants use = use name := by
  rw [Operand.onName, h.onConstant]

/-- A jump that is taken, or not. -/
theorem Image.Jumps.test {op : Opcode} {target : Nat} {value : V} (wanted : Bool)
    (hop : op = if wanted then .jumpIfTrue else .jumpIfFalse) (h : F.Jumps op target a b) :
    Steps F host ⟨a.index, value :: stack, locals, handlers, history⟩
      ⟨if host.truthy value = wanted then target else b.index, stack, locals, handlers,
        history⟩ := by
  obtain ⟨word, rfl, h⟩ := h
  refine .more (h.step.trans ?_) .done
  subst hop
  rw [h.index]
  cases wanted with
  | true =>
      cases htruthy : host.truthy value with
      | true => simp [Image.perform, Operand.onTarget, State.take, State.goTo, htruthy]
      | false => simp [Image.perform, Operand.onTarget, State.take, State.go, htruthy]
  | false =>
      cases htruthy : host.truthy value with
      | true => simp [Image.perform, Operand.onTarget, State.take, State.go, htruthy]
      | false => simp [Image.perform, Operand.onTarget, State.take, State.goTo, htruthy]

theorem Image.Jumps.goes {target : Nat} (h : F.Jumps .jump target a b) :
    Steps F host ⟨a.index, stack, locals, handlers, history⟩
      ⟨target, stack, locals, handlers, history⟩ := by
  obtain ⟨word, rfl, h⟩ := h
  exact .more (h.step.trans rfl) .done

end

end Layout

end QueryCompiler
