/-
Statements and what they do, without a machine.

The statements here are about control alone: whatever they look at is a parameter of
the query.  The interpreter follows the structure of the tree.  A statement completes
normally, or it leaves a loop or starts it over, or it ends the function or the query,
or it raises an error, which the handler of the innermost `try` around it takes up.

The interpreter asks the host as the machine does: once for every parameter it reads,
and once for every item of a loop.
-/
import QueryCompiler.Proofs.Execution.Machine

namespace QueryCompiler

/-! ### Statements about control -/

/-- The node reads a parameter. -/
def Node.IsParam (node : Node) : Prop :=
  ∃ name span, node = .param name span

/-- Statements that look at parameters alone. -/
inductive Node.IsStructured : Node → Prop
  | block {statements : List Node} {span : Span}
      (ofStatements : ∀ statement ∈ statements, IsStructured statement) :
      IsStructured (.block statements span)
  | run {inner : Node} {span : Span} (ofInner : inner.IsParam) : IsStructured (.run inner span)
  | ifChain {arms : List (Node × Node)} {otherwise : Option Node} {span : Span}
      (ofConditions : ∀ arm ∈ arms, arm.1.IsParam) (ofBodies : ∀ arm ∈ arms, IsStructured arm.2)
      (ofOtherwise : ∀ node ∈ otherwise, IsStructured node) :
      IsStructured (.ifChain arms otherwise span)
  | whileLoop {condition body : Node} {span : Span} (ofCondition : condition.IsParam)
      (ofBody : IsStructured body) : IsStructured (.whileLoop condition body span)
  | forEach {binding : Name} {iterable body : Node} {span : Span} (ofIterable : iterable.IsParam)
      (ofBody : IsStructured body) : IsStructured (.forEach binding iterable body span)
  | breakLoop {span : Span} : IsStructured (.breakLoop span)
  | continueLoop {span : Span} : IsStructured (.continueLoop span)
  | tryCatch {body handler : Node} {binding : Option Name} {span : Span}
      (ofBody : IsStructured body) (ofHandler : IsStructured handler) :
      IsStructured (.tryCatch body binding handler span)
  | returnWith {code : Int64} {data : Option Node} {span : Span}
      (ofData : ∀ node ∈ data, node.IsParam) : IsStructured (.returnWith code data span)
  | exitWith {code : Int64} {data : Option Node} {span : Span}
      (ofData : ∀ node ∈ data, node.IsParam) : IsStructured (.exitWith code data span)
  | throwWith {code : Int64} {data : Node} {span : Span} (ofData : data.IsParam) :
      IsStructured (.throwWith code data span)

/-- How a statement completes. -/
inductive Completion (V : Type) where
  | normal
  | breaks
  | continues
  | returned (code : Int64) (data : V)
  | exited (code : Int64) (data : V)
  | threw (code : Int64) (data : V)
deriving DecidableEq

namespace Completion

variable {V : Type}

/-- How a loop completes once its body has completed so, unless it goes on. -/
def leavesLoop? : Completion V → Option (Completion V)
  | normal | continues => none
  | breaks => some normal
  | other => some other

/-- No loop completes by leaving or restarting a loop: what its body does of that kind is about
itself. -/
theorem leavesLoop?_stays {completion result : Completion V}
    (h : completion.leavesLoop? = some result) : result ≠ breaks ∧ result ≠ continues := by
  cases completion with
  | normal => cases h
  | continues => cases h
  | breaks =>
      obtain rfl := Option.some.inj h
      exact ⟨nofun, nofun⟩
  | returned code data =>
      obtain rfl := Option.some.inj h
      exact ⟨nofun, nofun⟩
  | exited code data =>
      obtain rfl := Option.some.inj h
      exact ⟨nofun, nofun⟩
  | threw code data =>
      obtain rfl := Option.some.inj h
      exact ⟨nofun, nofun⟩

/-- How a run ends when the query completes so.  A query that completes normally returns zero, and
no query completes by leaving a loop. -/
def ending? (host : Host V) : Completion V → Option (Ending V)
  | normal => some (.returned (host.constant (.int 0)) (host.constant .null))
  | returned code data => some (.returned (host.constant (.int code)) data)
  | exited code data => some (.exited (host.constant (.int code)) data)
  | threw code data => some (.threw (host.constant (.int code)) data)
  | breaks | continues => none

end Completion

/-! ### The interpreter -/

/-- What the interpreter works on: a statement or several, the arms of a conditional that are left
to try, or the items that are left of a loop. -/
inductive Task (V : Type) where
  | statement (node : Node)
  | statements (nodes : List Node)
  | arms (arms : List (Node × Node)) (otherwise : Option Node)
  | items (iterator : V) (body : Node)

section

variable {V : Type}

/-- The value of a parameter, and the history with the question for it. -/
def Host.read (host : Host V) (node : Node) (history : List (Event V)) :
    Option (V × List (Event V)) :=
  match node with
  | .param name _ => some (host.answer (.param name :: history), .param name :: history)
  | _ => none

/-- The data that goes with a result code. -/
def Host.readData (host : Host V) (data : Option Node) (history : List (Event V)) :
    Option (V × List (Event V)) :=
  match data with
  | some node => host.read node history
  | none => some (host.constant .null, history)

/-- Carry out a task, if the fuel is enough, and tell how it completes and what has been asked. -/
def execute (host : Host V) :
    Nat → Task V → List (Event V) → Option (Completion V × List (Event V))
  | 0, _, _ => none
  | _ + 1, .statements [], history => some (.normal, history)
  | fuel + 1, .statements (first :: rest), history => do
    let (completion, history) ← execute host fuel (.statement first) history
    match completion with
    | .normal => execute host fuel (.statements rest) history
    | _ => return (completion, history)
  | _ + 1, .arms [] none, history => some (.normal, history)
  | fuel + 1, .arms [] (some node), history => execute host fuel (.statement node) history
  | fuel + 1, .arms ((condition, body) :: rest) otherwise, history => do
    let (value, history) ← host.read condition history
    if host.truthy value then execute host fuel (.statement body) history
    else execute host fuel (.arms rest otherwise) history
  | fuel + 1, .items iterator body, history =>
    let history := .next iterator :: history
    if host.gives history then do
      let (completion, history) ← execute host fuel (.statement body) history
      match completion.leavesLoop? with
      | some completion => return (completion, history)
      | none => execute host fuel (.items iterator body) history
    else
      some (.normal, history)
  | fuel + 1, .statement node, history =>
    match node with
    | .block statements _ => execute host fuel (.statements statements) history
    | .run inner _ => do
      let (_, history) ← host.read inner history
      return (.normal, history)
    | .ifChain arms otherwise _ => execute host fuel (.arms arms otherwise) history
    | .whileLoop condition body _ => do
      let (value, history) ← host.read condition history
      if host.truthy value then
        let (completion, history) ← execute host fuel (.statement body) history
        match completion.leavesLoop? with
        | some completion => return (completion, history)
        | none => execute host fuel (.statement node) history
      else
        return (.normal, history)
    | .forEach _ iterable body _ => do
      let (source, history) ← host.read iterable history
      execute host fuel (.items (host.iterator source) body) history
    | .breakLoop _ => some (.breaks, history)
    | .continueLoop _ => some (.continues, history)
    | .tryCatch body _ handler _ => do
      let (completion, history) ← execute host fuel (.statement body) history
      match completion with
      | .threw _ _ => execute host fuel (.statement handler) history
      | _ => return (completion, history)
    | .returnWith code data _ => do
      let (data, history) ← host.readData data history
      return (.returned code data, history)
    | .exitWith code data _ => do
      let (data, history) ← host.readData data history
      return (.exited code data, history)
    | .throwWith code data _ => do
      let (data, history) ← host.read data history
      return (.threw code data, history)
    | _ => none

end

end QueryCompiler
