/-
The layout of a query in the code.

`Laid F s phrase a b` says that the code of `phrase` stands in the function `F` from
`a` up to `b`, in the surroundings `s`.  There is one constructor for each rule, and
for each way in which rules ask for parts to be lowered; together they are the table
of what every construct becomes.  Nothing waits in this table: a jump stands next to
the place it leads to, whichever of the two was written first.

That a query which compiles is laid out so is proved in `Layout/Program`.  What the
code does, and that it never runs into trouble, is then a matter of this table alone.
-/
import QueryCompiler.Proofs.Layout.Spot
import QueryCompiler.Rules.Standard

namespace QueryCompiler.Layout

/-- What can be laid out: a node or nodes, in one of the ways a rule can ask for them. -/
inductive Phrase where
  /-- What the rule of the node writes. -/
  | rule (node : Node)
  /-- The node, whose rule is held to its contract. -/
  | node (node : Node)
  /-- The node where a value is needed. -/
  | value (node : Node)
  /-- The node as a statement. -/
  | statement (node : Node)
  /-- The node as the body of a function. -/
  | body (node : Node)
  /-- A result code and the data that goes with it. -/
  | result (code : Int64) (data : Option Node)
  | values (nodes : List Node)
  | statements (nodes : List Node)
  /-- The items of a list that is on the operand stack. -/
  | items (nodes : List Node)
  /-- The fields of an object that is on the operand stack. -/
  | fields (fields : List (String × Node))
  /-- The arms of a conditional, of which those that come to their end jump to `finish` with the
  depths `exits`, unless nothing follows. -/
  | arms (moreFollows : Bool) (finish : Nat) (exits : List Nat) (arms : List (Node × Node))

/-! ### Parts that several constructs share -/

/-- The instruction that pushes a literal. -/
inductive Pushes (F : Image) : Constant → Instruction → Prop
  | null : Pushes F .null ⟨.pushNull, .none⟩
  | true : Pushes F (.bool true) ⟨.pushTrue, .none⟩
  | false : Pushes F (.bool false) ⟨.pushFalse, .none⟩
  | pooled {value : Constant} {id : UInt32} (holds : F.Holds id value) :
      Pushes F value ⟨.loadConst, .const id⟩

/-- Leave so many handlers. -/
inductive Unwinds (F : Image) : Nat → Spot → Spot → Prop
  | done {a : Spot} : Unwinds F 0 a a
  | next {count : Nat} {a b c : Spot} (leaves : F.Writes ⟨.tryEnd, .none⟩ a b)
      (rest : Unwinds F count b c) : Unwinds F (count + 1) a c

/-- Jump to `finish` from the end of an arm, if that is wanted and control gets there.  The depths
are those of the jumps that were written. -/
inductive Leaves (F : Image) (wanted : Bool) (finish : Nat) : List Nat → Spot → Spot → Prop
  | jumps {a b : Spot} (falls : (wanted && a.reachable) = true)
      (jump : F.Jumps .jump finish a b) : Leaves F wanted finish [a.taken .jump] a b
  | stays {a : Spot} (ends : (wanted && a.reachable) = false) : Leaves F wanted finish [] a a

/-- Leave a guarded body for `finish`, if control gets to its end. -/
inductive Escapes (F : Image) (finish : Nat) : List Nat → Spot → Spot → Prop
  | jumps {a b c : Spot} (falls : a.reachable = true) (leaves : F.Writes ⟨.tryEnd, .none⟩ a b)
      (jump : F.Jumps .jump finish b c) : Escapes F finish [b.taken .jump] a c
  | stays {a : Spot} (ends : a.reachable = false) : Escapes F finish [] a a

/-- Put a caught error into a local, or drop it. -/
inductive Catches (F : Image) : Option Name → Spot → Spot → Prop
  | named {name : Name} {slot : UInt16} {a b : Spot} (free : a.Frees slot)
      (store : F.Writes ⟨.store, .slot ⟨0, slot⟩⟩ (a.declare name.text slot) b) :
      Catches F (some name) a b
  | dropped {a b : Spot} (pop : F.Writes ⟨.pop, .none⟩ a b) : Catches F none a b

/-! ### The table -/

/-- The code of a phrase stands between two places. -/
inductive Laid (F : Image) : Surroundings → Phrase → Spot → Spot → Prop
  -- Values that take one instruction.
  | literal {s : Surroundings} {a b : Spot} {value : Constant} {span : Span}
      {instruction : Instruction} (pushes : Pushes F value instruction)
      (push : F.Writes instruction a b) : Laid F s (.rule (.literal value span)) a b
  | localName {s : Surroundings} {a b : Spot} {name : String} {span : Span} {ref : SlotRef}
      (found : Frame.findLocal name 0 a.scopes = .ok (some ref))
      (load : F.Writes ⟨.load, .slot ref⟩ a b) : Laid F s (.rule (.ident name span)) a b
  | globalName {s : Surroundings} {a b : Spot} {name : String} {span : Span} {id : UInt32}
      (found : Frame.findLocal name 0 a.scopes = .ok none) (holds : F.Holds id (.string name))
      (load : F.Writes ⟨.loadGlobal, .const id⟩ a b) : Laid F s (.rule (.ident name span)) a b
  | param {s : Surroundings} {a b : Spot} {name : String} {span : Span} {id : UInt32}
      (holds : F.Holds id (.string name)) (load : F.Writes ⟨.loadParam, .const id⟩ a b) :
      Laid F s (.rule (.param name span)) a b
  | current {s : Surroundings} {a b : Spot} {span : Span} {ref : SlotRef}
      (found : Frame.findElement 0 a.scopes = .ok (some ref))
      (load : F.Writes ⟨.load, .slot ref⟩ a b) : Laid F s (.rule (.current span)) a b
  | lambda {s : Surroundings} {a b : Spot} {params : List Name} {body : Node} {span : Span}
      {id : UInt32} (make : F.Writes ⟨.makeLambda, .function id⟩ a b) :
      Laid F s (.rule (.lambda params body span)) a b
  -- Values made of others.
  | list {s : Surroundings} {a b c : Spot} {items : List Node} {span : Span}
      (new : F.Writes ⟨.newList, .none⟩ a b) (fill : Laid F s (.items items) b c) :
      Laid F s (.rule (.list items span)) a c
  | object {s : Surroundings} {a b c : Spot} {fields : List (String × Node)} {span : Span}
      (new : F.Writes ⟨.newObject, .none⟩ a b) (fill : Laid F s (.fields fields) b c) :
      Laid F s (.rule (.object fields span)) a c
  | member {s : Surroundings} {a b c : Spot} {owner : Node} {name : String} {span : Span}
      {id : UInt32} (ofOwner : Laid F s (.value owner) a b) (holds : F.Holds id (.string name))
      (get : F.Writes ⟨.getMember, .const id⟩ b c) : Laid F s (.rule (.member owner name span)) a c
  | index {s : Surroundings} {a b c d : Spot} {owner subscript : Node} {span : Span}
      (ofOwner : Laid F s (.value owner) a b) (ofSubscript : Laid F s (.value subscript) b c)
      (get : F.Writes ⟨.getIndex, .none⟩ c d) : Laid F s (.rule (.index owner subscript span)) a d
  | call {s : Surroundings} {a b c d : Spot} {callee : Node} {arguments : List Node} {span : Span}
      (few : arguments.length ≤ 65535) (ofCallee : Laid F s (.value callee) a b)
      (ofArguments : Laid F s (.values arguments) b c)
      (call : F.Writes ⟨.call, .count arguments.length.toUInt16⟩ c d) :
      Laid F s (.rule (.call callee arguments span)) a d
  | unary {s : Surroundings} {a b c : Spot} {op : UnaryOperator} {operand : Node} {span : Span}
      (ofOperand : Laid F s (.value operand) a b) (apply : F.Writes ⟨op.opcode, .none⟩ b c) :
      Laid F s (.rule (.unary op operand span)) a c
  | binary {s : Surroundings} {a b c d : Spot} {op : BinaryOperator} {left right : Node}
      {span : Span} (ofLeft : Laid F s (.value left) a b) (ofRight : Laid F s (.value right) b c)
      (apply : F.Writes ⟨op.opcode, .none⟩ c d) : Laid F s (.rule (.binary op left right span)) a d
  | logical {s : Surroundings} {a b c d e f g : Spot} {op : LogicalOperator} {left right : Node}
      {span : Span} (ofLeft : Laid F s (.value left) a b) (dup : F.Writes ⟨.dup, .none⟩ b c)
      (skip : F.Jumps op.skip f.index c d) (pop : F.Writes ⟨.pop, .none⟩ d e)
      (ofRight : Laid F s (.value right) e f) (land : g = f.land (c.taken op.skip)) :
      Laid F s (.rule (.logical op left right span)) a g
  | ternary {s : Surroundings} {a b c d e f g : Spot} {condition whenTrue whenFalse : Node}
      {span : Span} {exits : List Nat}
      (ofCondition : Laid F s (.value condition) (a.enter (.branch 0 #[])) b)
      (skip : F.Jumps .jumpIfFalse e.index b c) (ofTrue : Laid F s (.value whenTrue) c d)
      (leaves : Leaves F true f.index exits d e)
      (ofFalse : Laid F s (.value whenFalse) (e.land (b.taken .jumpIfFalse)) f)
      (land : g = f.leave.landAll exits) :
      Laid F s (.rule (.ternary condition whenTrue whenFalse span)) a g
  | group {s : Surroundings} {a b : Spot} {inner : Node} {span : Span}
      (ofInner : Laid F s (.value inner) a b) : Laid F s (.rule (.group inner span)) a b
  | transformEach {s : Surroundings} {a b c d e f g h i j k l m n : Spot} {source shape : Node}
      {span : Span} {collected element : UInt16} (first : a.Frees collected)
      (second : a.takeSlot.Frees element)
      (new : F.Writes ⟨.newList, .none⟩ a.takeSlot.takeSlot b)
      (keep : F.Writes ⟨.store, .slot ⟨0, collected⟩⟩ b c)
      (ofSource : Laid F s (.value source) c d) (start : F.Writes ⟨.iterStart, .none⟩ d e)
      (next : F.Jumps .iterNext l.index e f)
      (store : F.Writes ⟨.store, .slot ⟨0, element⟩⟩ f g)
      (load : F.Writes ⟨.load, .slot ⟨0, collected⟩⟩ g h)
      (ofShape : Laid F s.inTransform (.value shape) (h.enter (.transform element)) i)
      (push : F.Writes ⟨.push, .none⟩ i.leave j) (drop : F.Writes ⟨.pop, .none⟩ j k)
      (again : F.Jumps .jump e.index k l)
      (done : F.Writes ⟨.pop, .none⟩ (l.land (e.taken .iterNext)) m)
      (yields : F.Writes ⟨.load, .slot ⟨0, collected⟩⟩ m n) :
      Laid F s (.rule (.transform .each source shape span)) a n
  | transformSingle {s : Surroundings} {a b c d e : Spot} {source shape : Node} {span : Span}
      {element : UInt16} (free : a.Frees element) (ofSource : Laid F s (.value source) a.takeSlot b)
      (store : F.Writes ⟨.store, .slot ⟨0, element⟩⟩ b c)
      (ofShape : Laid F s.inTransform (.value shape) (c.enter (.transform element)) d)
      (leave : e = d.leave) : Laid F s (.rule (.transform .single source shape span)) a e
  -- Statements that run straight through.
  | block {s : Surroundings} {a b c : Spot} {statements : List Node} {span : Span}
      (inside : Laid F s (.statements statements) (a.enter .block) b) (leave : c = b.leave) :
      Laid F s (.rule (.block statements span)) a c
  | varDecl {s : Surroundings} {a b c : Spot} {name : Name} {init : Node} {span : Span}
      {slot : UInt16} (ofInit : Laid F s (.value init) a b) (free : b.Frees slot)
      (store : F.Writes ⟨.store, .slot ⟨0, slot⟩⟩ (b.declare name.text slot) c) :
      Laid F s (.rule (.varDecl name init span)) a c
  | assign {s : Surroundings} {a b c : Spot} {name : Name} {value : Node} {span : Span}
      {ref : SlotRef} (found : Frame.findLocal name.text 0 a.scopes = .ok (some ref))
      (ofValue : Laid F s (.value value) a b) (store : F.Writes ⟨.store, .slot ref⟩ b c) :
      Laid F s (.rule (.assign name value span)) a c
  | run {s : Surroundings} {a b : Spot} {inner : Node} {span : Span}
      (ofInner : Laid F s (.statement inner) a b) : Laid F s (.rule (.run inner span)) a b
  | hint {s : Surroundings} {a b : Spot} {name : String} {value : Constant} {span : Span}
      {key id : UInt32} (named : F.Holds key (.string name)) (holds : F.Holds id value)
      (set : F.Writes ⟨.hint, .hint key id⟩ a b) : Laid F s (.rule (.hint name value span)) a b
  | importAs {s : Surroundings} {a b c : Spot} {source : ImportSource} {path : String}
      {binding : Name} {span : Span} {id : UInt32} {slot : UInt16}
      (holds : F.Holds id (.string path)) (free : a.Frees slot)
      (load : F.Writes ⟨source.opcode, .const id⟩ (a.declare binding.text slot) b)
      (store : F.Writes ⟨.store, .slot ⟨0, slot⟩⟩ b c) :
      Laid F s (.rule (.importAs source path binding span)) a c
  -- Statements that branch.
  | ifChain {s : Surroundings} {a b c d : Spot} {arms : List (Node × Node)}
      {otherwise : Option Node} {span : Span} {exits : List Nat}
      (ofArms : Laid F s (.arms otherwise.isSome c.index exits arms) (a.enter (.branch 0 #[])) b)
      (ofRest : Laid F s (.statements otherwise.toList) b c)
      (land : d = c.leave.landAll exits) : Laid F s (.rule (.ifChain arms otherwise span)) a d
  | whileLoop {s : Surroundings} {a b c d e f : Spot} {condition body : Node} {span : Span}
      (ofCondition : Laid F (s.inLoop a.index e.index a.depth) (.value condition)
        (a.enter (.loop ⟨0, 0⟩ 0 #[])) b)
      (exit : F.Jumps .jumpIfFalse e.index b c)
      (ofBody : Laid F (s.inLoop a.index e.index a.depth) (.statement body) c d)
      (again : F.Jumps .jump a.index d e) (land : f = (e.land (b.taken .jumpIfFalse)).leave) :
      Laid F s (.rule (.whileLoop condition body span)) a f
  | forEach {s : Surroundings} {a b c d e f g h : Spot} {binding : Name} {iterable body : Node}
      {span : Span} {slot : UInt16} (ofIterable : Laid F s (.value iterable) a b)
      (start : F.Writes ⟨.iterStart, .none⟩ b c)
      (next : F.Jumps .iterNext g.index (c.enter (.loop ⟨0, 0⟩ 0 #[])) d) (free : d.Frees slot)
      (store : F.Writes ⟨.store, .slot ⟨0, slot⟩⟩ (d.declare binding.text slot) e)
      (ofBody : Laid F (s.inLoop c.index g.index c.depth) (.statement body) e f)
      (again : F.Jumps .jump c.index f g)
      (drop : F.Writes ⟨.pop, .none⟩ ((g.land (c.taken .iterNext)).leave) h) :
      Laid F s (.rule (.forEach binding iterable body span)) a h
  | tryCatch {s : Surroundings} {a b c d e f g : Spot} {body handler : Node}
      {binding : Option Name} {span : Span} {exits : List Nat}
      (install : F.Jumps .tryBegin d.index a b)
      (ofBody : Laid F (s.guarded a.index) (.statement body) (b.enter (.handler ⟨0, 0⟩ false 0)) c)
      (escapes : Escapes F f.index exits c d)
      (catches : Catches F binding (d.land (a.taken .tryBegin)) e)
      (ofHandler : Laid F s (.statement handler) e f) (land : g = f.leave.landAll exits) :
      Laid F s (.rule (.tryCatch body binding handler span)) a g
  -- Statements that do not come to their end.
  | breakLoop {s : Surroundings} {a b c : Spot} {span : Span} {loop : Loop}
      (inside : s.loop? = some loop) (level : a.reachable = true → a.depth = loop.level)
      (unwinds : Unwinds F loop.crossed (a.reset loop.level) b)
      (jump : F.Jumps .jump loop.exit b c) : Laid F s (.rule (.breakLoop span)) a c
  | continueLoop {s : Surroundings} {a b c : Spot} {span : Span} {loop : Loop}
      (inside : s.loop? = some loop) (level : a.reachable = true → a.depth = loop.level)
      (unwinds : Unwinds F loop.crossed (a.reset loop.level) b)
      (jump : F.Jumps .jump loop.head b c) : Laid F s (.rule (.continueLoop span)) a c
  | returnWith {s : Surroundings} {a b c d : Spot} {code : Int64} {data : Option Node} {span : Span}
      (ofResult : Laid F s (.result code data) a b) (unwinds : Unwinds F s.guards.length b c)
      (leave : F.Writes ⟨.ret, .none⟩ c d) : Laid F s (.rule (.returnWith code data span)) a d
  | exitWith {s : Surroundings} {a b c : Spot} {code : Int64} {data : Option Node} {span : Span}
      (ofResult : Laid F s (.result code data) a b) (leave : F.Writes ⟨.exit, .none⟩ b c) :
      Laid F s (.rule (.exitWith code data span)) a c
  | throwWith {s : Surroundings} {a b c : Spot} {code : Int64} {data : Node} {span : Span}
      (ofResult : Laid F s (.result code (some data)) a b) (throw : F.Writes ⟨.throw, .none⟩ b c) :
      Laid F s (.rule (.throwWith code data span)) a c
  | resultNull {s : Surroundings} {a b c : Spot} {code : Int64} {id : UInt32}
      (holds : F.Holds id (.int code)) (push : F.Writes ⟨.loadConst, .const id⟩ a b)
      (null : F.Writes ⟨.pushNull, .none⟩ b c) : Laid F s (.result code none) a c
  | resultData {s : Surroundings} {a b c : Spot} {code : Int64} {data : Node} {id : UInt32}
      (holds : F.Holds id (.int code)) (push : F.Writes ⟨.loadConst, .const id⟩ a b)
      (ofData : Laid F s (.value data) b c) : Laid F s (.result code (some data)) a c
  -- The contract of a node, and the ways to ask for one.
  | settles {s : Surroundings} {a b : Spot} {node : Node}
      (kind : node.construct.balance ≠ .diverges) (ofRule : Laid F s (.rule node) a b) :
      Laid F s (.node node) a b
  | diverges {s : Surroundings} {a b c : Spot} {node : Node}
      (kind : node.construct.balance = .diverges) (ofRule : Laid F s (.rule node) a b)
      (reset : c = b.reset a.depth) : Laid F s (.node node) a c
  | valueOf {s : Surroundings} {a b : Spot} {node : Node}
      (kind : node.construct.balance = .value) (ofNode : Laid F s (.node node) a b) :
      Laid F s (.value node) a b
  | valueNever {s : Surroundings} {a b c : Spot} {node : Node}
      (kind : node.construct.balance = .diverges) (ofNode : Laid F s (.node node) a b)
      (reset : c = b.reset (a.depth + 1)) : Laid F s (.value node) a c
  | dropped {s : Surroundings} {a b c : Spot} {node : Node}
      (kind : node.construct.balance = .value) (ofNode : Laid F s (.node node) a b)
      (drop : F.Writes ⟨.pop, .none⟩ b c) : Laid F s (.statement node) a c
  | plain {s : Surroundings} {a b : Spot} {node : Node}
      (kind : node.construct.balance ≠ .value) (ofNode : Laid F s (.node node) a b) :
      Laid F s (.statement node) a b
  | bodyValue {s : Surroundings} {a b c d : Spot} {node : Node} {id : UInt32}
      (kind : node.construct.balance = .value) (holds : F.Holds id (.int 0))
      (push : F.Writes ⟨.loadConst, .const id⟩ a b) (ofNode : Laid F s (.value node) b c)
      (leave : F.Writes ⟨.ret, .none⟩ c d) : Laid F s (.body node) a d
  | bodyFalls {s : Surroundings} {a b c d e : Spot} {node : Node} {id : UInt32}
      (kind : node.construct.balance = .effect) (ofNode : Laid F s (.node node) a b)
      (falls : b.reachable = true) (holds : F.Holds id (.int 0))
      (push : F.Writes ⟨.loadConst, .const id⟩ b c) (null : F.Writes ⟨.pushNull, .none⟩ c d)
      (leave : F.Writes ⟨.ret, .none⟩ d e) : Laid F s (.body node) a e
  | bodyEnds {s : Surroundings} {a b : Spot} {node : Node}
      (kind : node.construct.balance = .effect) (ofNode : Laid F s (.node node) a b)
      (ends : b.reachable = false) : Laid F s (.body node) a b
  | bodyNever {s : Surroundings} {a b : Spot} {node : Node}
      (kind : node.construct.balance = .diverges) (ofNode : Laid F s (.node node) a b) :
      Laid F s (.body node) a b
  -- Several nodes, in order.
  | noValues {s : Surroundings} {a : Spot} : Laid F s (.values []) a a
  | moreValues {s : Surroundings} {a b c : Spot} {node : Node} {rest : List Node}
      (ofFirst : Laid F s (.value node) a b) (ofRest : Laid F s (.values rest) b c) :
      Laid F s (.values (node :: rest)) a c
  | noStatements {s : Surroundings} {a : Spot} : Laid F s (.statements []) a a
  | moreStatements {s : Surroundings} {a b c : Spot} {node : Node} {rest : List Node}
      (ofFirst : Laid F s (.statement node) a b) (ofRest : Laid F s (.statements rest) b c) :
      Laid F s (.statements (node :: rest)) a c
  | noItems {s : Surroundings} {a : Spot} : Laid F s (.items []) a a
  | moreItems {s : Surroundings} {a b c d : Spot} {node : Node} {rest : List Node}
      (ofFirst : Laid F s (.value node) a b) (push : F.Writes ⟨.push, .none⟩ b c)
      (ofRest : Laid F s (.items rest) c d) : Laid F s (.items (node :: rest)) a d
  | noFields {s : Surroundings} {a : Spot} : Laid F s (.fields []) a a
  | moreFields {s : Surroundings} {a b c d : Spot} {key : String} {node : Node}
      {rest : List (String × Node)} {id : UInt32} (ofFirst : Laid F s (.value node) a b)
      (holds : F.Holds id (.string key)) (put : F.Writes ⟨.put, .const id⟩ b c)
      (ofRest : Laid F s (.fields rest) c d) : Laid F s (.fields ((key, node) :: rest)) a d
  | noArms {s : Surroundings} {a : Spot} {moreFollows : Bool} {finish : Nat} :
      Laid F s (.arms moreFollows finish [] []) a a
  | moreArms {s : Surroundings} {a b c d e f : Spot} {moreFollows : Bool} {finish : Nat}
      {exit exits : List Nat} {condition body : Node} {rest : List (Node × Node)}
      (ofCondition : Laid F s (.value condition) a b)
      (skip : F.Jumps .jumpIfFalse e.index b c) (ofBody : Laid F s (.statement body) c d)
      (leaves : Leaves F (moreFollows || !rest.isEmpty) finish exit d e)
      (ofRest : Laid F s (.arms moreFollows finish exits rest)
        (e.land (b.taken .jumpIfFalse)) f) :
      Laid F s (.arms moreFollows finish (exit ++ exits) ((condition, body) :: rest)) a f

end QueryCompiler.Layout
