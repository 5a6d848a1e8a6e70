/-
Programs as people read them.

A listing shows one instruction a line, with constants in place of their numbers.
The printed form of a program has a heading for every function, numbers its
instructions, adds the source lines if they were kept, and ends with the guarded
regions.
-/
import QueryCompiler.Machine.Program

namespace QueryCompiler.Program

/-- A constant in a listing.  A number that is no constant's is shown with a question mark. -/
def constantText (program : Program) (id : UInt32) : String :=
  match program.constant? id with
  | some constant => constant.text
  | none => s!"#{id.toNat}?"

/-- An instruction in a listing. -/
def instructionText (program : Program) (instruction : Instruction) : String :=
  match instruction.operand with
  | .const id => s!"{instruction.op.name} {program.constantText id}"
  | .hint key value =>
    s!"{instruction.op.name} {program.constantText key} {program.constantText value}"
  | _ => instruction.text

/-- The listing of a function, one line for each instruction, empty if there is no such function. -/
def listing (program : Program) (id : Nat) : List String :=
  match program.functions[id]? with
  | some function => function.code.toList.map program.instructionText
  | none => []

/-- The text, made at least `width` characters long by putting copies of `fill` in front. -/
def padLeft (fill : Char) (width : Nat) (text : String) : String :=
  "".pushn fill (width - text.length) ++ text

/-- One line of the printed form of a function: index, source line if it is kept, instruction. -/
def instructionLine (program : Program) (function : CompiledFunction) (instruction : Instruction)
    (index : Nat) : String :=
  let number := padLeft '0' 4 (toString index)
  let body := program.instructionText instruction
  match function.lines[index]? with
  | some line =>
    let source := padLeft ' ' 4 (toString line)
    s!"  {number} [{source}] {body}\n"
  | none => s!"  {number}        {body}\n"

/-- The printed form of a function: a heading and a line for each instruction. -/
def functionText (program : Program) (function : CompiledFunction) : String :=
  let params := function.params.toNat
  let locals := function.locals.toNat
  let stack := function.maxStack.toNat
  let heading := s!"fn{function.id} (params: {params}, locals: {locals}, stack: {stack}):\n"
  let lines := function.code.toList.mapIdx fun index instruction =>
    program.instructionLine function instruction index
  heading ++ String.join lines

/-- The printed form of a guarded region. -/
def regionText (region : GuardedRegion) : String :=
  let place := s!"fn{region.function.toNat} @{region.start.toNat}..@{region.stop.toNat}"
  s!"handler {place} -> @{region.catchAt.toNat} (throws: {region.throws.toNat})\n"

/-- The printed form of a program: its functions, then its guarded regions. -/
def text (program : Program) : String :=
  String.join (program.functions.toList.map program.functionText) ++
    String.join (program.regions.toList.map regionText)

end QueryCompiler.Program
