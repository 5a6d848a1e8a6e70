/-
Reading encoded programs.

A reader takes a value off the front of some bytes and leaves the rest.  `Reads` says
that it finds a value written in the way it expects, whatever follows; readers put one
after another read what was written one after another, so the reader of a program is
built along the format, section by section, and each part has one lemma.

Nothing in the format announces an operand.  That it can be read all the same rests on
the opcode, whose byte tells the shape, and on every operand having the shape of its
opcode, as it has in every assembly that calls lead to.
-/
import QueryCompiler.Machine.Encoding
import QueryCompiler.Proofs.Encoding.Sessions

namespace QueryCompiler

/-- Take a value off the front of some bytes, if one stands there. -/
abbrev Reader := StateT (List UInt8) Option

namespace Reader

variable {α β : Type}

/-- The reader finds `value` in `bytes`, whatever follows them, and leaves what follows. -/
def Reads (reader : Reader α) (bytes : List UInt8) (value : α) : Prop :=
  ∀ rest, reader.run (bytes ++ rest) = some (value, rest)

theorem Reads.pure (value : α) : Reads (Pure.pure value) [] value :=
  fun _ => rfl

theorem Reads.bind {first : Reader α} {next : α → Reader β} {xs ys : List UInt8} {x : α} {y : β}
    (hfirst : Reads first xs x) (hnext : Reads (next x) ys y) :
    Reads (first >>= next) (xs ++ ys) y := by
  intro rest
  rw [StateT.run_bind, List.append_assoc, hfirst]
  exact hnext rest

theorem Reads.map {reader : Reader α} {bytes : List UInt8} {x : α} (f : α → β)
    (h : Reads reader bytes x) : Reads (f <$> reader) bytes (f x) := by
  intro rest
  rw [StateT.run_map, h]
  rfl

/-! ### Bytes and words -/

/-- So many bytes. -/
def bytes (n : Nat) : Reader (List UInt8) := fun input =>
  if n ≤ input.length then some (input.splitAt n) else none

theorem bytes_reads (xs : List UInt8) : Reads (bytes xs.length) xs xs := by
  intro rest
  simp [bytes, StateT.run]

def byte : Reader UInt8
  | [] => none
  | first :: rest => some (first, rest)

theorem byte_reads (value : UInt8) : Reads byte [value] value :=
  fun _ => rfl

/-- The number with these bytes as its digits, the highest first. -/
def number (digits : List UInt8) : Nat :=
  digits.foldl (fun high digit => 256 * high + digit.toNat) 0

def word16 : Reader UInt16 :=
  (fun digits => (number digits).toUInt16) <$> bytes 2

def word32 : Reader UInt32 :=
  (fun digits => (number digits).toUInt32) <$> bytes 4

def word64 : Reader UInt64 :=
  (fun digits => (number digits).toUInt64) <$> bytes 8

/-- One digit more. -/
theorem number_concat {digits : List UInt8} {digit : UInt8} {m k : Nat}
    (h : number digits = m >>> (k + 8)) (hdigit : digit.toNat = m >>> k % 256) :
    number (digits ++ [digit]) = m >>> k := by
  have hsplit : m >>> (k + 8) = m >>> k / 256 := by
    rw [Nat.shiftRight_add]
    exact Nat.shiftRight_eq_div_pow (m >>> k) 8
  have hconcat : number (digits ++ [digit]) = 256 * number digits + digit.toNat := by
    simp only [number, List.foldl_append, List.foldl_cons, List.foldl_nil]
  rw [hconcat, h, hdigit, hsplit]
  exact Nat.div_add_mod (m >>> k) 256

theorem number_bytes16 (n : UInt16) : number (bytes16 n) = n.toNat := by
  have hdigit : (n >>> 8).toUInt8.toNat = n.toNat >>> 8 % 256 :=
    (UInt16.toNat_toUInt8 _).trans (congrArg (· % 256) (UInt16.toNat_shiftRight n 8))
  have h16 : number [] = n.toNat >>> 16 := by
    rw [Nat.shiftRight_eq_div_pow, Nat.div_eq_of_lt n.toNat_lt]
    rfl
  have h8 : number _ = n.toNat >>> 8 := number_concat h16 hdigit
  exact number_concat h8 n.toNat_toUInt8

theorem number_bytes32 (n : UInt32) : number (bytes32 n) = n.toNat := by
  have hdigit : ∀ k : UInt32, (n >>> k).toUInt8.toNat = n.toNat >>> (k.toNat % 32) % 256 :=
    fun k => (UInt32.toNat_toUInt8 _).trans (congrArg (· % 256) (UInt32.toNat_shiftRight n k))
  have h32 : number [] = n.toNat >>> 32 := by
    rw [Nat.shiftRight_eq_div_pow, Nat.div_eq_of_lt n.toNat_lt]
    rfl
  have h24 : number _ = n.toNat >>> 24 := number_concat h32 (hdigit 24)
  have h16 : number _ = n.toNat >>> 16 := number_concat h24 (hdigit 16)
  have h8 : number _ = n.toNat >>> 8 := number_concat h16 (hdigit 8)
  exact number_concat h8 n.toNat_toUInt8

theorem number_bytes64 (n : UInt64) : number (bytes64 n) = n.toNat := by
  have hdigit : ∀ k : UInt64, (n >>> k).toUInt8.toNat = n.toNat >>> (k.toNat % 64) % 256 :=
    fun k => (UInt64.toNat_toUInt8 _).trans (congrArg (· % 256) (UInt64.toNat_shiftRight n k))
  have h64 : number [] = n.toNat >>> 64 := by
    rw [Nat.shiftRight_eq_div_pow, Nat.div_eq_of_lt n.toNat_lt]
    rfl
  have h56 : number _ = n.toNat >>> 56 := number_concat h64 (hdigit 56)
  have h48 : number _ = n.toNat >>> 48 := number_concat h56 (hdigit 48)
  have h40 : number _ = n.toNat >>> 40 := number_concat h48 (hdigit 40)
  have h32 : number _ = n.toNat >>> 32 := number_concat h40 (hdigit 32)
  have h24 : number _ = n.toNat >>> 24 := number_concat h32 (hdigit 24)
  have h16 : number _ = n.toNat >>> 16 := number_concat h24 (hdigit 16)
  have h8 : number _ = n.toNat >>> 8 := number_concat h16 (hdigit 8)
  exact number_concat h8 n.toNat_toUInt8

theorem word16_reads (n : UInt16) : Reads word16 (bytes16 n) n := by
  have h := (bytes_reads (bytes16 n)).map fun digits => (number digits).toUInt16
  rw [number_bytes16, Nat.toUInt16_eq, UInt16.ofNat_toNat] at h
  exact h

theorem word32_reads (n : UInt32) : Reads word32 (bytes32 n) n := by
  have h := (bytes_reads (bytes32 n)).map fun digits => (number digits).toUInt32
  rw [number_bytes32, Nat.toUInt32_eq, UInt32.ofNat_toNat] at h
  exact h

theorem word64_reads (n : UInt64) : Reads word64 (bytes64 n) n := by
  have h := (bytes_reads (bytes64 n)).map fun digits => (number digits).toUInt64
  rw [number_bytes64, Nat.toUInt64_eq, UInt64.ofNat_toNat] at h
  exact h

/-! ### Lists -/

/-- A length in front of a list. -/
def count : Reader Nat :=
  UInt32.toNat <$> word32

theorem count_reads {n : Nat} (h : n < wordLimit) : Reads count (countBytes n) n := by
  have hread := (word32_reads n.toUInt32).map UInt32.toNat
  have hword : n.toUInt32.toNat = n := Nat.mod_eq_of_lt h
  rw [hword] at hread
  exact hread

/-- So many values, one after the other. -/
def many (reader : Reader α) : Nat → Reader (List α)
  | 0 => Pure.pure []
  | n + 1 => do
    let first ← reader
    (fun rest => first :: rest) <$> many reader n

theorem many_reads {reader : Reader α} {encode : β → List UInt8} {view : β → α} {xs : List β}
    (h : ∀ x ∈ xs, Reads reader (encode x) (view x)) :
    Reads (many reader xs.length) (xs.flatMap encode) (xs.map view) := by
  induction xs with
  | nil => exact Reads.pure []
  | cons x rest ih =>
      have hrest := ih fun y hy => h y (List.mem_cons_of_mem x hy)
      exact (h x List.mem_cons_self).bind (hrest.map fun rest => view x :: rest)

/-- A list after its length. -/
def counted (reader : Reader α) : Reader (List α) := do
  let n ← count
  many reader n

theorem counted_reads {reader : Reader α} {encode : β → List UInt8} {view : β → α}
    {xs : Array β} (hsize : xs.size < wordLimit)
    (h : ∀ x ∈ xs, Reads reader (encode x) (view x)) :
    Reads (counted reader) (countBytes xs.size ++ xs.toList.flatMap encode)
      (xs.toList.map view) := by
  refine (count_reads hsize).bind ?_
  rw [← Array.length_toList]
  exact many_reads fun x hx => h x (Array.mem_toList_iff.mp hx)

/-! ### Constants -/

/-- A truth value is one byte, and no other bytes than zero and one are. -/
def truth : Reader Bool := do
  match ← byte with
  | 0 => return false
  | 1 => return true
  | _ => failure

/-- A text is the bytes of its encoding after their number. -/
def text : Reader String := do
  let n ← count
  let encoded ← bytes n
  match String.fromUTF8? ⟨encoded.toArray⟩ with
  | some value => return value
  | none => failure

/-- The tag tells what follows. -/
def constant : Reader Constant := do
  match ← byte with
  | 0 => return .null
  | 1 => Constant.bool <$> truth
  | 2 => (fun word => Constant.int word.toInt64) <$> word64
  | 3 => (fun word => Constant.float ⟨word⟩) <$> word64
  | 4 => Constant.string <$> text
  | _ => failure

theorem truth_reads (value : Bool) : Reads truth [if value then 1 else 0] value := by
  cases value <;> exact fun _ => rfl

theorem text_reads {value : String} (h : value.utf8ByteSize < wordLimit) :
    Reads text (countBytes value.utf8ByteSize ++ value.toUTF8.data.toList) value := by
  refine (count_reads h).bind ?_
  have hlength : value.toUTF8.data.toList.length = value.utf8ByteSize := Array.length_toList
  have hdecoded : String.fromUTF8? ⟨value.toUTF8.data.toList.toArray⟩ = some value := by
    rw [Array.toArray_toList, String.fromUTF8?]
    exact dif_pos value.isValidUTF8
  rw [← hlength, ← List.append_nil value.toUTF8.data.toList, List.append_nil]
  have hbytes := bytes_reads value.toUTF8.data.toList
  intro rest
  rw [StateT.run_bind, hbytes]
  show StateT.run (match String.fromUTF8? _ with | some value => _ | none => _) rest = _
  rw [hdecoded]
  rfl

end Reader

/-- The constant is no text, or one whose length can be counted. -/
def Constant.Short : Constant → Prop
  | string value => value.utf8ByteSize < wordLimit
  | _ => True

namespace Reader

theorem constant_reads {value : Constant} (h : value.Short) :
    Reads constant value.encode value := by
  cases value with
  | null => exact fun _ => rfl
  | bool value => exact (byte_reads 1).bind ((truth_reads value).map Constant.bool)
  | int value =>
      have hword := (word64_reads value.toUInt64).map fun word => Constant.int word.toInt64
      rw [Int64.toInt64_toUInt64] at hword
      exact (byte_reads 2).bind hword
  | float value =>
      exact (byte_reads 3).bind ((word64_reads value.bits).map fun word => Constant.float ⟨word⟩)
  | string value => exact (byte_reads 4).bind ((text_reads h).map Constant.string)

/-! ### Instructions -/

/-- An operand has no mark of its own: its shape has to be known. -/
def operand : OperandShape → Reader Operand
  | .none => return .none
  | .const => Operand.const <$> word32
  | .target => Operand.target <$> word32
  | .slot => do
    let depth ← word16
    (fun slot => .slot ⟨depth, slot⟩) <$> word16
  | .count => Operand.count <$> word16
  | .function => Operand.function <$> word32
  | .hint => do
    let key ← word32
    Operand.hint key <$> word32

theorem operand_reads (value : Operand) : Reads (operand value.shape) value.encode value := by
  cases value with
  | none => exact Reads.pure _
  | const id => exact (word32_reads id).map Operand.const
  | target index => exact (word32_reads index).map Operand.target
  | slot ref =>
      exact (word16_reads ref.depth).bind
        ((word16_reads ref.slot).map fun slot => Operand.slot ⟨ref.depth, slot⟩)
  | count n => exact (word16_reads n).map Operand.count
  | function id => exact (word32_reads id).map Operand.function
  | hint key value =>
      exact (word32_reads key).bind ((word32_reads value).map (Operand.hint key))

/-- The byte of an opcode tells the shape of what follows. -/
def instruction : Reader Instruction := do
  match Opcode.ofByte? (← byte) with
  | some op => Instruction.mk op <$> operand op.shape
  | none => failure

theorem instruction_reads {value : Instruction} (h : value.WellShaped) :
    Reads instruction value.encode value := by
  have hoperand := (operand_reads value.operand).map (Instruction.mk value.op)
  rw [h] at hoperand
  refine (byte_reads value.op.byte).bind ?_
  rw [Opcode.ofByte?_byte]
  exact hoperand

/-! ### Functions, regions and programs -/

/-- A function at a place of the table that is not known yet. -/
def function : Reader CompiledFunction := do
  let params ← word16
  let locals ← word16
  let maxStack ← word32
  (fun code => { id := 0, params, locals, maxStack, code := code.toArray, lines := #[] }) <$>
    counted instruction

def region : Reader GuardedRegion := do
  let function ← word32
  let start ← word32
  let stop ← word32
  let catchAt ← word32
  (fun throws => { function, start, stop, catchAt, throws }) <$> word32

theorem region_reads (value : GuardedRegion) : Reads region value.encode value := by
  unfold region GuardedRegion.encode
  simp only [List.append_assoc]
  exact (word32_reads value.function).bind ((word32_reads value.start).bind
    ((word32_reads value.stop).bind ((word32_reads value.catchAt).bind
      ((word32_reads value.throws).map _))))

end Reader

/-- The function without what is not encoded: its place in the table and its lines. -/
def CompiledFunction.bare (function : CompiledFunction) : CompiledFunction :=
  { function with id := 0, lines := #[] }

namespace Program

/-- The program without its lines. -/
def withoutLines (program : Program) : Program :=
  { program with functions := program.functions.map fun function => { function with lines := #[] } }

/-- Everything whose number is written down can be counted. -/
structure Countable (program : Program) : Prop where
  constants : program.constants.size < wordLimit
  texts : ∀ constant ∈ program.constants, constant.Short
  functions : program.functions.size < wordLimit
  code : ∀ function ∈ program.functions, function.code.size < wordLimit
  regions : program.regions.size < wordLimit

/-- Every function stands at its place in the table, and operands have the shapes that their
opcodes carry. -/
structure WellFormed (program : Program) : Prop where
  ids : ∀ (i : Nat) (function : CompiledFunction), program.functions[i]? = some function →
    function.id = i
  shapes : ∀ function ∈ program.functions, ∀ instruction ∈ function.code, instruction.WellShaped

end Program

namespace Reader

theorem function_reads {value : CompiledFunction} (hsize : value.code.size < wordLimit)
    (hshapes : ∀ instruction ∈ value.code, instruction.WellShaped) :
    Reads function value.encode value.bare := by
  have hcode : Reads (counted instruction)
      (countBytes value.code.size ++ value.code.toList.flatMap Instruction.encode)
      value.code.toList := by
    have h := counted_reads hsize fun i hi => instruction_reads (hshapes i hi)
    rw [List.map_id'] at h
    exact h
  unfold function CompiledFunction.encode
  simp only [List.append_assoc]
  exact (word16_reads value.params).bind ((word16_reads value.locals).bind
    ((word32_reads value.maxStack).bind (hcode.map _)))

/-- The fixed bytes in front of every program. -/
def magic : Reader Unit := do
  if (← bytes Program.magic.length) = Program.magic then return () else failure

theorem magic_reads : Reads magic Program.magic () := by
  intro rest
  rw [magic, StateT.run_bind, bytes_reads]
  rfl

/-- A program, whose functions are numbered by their places. -/
def program : Reader Program := do
  magic
  let constants ← counted constant
  let functions ← counted function
  (fun regions => {
    constants := constants.toArray
    functions := functions.toArray.mapIdx fun id function => { function with id }
    regions := regions.toArray }) <$> counted region

/-- **A program that is well formed is read back from its bytes, all but the lines.** -/
theorem program_reads {value : Program} (hform : value.WellFormed) (hcount : value.Countable) :
    Reads program value.encode value.withoutLines := by
  have hconstants := counted_reads hcount.constants fun c hc => constant_reads (hcount.texts c hc)
  have hfunctions := counted_reads hcount.functions fun f hf =>
    function_reads (hcount.code f hf) (hform.shapes f hf)
  have hregions := counted_reads hcount.regions fun r _ => region_reads r
  rw [List.map_id'] at hconstants hregions
  have hplaces : (value.functions.toList.map CompiledFunction.bare).toArray.mapIdx
      (fun id function => { function with id }) = value.withoutLines.functions := by
    refine Array.ext (by simp [Program.withoutLines]) fun i hi _ => ?_
    have hid := hform.ids i _ (Array.getElem?_eq_getElem (by simpa using hi))
    simp [Program.withoutLines, CompiledFunction.bare, hid]
  have hwhole : value.withoutLines = {
      constants := value.constants.toList.toArray
      functions := (value.functions.toList.map CompiledFunction.bare).toArray.mapIdx
        fun id function => { function with id }
      regions := value.regions.toList.toArray } := by
    rw [hplaces]
    rfl
  rw [hwhole]
  unfold program Program.encode
  simp only [List.append_assoc] at hconstants hfunctions hregions ⊢
  rw [← List.append_assoc (countBytes value.constants.size),
    ← List.append_assoc (countBytes value.functions.size)]
  exact magic_reads.bind (hconstants.bind (hfunctions.bind (hregions.map _)))

end Reader

/-! ### Programs that calls lead to -/

namespace Program

/-- Calls of an assembly lead to the program. -/
def Assembled (program : Program) : Prop :=
  ∃ assembly : Assembly, assembly.Reached ∧ assembly.toProgram = program

/-- Read an encoded program off the front of some bytes. -/
def decode (bytes : List UInt8) : Option (Program × List UInt8) :=
  Reader.program.run bytes

theorem Assembled.wellFormed {program : Program} (h : program.Assembled) :
    program.WellFormed := by
  obtain ⟨assembly, hreached, rfl⟩ := h
  have hshapes := hreached.wellShaped
  refine ⟨?_, ?_⟩
  · intro i function hfunction
    simp only [Assembly.toProgram, Array.getElem?_mapIdx, Option.map_eq_some_iff] at hfunction
    obtain ⟨routine, -, rfl⟩ := hfunction
    rfl
  · intro function hfunction
    obtain ⟨i, hi⟩ := Array.mem_iff_getElem?.mp hfunction
    simp only [Assembly.toProgram, Array.getElem?_mapIdx, Option.map_eq_some_iff] at hi
    obtain ⟨routine, hroutine, rfl⟩ := hi
    exact hshapes routine (Array.mem_of_getElem? hroutine)

/-- **Encoded programs are read back, whatever follows them.**  So the bytes of a program tell all
of it but the lines, and no encoded program is the beginning of another. -/
theorem encode_uniquely_decodable :
    (∀ program : Program, program.Assembled → program.Countable → ∀ rest : List UInt8,
      decode (program.encode ++ rest) = some (program.withoutLines, rest)) ∧
    ∀ a b : Program, a.Assembled → a.Countable → b.Assembled → b.Countable →
      (a.encode = b.encode → a.withoutLines = b.withoutLines) ∧
      (a.encode <+: b.encode → a.encode = b.encode) := by
  have hread : ∀ program : Program, program.Assembled → program.Countable →
      ∀ rest : List UInt8, decode (program.encode ++ rest) = some (program.withoutLines, rest) :=
    fun program h hcount => Reader.program_reads h.wellFormed hcount
  refine ⟨hread, ?_⟩
  intro a b ha hca hb hcb
  refine ⟨?_, ?_⟩
  · intro hsame
    have hreadA := hread a ha hca []
    rw [hsame, hread b hb hcb []] at hreadA
    exact (Prod.mk.inj (Option.some.inj hreadA)).1.symm
  · rintro ⟨more, hmore⟩
    have hreadB := hread b hb hcb []
    rw [List.append_nil, ← hmore, hread a ha hca more] at hreadB
    obtain rfl := (Prod.mk.inj (Option.some.inj hreadB)).2
    rw [← hmore, List.append_nil]

/-- A closure over a function that pushes a not-a-number and then runs in circles, and a region. -/
def circling : Program where
  functions := #[
    ⟨0, 0, 0, 1, #[⟨.makeLambda, .function 1⟩], #[7]⟩,
    ⟨1, 2, 3, 1, #[⟨.loadConst, .const 0⟩, ⟨.jump, .target 1⟩], #[0, 0]⟩]
  constants := #[.float ⟨0x7ff8000000000001⟩, .string "ß"]
  regions := #[⟨0, 0, 1, 1, 4294967295⟩]

/-- One of the calls fails: no jump goes back to another function. -/
theorem circling_assembled : circling.Assembled := by
  have hcalls : ((Assembly.start true).after [.openFunction 2,
      .pushConstant (.float ⟨0x7ff8000000000001⟩), .jump .jump, .jumpBack ⟨0, 0⟩ 0,
      .aim ⟨1, 1⟩ 1, .name "ß", .closeFunction 3, .moveToLine 7,
      .emit .makeLambda (.function 1), .addRegion ⟨0, 0, 1, 1, 4294967295⟩]).map
      Assembly.toProgram = some circling := by decide +kernel
  obtain ⟨assembly, hafter, hprogram⟩ := Option.map_eq_some_iff.mp hcalls
  exact ⟨assembly, ⟨true, _, hafter⟩, hprogram⟩

theorem circling_countable : circling.Countable where
  constants := by decide
  texts := by
    have hshort : "ß".utf8ByteSize < wordLimit := by decide +kernel
    simp [circling, Constant.Short, hshort]
  functions := by decide
  code := by decide
  regions := by decide

/-- The program of an assembly that nothing was done with. -/
def idle : Program := (Assembly.start true).toProgram

theorem idle_assembled : idle.Assembled := ⟨Assembly.start true, ⟨true, [], rfl⟩, rfl⟩

theorem idle_countable : idle.Countable where
  constants := by decide
  texts _ h := nomatch h
  functions := by decide
  code := by decide
  regions := by decide

theorem circling_decoded :
    decode (circling.encode ++ [81, 73]) = some (circling.withoutLines, [81, 73]) ∧
      ¬ idle.encode <+: circling.encode := by
  refine ⟨encode_uniquely_decodable.1 circling circling_assembled circling_countable [81, 73], ?_⟩
  intro hbegins
  have hsame := (encode_uniquely_decodable.2 idle circling idle_assembled idle_countable
    circling_assembled circling_countable).2 hbegins
  exact absurd hsame (by decide +kernel)

end Program

end QueryCompiler
