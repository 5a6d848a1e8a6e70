/-
A 64-bit digest of a program's bytes.

The bytes are mixed by the xxh64 function.  Four accumulators take in 32 bytes at
a time; what is left over is mixed in by words of eight bytes, of four, and singly;
and a last step spreads every bit over the whole word.  All arithmetic is modulo
2 ^ 64.
-/
import QueryCompiler.Machine.Encoding

namespace QueryCompiler

namespace Digest

def prime1 : UInt64 := 0x9E3779B185EBCA87
def prime2 : UInt64 := 0xC2B2AE3D27D4EB4F
def prime3 : UInt64 := 0x165667B19E3779F9
def prime4 : UInt64 := 0x85EBCA77C2B2AE63
def prime5 : UInt64 := 0x27D4EB2F165667C5

def rotateLeft (x amount : UInt64) : UInt64 :=
  (x <<< amount) ||| (x >>> (64 - amount))

/-- The word some bytes spell, low byte first. -/
def littleEndian (bytes : List UInt8) : UInt64 :=
  bytes.foldr (fun byte word => (word <<< 8) ||| byte.toUInt64) 0

/-- Mix one word into an accumulator. -/
def round (acc word : UInt64) : UInt64 :=
  rotateLeft (acc + word * prime2) 31 * prime1

/-- The four accumulators. -/
structure Lanes where
  a : UInt64
  b : UInt64
  c : UInt64
  d : UInt64

def Lanes.start (seed : UInt64) : Lanes :=
  ⟨seed + prime1 + prime2, seed + prime2, seed, seed - prime1⟩

/-- Take in a number of blocks of 32 bytes; what follows them is handed back. -/
def Lanes.absorb (lanes : Lanes) (bytes : List UInt8) : (blocks : Nat) → Lanes × List UInt8
  | 0 => (lanes, bytes)
  | blocks + 1 =>
    let lane (acc : UInt64) (offset : Nat) : UInt64 :=
      round acc (littleEndian ((bytes.drop offset).take 8))
    let next : Lanes := ⟨lane lanes.a 0, lane lanes.b 8, lane lanes.c 16, lane lanes.d 24⟩
    next.absorb (bytes.drop 32) blocks

/-- Bring the four accumulators together. -/
def Lanes.merge (lanes : Lanes) : UInt64 :=
  let fold (acc lane : UInt64) : UInt64 := (acc ^^^ round 0 lane) * prime1 + prime4
  let sum := rotateLeft lanes.a 1 + rotateLeft lanes.b 7 + rotateLeft lanes.c 12 +
    rotateLeft lanes.d 18
  fold (fold (fold (fold sum lanes.a) lanes.b) lanes.c) lanes.d

/-- Mix in what is left after the blocks. -/
def absorbRest (acc : UInt64) (bytes : List UInt8) : UInt64 :=
  match bytes with
  | b0 :: b1 :: b2 :: b3 :: b4 :: b5 :: b6 :: b7 :: rest =>
    let word := littleEndian [b0, b1, b2, b3, b4, b5, b6, b7]
    absorbRest (rotateLeft (acc ^^^ round 0 word) 27 * prime1 + prime4) rest
  | b0 :: b1 :: b2 :: b3 :: rest =>
    let word := littleEndian [b0, b1, b2, b3]
    absorbRest (rotateLeft (acc ^^^ (word * prime1)) 23 * prime2 + prime3) rest
  | byte :: rest =>
    absorbRest (rotateLeft (acc ^^^ (byte.toUInt64 * prime5)) 11 * prime1) rest
  | [] => acc

/-- Spread every bit over the word. -/
def spread (acc : UInt64) : UInt64 :=
  let acc := (acc ^^^ (acc >>> 33)) * prime2
  let acc := (acc ^^^ (acc >>> 29)) * prime3
  acc ^^^ (acc >>> 32)

/-- The digest of some bytes. -/
def ofBytes (seed : UInt64) (bytes : List UInt8) : UInt64 :=
  let length := bytes.length
  let (lanes, rest) := (Lanes.start seed).absorb bytes (length / 32)
  let base := if 32 ≤ length then lanes.merge else seed + prime5
  spread (absorbRest (base + length.toUInt64) rest)

end Digest

/-- The digest of the encoded program. -/
def Program.fingerprint (program : Program) : UInt64 :=
  Digest.ofBytes 0 program.encode

end QueryCompiler
