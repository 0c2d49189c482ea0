import PagedFilter.Bytes
/-! A message is taken in blocks of 32 bytes, at most one half block and a tail. Every round turns
the ring of registers by one place, so that one definition serves all four. -/
namespace PagedFilter

/-- Seed of the third and fourth register, added again when a message has no tail. -/
def seed : UInt64 := 0xdeadbeefdeadbeef

def rotateLeft (x r : UInt64) : UInt64 :=
  (x <<< r) ||| (x >>> (64 - r))

structure Registers where
  a : UInt64
  b : UInt64
  c : UInt64
  d : UInt64
deriving DecidableEq, Repr

namespace Registers

def initial : Registers := ⟨0, 0, seed, seed⟩

def turn (s : Registers) : Registers := ⟨s.b, s.c, s.d, s.a⟩

def mixRound (s : Registers) (r : UInt64) : Registers :=
  let c := rotateLeft s.c r + s.d
  turn ⟨s.a ^^^ c, s.b, c, s.d⟩

def finishRound (s : Registers) (r : UInt64) : Registers :=
  let c := rotateLeft s.c r
  turn ⟨s.a, s.b, c, (s.d ^^^ s.c) + c⟩

def mixRotations : List UInt64 := [50, 52, 30, 41, 54, 48, 38, 37, 62, 34, 5, 36]

def finishRotations : List UInt64 := [15, 52, 26, 51, 28, 9, 47, 54, 32, 25, 63]

def mix (s : Registers) : Registers :=
  mixRotations.foldl mixRound s

def finish (s : Registers) : Registers :=
  (finishRotations.foldl finishRound s).turn

def addFront (s : Registers) (x y : UInt64) : Registers :=
  { s with a := s.a + x, b := s.b + y }

def addBack (s : Registers) (x y : UInt64) : Registers :=
  { s with c := s.c + x, d := s.d + y }

end Registers

structure Digest where
  low : UInt64
  high : UInt64
deriving DecidableEq, Repr, Inhabited

namespace Digest

open LittleEndian Registers

def absorbBlocks (bytes : ByteArray) (s : Registers) (pos : Nat) : Nat → Registers
  | 0 => s
  | count + 1 =>
    let s := (s.addBack (read bytes pos 8) (read bytes (pos + 8) 8)).mix
    let s := s.addFront (read bytes (pos + 16) 8) (read bytes (pos + 24) 8)
    absorbBlocks bytes s (pos + 32) count

def absorbHalf (bytes : ByteArray) (s : Registers) (pos : Nat) : Registers :=
  (s.addBack (read bytes pos 8) (read bytes (pos + 8) 8)).mix

def absorbTail (bytes : ByteArray) (s : Registers) (pos rest : Nat) : Registers :=
  if rest = 0 then s.addBack seed seed
  else if rest < 8 then s.addBack (read bytes pos rest) 0
  else s.addBack (read bytes pos 8) (read bytes (pos + 8) (rest - 8))

def finalRegisters (bytes : ByteArray) : Registers :=
  let blocks := bytes.size / 32
  let pos := 32 * blocks
  let rest := bytes.size % 32
  let s := absorbBlocks bytes initial 0 blocks
  let lengthByte := bytes.size.toUInt64 <<< 56
  if rest < 16 then
    (absorbTail bytes (s.addBack 0 lengthByte) pos rest).finish
  else
    let s := (absorbHalf bytes s pos).addBack 0 lengthByte
    (absorbTail bytes s (pos + 16) (rest - 16)).finish

def ofBytes (bytes : ByteArray) : Digest :=
  let s := finalRegisters bytes
  ⟨s.a, s.b⟩

def low32 (d : Digest) : UInt32 := d.low.toUInt32

def words (d : Digest) : Vector UInt32 4 :=
  #v[d.low.toUInt32, (d.low >>> 32).toUInt32, d.high.toUInt32, (d.high >>> 32).toUInt32]

def toNat (d : Digest) : Nat :=
  d.high.toNat <<< 64 ||| d.low.toNat

def toBytes (d : Digest) : ByteArray :=
  encode 8 d.low.toNat ++ encode 8 d.high.toNat

def hex (d : Digest) : String :=
  String.ofList (hexDigits 16 d.high.toNat ++ hexDigits 16 d.low.toNat)

end Digest

end PagedFilter
