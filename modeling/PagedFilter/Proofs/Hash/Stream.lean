import PagedFilter.Hash.Digest
import PagedFilter.Proofs.Bytes.Value
/-! Blocks, the half block and the three cases of the tail are one stream of chunks of 16 bytes. -/
namespace PagedFilter

open LittleEndian

namespace Registers

/-- The mixer round by round, with every register at its own place. -/
def mixInPlace : Registers → Registers
  | ⟨a, b, c, d⟩ =>
    let c := rotateLeft c 50 + d; let a := a ^^^ c
    let d := rotateLeft d 52 + a; let b := b ^^^ d
    let a := rotateLeft a 30 + b; let c := c ^^^ a
    let b := rotateLeft b 41 + c; let d := d ^^^ b
    let c := rotateLeft c 54 + d; let a := a ^^^ c
    let d := rotateLeft d 48 + a; let b := b ^^^ d
    let a := rotateLeft a 38 + b; let c := c ^^^ a
    let b := rotateLeft b 37 + c; let d := d ^^^ b
    let c := rotateLeft c 62 + d; let a := a ^^^ c
    let d := rotateLeft d 34 + a; let b := b ^^^ d
    let a := rotateLeft a 5 + b; let c := c ^^^ a
    let b := rotateLeft b 36 + c; let d := d ^^^ b
    ⟨a, b, c, d⟩

def finishInPlace : Registers → Registers
  | ⟨a, b, c, d⟩ =>
    let d := d ^^^ c; let c := rotateLeft c 15; let d := d + c
    let a := a ^^^ d; let d := rotateLeft d 52; let a := a + d
    let b := b ^^^ a; let a := rotateLeft a 26; let b := b + a
    let c := c ^^^ b; let b := rotateLeft b 51; let c := c + b
    let d := d ^^^ c; let c := rotateLeft c 28; let d := d + c
    let a := a ^^^ d; let d := rotateLeft d 9; let a := a + d
    let b := b ^^^ a; let a := rotateLeft a 47; let b := b + a
    let c := c ^^^ b; let b := rotateLeft b 54; let c := c + b
    let d := d ^^^ c; let c := rotateLeft c 32; let d := d + c
    let a := a ^^^ d; let d := rotateLeft d 25; let a := a + d
    let b := b ^^^ a; let a := rotateLeft a 63; let b := b + a
    ⟨a, b, c, d⟩

theorem mix_eq (s : Registers) : s.mix = s.mixInPlace := rfl

theorem finish_eq (s : Registers) : s.finish = s.finishInPlace := rfl

end Registers

namespace Digest

open Registers

def part (bytes : ByteArray) (j : Nat) : ByteArray :=
  bytes.extract (16 * j) (16 * j + 16)

def takeChunk (s : Registers) (j : Nat) (chunk : ByteArray) : Registers :=
  let x := UInt64.ofNat (value chunk 0 8)
  let y := UInt64.ofNat (value chunk 8 8)
  if j % 2 = 0 then (s.addBack x y).mixInPlace else s.addFront x y

def takeChunks (bytes : ByteArray) : Nat → Registers
  | 0 => initial
  | j + 1 => takeChunk (takeChunks bytes j) j (part bytes j)

/-- What a tail adds to the third and fourth register: its bytes, or the seed where it has none. -/
def tailWords (tail : ByteArray) : UInt64 × UInt64 :=
  if tail.size = 0 then (seed, seed)
  else (UInt64.ofNat (value tail 0 (min tail.size 8)), UInt64.ofNat (value tail 8 (tail.size - 8)))

/-- What a length adds to the fourth register: its lowest byte, at the top. -/
def lengthWord (size : Nat) : UInt64 :=
  UInt64.ofNat (size % 256 * 2 ^ 56)

def takeTail (s : Registers) (size : Nat) (tail : ByteArray) : Registers :=
  (s.addBack 0 (lengthWord size)).addBack (tailWords tail).1 (tailWords tail).2

def streamed (bytes : ByteArray) : Registers :=
  let chunks := bytes.size / 16
  (takeTail (takeChunks bytes chunks) bytes.size (part bytes chunks)).finishInPlace

theorem size_part (bytes : ByteArray) (j : Nat) :
    (part bytes j).size = min 16 (bytes.size - 16 * j) := by
  rw [part, ByteArray.size_extract]
  omega

theorem size_chunk {bytes : ByteArray} {j : Nat} (hj : j < bytes.size / 16) :
    (part bytes j).size = 16 := by
  rw [size_part]
  omega

theorem size_tail (bytes : ByteArray) :
    (part bytes (bytes.size / 16)).size = bytes.size % 16 := by
  rw [size_part]
  omega

theorem octet_part (bytes : ByteArray) (j : Nat) {i : Nat} (hi : i < 16) :
    octet (part bytes j) i = octet bytes (16 * j + i) := by
  have hsize := size_part bytes j
  by_cases hin : 16 * j + i < bytes.size
  · rw [octet_of_lt _ _ hin, octet_of_lt _ _ (by omega)]
    exact ByteArray.getElem_extract ..
  · rw [octet_of_size_le _ _ (by omega), octet_of_size_le _ _ (by omega)]

theorem value_part (bytes : ByteArray) (j i width : Nat) (hwidth : i + width ≤ 16) :
    value (part bytes j) i width = value bytes (16 * j + i) width := by
  apply value_congr
  intro k hk
  rw [octet_part bytes j (by omega), Nat.add_assoc]

theorem word_part (bytes : ByteArray) (j : Nat) {i pos : Nat} (hi : i ≤ 8)
    (hpos : 16 * j + i = pos) : UInt64.ofNat (value (part bytes j) i 8) = read bytes pos 8 := by
  rw [value_part _ _ _ _ (by omega), hpos, read_eq_ofNat _ _ _ (Nat.le_refl 8)]

theorem takeChunk_even (bytes : ByteArray) (s : Registers) (j : Nat) :
    takeChunk s (2 * j) (part bytes (2 * j)) =
      (s.addBack (read bytes (32 * j) 8) (read bytes (32 * j + 8) 8)).mix := by
  have heven : 2 * j % 2 = 0 := Nat.mul_mod_right 2 j
  dsimp only [takeChunk]
  rw [if_pos heven, word_part bytes _ (by decide) (show 16 * (2 * j) + 0 = 32 * j by omega),
    word_part bytes _ (by decide) (show 16 * (2 * j) + 8 = 32 * j + 8 by omega), mix_eq]

theorem takeChunk_odd (bytes : ByteArray) (s : Registers) (j : Nat) :
    takeChunk s (2 * j + 1) (part bytes (2 * j + 1)) =
      s.addFront (read bytes (32 * j + 16) 8) (read bytes (32 * j + 24) 8) := by
  have hodd : (2 * j + 1) % 2 ≠ 0 := by omega
  dsimp only [takeChunk]
  rw [if_neg hodd,
    word_part bytes _ (by decide) (show 16 * (2 * j + 1) + 0 = 32 * j + 16 by omega),
    word_part bytes _ (by decide) (show 16 * (2 * j + 1) + 8 = 32 * j + 24 by omega)]

def absorbBlock (bytes : ByteArray) (s : Registers) (pos : Nat) : Registers :=
  (s.addBack (read bytes pos 8) (read bytes (pos + 8) 8)).mix.addFront
    (read bytes (pos + 16) 8) (read bytes (pos + 24) 8)

theorem absorbBlocks_zero (bytes : ByteArray) (s : Registers) (pos : Nat) :
    absorbBlocks bytes s pos 0 = s := rfl

theorem absorbBlocks_cons (bytes : ByteArray) (s : Registers) (pos count : Nat) :
    absorbBlocks bytes s pos (count + 1) =
      absorbBlocks bytes (absorbBlock bytes s pos) (pos + 32) count := by
  -- To compare the two runs as they stand would unfold every round of the mixer.
  delta absorbBlocks
  rfl

theorem absorbBlocks_succ (bytes : ByteArray) (s : Registers) (pos count : Nat) :
    absorbBlocks bytes s pos (count + 1) =
      absorbBlock bytes (absorbBlocks bytes s pos count) (pos + 32 * count) := by
  induction count generalizing s pos with
  | zero => rw [absorbBlocks_cons, absorbBlocks_zero, absorbBlocks_zero, Nat.mul_zero, Nat.add_zero]
  | succ count ih =>
    have hpos : pos + 32 + 32 * count = pos + 32 * (count + 1) := by omega
    rw [absorbBlocks_cons, ih, hpos, absorbBlocks_cons]

/-- A block is two chunks. -/
theorem absorbBlocks_eq (bytes : ByteArray) (count : Nat) :
    absorbBlocks bytes initial 0 count = takeChunks bytes (2 * count) := by
  induction count with
  | zero => rfl
  | succ count ih =>
    rw [absorbBlocks_succ, ih, Nat.zero_add, Nat.mul_succ, takeChunks, takeChunks, takeChunk_even,
      takeChunk_odd, absorbBlock]

theorem shiftLeft_eq_lengthWord (size : Nat) : size.toUInt64 <<< 56 = lengthWord size := by
  have hamount : (56 : UInt64).toNat % 64 = 56 := by decide
  apply UInt64.toNat_inj.mp
  rw [UInt64.toNat_shiftLeft, hamount, Nat.shiftLeft_eq, lengthWord, UInt64.toNat_ofNat',
    UInt64.toNat_ofNat']
  omega

theorem absorbTail_eq (bytes : ByteArray) (s : Registers) (j : Nat)
    (hj : (part bytes j).size < 16) :
    absorbTail bytes s (16 * j) (part bytes j).size =
      s.addBack (tailWords (part bytes j)).1 (tailWords (part bytes j)).2 := by
  rw [absorbTail, tailWords]
  by_cases hnone : (part bytes j).size = 0
  · rw [if_pos hnone, if_pos hnone]
  · rw [if_neg hnone, if_neg hnone, value_part _ _ _ _ (by omega), value_part _ _ _ _ (by omega)]
    by_cases hshort : (part bytes j).size < 8
    · have hmin : min (part bytes j).size 8 = (part bytes j).size := by omega
      have hrest : (part bytes j).size - 8 = 0 := by omega
      rw [if_pos hshort, hmin, hrest, value_zero, read_eq_ofNat _ _ _ (by omega)]
      rfl
    · have hmin : min (part bytes j).size 8 = 8 := by omega
      rw [if_neg hshort, hmin, read_eq_ofNat _ _ _ (by omega), read_eq_ofNat _ _ _ (by omega)]
      rfl

theorem finalRegisters_eq (bytes : ByteArray) : finalRegisters bytes = streamed bytes := by
  have htail := size_tail bytes
  rw [finalRegisters, streamed]
  by_cases hhalf : bytes.size % 32 < 16
  · -- No half block: the chunks are those of the blocks, and their number is even.
    have hchunks : bytes.size / 16 = 2 * (bytes.size / 32) := by omega
    have hrest : bytes.size % 32 = (part bytes (bytes.size / 16)).size := by omega
    have hpos : 32 * (bytes.size / 32) = 16 * (bytes.size / 16) := by omega
    dsimp only
    rw [if_pos hhalf, hrest, hpos, shiftLeft_eq_lengthWord, absorbTail_eq _ _ _ (by omega),
      absorbBlocks_eq, hchunks, finish_eq, takeTail]
  · -- The half block is one more chunk, with an even number.
    have hchunks : bytes.size / 16 = 2 * (bytes.size / 32) + 1 := by omega
    have hrest : bytes.size % 32 - 16 = (part bytes (bytes.size / 16)).size := by omega
    have hpos : 32 * (bytes.size / 32) + 16 = 16 * (bytes.size / 16) := by omega
    dsimp only
    rw [if_neg hhalf, hrest, hpos, shiftLeft_eq_lengthWord, absorbTail_eq _ _ _ (by omega),
      absorbBlocks_eq, hchunks, takeChunks, takeChunk_even, finish_eq, takeTail, absorbHalf]

end Digest
end PagedFilter
