import PagedFilter.Instances
/-! Little-endian numbers, bits of a buffer and hexadecimal digits. -/
namespace PagedFilter

/-- The byte at an index, and zero past the end. -/
def octet (bytes : ByteArray) (i : Nat) : UInt8 :=
  if h : i < bytes.size then bytes[i] else 0

namespace LittleEndian

def digits : Nat → Nat → List UInt8
  | 0, _ => []
  | width + 1, n => UInt8.ofNat n :: digits width (n / 256)

def encode (width n : Nat) : ByteArray :=
  (digits width n).toByteArray

/-- A whole number in two's complement of `width` bytes. -/
def encodeInt (width : Nat) (value : Int) : ByteArray :=
  encode width (value % 2 ^ (8 * width)).toNat

/-- The number denoted by the `width` bytes from `pos` on; at most eight bytes are meaningful. -/
def read (bytes : ByteArray) (pos : Nat) : Nat → UInt64
  | 0 => 0
  | width + 1 => (octet bytes pos).toUInt64 + (read bytes (pos + 1) width <<< 8)

@[simp] theorem length_digits (width n : Nat) : (digits width n).length = width := by
  induction width generalizing n with
  | zero => rfl
  | succ width ih => simp [digits, ih]

@[simp] theorem size_encode (width n : Nat) : (encode width n).size = width := by
  simp [encode]

end LittleEndian

def hasBit (byte : UInt8) (k : Nat) : Bool :=
  byte.toNat.testBit k

def withBit (byte : UInt8) (k : Nat) : UInt8 :=
  byte ||| (1 <<< UInt8.ofNat k)

def bitAt (bytes : ByteArray) (i : Nat) : Bool :=
  hasBit (octet bytes (i / 8)) (i % 8)

def zeros (size : Nat) : ByteArray :=
  ⟨Array.replicate size 0⟩

def onesOfByte (byte : UInt8) : Nat :=
  (List.range 8).countP (hasBit byte)

def countOnes (bytes : ByteArray) : Nat :=
  bytes.data.foldl (fun total byte => total + onesOfByte byte) 0

def onePositions (bytes : ByteArray) : List Nat :=
  (List.range (8 * bytes.size)).filter (bitAt bytes)

@[simp] theorem size_zeros (size : Nat) : (zeros size).size = size := by
  simp [zeros, ByteArray.size]

def hexDigits : Nat → Nat → List Char
  | 0, _ => []
  | width + 1, n => hexDigits width (n / 16) ++ [Nat.digitChar (n % 16)]

def hexValue? (c : Char) : Option Nat :=
  if c.isDigit then some (c.toNat - '0'.toNat)
  else if 'a' ≤ c ∧ c ≤ 'f' then some (c.toNat - 'a'.toNat + 10)
  else if 'A' ≤ c ∧ c ≤ 'F' then some (c.toNat - 'A'.toNat + 10)
  else none

@[simp] theorem length_hexDigits (width n : Nat) : (hexDigits width n).length = width := by
  induction width generalizing n with
  | zero => rfl
  | succ width ih => simp [hexDigits, ih]

end PagedFilter
