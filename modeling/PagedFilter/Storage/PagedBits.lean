import PagedFilter.Geometry.Basic
import PagedFilter.Hash.Digest
/-! A buffer of pages and a count of the insertions that changed it. The digest of a key picks one
page and the bits in it. -/
namespace PagedFilter

def Digest.codes (d : Digest) : Vector UInt16 8 :=
  let w := d.words
  #v[w[0].toUInt16, (w[0] >>> 16).toUInt16, w[1].toUInt16, (w[1] >>> 16).toUInt16,
    w[2].toUInt16, (w[2] >>> 16).toUInt16, w[3].toUInt16, (w[3] >>> 16).toUInt16]

def rotateWord (x r : UInt32) : UInt32 :=
  (x <<< r) ||| (x >>> (32 - r))

/-- The fold of the four words that picks the page. -/
def Digest.pageSelector (d : Digest) : UInt32 :=
  let w := d.words
  rotateWord w[0] 8 ^^^ rotateWord w[1] 6 ^^^ rotateWord w[2] 4 ^^^ rotateWord w[3] 2

/-- Where a key lives: the first byte of its page and its probe codes. -/
structure Placement where
  offset : Nat
  codes : Vector UInt16 8
deriving DecidableEq

namespace Placement

def ofDigest (d : Digest) (pages : Reciprocal) (level : Nat) : Placement :=
  ⟨bytesOfPages (pages.rem d.pageSelector).toNat level, d.codes⟩

def ofKey (key : ByteArray) (pages : Reciprocal) (level : Nat) : Placement :=
  ofDigest (Digest.ofBytes key) pages level

end Placement

structure PagedBits where
  data : ByteArray
  pageLevel : Nat
  pages : Reciprocal
  uniqueCount : UInt64
deriving DecidableEq

structure Probes where
  start : Nat
  size : Nat
  bits : List Nat

namespace Probes

/-- Set the bits in order. The flag says whether all of them were set when they were reached. -/
def setAll (start size : Nat) : List Nat → Bool → ByteArray → Except Fault (Bool × ByteArray)
  | [], hit, data => .ok (hit, data)
  | bit :: bits, hit, data =>
    let i := start + bit / 8
    if h : bit / 8 < size ∧ i < data.size then
      let byte := data[i]
      setAll start size bits (hit && hasBit byte (bit % 8))
        (data.set i (withBit byte (bit % 8)) h.2)
    else .error .probeOutsidePage

def testAll (start size : Nat) (data : ByteArray) : List Nat → Except Fault Bool
  | [] => .ok true
  | bit :: bits =>
    let i := start + bit / 8
    if h : bit / 8 < size ∧ i < data.size then
      if hasBit data[i] (bit % 8) then testAll start size data bits else .ok false
    else .error .probeOutsidePage

end Probes

namespace PagedBits

def create (way level : Nat) (pageNum : UInt32) : Except Failure PagedBits := do
  let g ← Geometry.create way level pageNum
  let pages ← Reciprocal.of pageNum
  return ⟨zeros g.dataLen, level, pages, 0⟩

def ofBytes (way level : Nat) (data : ByteArray) (uniqueCount : UInt64) :
    Except Failure PagedBits := do
  checkPageLevel way level
  let pages ← Reciprocal.of (← countPages data.size level)
  return ⟨data, level, pages, uniqueCount⟩

def pageNum (bits : PagedBits) : UInt32 := bits.pages.divisor

def pageSize (bits : PagedBits) : Nat := bytesOfPages 1 bits.pageLevel

/-- The bit that a code denotes in a page: its low bits, as many as address the page. -/
def maskCode (level : Nat) (code : UInt16) : Nat :=
  code.toNat &&& (2 ^ (level + 3) - 1)

def probes (level : Nat) (pages : Reciprocal) (size way : Nat) (key : ByteArray) :
    Except Fault Probes := do
  let place := Placement.ofKey key pages level
  checkShift (level + 3) 32
  let pageSize := bytesOfPages 1 level
  if size < place.offset + pageSize then .error .pageOutsideBuffer
  if place.codes.size < way then .error .tooManyProbes
  return ⟨place.offset, pageSize, (place.codes.toList.take way).map (maskCode level)⟩

def set (bits : PagedBits) (way : Nat) (key : ByteArray) : Except Fault (Bool × PagedBits) := do
  let ⟨data, level, pages, uniqueCount⟩ := bits
  let ps ← probes level pages data.size way key
  let (hit, data) ← Probes.setAll ps.start ps.size ps.bits true data
  if hit then return (false, ⟨data, level, pages, uniqueCount⟩)
  if uniqueCount = 0xffffffffffffffff then .error .counterOverflow
  return (true, ⟨data, level, pages, uniqueCount + 1⟩)

def test (bits : PagedBits) (way : Nat) (key : ByteArray) : Except Fault Bool := do
  let ps ← probes bits.pageLevel bits.pages bits.data.size way key
  Probes.testAll ps.start ps.size bits.data ps.bits

def clear (bits : PagedBits) : PagedBits :=
  { bits with data := zeros bits.data.size, uniqueCount := 0 }

def countOnes (bits : PagedBits) : Nat := PagedFilter.countOnes bits.data

end PagedBits

end PagedFilter
