import PagedFilter.Error
/-! Geometries, the rule that accepts them, and division by the number of pages. -/
namespace PagedFilter

structure Geometry where
  way : Nat
  pageLevel : Nat
  pageNum : UInt32
deriving DecidableEq, Repr

/-- Bytes in `count` pages of a level, in a 64-bit word: higher bits fall off. -/
def bytesOfPages (count level : Nat) : Nat :=
  count <<< (level % 64) % 2 ^ 64

def checkShift (level width : Nat) : Except Fault Unit :=
  if level < width then .ok () else .error .shiftOverflow

def minWay : Nat := 4

def maxWay : Nat := 8

def maxPageLevel : Nat := 13

def minPageLevel (way : Nat) : Except Fault Nat :=
  if way = 0 then .error .divisionByZero else .ok (8 - 8 / way)

def checkWay (way : Nat) : Except Refusal Unit :=
  if minWay ≤ way ∧ way ≤ maxWay then .ok () else .error (.invalidWay way)

def checkPageLevel (way level : Nat) : Except Failure Unit := do
  checkWay way
  let least ← minPageLevel way
  if level < least ∨ maxPageLevel < level then
    refuse (.invalidPageLevel level least maxPageLevel)

namespace Geometry

def pageSize (g : Geometry) : Nat := bytesOfPages 1 g.pageLevel

def dataLen (g : Geometry) : Nat := bytesOfPages g.pageNum.toNat g.pageLevel

def bitCount (g : Geometry) : Nat := 8 * g.dataLen

def check (g : Geometry) : Except Failure Unit := do
  checkPageLevel g.way g.pageLevel
  if g.pageNum = 0 then
    checkShift g.pageLevel 64
    refuse (.invalidDataSize 0 g.pageSize)

def create (way level : Nat) (pageNum : UInt32) : Except Failure Geometry := do
  let g : Geometry := ⟨way, level, pageNum⟩
  g.check
  return g

end Geometry

def pagesCovering (size level : Nat) : Nat :=
  max ((size + (2 ^ level - 1)) / 2 ^ level) 1

/-- A buffer has to be a positive whole number of pages, and the number has to fit 32 bits. -/
def countPages (size level : Nat) : Except Failure UInt32 := do
  checkShift level 64
  let pageSize := bytesOfPages 1 level
  let pages := size / pageSize
  if size = 0 ∨ size % pageSize ≠ 0 ∨ UInt32.size ≤ pages then
    refuse (.invalidDataSize size pageSize)
  return UInt32.ofNat pages

structure Reciprocal where
  factor : UInt64
  divisor : UInt32
deriving DecidableEq, Repr

namespace Reciprocal

/-- There is no reciprocal of zero, and that of one wraps to zero. -/
def of (n : UInt32) : Except Fault Reciprocal :=
  if n = 0 then .error .divisionByZero
  else .ok ⟨0xffffffffffffffff / n.toUInt64 + 1, n⟩

def mulHigh (x y : UInt64) : UInt64 :=
  UInt64.ofNat (x.toNat * y.toNat / 2 ^ 64)

def rem (r : Reciprocal) (m : UInt32) : UInt32 :=
  (mulHigh (r.factor * m.toUInt64) r.divisor.toUInt64).toUInt32

def quot (r : Reciprocal) (m : UInt32) : UInt32 :=
  if r.factor = 0 then m else (mulHigh m.toUInt64 r.factor).toUInt32

end Reciprocal

end PagedFilter
