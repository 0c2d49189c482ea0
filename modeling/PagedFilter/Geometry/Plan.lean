import PagedFilter.Geometry.Basic
import PagedFilter.Geometry.Estimate
/-! A plan turns items and a rate into a budget, in floating point, and the budget into a geometry,
in whole numbers. -/
namespace PagedFilter

structure Budget where
  way : Nat
  bytes : Nat
deriving DecidableEq, Repr

def minRate : Float := 0.0005

def maxRate : Float := 0.1

def clampRate (rate : Float) : Float :=
  let rate := if rate < minRate then minRate else rate
  if rate > maxRate then maxRate else rate

def rateIsClamped (rate : Float) : Bool :=
  !rate.isNaN && clampRate rate != rate

def lnTwo : Float := Float.ofBits 0x3fe62e42fefa39ef

/-- Bytes per item for `w = -log2 rate`: the bits of a Bloom filter and an allowance for pages. -/
def bytesPerItem (w : Float) : Float :=
  let plain := w / (lnTwo * 8.0)
  if w > 9.0 then
    let x := w - 7.0
    plain * (1.0 + 0.0025 * x * x)
  else if w > 3.0 then plain * 1.01
  else plain

namespace Budget

def estimate (items : Nat) (rate : Float) : Budget :=
  let w := -(clampRate rate).log2
  let way := min (max w.round.toUInt64.toNat minWay) maxWay
  ⟨way, (bytesPerItem w * Estimate.ofCount items).toUInt64.toNat⟩

/-- Small budgets get small pages, of a level that is raised by one where the way needs it. -/
def pageLevel (budget : Budget) : Except Fault Nat :=
  match (List.range' 6 6).find? fun level => budget.bytes < 2 ^ (level + 4) with
  | none => .ok 12
  | some level => do
    let least ← minPageLevel budget.way
    return if level < least then level + 1 else level

def geometry (budget : Budget) (items : Nat) : Except Failure Geometry := do
  let level ← budget.pageLevel
  let pages := pagesCovering budget.bytes level
  if maxPlannedPages < pages then refuse (.tooManyItems items pages)
  return ⟨budget.way, level, UInt32.ofNat pages⟩

end Budget

def plan (items : Nat) (rate : Float) : Except Failure Geometry := do
  if rate.isNaN then refuse (.rateOutOfBounds rate)
  let items := max items 1
  (Budget.estimate items rate).geometry items

end PagedFilter
