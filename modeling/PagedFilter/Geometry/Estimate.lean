import PagedFilter.Error
/-! Estimates of capacity and rate, which take the whole buffer for one Bloom filter. -/
namespace PagedFilter

namespace LogOnePlus

def lnTwoHigh : Float := Float.ofBits 0x3fe62e42fee00000

def lnTwoLow : Float := Float.ofBits 0x3dea39ef35793c76

def logSeries (z : Float) : Float :=
  let r1 := z * Float.ofBits 0x3fe5555555555593
  let z2 := z * z
  let r2 := Float.ofBits 0x3fd999999997fa04 + z * Float.ofBits 0x3fd2492494229359
  let z4 := z2 * z2
  let r3 := Float.ofBits 0x3fcc71c51d8e78af + z * Float.ofBits 0x3fc7466496cb03de
  let z6 := z4 * z2
  let r4 := Float.ofBits 0x3fc39a09d078c69f + z * Float.ofBits 0x3fc2f112df3e5244
  r1 + z2 * r2 + z4 * r3 + z6 * r4

def upperHalf (x : Float) : Nat :=
  x.toBits.toNat / 2 ^ 32

/-- The logarithm of `2 ^ k * (1 + f)`, where `c` corrects the rounding of the argument and
`tiny` says that `f` is negligible beside its square. -/
def logReduced (k : Int) (f c : Float) (tiny : Bool) : Float :=
  let kf := Float.ofInt k
  let half := 0.5 * f * f
  if tiny then
    if f == 0.0 then
      if k = 0 then 0.0 else kf * lnTwoHigh + (c + kf * lnTwoLow)
    else
      let r := half * (1.0 - 0.66666666666666666 * f)
      if k = 0 then f - r else kf * lnTwoHigh - ((r - (kf * lnTwoLow + c)) - f)
  else
    let s := f / (2.0 + f)
    let z := s * s
    let r := logSeries z
    if k = 0 then f - (half - s * (half + r))
    else kf * lnTwoHigh - ((half - (s * (half + r) + (kf * lnTwoLow + c))) - f)

end LogOnePlus

open LogOnePlus in
def log1p (x : Float) : Float :=
  let negative := x.toBits.toNat / 2 ^ 63 = 1
  let magnitude := upperHalf x % 2 ^ 31
  if x.isNaN then x + x
  else if negative ∧ 0x3ff00000 ≤ magnitude then
    if x == -1.0 then -1.0 / 0.0 else (x - x) / (x - x)
  else if magnitude < 0x3e200000 then
    if magnitude < 0x3c900000 then x else x - x * x * 0.5
  else if x.isInf then x + x
  else if (negative ∧ magnitude ≤ 0x3fd2bec3) ∨ (¬ negative ∧ magnitude < 0x3fda827a) then
    logReduced 0 x 0.0 false
  else
    let large := 0x43400000 ≤ magnitude
    let u := if large then x else 1.0 + x
    let upper := upperHalf u
    let exponent : Int := (upper / 2 ^ 20 : Nat) - 1023
    let error := if large then 0.0 else if 0 < exponent then 1.0 - (u - x) else x - (u - 1.0)
    let c := error / u
    let mantissa := upper % 2 ^ 20
    let lower := u.toBits.toNat % 2 ^ 32
    let withUpper := fun h : Nat => Float.ofBits (UInt64.ofNat (h * 2 ^ 32 + lower))
    if mantissa < 0x6a09e then
      logReduced exponent (withUpper (mantissa + 0x3ff00000) - 1.0) c (mantissa = 0)
    else
      logReduced (exponent + 1) (withUpper (mantissa + 0x3fe00000) - 1.0) c
        ((0x00100000 - mantissa) / 4 = 0)

namespace Estimate

def capacity (size way : Nat) : Except Fault Nat :=
  if 2 ^ 64 ≤ size * 8 then .error .productOverflow
  else if way = 0 then .error .divisionByZero
  else .ok (size * 8 / way)

def ofCount (n : Nat) : Float := n.toUInt64.toFloat

/-- The solution for `n` of `(1 - (1 - 1 / m) ^ (k n)) ^ k = rate` with `m` bits and `k` probes, and
zero where it is not a positive number. -/
def virtualCapacity (size way : Nat) (rate : Float) : Nat :=
  let bits := ofCount size * 8.0
  if bits ≤ 1.0 ∨ way = 0 then 0
  else
    let k := ofCount way
    let probes := log1p (-(rate.pow (1.0 / k))) / log1p (-1.0 / bits)
    if ¬ probes.isFinite ∨ probes ≤ 0.0 then 0
    else probes.toUInt64.toNat / way

/-- Estimated rate after `items` distinct keys: `(1 - e ^ (-k n / m)) ^ k`. -/
def rate (bits items way : Nat) : Float :=
  if bits = 0 then 1.0
  else if items = 0 then 0.0
  else
    let k := ofCount way
    let exponent := -k * ofCount items / ofCount bits
    (1.0 - exponent.exp).pow k

end Estimate

end PagedFilter
