import PagedFilter.Instances
/-! A float is written with the fewest digits that name a point of the interval of reals that
round to it. All comparisons are exact, over natural numbers. -/
namespace PagedFilter

/-- The value `mantissa * 2 ^ exponent`, `narrow` when the gap below is half the gap above. -/
structure BinaryValue where
  mantissa : Nat
  exponent : Int
  narrow : Bool

structure Decimal where
  coefficient : Nat
  power : Int
deriving DecidableEq, Repr

def BinaryValue.ofBits (bits : Nat) : BinaryValue :=
  let fraction := bits % 2 ^ 52
  let biased := bits / 2 ^ 52 % 2 ^ 11
  if biased = 0 then ⟨fraction, -1074, false⟩
  else ⟨2 ^ 52 + fraction, Int.ofNat biased - 1075, fraction = 0 ∧ 1 < biased⟩

/-- The nearer neighbour among the multiples of `10 ^ power` that reads back; a tie goes up. -/
def BinaryValue.onGrid (v : BinaryValue) (power : Int) : Option Decimal :=
  let exponent := v.exponent - 2
  let step := 10 ^ power.toNat * 2 ^ (-exponent).toNat
  let quarter := 2 ^ exponent.toNat * 10 ^ (-power).toNat
  let value := 4 * v.mantissa * quarter
  let low := (4 * v.mantissa - if v.narrow then 1 else 2) * quarter
  let high := (4 * v.mantissa + 2) * quarter
  let readsBack := fun c : Nat =>
    if v.mantissa % 2 = 0 then low ≤ c * step ∧ c * step ≤ high
    else low < c * step ∧ c * step < high
  let floor := value / step
  let below := decide (readsBack floor)
  let above := decide (readsBack (floor + 1))
  if below ∧ (¬ above ∨ 2 * value < (2 * floor + 1) * step) then some ⟨floor, power⟩
  else if above then some ⟨floor + 1, power⟩
  else none

def BinaryValue.exact (v : BinaryValue) : Decimal :=
  ⟨v.mantissa * 2 ^ v.exponent.toNat * 5 ^ (-v.exponent).toNat, min v.exponent 0⟩

/-- The decimal of fewest digits that reads back, found on the coarsest grid that has one. -/
def BinaryValue.shortest (v : BinaryValue) : Decimal :=
  ((List.range 633).findSome? fun i => v.onGrid (308 - Int.ofNat i)).getD v.exact

def Decimal.positional (x : Decimal) : List Char :=
  let digits := Nat.toDigits 10 x.coefficient
  let places := (-x.power).toNat
  if places = 0 then digits ++ List.replicate x.power.toNat '0'
  else if places < digits.length then
    digits.take (digits.length - places) ++ '.' :: digits.drop (digits.length - places)
  else '0' :: '.' :: List.replicate (places - digits.length) '0' ++ digits

def floatText (x : Float) : String :=
  let bits := x.toBits.toNat
  if x.isNaN then "NaN"
  else
    let sign := if bits / 2 ^ 63 = 1 then ['-'] else []
    let body :=
      if x.isInf then ['i', 'n', 'f']
      else if bits % 2 ^ 63 = 0 then ['0']
      else (BinaryValue.ofBits bits).shortest.positional
    String.ofList (sign ++ body)

end PagedFilter
