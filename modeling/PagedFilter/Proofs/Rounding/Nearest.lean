import Mathlib.Data.Int.Log
import Mathlib.Data.Rat.Floor
import Mathlib.Tactic.FieldSimp
import Mathlib.Tactic.Linarith
import Mathlib.Tactic.Ring
import PagedFilter.Instances
/-! Rounding to 53 digits, or to the last place of all, without a greatest float. -/
namespace PagedFilter.Rounding

variable {x y : ℚ}

/-- The nearest whole number, the even one of two that are as near. -/
def halfEven (x : ℚ) : ℕ :=
  if x - ⌊x⌋₊ < 1 / 2 then ⌊x⌋₊
  else if 1 / 2 < x - ⌊x⌋₊ then ⌊x⌋₊ + 1
  else ⌊x⌋₊ + ⌊x⌋₊ % 2

theorem floor_le_halfEven (x : ℚ) : ⌊x⌋₊ ≤ halfEven x := by
  rw [halfEven]
  split_ifs <;> omega

theorem halfEven_le (x : ℚ) : halfEven x ≤ ⌊x⌋₊ + 1 := by
  rw [halfEven]
  split_ifs <;> omega

theorem halfEven_natCast (n : ℕ) : halfEven n = n := by
  rw [halfEven, Nat.floor_natCast, if_pos (by rw [sub_self]; norm_num)]

theorem halfEven_mono (h : x ≤ y) : halfEven x ≤ halfEven y := by
  rcases (Nat.floor_mono h).lt_or_eq with hlt | hfloor
  · calc halfEven x ≤ ⌊x⌋₊ + 1 := halfEven_le x
      _ ≤ ⌊y⌋₊ := hlt
      _ ≤ halfEven y := floor_le_halfEven y
  · -- Between the same whole numbers only the side of the middle counts.
    by_cases hbelow : x - ⌊x⌋₊ < 1 / 2
    · rw [halfEven, if_pos hbelow, hfloor]
      exact floor_le_halfEven y
    · rw [hfloor] at hbelow
      by_cases habove : 1 / 2 < y - ⌊y⌋₊
      · have hup : halfEven y = ⌊y⌋₊ + 1 := by
          rw [halfEven, if_neg (by linarith), if_pos habove]
        rw [hup, ← hfloor]
        exact halfEven_le x
      · have hsame : x = y := by linarith
        rw [hsame]

def lastPlace (x : ℚ) : ℤ := max (Int.log 2 x - 52) (-1074)

def nearest (x : ℚ) : ℚ := halfEven (x / 2 ^ lastPlace x) * 2 ^ lastPlace x

theorem two_zpow_pos (e : ℤ) : (0 : ℚ) < 2 ^ e := zpow_pos (by norm_num) e

theorem two_zpow_le_mul {m : ℕ} (hm : 0 < m) (e : ℤ) : (2 : ℚ) ^ e ≤ m * 2 ^ e :=
  le_mul_of_one_le_left (two_zpow_pos e).le (Nat.one_le_cast.mpr hm)

theorem mul_two_zpow_pos {m : ℕ} (hm : 0 < m) (e : ℤ) : (0 : ℚ) < m * 2 ^ e :=
  (two_zpow_pos e).trans_le (two_zpow_le_mul hm e)

theorem nearest_le_natCast_mul {k : ℕ} (h : x ≤ k * 2 ^ lastPlace x) :
    nearest x ≤ k * 2 ^ lastPlace x := by
  have hunit := two_zpow_pos (lastPlace x)
  have hle : halfEven (x / 2 ^ lastPlace x) ≤ halfEven k :=
    halfEven_mono ((div_le_iff₀ hunit).mpr h)
  rw [halfEven_natCast] at hle
  exact mul_le_mul_of_nonneg_right (Nat.cast_le.mpr hle) hunit.le

theorem natCast_mul_le_nearest {k : ℕ} (h : k * 2 ^ lastPlace x ≤ x) :
    k * 2 ^ lastPlace x ≤ nearest x := by
  have hunit := two_zpow_pos (lastPlace x)
  have hle : halfEven k ≤ halfEven (x / 2 ^ lastPlace x) :=
    halfEven_mono ((le_div_iff₀ hunit).mpr h)
  rw [halfEven_natCast] at hle
  exact mul_le_mul_of_nonneg_right (Nat.cast_le.mpr hle) hunit.le

theorem two_zpow_eq_natCast_mul {p e : ℤ} (h : p ≤ e) :
    (2 : ℚ) ^ e = (2 ^ (e - p).toNat : ℕ) * 2 ^ p := by
  rw [Nat.cast_pow, Nat.cast_ofNat, ← zpow_natCast, Int.toNat_of_nonneg (by omega),
    ← zpow_add₀ (by norm_num), sub_add_cancel]

theorem nearest_le_two_zpow {e : ℤ} (h : x ≤ 2 ^ e) (hplace : lastPlace x ≤ e) :
    nearest x ≤ 2 ^ e := by
  rw [two_zpow_eq_natCast_mul hplace] at h ⊢
  exact nearest_le_natCast_mul h

theorem two_zpow_le_nearest {e : ℤ} (h : 2 ^ e ≤ x) (hplace : lastPlace x ≤ e) :
    2 ^ e ≤ nearest x := by
  rw [two_zpow_eq_natCast_mul hplace] at h ⊢
  exact natCast_mul_le_nearest h

theorem lt_two_zpow_log (x : ℚ) : x < 2 ^ (Int.log 2 x + 1) :=
  Int.lt_zpow_succ_log_self (by decide) x

theorem two_zpow_log_le (hx : 0 < x) : 2 ^ Int.log 2 x ≤ x :=
  Int.zpow_log_le_self (by decide) hx

/-- Where the last places differ, a power of two that is a float lies between the numbers. -/
theorem nearest_mono (hx : 0 < x) (h : x ≤ y) : nearest x ≤ nearest y := by
  have hlog : Int.log 2 x ≤ Int.log 2 y := Int.log_mono_right hx h
  have hplace : lastPlace x ≤ lastPlace y := max_le_max_right _ (by omega)
  rcases hplace.lt_or_eq with hlt | heq
  · have hplaceY : lastPlace y = Int.log 2 y - 52 := by
      rw [lastPlace, lastPlace] at hlt
      rw [lastPlace]
      omega
    have hlogs : Int.log 2 x + 1 ≤ Int.log 2 y := by
      have hge : Int.log 2 x - 52 ≤ lastPlace x := le_max_left _ _
      omega
    have hpower : x ≤ 2 ^ Int.log 2 y :=
      (lt_two_zpow_log x).le.trans (zpow_le_zpow_right₀ (by norm_num) hlogs)
    calc nearest x ≤ 2 ^ Int.log 2 y := nearest_le_two_zpow hpower (by omega)
      _ ≤ nearest y := two_zpow_le_nearest (two_zpow_log_le (hx.trans_le h)) (by omega)
  · rw [nearest, nearest, ← heq]
    have hunit := two_zpow_pos (lastPlace x)
    have hle := halfEven_mono (div_le_div_of_nonneg_right h hunit.le)
    exact mul_le_mul_of_nonneg_right (Nat.cast_le.mpr hle) hunit.le

theorem nearest_two_pow (k : ℕ) : nearest (2 ^ k) = 2 ^ k := by
  have hplace : lastPlace (2 ^ (k : ℤ)) ≤ k := by
    have hlog : Int.log 2 (((2 : ℕ) : ℚ) ^ (k : ℤ)) = k := Int.log_zpow (by decide) _
    rw [lastPlace]
    push_cast at hlog
    omega
  rw [← zpow_natCast]
  exact le_antisymm (nearest_le_two_zpow le_rfl hplace) (two_zpow_le_nearest le_rfl hplace)

theorem one_le_nearest {n : ℕ} (hpos : 0 < n) : 1 ≤ nearest n := by
  have hone : (2 ^ 0 : ℚ) ≤ n := by
    rw [pow_zero]
    exact Nat.one_le_cast.mpr hpos
  have hle := nearest_mono (by norm_num) hone
  rwa [nearest_two_pow, pow_zero] at hle

theorem nearest_le_two_pow {n k : ℕ} (hpos : 0 < n) (h : n ≤ 2 ^ k) : nearest n ≤ 2 ^ k := by
  have hmax : (n : ℚ) ≤ 2 ^ k := by exact_mod_cast h
  have hle := nearest_mono (Nat.cast_pos.mpr hpos) hmax
  rwa [nearest_two_pow] at hle

/-- A count that is rounded, multiplied and rounded again keeps its place among the others. -/
theorem nearest_mul_nearest_mono (hx : 0 < x) {n n' : ℕ} (hpos : 0 < n) (h : n ≤ n') :
    nearest (x * nearest n) ≤ nearest (x * nearest n') := by
  have hcounts : nearest n ≤ nearest n' :=
    nearest_mono (Nat.cast_pos.mpr hpos) (Nat.cast_le.mpr h)
  have hproducts : x * nearest n ≤ x * nearest n' := mul_le_mul_of_nonneg_left hcounts hx.le
  exact nearest_mono (mul_pos hx (zero_lt_one.trans_le (one_le_nearest hpos))) hproducts

theorem halfEven_digits_le (x : ℚ) : halfEven (x / 2 ^ lastPlace x) ≤ 2 ^ 53 := by
  have hunit := two_zpow_pos (lastPlace x)
  have hlog : Int.log 2 x + 1 ≤ 53 + lastPlace x := by
    have hge : Int.log 2 x - 52 ≤ lastPlace x := le_max_left _ _
    omega
  have hlt : x / 2 ^ lastPlace x ≤ ((2 ^ 53 : ℕ) : ℚ) := by
    rw [div_le_iff₀ hunit]
    calc x ≤ 2 ^ (Int.log 2 x + 1) := (lt_two_zpow_log x).le
      _ ≤ 2 ^ (53 + lastPlace x) := zpow_le_zpow_right₀ (by norm_num) hlog
      _ = ((2 ^ 53 : ℕ) : ℚ) * 2 ^ lastPlace x := by
        rw [zpow_add₀ (by norm_num)]
        norm_num
  have hle := halfEven_mono hlt
  rwa [halfEven_natCast] at hle

/-- The digits of a rounded number are no fewer, but at the last place of all. -/
theorem le_halfEven_digits (hx : 0 < x) :
    2 ^ 52 ≤ halfEven (x / 2 ^ lastPlace x) ∨ lastPlace x = -1074 := by
  rcases Int.le_total (Int.log 2 x - 52) (-1074) with hsmall | hlarge
  · exact .inr (max_eq_right hsmall)
  · have hplace : lastPlace x = Int.log 2 x - 52 := max_eq_left hlarge
    have hle : ((2 ^ 52 : ℕ) : ℚ) ≤ x / 2 ^ lastPlace x := by
      rw [le_div_iff₀ (two_zpow_pos _)]
      calc ((2 ^ 52 : ℕ) : ℚ) * 2 ^ lastPlace x = 2 ^ (52 + lastPlace x) := by
            rw [zpow_add₀ (by norm_num)]
            norm_num
        _ = 2 ^ Int.log 2 x := by rw [hplace, add_sub_cancel]
        _ ≤ x := two_zpow_log_le hx
    have hdigits := halfEven_mono hle
    rw [halfEven_natCast] at hdigits
    exact .inl hdigits

end PagedFilter.Rounding
