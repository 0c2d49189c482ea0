import PagedFilter.Proofs.Rounding.Nearest
/-! Mantissas with residual bits: with digits enough a number is rounded to the nearest float. -/
namespace PagedFilter.Rounding

open Float.Model Float.Model.UnpackedFloat

/-- What the residual bits of a mantissa tell of the part below its last place. -/
def Residue : Bool → Bool → ℚ → Prop
  | false, false, r => r = 0
  | false, true, r => 0 < r ∧ r < 1 / 2
  | true, false, r => r = 1 / 2
  | true, true, r => 1 / 2 < r ∧ r < 1

def Stands (em : ExtendedMantissa) (x : ℚ) : Prop :=
  Residue em.roundBit em.stickyBit (x - em.mantissa)

namespace Residue
variable {round sticky : Bool} {r : ℚ}

theorem bounds (h : Residue round sticky r) : 0 ≤ r ∧ r < 1 := by
  cases round <;> cases sticky <;> simp only [Residue] at h <;> constructor <;> linarith

/-- Together the residual bits tell whether anything is lost. -/
theorem lost_cases (h : Residue round sticky r) :
    (round || sticky) = false ∧ r = 0 ∨ (round || sticky) = true ∧ 0 < r := by
  cases round <;> cases sticky
  · exact .inl ⟨rfl, h⟩
  · exact .inr ⟨rfl, h.1⟩
  · exact .inr ⟨rfl, by rw [h]; norm_num⟩
  · exact .inr ⟨rfl, by linarith [h.1]⟩

/-- A digit that moves from the mantissa to the residual bits decides on which side of one half
the number is. -/
theorem half (h : Residue round sticky r) (low : Bool) :
    Residue low (round || sticky) ((r + low.toNat) / 2) := by
  obtain ⟨-, hlt⟩ := h.bounds
  rcases h.lost_cases with ⟨hlost, hzero⟩ | ⟨hlost, hpos⟩
  · rw [hlost, hzero]
    cases low <;> simp [Residue]
  · rw [hlost]
    cases low <;> simp only [Residue, Bool.toNat_false, Bool.toNat_true] <;> push_cast <;>
      constructor <;> linarith

end Residue

namespace Stands
variable {em : ExtendedMantissa} {x : ℚ}

theorem exact (m : ℕ) : Stands (ExtendedMantissa.ofMantissaAndAccuracy m .exact) m :=
  sub_self (m : ℚ)

theorem mantissa_eq (h : Stands em x) : em.mantissa = ⌊x⌋₊ := by
  obtain ⟨hlow, hhigh⟩ := Residue.bounds h
  have hx : 0 ≤ x := (Nat.cast_nonneg em.mantissa).trans (sub_nonneg.mp hlow)
  exact ((Nat.floor_eq_iff hx).mpr ⟨by linarith, by linarith⟩).symm

theorem roundedMantissa_eq (h : Stands em x) : em.roundedMantissa = halfEven x := by
  have hfloor := h.mantissa_eq
  rw [Stands, hfloor] at h
  obtain ⟨m, round, sticky⟩ := em
  rw [halfEven]
  -- In turn nothing is lost, less than one half, just one half, and more.
  cases round <;> cases sticky <;> simp only [Residue] at h <;> dsimp only at hfloor <;>
    subst hfloor
  · rw [if_pos (by linarith)]
    rfl
  · rw [if_pos (by linarith)]
    rfl
  · rw [if_neg (by linarith), if_neg (by linarith)]
    rfl
  · rw [if_neg (by linarith), if_pos (by linarith)]
    rfl

theorem shiftRightOne (h : Stands em x) : Stands em.shiftRightOne (x / 2) := by
  have hdigit : (em.mantissa : ℚ) = 2 * (em.mantissa / 2 : ℕ) + (em.mantissa % 2 != 0).toNat := by
    have hmod := Nat.div_add_mod em.mantissa 2
    rcases Nat.mod_two_eq_zero_or_one em.mantissa with hzero | hone
    · rw [hzero] at hmod ⊢
      exact_mod_cast hmod.symm
    · rw [hone] at hmod ⊢
      exact_mod_cast hmod.symm
  have hhalf := Residue.half h (em.mantissa % 2 != 0)
  have hrest : (x - em.mantissa + (em.mantissa % 2 != 0).toNat) / 2 =
      x / 2 - (em.mantissa / 2 : ℕ) := by
    rw [hdigit]
    ring
  rw [hrest] at hhalf
  exact hhalf

theorem shiftRight (h : Stands em x) (k : ℕ) : Stands (em >>> k) (x / 2 ^ k) := by
  change Stands (k.repeat ExtendedMantissa.shiftRightOne em) _
  induction k with
  | zero => rwa [pow_zero, div_one]
  | succ k ih =>
    rw [pow_succ, ← div_div]
    exact ih.shiftRightOne

end Stands

theorem shiftToExponent_of_le {e t : ℤ} (h : e ≤ t) (m : ℕ) :
    (shiftToExponent m e .exact t).2 = t ∧
      Stands (shiftToExponent m e .exact t).1 (m * 2 ^ e / 2 ^ t) := by
  have hshift : ((t - e).toNat : ℤ) = t - e := Int.toNat_of_nonneg (by omega)
  constructor
  · change e + ((t - e).toNat : ℤ) = t
    omega
  · have hstands := (Stands.exact m).shiftRight (t - e).toNat
    have hscale : (m : ℚ) / 2 ^ (t - e).toNat = m * 2 ^ e / 2 ^ t := by
      rw [← zpow_natCast, hshift, zpow_sub₀ (by norm_num)]
      field_simp
    rwa [hscale] at hstands

theorem shiftToExponent_of_ge {e t : ℤ} (h : t ≤ e) (m : ℕ) :
    shiftToExponent m e .exact t = (ExtendedMantissa.ofMantissaAndAccuracy m .exact, e) := by
  have hshift : (t - e).toNat = 0 := Int.toNat_of_nonpos (by omega)
  rw [shiftToExponent, hshift]
  exact congrArg _ (Int.add_zero e)

theorem log_mul_two_zpow {m : ℕ} (hm : m ≠ 0) (e : ℤ) :
    Int.log 2 ((m : ℚ) * 2 ^ e) = m.log2 + e := by
  have hpos : (0 : ℚ) < m * 2 ^ e := mul_two_zpow_pos (by omega) e
  have hlow : ((2 ^ m.log2 : ℕ) : ℚ) ≤ m := Nat.cast_le.mpr (Nat.log2_self_le hm)
  have hhigh : (m : ℚ) < ((2 ^ (m.log2 + 1) : ℕ) : ℚ) := Nat.cast_lt.mpr Nat.lt_log2_self
  apply le_antisymm
  · rw [← Int.lt_add_one_iff, ← Int.lt_zpow_iff_log_lt (by decide) hpos]
    calc (m : ℚ) * 2 ^ e < ((2 ^ (m.log2 + 1) : ℕ) : ℚ) * 2 ^ e :=
          mul_lt_mul_of_pos_right hhigh (two_zpow_pos e)
      _ = ((2 : ℕ) : ℚ) ^ ((m.log2 : ℤ) + e + 1) := by
          rw [add_right_comm, zpow_add₀ (by norm_num)]
          push_cast
          rfl
  · rw [← Int.zpow_le_iff_le_log (by decide) hpos]
    calc ((2 : ℕ) : ℚ) ^ ((m.log2 : ℤ) + e) = ((2 ^ m.log2 : ℕ) : ℚ) * 2 ^ e := by
          rw [zpow_add₀ (by norm_num)]
          push_cast
          rfl
      _ ≤ (m : ℚ) * 2 ^ e := mul_le_mul_of_nonneg_right hlow (two_zpow_pos e).le

theorem targetExponent_eq {m : ℕ} (hm : m ≠ 0) (e : ℤ) :
    Format.binary64.targetExponent (totalExponent m e) = lastPlace (m * 2 ^ e) := by
  rw [lastPlace, log_mul_two_zpow hm]
  change max ((m.log2 : ℤ) + 1 + e - 53) (-1074) = _
  omega

/-- A mantissa and an exponent as they are stored, with 53 digits or else at the last place. -/
structure Stored (m : ℕ) (e : ℤ) : Prop where
  lt : m < 2 ^ 53
  le : -1074 ≤ e
  full : 2 ^ 52 ≤ m ∨ e = -1074

theorem Stored.full_of_bounds {m : ℕ} {e : ℤ} (h : Stored m e) (hm : 0 < m)
    (hlow : (1 : ℚ) ≤ m * 2 ^ e) (hhigh : (m : ℚ) * 2 ^ e ≤ 2 ^ 64) : 2 ^ 52 ≤ m ∧ e ≤ 64 := by
  constructor
  · refine h.full.resolve_right ?_
    rintro rfl
    have hsmall : (m : ℚ) * 2 ^ (-1074 : ℤ) < 1 := by
      calc (m : ℚ) * 2 ^ (-1074 : ℤ) < 2 ^ (53 : ℤ) * 2 ^ (-1074 : ℤ) := by
            refine mul_lt_mul_of_pos_right ?_ (two_zpow_pos _)
            exact_mod_cast h.lt
        _ = 2 ^ (-1021 : ℤ) := by
            rw [← zpow_add₀ (by norm_num)]
            norm_num
        _ ≤ 2 ^ (0 : ℤ) := zpow_le_zpow_right₀ (by norm_num) (by decide)
        _ = 1 := zpow_zero 2
    exact absurd hlow (not_le.mpr hsmall)
  · have hpower : (2 : ℚ) ^ e ≤ 2 ^ (64 : ℤ) :=
      (two_zpow_le_mul hm e).trans (by exact_mod_cast hhigh)
    exact (zpow_le_zpow_iff_right₀ (by norm_num)).mp hpower

inductive Holds (s : Sign) (x : ℚ) : UnpackedFloat → Prop
  | zero (hx : x = 0) : Holds s x (.zero s)
  | finite {m : ℕ} {e : ℤ} (hm : 0 < m) (hstored : Stored m e) (hx : x = m * 2 ^ e) :
      Holds s x (.finite s m e hm)

theorem stored_shiftToTargetExponent {m : ℕ} {t : ℤ} (hm : m ≤ 2 ^ 53) (ht : -1074 ≤ t)
    (hfull : 2 ^ 52 ≤ m ∨ t = -1074) :
    let p := shiftToTargetExponent Format.binary64 m t .exact
    Stored p.1.mantissa p.2 ∧ (p.1.mantissa : ℚ) * 2 ^ p.2 = m * 2 ^ t := by
  dsimp only
  rcases hm.lt_or_eq with hlt | rfl
  · have hlog : m.log2 < 53 := by
      by_cases hzero : m = 0
      · rw [hzero]
        decide
      · exact (Nat.log2_lt hzero).mpr hlt
    have htarget : Format.binary64.targetExponent (totalExponent m t) ≤ t := by
      change max ((m.log2 : ℤ) + 1 + t - 53) (-1074) ≤ t
      omega
    rw [shiftToTargetExponent, shiftToExponent_of_ge htarget]
    exact ⟨⟨hlt, ht, hfull⟩, rfl⟩
  · have htarget : Format.binary64.targetExponent (totalExponent (2 ^ 53) t) = t + 1 := by
      change max (((2 ^ 53).log2 : ℤ) + 1 + t - 53) (-1074) = t + 1
      rw [Nat.log2_two_pow]
      omega
    obtain ⟨hexponent, hstands⟩ := shiftToExponent_of_le (show t ≤ t + 1 by omega) (2 ^ 53)
    have hvalue : ((2 ^ 53 : ℕ) : ℚ) * 2 ^ t / 2 ^ (t + 1) = (2 ^ 52 : ℕ) := by
      rw [zpow_add₀ (by norm_num), zpow_one]
      field_simp
      norm_num
    have hmantissa := hstands.mantissa_eq
    rw [hvalue, Nat.floor_natCast] at hmantissa
    rw [shiftToTargetExponent, htarget, hexponent, hmantissa]
    refine ⟨⟨by decide, by omega, .inl (Nat.le_refl _)⟩, ?_⟩
    rw [zpow_add₀ (by norm_num), zpow_one]
    push_cast
    ring

def assemble (s : Sign) (p : ExtendedMantissa × ℤ) : UnpackedFloat :=
  if hzero : p.1.mantissa = 0 then .zero s
  else .finite s p.1.mantissa p.2 (Nat.pos_of_ne_zero hzero)

theorem Stored.holds_assemble {p : ExtendedMantissa × ℤ} {x : ℚ} (h : Stored p.1.mantissa p.2)
    (hx : x = p.1.mantissa * 2 ^ p.2) (s : Sign) : Holds s x (assemble s p) := by
  rw [assemble]
  by_cases hzero : p.1.mantissa = 0
  · rw [dif_pos hzero]
    rw [hzero, Nat.cast_zero, zero_mul] at hx
    exact .zero hx
  · rw [dif_neg hzero]
    exact .finite _ h hx

/-- Rounding shifts to the last place, rounds there, and shifts once more for a carry. -/
theorem roundWithAccuracy_eq (s : Sign) {m digits : ℕ} {e t : ℤ}
    (hdigits : (shiftToTargetExponent Format.binary64 m e .exact).1.roundedMantissa = digits)
    (ht : (shiftToTargetExponent Format.binary64 m e .exact).2 = t) :
    roundWithAccuracy Format.binary64 s m e .exact =
      assemble s (shiftToTargetExponent Format.binary64 digits t .exact) := by
  rw [← hdigits, ← ht]
  rfl

/-- With digits enough a number is rounded to the nearest float. -/
theorem holds_roundWithAccuracy (s : Sign) {m : ℕ} (hm : 2 ^ 52 ≤ m) (e : ℤ) :
    Holds s (nearest (m * 2 ^ e)) (roundWithAccuracy Format.binary64 s m e .exact) := by
  have hne : m ≠ 0 := by omega
  have hpos : (0 : ℚ) < m * 2 ^ e := mul_two_zpow_pos (by omega) e
  have hplace : e ≤ lastPlace (m * 2 ^ e) := by
    have hlog : 52 ≤ m.log2 := (Nat.le_log2 hne).mpr hm
    rw [lastPlace, log_mul_two_zpow hne]
    omega
  obtain ⟨hexponent, hstands⟩ := shiftToExponent_of_le hplace m
  rw [← targetExponent_eq hne] at hexponent hstands
  rw [roundWithAccuracy_eq s hstands.roundedMantissa_eq hexponent, targetExponent_eq hne]
  obtain ⟨hstored, hvalue⟩ := stored_shiftToTargetExponent (halfEven_digits_le _)
    (le_max_right _ _) (le_halfEven_digits hpos)
  exact hstored.holds_assemble hvalue.symm s

end PagedFilter.Rounding
