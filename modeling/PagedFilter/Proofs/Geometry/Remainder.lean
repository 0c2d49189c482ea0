import Mathlib.Tactic.Ring
import PagedFilter.Proofs.Geometry.Acceptance
/-! The factor of a divisor `n` exceeds `2 ^ 64 / n` by less than one, and a 32-bit dividend is too
small for the excess to show. -/
namespace PagedFilter.Reciprocal

/-- With `c * n = 2 ^ 64 + e` and `m = n * q + r` the lower word of `c * m` is `e * q + c * r`, its
upper word is `q`, and `n` times the lower word is `r * 2 ^ 64 + e * m`. -/
private theorem factor_mul_eq {n m : Nat} (hn : 0 < n) (hn' : n < 2 ^ 32) (hm : m < 2 ^ 32) :
    ∃ low < 2 ^ 64, ((2 ^ 64 - 1) / n + 1) * m = low + m / n * 2 ^ 64 ∧
      low * n / 2 ^ 64 = m % n := by
  obtain ⟨e, he, hexcess⟩ : ∃ e < n, ((2 ^ 64 - 1) / n + 1) * n = 2 ^ 64 + e := by
    have hdiv := Nat.div_add_mod (2 ^ 64 - 1) n
    have hmod := Nat.mod_lt (2 ^ 64 - 1) hn
    refine ⟨n - 1 - (2 ^ 64 - 1) % n, by omega, ?_⟩
    rw [Nat.succ_mul, Nat.mul_comm]
    omega
  generalize (2 ^ 64 - 1) / n + 1 = c at hexcess ⊢
  have hmn : n * (m / n) + m % n = m := Nat.div_add_mod m n
  have hr : m % n < n := Nat.mod_lt m hn
  generalize m / n = q, m % n = r at hmn hr ⊢
  have hem : e * m < 2 ^ 64 := by
    calc e * m < 2 ^ 32 * 2 ^ 32 := Nat.mul_lt_mul'' (by omega) hm
      _ = 2 ^ 64 := by decide
  have hscaled : (e * q + c * r) * n = r * 2 ^ 64 + e * m := by
    calc (e * q + c * r) * n = e * (n * q) + c * n * r := by ring
      _ = e * (n * q) + (2 ^ 64 + e) * r := by rw [hexcess]
      _ = r * 2 ^ 64 + e * (n * q + r) := by ring
      _ = r * 2 ^ 64 + e * m := by rw [hmn]
  refine ⟨e * q + c * r, ?_, ?_, ?_⟩
  · apply Nat.lt_of_mul_lt_mul_right (a := n)
    calc (e * q + c * r) * n = r * 2 ^ 64 + e * m := hscaled
      _ < (r + 1) * 2 ^ 64 := by omega
      _ ≤ 2 ^ 64 * n := by rw [Nat.mul_comm]; exact Nat.mul_le_mul_left _ hr
  · calc c * m = c * n * q + c * r := by rw [← hmn]; ring
      _ = e * q + c * r + q * 2 ^ 64 := by rw [hexcess]; ring
  · rw [hscaled, Nat.add_comm, Nat.add_mul_div_right _ _ (by decide), Nat.div_eq_of_lt hem,
      Nat.zero_add]

theorem toNat_factor {n : UInt32} {r : Reciprocal} (h : of n = .ok r) :
    r.factor.toNat = ((2 ^ 64 - 1) / n.toNat + 1) % 2 ^ 64 := by
  have hne := (divisor_of_eq_ok h).1
  rw [of, if_neg hne] at h
  cases h
  have hmax : (0xffffffffffffffff : UInt64).toNat = 2 ^ 64 - 1 := by decide
  rw [UInt64.toNat_add, UInt64.toNat_div, hmax, UInt32.toNat_toUInt64]
  rfl

theorem toNat_factor_mul {n : UInt32} {r : Reciprocal} (h : of n = .ok r) (m : UInt32) :
    (r.factor * m.toUInt64).toNat = ((2 ^ 64 - 1) / n.toNat + 1) * m.toNat % 2 ^ 64 := by
  rw [UInt64.toNat_mul, toNat_factor h, UInt32.toNat_toUInt64, Nat.mod_mul_mod]

theorem toNat_pos_of_eq_ok {n : UInt32} {r : Reciprocal} (h : of n = .ok r) : 0 < n.toNat :=
  Nat.pos_of_ne_zero fun hz => (divisor_of_eq_ok h).1 (UInt32.toNat_inj.mp hz)

theorem toNat_rem {n : UInt32} {r : Reciprocal} (h : of n = .ok r) (m : UInt32) :
    (r.rem m).toNat = m.toNat % n.toNat := by
  have hpos := toNat_pos_of_eq_ok h
  obtain ⟨low, hlow, hproduct, hrem⟩ := factor_mul_eq hpos n.toNat_lt m.toNat_lt
  have hlt : m.toNat % n.toNat < 2 ^ 32 := Nat.lt_trans (Nat.mod_lt _ hpos) n.toNat_lt
  have hword : m.toNat % n.toNat % 2 ^ 64 = m.toNat % n.toNat := Nat.mod_eq_of_lt (by omega)
  rw [rem, mulHigh, UInt64.toNat_toUInt32, UInt32.toNat_toUInt64, UInt64.toNat_ofNat',
    toNat_factor_mul h, (divisor_of_eq_ok h).2, hproduct, Nat.add_mul_mod_self_right,
    Nat.mod_eq_of_lt hlow, hrem, hword, Nat.mod_eq_of_lt hlt]

theorem toNat_factor_of_ne {n : UInt32} {r : Reciprocal} (h : of n = .ok r) (hone : n ≠ 1) :
    r.factor.toNat = (2 ^ 64 - 1) / n.toNat + 1 := by
  have hpos := toNat_pos_of_eq_ok h
  have hne : n.toNat ≠ 1 := fun hn => hone (UInt32.toNat_inj.mp hn)
  have hdiv : (2 ^ 64 - 1) / n.toNat ≤ (2 ^ 64 - 1) / 2 :=
    Nat.div_le_div_left (by omega) (by decide)
  rw [toNat_factor h, Nat.mod_eq_of_lt (by omega)]

/-- The factor is lost for the divisor one and for no other. -/
theorem factor_eq_zero_iff {n : UInt32} {r : Reciprocal} (h : of n = .ok r) :
    r.factor = 0 ↔ n = 1 := by
  constructor
  · intro hzero
    by_contra hone
    have hfactor := toNat_factor_of_ne h hone
    rw [hzero] at hfactor
    exact absurd hfactor.symm (Nat.succ_ne_zero _)
  · rintro rfl
    exact UInt64.toNat_inj.mp (toNat_factor h)

theorem toNat_quot {n : UInt32} {r : Reciprocal} (h : of n = .ok r) (m : UInt32) :
    (r.quot m).toNat = m.toNat / n.toNat := by
  by_cases hone : n = 1
  · rw [quot, if_pos ((factor_eq_zero_iff h).mpr hone), hone]
    exact (Nat.div_one _).symm
  · obtain ⟨low, hlow, hproduct, -⟩ :=
      factor_mul_eq (toNat_pos_of_eq_ok h) n.toNat_lt m.toNat_lt
    have hlt : m.toNat / n.toNat < 2 ^ 32 := Nat.lt_of_le_of_lt (Nat.div_le_self _ _) m.toNat_lt
    have hword : m.toNat / n.toNat % 2 ^ 64 = m.toNat / n.toNat := Nat.mod_eq_of_lt (by omega)
    rw [quot, if_neg (mt (factor_eq_zero_iff h).mp hone), mulHigh, UInt64.toNat_toUInt32,
      UInt32.toNat_toUInt64, UInt64.toNat_ofNat', toNat_factor_of_ne h hone, Nat.mul_comm,
      hproduct, Nat.add_mul_div_right _ _ (by decide), Nat.div_eq_of_lt hlow, Nat.zero_add, hword,
      Nat.mod_eq_of_lt hlt]

/-- Division by a reciprocal is division, for every divisor but zero and every dividend. -/
theorem division_exact (n : UInt32) (hn : n ≠ 0) :
    ∃ r, of n = .ok r ∧ r.divisor = n ∧ r.factor = 0xffffffffffffffff / n.toUInt64 + 1 ∧
      (r.factor = 0 ↔ n = 1) ∧ ∀ m, r.rem m = m % n ∧ r.quot m = m / n := by
  have h : of n = .ok ⟨0xffffffffffffffff / n.toUInt64 + 1, n⟩ := if_neg hn
  refine ⟨_, h, rfl, rfl, factor_eq_zero_iff h, ?_⟩
  intro m
  constructor
  · apply UInt32.toNat_inj.mp
    rw [toNat_rem h, UInt32.toNat_mod]
  · apply UInt32.toNat_inj.mp
    rw [toNat_quot h, UInt32.toNat_div]

theorem division_exact_extremes :
    (∃ r, of 1 = .ok r ∧ r.factor = 0 ∧ r.rem 0xffffffff = 0 ∧ r.quot 0xffffffff = 0xffffffff) ∧
    (∃ r, of 0x80000000 = .ok r ∧ r.rem 0xffffffff = 0x7fffffff ∧ r.quot 0xffffffff = 1) ∧
    (∃ r, of 0xffffffff = .ok r ∧ r.rem 0xfffffffe = 0xfffffffe ∧ r.quot 0xfffffffe = 0 ∧
      r.rem 0xffffffff = 0 ∧ r.quot 0xffffffff = 1) := by
  obtain ⟨one, hone, -, -, hlost, hexact⟩ := division_exact 1 (by decide)
  obtain ⟨power, hpower, -, -, -, hhalf⟩ := division_exact 0x80000000 (by decide)
  obtain ⟨greatest, hgreatest, -, -, -, hlast⟩ := division_exact 0xffffffff (by decide)
  refine ⟨⟨one, hone, hlost.mpr rfl, ?_⟩, ⟨power, hpower, ?_⟩, ⟨greatest, hgreatest, ?_⟩⟩
  · exact hexact 0xffffffff
  · exact hhalf 0xffffffff
  · exact ⟨(hlast 0xfffffffe).1, (hlast 0xfffffffe).2, (hlast 0xffffffff).1, (hlast 0xffffffff).2⟩

end PagedFilter.Reciprocal
