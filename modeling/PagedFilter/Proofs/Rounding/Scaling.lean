import PagedFilter.Geometry.Estimate
import PagedFilter.Proofs.Rounding.Binary64
/-! Counts that are turned into floats, multiplied by a factor and cut to whole numbers. -/
namespace PagedFilter.Rounding

open Float.Model Float.Model.UnpackedFloat

section Fields
variable {spec : Format} (s : Sign) (exponent : BitVec spec.exponentBits)
  (mantissa : BitVec spec.mantissaBitsWithoutImplicit)

theorem ofBitVec_unpackSign :
    Sign.ofBitVec (unpackSign (packComponents spec s exponent mantissa)) = s := by
  have hsign : unpackSign (packComponents spec s exponent mantissa) = s.toBitVec := by
    apply BitVec.eq_of_getLsbD_eq
    intro i hi
    have hzero : i = 0 := by omega
    subst hzero
    change (BitVec.cast _
      (BitVec.extractLsb _ _ (s.toBitVec ++ exponent ++ mantissa))).getLsbD 0 = _
    simp [BitVec.getLsbD_append, BitVec.getElem_append]
  rw [hsign]
  cases s <;> rfl

variable {s exponent mantissa} {b : BitVec spec.numBits}

theorem unpack_normal (hs : Sign.ofBitVec (unpackSign b) = s) (he : unpackExponent b = exponent)
    (hm : unpackMantissa b = mantissa) (hones : exponent ≠ -1#_) (hzero : exponent ≠ 0#_)
    (hpos : 0 < (1#1 ++ mantissa).toNat) :
    UnpackedFloat.unpack spec b =
      .finite s (1#1 ++ mantissa).toNat
        (exponent.toNat - (spec.exponentBias + spec.mantissaBitsWithoutImplicit)) hpos := by
  subst hs he hm
  exact (if_neg hones).trans (if_neg hzero)

theorem unpack_subnormal (hs : Sign.ofBitVec (unpackSign b) = s) (he : unpackExponent b = exponent)
    (hm : unpackMantissa b = mantissa) (hones : exponent ≠ -1#_) (hzero : exponent = 0#_)
    (hmantissa : 0 < mantissa.toNat) :
    UnpackedFloat.unpack spec b =
      .finite s mantissa.toNat
        (exponent.toNat - (spec.exponentBias + spec.mantissaBitsWithoutImplicit) + 1)
        hmantissa := by
  have hne : mantissa ≠ 0#_ := by
    rintro rfl
    exact hmantissa.ne rfl
  subst hs he hm
  exact (if_neg hones).trans ((if_pos hzero).trans (dif_neg hne))

end Fields

theorem finite_congr {s : Sign} {m m' : ℕ} {e e' : ℤ} (hm : m = m') (he : e = e') (hpos : 0 < m)
    (hpos' : 0 < m') : UnpackedFloat.finite s m e hpos = .finite s m' e' hpos' := by
  subst hm he
  rfl

section Pack
variable {m : ℕ} {e : ℤ} (s : Sign)

theorem pack_finite (hm : 0 < m) :
    UnpackedFloat.pack Format.binary64 (.finite s m e hm) =
      if 2 ^ 11 ≤ (e + 1075).toNat + 1 then packedInfinity Format.binary64 s
      else if m.log2 + 1 = 53 then
        packComponents Format.binary64 s (BitVec.ofNat 11 (e + 1075).toNat) (BitVec.ofNat 52 m)
      else packComponents Format.binary64 s 0#11 (BitVec.ofNat 52 m) := by
  have hbiased : e + 1075 = e + 1023 + 52 := by omega
  rw [hbiased]
  rfl

theorem exponent_field {biased : ℕ} (hpos : 0 < biased) (hlt : biased < 2047) :
    (BitVec.ofNat 11 biased).toNat = biased ∧ BitVec.ofNat 11 biased ≠ -1#_ ∧
      BitVec.ofNat 11 biased ≠ 0#_ := by
  have hfield : (BitVec.ofNat 11 biased).toNat = biased := by
    rw [BitVec.toNat_ofNat]
    exact Nat.mod_eq_of_lt (by omega)
  refine ⟨hfield, ?_, ?_⟩
  · intro heq
    rw [heq] at hfield
    change 2047 = biased at hfield
    omega
  · intro heq
    rw [heq] at hfield
    exact hpos.ne hfield

theorem unpack_pack_of_full (hm : 0 < m) (h : Stored m e) (he : e ≤ 971) (hfull : 2 ^ 52 ≤ m) :
    (Float.Model.pack (.finite s m e hm)).unpack = .finite s m e hm := by
  have hlow := h.le
  have hhigh := h.lt
  have hlog : m.log2 + 1 = 53 := by
    have hge := (Nat.le_log2 hm.ne').mpr hfull
    have hlt := (Nat.log2_lt hm.ne').mpr h.lt
    omega
  have hmantissa : (1#1 ++ BitVec.ofNat 52 m).toNat = m := by
    rw [BitVec.toNat_append, ← Nat.shiftLeft_add_eq_or_of_lt (BitVec.ofNat 52 m).isLt,
      BitVec.toNat_ofNat, Nat.shiftLeft_eq]
    change 1 * 2 ^ 52 + m % 2 ^ 52 = m
    omega
  obtain ⟨hfield, hones, hzero⟩ := exponent_field (show 0 < (e + 1075).toNat by omega) (by omega)
  have hexponent : ((BitVec.ofNat 11 (e + 1075).toNat).toNat : ℤ) - (1023 + 52) = e := by
    rw [hfield]
    omega
  have hpos : 0 < (1#1 ++ BitVec.ofNat 52 m).toNat := by
    rw [hmantissa]
    exact hm
  change UnpackedFloat.unpack _ (UnpackedFloat.pack _ _) = _
  rw [pack_finite, if_neg (by omega), if_pos hlog]
  have hsign := @ofBitVec_unpackSign Format.binary64 s (BitVec.ofNat 11 (e + 1075).toNat)
    (BitVec.ofNat 52 m)
  have hread := unpack_normal hsign unpackExponent_packComponents unpackMantissa_packComponents
    hones hzero hpos
  exact hread.trans (finite_congr hmantissa hexponent hpos hm)

theorem unpack_pack_of_last (hm : 0 < m) (hlt : m < 2 ^ 52) :
    (Float.Model.pack (.finite s m (-1074) hm)).unpack = .finite s m (-1074) hm := by
  have hlog : m.log2 + 1 ≠ 53 := by
    have hlog := (Nat.log2_lt hm.ne').mpr hlt
    omega
  have hmantissa : (BitVec.ofNat 52 m).toNat = m := by
    rw [BitVec.toNat_ofNat]
    exact Nat.mod_eq_of_lt hlt
  have hpos : 0 < (BitVec.ofNat 52 m).toNat := by
    rw [hmantissa]
    exact hm
  change UnpackedFloat.unpack _ (UnpackedFloat.pack _ _) = _
  rw [pack_finite, if_neg (by decide), if_neg hlog]
  have hsign := @ofBitVec_unpackSign Format.binary64 s 0#11 (BitVec.ofNat 52 m)
  have hread := unpack_subnormal hsign unpackExponent_packComponents unpackMantissa_packComponents
    (by decide) rfl hpos
  exact hread.trans (finite_congr hmantissa rfl hpos hm)

/-- A stored float is read back, but for one that is too large. -/
theorem unpack_pack_of_le (hm : 0 < m) (h : Stored m e) (he : e ≤ 971) :
    (Float.Model.pack (.finite s m e hm)).unpack = .finite s m e hm := by
  by_cases hfull : 2 ^ 52 ≤ m
  · exact unpack_pack_of_full s hm h he hfull
  · obtain rfl := h.full.resolve_left hfull
    exact unpack_pack_of_last s hm (Nat.lt_of_not_le hfull)

theorem unpack_pack_of_lt (hm : 0 < m) (he : 971 < e) :
    (Float.Model.pack (.finite s m e hm)).unpack = .infinity s := by
  change UnpackedFloat.unpack _ (UnpackedFloat.pack _ _) = _
  rw [pack_finite, if_pos (by omega)]
  cases s <;> rfl

end Pack

theorem decreaseExponent_value (m : ℕ) (e t : ℤ) :
    ((decreaseExponent m e t).1 : ℚ) * 2 ^ (decreaseExponent m e t).2 = m * 2 ^ e := by
  change ((m <<< (e - t).toNat : ℕ) : ℚ) * 2 ^ (e - ((e - t).toNat : ℤ)) = _
  rw [Nat.shiftLeft_eq, Nat.cast_mul, Nat.cast_pow, Nat.cast_ofNat, ← zpow_natCast, mul_assoc,
    ← zpow_add₀ (by norm_num), add_sub_cancel]

theorem roundToInt_eq (s : Sign) (m : ℕ) (e : ℤ) :
    roundToInt s m e = s.apply ⌊(m : ℚ) * 2 ^ e⌋₊ := by
  have hexponent : (decreaseExponent m e 0).2 ≤ 0 := by
    change e - ((e - 0).toNat : ℤ) ≤ 0
    omega
  obtain ⟨-, hstands⟩ := shiftToExponent_of_le hexponent (decreaseExponent m e 0).1
  have hmantissa := hstands.mantissa_eq
  rw [decreaseExponent_value, zpow_zero, div_one] at hmantissa
  rw [← hmantissa]
  rfl

theorem toNat_ofNatClamp (n : ℕ) : (UInt64.ofNatClamp n).toNat = min n (2 ^ 64 - 1) := by
  rw [UInt64.ofNatClamp]
  split_ifs with hlt
  · change n < 2 ^ 64 at hlt
    change n = _
    omega
  · change ¬n < 2 ^ 64 at hlt
    change 2 ^ 64 - 1 = _
    omega

theorem toNat_toUInt64 (f : Float.Model) :
    f.toUInt64.toNat = min (f.unpack.toInt 0 (UInt64.size - 1)).toNat (2 ^ 64 - 1) :=
  toNat_ofNatClamp _

theorem toNat_toUInt64_of_positive {x : ℚ} {u : UnpackedFloat} (h : Holds .positive x u) :
    (Float.Model.pack u).toUInt64.toNat = min ⌊x⌋₊ (2 ^ 64 - 1) := by
  rw [toNat_toUInt64]
  cases h with
  | zero hx =>
    rw [hx, Nat.floor_zero]
    rfl
  | @finite m e hm hstored hx =>
    rcases le_or_gt e 971 with hle | hlt
    · rw [unpack_pack_of_le _ hm hstored hle, hx]
      change min (roundToInt .positive m e).toNat _ = _
      rw [roundToInt_eq]
      rfl
    · rw [unpack_pack_of_lt _ hm hlt]
      have hlarge : 2 ^ 64 ≤ ⌊x⌋₊ := by
        apply Nat.le_floor
        calc ((2 ^ 64 : ℕ) : ℚ) = 2 ^ (64 : ℤ) := by norm_num
          _ ≤ 2 ^ e := zpow_le_zpow_right₀ (by norm_num) (by omega)
          _ ≤ m * 2 ^ e := two_zpow_le_mul hm e
          _ = x := hx.symm
      change min (2 ^ 64 - 1) (2 ^ 64 - 1) = _
      omega

theorem toNat_toUInt64_of_negative {x : ℚ} {u : UnpackedFloat} (h : Holds .negative x u) :
    (Float.Model.pack u).toUInt64.toNat = 0 := by
  rw [toNat_toUInt64]
  cases h with
  | zero hx => rfl
  | @finite m e hm hstored hx =>
    rcases le_or_gt e 971 with hle | hlt
    · rw [unpack_pack_of_le _ hm hstored hle]
      change min (roundToInt .negative m e).toNat _ = _
      rw [roundToInt_eq]
      change min (-(⌊(m : ℚ) * 2 ^ e⌋₊ : ℤ)).toNat _ = 0
      omega
    · rw [unpack_pack_of_lt _ hm hlt]
      rfl

/-- A count has digits enough once it is shifted to its last place. -/
theorem holds_ofNat {n : ℕ} (hpos : 0 < n) :
    Holds .positive (nearest n) (UnpackedFloat.ofNat Format.binary64 n) := by
  have hround : UnpackedFloat.ofNat Format.binary64 n =
      UnpackedFloat.round Format.binary64 .positive n 0 := by
    have hcompare : compare (n : ℤ) 0 = .gt := Int.compare_eq_gt.mpr (Int.natCast_pos.mpr hpos)
    rw [UnpackedFloat.ofNat, UnpackedFloat.ofInt, UnpackedFloat.normalize, hcompare]
    rfl
  have hplace : Format.binary64.targetExponent (totalExponent n 0) =
      max ((n.log2 : ℤ) - 52) (-1074) := by
    change max ((n.log2 : ℤ) + 1 + 0 - 53) (-1074) = _
    omega
  generalize ht : Format.binary64.targetExponent (totalExponent n 0) = t at hplace
  have hdigits : 2 ^ 52 ≤ (decreaseExponent n 0 t).1 := by
    change 2 ^ 52 ≤ n <<< (0 - t).toNat
    rw [Nat.shiftLeft_eq]
    calc 2 ^ 52 ≤ 2 ^ (n.log2 + (0 - t).toNat) := Nat.pow_le_pow_right (by decide) (by omega)
      _ = 2 ^ n.log2 * 2 ^ (0 - t).toNat := Nat.pow_add ..
      _ ≤ n * 2 ^ (0 - t).toNat := Nat.mul_le_mul_right _ (Nat.log2_self_le hpos.ne')
  have hholds := holds_roundWithAccuracy .positive hdigits (decreaseExponent n 0 t).2
  rw [decreaseExponent_value, zpow_zero, mul_one, ← ht] at hholds
  rw [hround]
  exact hholds

theorem unpack_ofCount {n : ℕ} (hpos : 0 < n) (hlt : n < 2 ^ 64) :
    ∃ m e, ∃ hm : 0 < m, (Estimate.ofCount n).toModel.unpack = .finite .positive m e hm ∧
      2 ^ 52 ≤ m ∧ nearest n = m * 2 ^ e := by
  have hcount : (Estimate.ofCount n).toModel =
      Float.Model.pack (UnpackedFloat.ofNat Format.binary64 n) := by
    change Float.Model.pack (UnpackedFloat.ofNat Format.binary64 n.toUInt64.toNat) = _
    have hword : n.toUInt64.toNat = n := UInt64.toNat_ofNat_of_lt hlt
    rw [hword]
  have hone := one_le_nearest hpos
  have hmax := nearest_le_two_pow hpos hlt.le
  have hholds := holds_ofNat hpos
  generalize UnpackedFloat.ofNat Format.binary64 n = u at hcount hholds
  cases hholds with
  | zero hx =>
    rw [hx] at hone
    exact absurd hone (by norm_num)
  | @finite m e hm hstored hx =>
    rw [hx] at hone hmax
    obtain ⟨hfull, hexponent⟩ := hstored.full_of_bounds hm hone hmax
    refine ⟨m, e, hm, ?_, hfull, hx⟩
    rw [hcount]
    exact unpack_pack_of_le _ hm hstored (by omega)

section Factors
variable {spec : Format} {s s' : Sign} {m m' : ℕ} {e e' : ℤ} {hm : 0 < m} {hm' : 0 < m'}

theorem mul_finite :
    UnpackedFloat.mul spec (.finite s m e hm) (.finite s' m' e' hm') =
      roundWithAccuracy spec (s * s') (m * m') (e + e') .exact :=
  rfl

theorem infinity_mul_finite :
    UnpackedFloat.mul spec (.infinity s) (.finite s' m' e' hm') = .infinity (s * s') :=
  rfl

theorem zero_mul_finite :
    UnpackedFloat.mul spec (.zero s) (.finite s' m' e' hm') = .zero (s * s') :=
  rfl

theorem notANumber_mul_finite :
    UnpackedFloat.mul spec .notANumber (.finite s' m' e' hm') = .notANumber :=
  rfl

theorem toUInt64_mul_zero (u : UnpackedFloat) :
    (Float.Model.pack (UnpackedFloat.mul spec u (.zero s'))).toUInt64.toNat = 0 := by
  have hzero (s : Sign) : (Float.Model.pack (.zero s)).toUInt64.toNat = 0 := by cases s <;> rfl
  have hnone : (Float.Model.pack .notANumber).toUInt64.toNat = 0 := rfl
  cases u with
  | infinity s => exact hnone
  | notANumber => exact hnone
  | zero s => exact hzero (s * s')
  | finite s m e hm => exact hzero (s * s')

end Factors

def scaled (factor : Float) (n : ℕ) : ℕ := (factor * Estimate.ofCount n).toUInt64.toNat

theorem scaled_eq (factor : Float) (n : ℕ) :
    scaled factor n = (Float.Model.pack (UnpackedFloat.mul Format.binary64 factor.toModel.unpack
      (Estimate.ofCount n).toModel.unpack)).toUInt64.toNat :=
  rfl

theorem holds_mul {s : Sign} {m n : ℕ} {e : ℤ} {hm : 0 < m} {u : UnpackedFloat}
    (hu : u = .finite s m e hm) (hpos : 0 < n) (hlt : n < 2 ^ 64) :
    Holds s (nearest (m * 2 ^ e * nearest n))
      (UnpackedFloat.mul Format.binary64 u (Estimate.ofCount n).toModel.unpack) := by
  obtain ⟨m', e', hm', hcount, hfull, hx⟩ := unpack_ofCount hpos hlt
  have hdigits : 2 ^ 52 ≤ m * m' := hfull.trans (Nat.le_mul_of_pos_left m' hm)
  have hholds := holds_roundWithAccuracy s hdigits (e + e')
  have hvalue : ((m * m' : ℕ) : ℚ) * 2 ^ (e + e') = m * 2 ^ e * nearest n := by
    rw [hx, zpow_add₀ (by norm_num)]
    push_cast
    ring
  have hsign : s * .positive = s := by cases s <;> rfl
  rw [hvalue] at hholds
  rw [hu, hcount, mul_finite, hsign]
  exact hholds

theorem scaled_zero (factor : Float) : scaled factor 0 = 0 := by
  have hcount : (Estimate.ofCount 0).toModel.unpack = .zero .positive := rfl
  rw [scaled_eq, hcount]
  exact toUInt64_mul_zero _

/-- What a count is scaled to does not fall when the count grows, whatever the factor. -/
theorem scaled_mono (factor : Float) {n n' : ℕ} (h : n ≤ n') (hlt : n' < 2 ^ 64) :
    scaled factor n ≤ scaled factor n' := by
  rcases Nat.eq_zero_or_pos n with rfl | hpos
  · rw [scaled_zero]
    exact Nat.zero_le _
  have hpos' : 0 < n' := hpos.trans_le h
  obtain ⟨m₁, e₁, hm₁, hcount, -, -⟩ := unpack_ofCount hpos (h.trans_lt hlt)
  obtain ⟨m₂, e₂, hm₂, hcount', -, -⟩ := unpack_ofCount hpos' hlt
  rw [scaled_eq, scaled_eq]
  cases hfactor : factor.toModel.unpack with
  | notANumber => rw [hcount, hcount', notANumber_mul_finite, notANumber_mul_finite]
  | infinity s => rw [hcount, hcount', infinity_mul_finite, infinity_mul_finite]
  | zero s => rw [hcount, hcount', zero_mul_finite, zero_mul_finite]
  | finite s m e hm =>
    have hholds := holds_mul hfactor hpos (h.trans_lt hlt)
    have hholds' := holds_mul hfactor hpos' hlt
    rw [hfactor] at hholds hholds'
    cases s with
    | negative =>
      rw [toNat_toUInt64_of_negative hholds]
      exact Nat.zero_le _
    | positive =>
      rw [toNat_toUInt64_of_positive hholds, toNat_toUInt64_of_positive hholds']
      have hnearest := nearest_mul_nearest_mono (mul_two_zpow_pos hm e) hpos h
      exact min_le_min_right _ (Nat.floor_mono hnearest)

example : scaled 1.0 (2 ^ 53 + 1) = 2 ^ 53 := by decide +kernel

end PagedFilter.Rounding
