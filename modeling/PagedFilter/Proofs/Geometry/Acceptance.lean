import PagedFilter.Geometry.Basic
import PagedFilter.Proofs.Delivery
/-! The checks of a geometry as plain conditions, the way before the page level before the size. -/
namespace PagedFilter

def LevelFits (way level : Nat) : Prop :=
  (minWay ≤ way ∧ way ≤ maxWay) ∧ 8 - 8 / way ≤ level ∧ level ≤ maxPageLevel

instance (way level : Nat) : Decidable (LevelFits way level) :=
  inferInstanceAs (Decidable (_ ∧ _))

theorem way_cases {way : Nat} (h : minWay ≤ way ∧ way ≤ maxWay) :
    way = 4 ∨ way = 5 ∨ way = 6 ∨ way = 7 ∨ way = 8 := by
  have hge : 4 ≤ way := h.1
  have hle : way ≤ 8 := h.2
  omega

structure Geometry.Valid (g : Geometry) : Prop where
  fits : LevelFits g.way g.pageLevel
  pageNum_ne : g.pageNum ≠ 0

def refusalOfLevel (way level : Nat) : Option Refusal :=
  if ¬(4 ≤ way ∧ way ≤ 8) then some (.invalidWay way)
  else if ¬(8 - 8 / way ≤ level ∧ level ≤ 13) then
    some (.invalidPageLevel level (8 - 8 / way) 13)
  else none

def refusalOfGeometry (way level : Nat) (pageNum : UInt32) : Option Refusal :=
  (refusalOfLevel way level).or <|
    if pageNum = 0 then some (.invalidDataSize 0 (2 ^ level)) else none

def refusalOfSize (size level : Nat) : Option Refusal :=
  if size = 0 ∨ size % 2 ^ level ≠ 0 ∨ 2 ^ 32 ≤ size / 2 ^ level then
    some (.invalidDataSize size (2 ^ level))
  else none

def refusalOfBuffer (way level size : Nat) : Option Refusal :=
  (refusalOfLevel way level).or (refusalOfSize size level)

theorem checkPageLevel_eq (way level : Nat) :
    checkPageLevel way level =
      if minWay ≤ way ∧ way ≤ maxWay then
        if 8 - 8 / way ≤ level ∧ level ≤ maxPageLevel then .ok ()
        else refuse (.invalidPageLevel level (8 - 8 / way) maxPageLevel)
      else refuse (.invalidWay way) := by
  rw [checkPageLevel, checkWay]
  by_cases hway : minWay ≤ way ∧ way ≤ maxWay
  · have hne : way ≠ 0 := by
      intro h
      rw [h] at hway
      exact absurd hway.1 (by decide)
    rw [if_pos hway, if_pos hway, minPageLevel, if_neg hne]
    by_cases hlevel : 8 - 8 / way ≤ level ∧ level ≤ maxPageLevel
    · have hin : ¬(level < 8 - 8 / way ∨ maxPageLevel < level) := by omega
      rw [if_pos hlevel]
      change (if level < 8 - 8 / way ∨ maxPageLevel < level then _ else _) = _
      rw [if_neg hin]
      rfl
    · have hout : level < 8 - 8 / way ∨ maxPageLevel < level := by omega
      rw [if_neg hlevel]
      change (if level < 8 - 8 / way ∨ maxPageLevel < level then _ else _) = _
      rw [if_pos hout]
  · rw [if_neg hway, if_neg hway]
    rfl

theorem checkPageLevel_of_fits {way level : Nat} (h : LevelFits way level) :
    checkPageLevel way level = .ok () := by
  rw [checkPageLevel_eq, if_pos h.1, if_pos h.2]

theorem answers_checkPageLevel (way level : Nat) :
    Answers (fun _ => LevelFits way level) (refusalOfLevel way level)
      (checkPageLevel way level) := by
  rw [checkPageLevel_eq, refusalOfLevel]
  change Answers _ _ (if 4 ≤ way ∧ way ≤ 8 then
    if 8 - 8 / way ≤ level ∧ level ≤ 13 then .ok () else _ else _)
  by_cases hway : 4 ≤ way ∧ way ≤ 8
  · by_cases hlevel : 8 - 8 / way ≤ level ∧ level ≤ 13
    · rw [if_neg (not_not_intro hway), if_neg (not_not_intro hlevel), if_pos hway, if_pos hlevel]
      exact .ok ⟨hway, hlevel⟩
    · rw [if_neg (not_not_intro hway), if_pos hlevel, if_pos hway, if_neg hlevel]
      exact .refuse _
  · rw [if_pos hway, if_neg hway]
    exact .refuse _

theorem checkShift_of_lt {level width : Nat} (h : level < width) :
    checkShift level width = .ok () := if_pos h

/-- Up to the greatest page level no page number of 32 bits loses a bit. -/
theorem bytesOfPages_eq (count level : Nat) (hcount : count < 2 ^ 32)
    (hlevel : level ≤ maxPageLevel) : bytesOfPages count level = count * 2 ^ level := by
  have hle : level ≤ 13 := hlevel
  have hmod : level % 64 = level := Nat.mod_eq_of_lt (by omega)
  have hpow : 2 ^ level ≤ 2 ^ 13 := Nat.pow_le_pow_right (by decide) hle
  have hlt : count * 2 ^ level < 2 ^ 64 := by
    calc count * 2 ^ level < 2 ^ 32 * 2 ^ level :=
          Nat.mul_lt_mul_of_pos_right hcount (Nat.two_pow_pos level)
      _ ≤ 2 ^ 32 * 2 ^ 13 := Nat.mul_le_mul_left _ hpow
      _ < 2 ^ 64 := by decide
  rw [bytesOfPages, hmod, Nat.shiftLeft_eq, Nat.mod_eq_of_lt hlt]

theorem bytesOfPages_one (level : Nat) (hlevel : level ≤ maxPageLevel) :
    bytesOfPages 1 level = 2 ^ level := by
  rw [bytesOfPages_eq 1 level (by decide) hlevel, Nat.one_mul]

theorem pages_mul_lt (n : UInt32) {level : Nat} (hlevel : level ≤ maxPageLevel) :
    n.toNat * 2 ^ level < 2 ^ 45 := by
  calc n.toNat * 2 ^ level ≤ n.toNat * 2 ^ 13 :=
        Nat.mul_le_mul_left _ (Nat.pow_le_pow_right (by decide) hlevel)
    _ < 2 ^ 32 * 2 ^ 13 := Nat.mul_lt_mul_of_pos_right n.toNat_lt (by decide)
    _ = 2 ^ 45 := by decide

theorem Geometry.answers_check (g : Geometry) :
    Answers (fun _ => g.Valid) (refusalOfGeometry g.way g.pageLevel g.pageNum) g.check := by
  rw [Geometry.check, refusalOfGeometry]
  refine (answers_checkPageLevel g.way g.pageLevel).bind ?_
  intro _ hfits
  by_cases hzero : g.pageNum = 0
  · have hle : g.pageLevel ≤ 13 := hfits.2.2
    rw [if_pos hzero, if_pos hzero, checkShift_of_lt (by omega), Geometry.pageSize,
      bytesOfPages_one _ hfits.2.2]
    exact .refuse _
  · rw [if_neg hzero, if_neg hzero]
    exact .ok ⟨hfits, hzero⟩

theorem Geometry.answers_create (way level : Nat) (pageNum : UInt32) :
    Answers (fun g => g = ⟨way, level, pageNum⟩ ∧ g.Valid) (refusalOfGeometry way level pageNum)
      (Geometry.create way level pageNum) :=
  (Geometry.answers_check ⟨way, level, pageNum⟩).bind_ok fun _ hvalid => ⟨_, rfl, rfl, hvalid⟩

theorem Geometry.delivers_check (g : Geometry) : Delivers (fun _ => g.Valid) g.check :=
  g.answers_check.delivers

theorem Geometry.Valid.check {g : Geometry} (h : g.Valid) : g.check = .ok () := by
  rw [Geometry.check, checkPageLevel_of_fits h.fits]
  change (if g.pageNum = 0 then _ else _) = _
  rw [if_neg h.pageNum_ne]
  rfl

theorem Geometry.Valid.dataLen {g : Geometry} (h : g.Valid) :
    g.dataLen = g.pageNum.toNat * 2 ^ g.pageLevel :=
  bytesOfPages_eq _ _ g.pageNum.toNat_lt h.fits.2.2

theorem countPages_eq (size level : Nat) (hlevel : level ≤ maxPageLevel) :
    countPages size level =
      if size = 0 ∨ size % 2 ^ level ≠ 0 ∨ 2 ^ 32 ≤ size / 2 ^ level then
        refuse (.invalidDataSize size (2 ^ level))
      else .ok (UInt32.ofNat (size / 2 ^ level)) := by
  have hle : level ≤ 13 := hlevel
  rw [countPages, checkShift_of_lt (by omega)]
  change (if size = 0 ∨ size % bytesOfPages 1 level ≠ 0 ∨
    2 ^ 32 ≤ size / bytesOfPages 1 level then _ else _) = _
  rw [bytesOfPages_one level hlevel]
  rfl

theorem size_eq_of_whole {size level : Nat} (hne : size ≠ 0) (hmod : size % 2 ^ level = 0)
    (hlt : size / 2 ^ level < 2 ^ 32) :
    UInt32.ofNat (size / 2 ^ level) ≠ 0 ∧
      size = (UInt32.ofNat (size / 2 ^ level)).toNat * 2 ^ level := by
  have hnat : (UInt32.ofNat (size / 2 ^ level)).toNat = size / 2 ^ level :=
    UInt32.toNat_ofNat_of_lt hlt
  have hsize : size = (UInt32.ofNat (size / 2 ^ level)).toNat * 2 ^ level := by
    rw [hnat, Nat.div_mul_cancel (Nat.dvd_of_mod_eq_zero hmod)]
  refine ⟨?_, hsize⟩
  intro hzero
  rw [hzero] at hsize
  exact hne (by simpa using hsize)

theorem whole_of_mul (n : UInt32) (level : Nat) (hn : n ≠ 0) :
    n.toNat * 2 ^ level ≠ 0 ∧ n.toNat * 2 ^ level % 2 ^ level = 0 ∧
      n.toNat * 2 ^ level / 2 ^ level = n.toNat := by
  have hpos : 0 < 2 ^ level := Nat.two_pow_pos level
  have hnat : n.toNat ≠ 0 := fun h => hn (UInt32.toNat_inj.mp h)
  exact ⟨Nat.mul_ne_zero hnat (Nat.ne_of_gt hpos), Nat.mul_mod_left _ _, Nat.mul_div_cancel _ hpos⟩

/-- Pages are counted exactly: a count stands for a buffer of just so many whole pages. -/
theorem answers_countPages (size level : Nat) (hlevel : level ≤ maxPageLevel) :
    Answers (fun n => n ≠ 0 ∧ size = n.toNat * 2 ^ level) (refusalOfSize size level)
      (countPages size level) := by
  rw [countPages_eq size level hlevel, refusalOfSize]
  by_cases hbad : size = 0 ∨ size % 2 ^ level ≠ 0 ∨ 2 ^ 32 ≤ size / 2 ^ level
  · rw [if_pos hbad, if_pos hbad]
    exact .refuse _
  · rw [if_neg hbad, if_neg hbad]
    rw [not_or, not_or, Decidable.not_not] at hbad
    exact .ok (size_eq_of_whole hbad.1 hbad.2.1 (Nat.lt_of_not_le hbad.2.2))

theorem countPages_mul (n : UInt32) (level : Nat) (hn : n ≠ 0) (hlevel : level ≤ maxPageLevel) :
    countPages (n.toNat * 2 ^ level) level = .ok n := by
  obtain ⟨hne, hmod, hdiv⟩ := whole_of_mul n level hn
  have hlt := n.toNat_lt
  rw [countPages_eq _ _ hlevel, if_neg (by omega), hdiv, UInt32.ofNat_toNat]

/-- A buffer is accepted just where it is as many whole pages as some accepted geometry has. -/
theorem refusalOfBuffer_eq_none_iff (way level size : Nat) :
    refusalOfBuffer way level size = none ↔
      ∃ n : UInt32, size = n.toNat * 2 ^ level ∧ refusalOfGeometry way level n = none := by
  simp only [refusalOfBuffer, refusalOfSize, refusalOfGeometry, Option.or_eq_none_iff]
  constructor
  · rintro ⟨hlevel, hsize⟩
    rw [ite_eq_right_iff] at hsize
    have hgood := mt hsize (by simp)
    rw [not_or, not_or, Decidable.not_not] at hgood
    obtain ⟨hne, hwhole⟩ := size_eq_of_whole hgood.1 hgood.2.1 (Nat.lt_of_not_le hgood.2.2)
    exact ⟨_, hwhole, hlevel, if_neg hne⟩
  · rintro ⟨n, rfl, hlevel, hn⟩
    rw [ite_eq_right_iff] at hn
    obtain ⟨hne, hmod, hdiv⟩ := whole_of_mul n level (mt hn (by simp))
    have hlt := n.toNat_lt
    exact ⟨hlevel, if_neg (by omega)⟩

namespace Reciprocal

theorem of_ne_zero (n : UInt32) (hn : n ≠ 0) : ∃ r, of n = .ok r ∧ r.divisor = n := by
  rw [of, if_neg hn]
  exact ⟨_, rfl, rfl⟩

theorem divisor_of_eq_ok {n : UInt32} {r : Reciprocal} (h : of n = .ok r) :
    n ≠ 0 ∧ r.divisor = n := by
  by_cases hn : n = 0
  · rw [of, if_pos hn] at h
    contradiction
  · obtain ⟨s, hs, hdivisor⟩ := of_ne_zero n hn
    rw [hs] at h
    cases h
    exact ⟨hn, hdivisor⟩

theorem rem_lt (r : Reciprocal) (m : UInt32) (hr : r.divisor ≠ 0) :
    (r.rem m).toNat < r.divisor.toNat := by
  have hpos : 0 < r.divisor.toNat := by
    refine Nat.pos_of_ne_zero ?_
    exact fun h => hr (UInt32.toNat_inj.mp h)
  have hlow : (r.factor * m.toUInt64).toNat < 2 ^ 64 := UInt64.toNat_lt _
  have hquot : (r.factor * m.toUInt64).toNat * r.divisor.toNat / 2 ^ 64 < r.divisor.toNat := by
    rw [Nat.div_lt_iff_lt_mul (by decide), Nat.mul_comm]
    exact Nat.mul_lt_mul_of_pos_left hlow hpos
  have hmod : (r.rem m).toNat ≤
      (r.factor * m.toUInt64).toNat * r.divisor.toNat / 2 ^ 64 := by
    rw [rem, mulHigh, UInt64.toNat_toUInt32, UInt32.toNat_toUInt64, UInt64.toNat_ofNat']
    exact Nat.le_trans (Nat.mod_le _ _) (Nat.mod_le _ _)
  omega

end Reciprocal
end PagedFilter
