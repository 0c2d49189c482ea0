import Mathlib.Tactic.ByContra
import PagedFilter.Geometry.Plan
import PagedFilter.Proofs.Geometry.Acceptance
/-! A budget is covered by the fewest pages of the first level whose sixteen pages hold more. -/
namespace PagedFilter

theorem pagesCovering_pos (size level : Nat) : 1 ≤ pagesCovering size level :=
  Nat.le_max_right _ _

/-- The covering pages are the fewest of those that hold the bytes. -/
theorem pagesCovering_le_iff {n : Nat} (size level : Nat) (hn : 1 ≤ n) :
    pagesCovering size level ≤ n ↔ size ≤ n * 2 ^ level := by
  have hpage : 0 < 2 ^ level := Nat.two_pow_pos level
  rw [pagesCovering, Nat.max_le, Nat.div_le_iff_le_mul_add_pred hpage, Nat.mul_comm n]
  omega

theorem le_pagesCovering_mul (size level : Nat) : size ≤ pagesCovering size level * 2 ^ level :=
  (pagesCovering_le_iff size level (pagesCovering_pos size level)).mp (Nat.le_refl _)

theorem pagesCovering_mul_lt {size : Nat} (level : Nat) (hsize : 0 < size) :
    pagesCovering size level * 2 ^ level < size + 2 ^ level := by
  obtain ⟨n, hn⟩ : ∃ n, pagesCovering size level = n + 1 :=
    ⟨_, (Nat.sub_add_cancel (pagesCovering_pos size level)).symm⟩
  have hfewer : n * 2 ^ level < size := by
    by_cases hzero : n = 0
    · simpa [hzero] using hsize
    · have hleast := pagesCovering_le_iff size level (Nat.pos_of_ne_zero hzero)
      omega
  rw [hn, Nat.succ_mul]
  omega

theorem pagesCovering_zero (level : Nat) : pagesCovering 0 level = 1 := by
  have hle := pagesCovering_le_iff 0 level (Nat.le_refl 1)
  have hpos := pagesCovering_pos 0 level
  omega

theorem pagesCovering_mul {n : Nat} (level : Nat) (hn : 1 ≤ n) :
    pagesCovering (n * 2 ^ level) level = n := by
  apply Nat.le_antisymm
  · exact (pagesCovering_le_iff _ level hn).mpr (Nat.le_refl _)
  · exact Nat.le_of_mul_le_mul_right (le_pagesCovering_mul _ level) (Nat.two_pow_pos level)

namespace Geometry

structure Covers (g : Geometry) (bytes : Nat) : Prop where
  valid : g.Valid
  pageNum_eq : g.pageNum.toNat = pagesCovering bytes g.pageLevel

namespace Covers
variable {g : Geometry} {bytes : Nat}

theorem dataLen_eq (h : g.Covers bytes) :
    g.dataLen = pagesCovering bytes g.pageLevel * 2 ^ g.pageLevel := by
  rw [h.valid.dataLen, h.pageNum_eq]

theorem pageSize_eq (h : g.Covers bytes) : g.pageSize = 2 ^ g.pageLevel :=
  bytesOfPages_one g.pageLevel h.valid.fits.2.2

theorem le_dataLen (h : g.Covers bytes) : bytes ≤ g.dataLen := by
  rw [h.dataLen_eq]
  exact le_pagesCovering_mul bytes g.pageLevel

theorem dataLen_lt (h : g.Covers bytes) (hbytes : 0 < bytes) :
    g.dataLen < bytes + g.pageSize := by
  rw [h.dataLen_eq, h.pageSize_eq]
  exact pagesCovering_mul_lt g.pageLevel hbytes

theorem dataLen_of_zero (h : g.Covers 0) : g.dataLen = g.pageSize := by
  rw [h.dataLen_eq, h.pageSize_eq, pagesCovering_zero, Nat.one_mul]

end Covers

theorem Valid.pageNum_pos {g : Geometry} (h : g.Valid) : 1 ≤ g.pageNum.toNat := by
  have hne : g.pageNum.toNat ≠ 0 := fun hzero => h.pageNum_ne (UInt32.toNat_inj.mp hzero)
  omega

theorem Valid.covers_dataLen {g : Geometry} (h : g.Valid) : g.Covers g.dataLen := by
  refine ⟨h, ?_⟩
  rw [h.dataLen, pagesCovering_mul g.pageLevel h.pageNum_pos]

theorem covers_of_lt {way level bytes : Nat} (hfits : LevelFits way level)
    (hpages : pagesCovering bytes level < 2 ^ 32) :
    Covers ⟨way, level, UInt32.ofNat (pagesCovering bytes level)⟩ bytes := by
  have hpos := pagesCovering_pos bytes level
  have hnum : (UInt32.ofNat (pagesCovering bytes level)).toNat = pagesCovering bytes level :=
    UInt32.toNat_ofNat_of_lt hpages
  refine ⟨⟨hfits, ?_⟩, hnum⟩
  intro hzero
  change UInt32.ofNat (pagesCovering bytes level) = 0 at hzero
  rw [hzero, UInt32.toNat_zero] at hnum
  omega

end Geometry

/-- The first level from 6 to 11 whose sixteen pages hold more bytes, or else 12. -/
structure FirstLevel (bytes level : Nat) : Prop where
  six_le : 6 ≤ level
  le_twelve : level ≤ 12
  bytes_lt : level < 12 → bytes < 2 ^ (level + 4)
  le_bytes : ∀ i, 6 ≤ i → i < level → 2 ^ (i + 4) ≤ bytes

namespace FirstLevel
variable {bytes first : Nat}

theorem pagesCovering_le_sixteen (h : FirstLevel bytes first) (hfirst : first < 12) {level : Nat}
    (hlevel : first ≤ level) : pagesCovering bytes level ≤ 16 := by
  have hbytes : bytes < 2 ^ first * 2 ^ 4 := by
    rw [← Nat.pow_add]
    exact h.bytes_lt hfirst
  have hpow : 2 ^ first ≤ 2 ^ level := Nat.pow_le_pow_right (by decide) hlevel
  rw [pagesCovering_le_iff bytes level (by decide)]
  omega

theorem eq_twelve (h : FirstLevel bytes first) (hbytes : 2 ^ 15 ≤ bytes) : first = 12 := by
  by_contra hne
  have hle := h.le_twelve
  have hlt : bytes < 2 ^ (first + 4) := h.bytes_lt (by omega)
  have hpow : 2 ^ (first + 4) ≤ 2 ^ 15 := Nat.pow_le_pow_right (by decide) (by omega)
  omega

theorem of_find {found : Option Nat}
    (h : (List.range' 6 6).find? (fun level => bytes < 2 ^ (level + 4)) = found) :
    FirstLevel bytes (found.getD 12) := by
  cases found with
  | none =>
    rw [List.find?_range'_eq_none] at h
    refine ⟨by decide, by decide, fun hlt => absurd hlt (by decide), ?_⟩
    intro i hge hlt
    simpa using h i hge hlt
  | some level =>
    obtain ⟨hbytes, hmem, hbefore⟩ := List.find?_range'_eq_some.mp h
    have hrange := List.mem_range'_1.mp hmem
    refine ⟨hrange.1, Nat.le_of_lt hrange.2, fun _ => by simpa using hbytes, ?_⟩
    intro i hge hlt
    simpa using hbefore i hge hlt

end FirstLevel

theorem minPageLevel_eq {way : Nat} (h : minWay ≤ way ∧ way ≤ maxWay) :
    minPageLevel way = .ok (8 - 8 / way) := by
  have hpos : 0 < way := Nat.lt_of_lt_of_le (by decide) h.1
  exact if_neg (Nat.ne_of_gt hpos)

theorem least_level_cases {way : Nat} (h : minWay ≤ way ∧ way ≤ maxWay) :
    8 - 8 / way = 6 ∨ 8 - 8 / way = 7 := by
  rcases way_cases h with rfl | rfl | rfl | rfl | rfl
  all_goals decide

namespace Budget
variable {budget : Budget}

/-- The first level is raised to the least of the way, which is the next one at most. -/
theorem pageLevel_eq (h : minWay ≤ budget.way ∧ budget.way ≤ maxWay) :
    ∃ first, FirstLevel budget.bytes first ∧
      budget.pageLevel = .ok (max (8 - 8 / budget.way) first) := by
  have hleast := least_level_cases h
  rw [pageLevel]
  cases hfind : (List.range' 6 6).find? fun level => budget.bytes < 2 ^ (level + 4) with
  | none =>
    refine ⟨12, FirstLevel.of_find hfind, ?_⟩
    rw [Nat.max_eq_right (by omega)]
  | some level =>
    have hfirst : FirstLevel budget.bytes level := FirstLevel.of_find hfind
    have hsix := hfirst.six_le
    refine ⟨level, hfirst, ?_⟩
    dsimp only
    rw [minPageLevel_eq h, ok_bind]
    by_cases hraise : level < 8 - 8 / budget.way
    · -- The level is six and the least seven, so that one step up is enough.
      rw [if_pos hraise]
      exact congrArg Except.ok (by omega)
    · rw [if_neg hraise]
      exact congrArg Except.ok (by omega)

/-- What a geometry has to be for a budget: of the way and of the level that are asked for, and
with no page more than the bytes need. -/
structure Sizes (budget : Budget) (g : Geometry) : Prop where
  way_eq : g.way = budget.way
  pageLevel_eq : ∃ first, FirstLevel budget.bytes first ∧
    g.pageLevel = max (8 - 8 / budget.way) first
  pageNum_pos : 1 ≤ g.pageNum.toNat
  pageNum_le : g.pageNum.toNat ≤ 2 ^ 31 - 1
  bytes_le : budget.bytes ≤ g.dataLen
  dataLen_lt : 0 < budget.bytes → g.dataLen < budget.bytes + g.pageSize
  dataLen_eq : budget.bytes = 0 → g.dataLen = g.pageSize
  pageNum_le_sixteen : g.pageLevel < 12 → g.pageNum.toNat ≤ 16
  check_eq : g.check = .ok ()

def refusal (budget : Budget) (items : Nat) : Option Refusal :=
  if 2 ^ 31 - 1 < (budget.bytes + 4095) / 4096 then
    some (.tooManyItems items ((budget.bytes + 4095) / 4096))
  else none

theorem Sizes.valid {g : Geometry} (h : budget.Sizes g) : g.Valid :=
  g.delivers_check.of_eq_ok h.check_eq

theorem sizes_of_covers {g : Geometry} {first : Nat} (hcovers : g.Covers budget.bytes)
    (hway : g.way = budget.way) (hfirst : FirstLevel budget.bytes first)
    (hlevel : g.pageLevel = max (8 - 8 / budget.way) first)
    (hpages : pagesCovering budget.bytes g.pageLevel ≤ 2 ^ 31 - 1) : budget.Sizes g := by
  refine ⟨hway, ⟨first, hfirst, hlevel⟩, hcovers.valid.pageNum_pos, ?_, hcovers.le_dataLen,
    hcovers.dataLen_lt, ?_, ?_, hcovers.valid.check⟩
  · rw [hcovers.pageNum_eq]
    exact hpages
  · intro hbytes
    rw [hbytes] at hcovers
    exact hcovers.dataLen_of_zero
  · intro hsmall
    rw [hcovers.pageNum_eq]
    exact hfirst.pagesCovering_le_sixteen (by omega) (by omega)

/-- The pages of a budget are too many just where those of the last level are: a budget of another
level needs sixteen at most. -/
theorem pages_cases {first : Nat} (h : FirstLevel budget.bytes first) (least : Nat)
    (hleast : least ≤ 12) :
    let pages := pagesCovering budget.bytes (max least first)
    (2 ^ 31 - 1 < (budget.bytes + 4095) / 4096 → pages = (budget.bytes + 4095) / 4096) ∧
      (¬2 ^ 31 - 1 < (budget.bytes + 4095) / 4096 → pages ≤ 2 ^ 31 - 1) := by
  have hlast : pagesCovering budget.bytes 12 = max ((budget.bytes + 4095) / 4096) 1 := rfl
  have hle := h.le_twelve
  dsimp only
  by_cases hsmall : first < 12
  · -- Sixteen pages are far from the limit, and so are the bytes that they hold.
    have hsixteen := h.pagesCovering_le_sixteen hsmall (Nat.le_max_right least first)
    constructor
    · intro hmany
      have htwelve := h.eq_twelve (by omega)
      omega
    · omega
  · have htwelve : max least first = 12 := by omega
    rw [htwelve, hlast]
    omega

theorem geometry_eq {level : Nat} (h : budget.pageLevel = .ok level) (items : Nat) :
    budget.geometry items =
      if 2 ^ 31 - 1 < pagesCovering budget.bytes level then
        refuse (.tooManyItems items (pagesCovering budget.bytes level))
      else .ok ⟨budget.way, level, UInt32.ofNat (pagesCovering budget.bytes level)⟩ := by
  rw [geometry, h, lift_ok, ok_bind]
  rfl

theorem answers_geometry (h : minWay ≤ budget.way ∧ budget.way ≤ maxWay) (items : Nat) :
    Answers budget.Sizes (budget.refusal items) (budget.geometry items) := by
  obtain ⟨first, hfirst, hlevel⟩ := pageLevel_eq h
  have hleast : 8 - 8 / budget.way ≤ 12 := Nat.le_trans (Nat.sub_le _ _) (by decide)
  obtain ⟨hmany, hfew⟩ := pages_cases hfirst (8 - 8 / budget.way) hleast
  rw [geometry_eq hlevel, refusal]
  by_cases hpages : 2 ^ 31 - 1 < (budget.bytes + 4095) / 4096
  · rw [if_pos hpages, hmany hpages, if_pos hpages]
    exact .refuse _
  · have hle := hfew hpages
    have hmax : max (8 - 8 / budget.way) first ≤ maxPageLevel :=
      Nat.le_succ_of_le (Nat.max_le.mpr ⟨hleast, hfirst.le_twelve⟩)
    have hfits : LevelFits budget.way (max (8 - 8 / budget.way) first) :=
      ⟨h, Nat.le_max_left _ _, hmax⟩
    rw [if_neg hpages, if_neg (Nat.not_lt.mpr hle)]
    exact .ok (sizes_of_covers (Geometry.covers_of_lt hfits (by omega)) rfl hfirst rfl hle)

theorem way_estimate (items : Nat) (rate : Float) :
    minWay ≤ (estimate items rate).way ∧ (estimate items rate).way ≤ maxWay :=
  ⟨Nat.le_min.mpr ⟨Nat.le_max_right _ _, by decide⟩, Nat.min_le_right _ _⟩

theorem bytes_estimate_lt (items : Nat) (rate : Float) : (estimate items rate).bytes < 2 ^ 64 :=
  UInt64.toNat_lt _

end Budget

def refusalOfPlan (items : Nat) (rate : Float) : Option Refusal :=
  if rate.isNaN then some (.rateOutOfBounds rate)
  else (Budget.estimate (max items 1) rate).refusal (max items 1)

theorem answers_plan (items : Nat) (rate : Float) :
    Answers (Budget.estimate (max items 1) rate).Sizes (refusalOfPlan items rate)
      (plan items rate) := by
  rw [plan, refusalOfPlan]
  by_cases hnan : rate.isNaN
  · rw [if_pos hnan, if_pos hnan]
    exact .refuse _
  · rw [if_neg hnan, if_neg hnan]
    exact Budget.answers_geometry (Budget.way_estimate _ _) _

end PagedFilter
