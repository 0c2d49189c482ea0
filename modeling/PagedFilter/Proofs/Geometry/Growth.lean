import PagedFilter.Proofs.Geometry.Overriding
import PagedFilter.Proofs.Rounding.Scaling
/-! A larger budget never gets smaller pages or fewer bytes. -/
namespace PagedFilter

theorem pages_eq_lower (n : Nat) {level level' : Nat} (hlevel : level ≤ level') :
    n * 2 ^ level' = n * 2 ^ (level' - level) * 2 ^ level := by
  rw [Nat.mul_assoc, ← Nat.pow_add, Nat.sub_add_cancel hlevel]

theorem lower_pages_pos {n : Nat} (hn : 1 ≤ n) (level level' : Nat) :
    1 ≤ n * 2 ^ (level' - level) :=
  Nat.mul_pos hn (Nat.two_pow_pos _)

theorem pagesCovering_mul_mono {size size' level level' : Nat} (hsize : size ≤ size')
    (hlevel : level ≤ level') :
    pagesCovering size level * 2 ^ level ≤ pagesCovering size' level' * 2 ^ level' := by
  have hpos := lower_pages_pos (pagesCovering_pos size' level') level level'
  have hholds := hsize.trans (le_pagesCovering_mul size' level')
  rw [pages_eq_lower _ hlevel] at hholds ⊢
  exact Nat.mul_le_mul_right _ ((pagesCovering_le_iff size level hpos).mpr hholds)

/-- Pages that were covered themselves are covered by the pages that their bytes need. -/
theorem pagesCovering_compose (size : Nat) {level level' : Nat} (hlevel : level ≤ level') :
    pagesCovering (pagesCovering size level * 2 ^ level) level' = pagesCovering size level' := by
  apply Nat.le_antisymm
  · rw [pagesCovering_le_iff _ _ (pagesCovering_pos size level')]
    exact pagesCovering_mul_mono (Nat.le_refl size) hlevel
  · rw [pagesCovering_le_iff _ _ (pagesCovering_pos _ level')]
    exact (le_pagesCovering_mul size level).trans (le_pagesCovering_mul _ level')

namespace Geometry
variable {g g' planned : Geometry} {bytes bytes' : Nat}

theorem Covers.dataLen_mono (h : g.Covers bytes) (h' : g'.Covers bytes') (hbytes : bytes ≤ bytes')
    (hlevel : g.pageLevel ≤ g'.pageLevel) : g.dataLen ≤ g'.dataLen := by
  rw [h.dataLen_eq, h'.dataLen_eq]
  exact pagesCovering_mul_mono hbytes hlevel

theorem Covers.trans (h : g.Covers planned.dataLen) (hplanned : planned.Covers bytes)
    (hlevel : planned.pageLevel ≤ g.pageLevel) : g.Covers bytes := by
  refine ⟨h.valid, ?_⟩
  rw [h.pageNum_eq, hplanned.dataLen_eq, pagesCovering_compose bytes hlevel]

theorem Replaces.covers {way : Nat} (h : g.Replaces planned way) (hplanned : planned.Covers bytes) :
    g.Covers bytes := by
  have hvalid : g.Valid := g.delivers_check.of_eq_ok h.check_eq
  have hstep : g.Covers planned.dataLen := ⟨hvalid, h.pageNum_eq⟩
  refine hstep.trans hplanned ?_
  rw [h.pageLevel_eq]
  exact Nat.le_max_left _ _

end Geometry

theorem FirstLevel.mono {bytes bytes' first first' : Nat} (h : FirstLevel bytes first)
    (h' : FirstLevel bytes' first') (hbytes : bytes ≤ bytes') : first ≤ first' := by
  by_contra hlt
  have htwelve := h.le_twelve
  have hheld := h.le_bytes first' h'.six_le (by omega)
  have hnotHeld := h'.bytes_lt (by omega)
  omega

theorem least_level_mono {way way' : Nat} (h : way ≤ way') (hpos : 0 < way) :
    8 - 8 / way ≤ 8 - 8 / way' :=
  Nat.sub_le_sub_left (Nat.div_le_div_left h hpos) 8

/-- Where the second is a geometry so is the first, with no larger pages and no more bytes. -/
def Within (x y : Except Failure Geometry) : Prop :=
  ∀ g', y = .ok g' → ∃ g, x = .ok g ∧ g.pageLevel ≤ g'.pageLevel ∧ g.dataLen ≤ g'.dataLen

namespace Budget
variable {b b' : Budget} {g g' : Geometry}

theorem Sizes.covers (h : b.Sizes g) : g.Covers b.bytes := by
  have hdataLen := h.valid.dataLen
  have hpageSize : g.pageSize = 2 ^ g.pageLevel := bytesOfPages_one g.pageLevel h.valid.fits.2.2
  refine ⟨h.valid, Nat.le_antisymm ?_ ?_⟩
  · by_cases hzero : b.bytes = 0
    · have hone := h.dataLen_eq hzero
      rw [hdataLen, hpageSize] at hone
      have hpages : g.pageNum.toNat = 1 :=
        Nat.eq_of_mul_eq_mul_right (Nat.two_pow_pos _) (hone.trans (Nat.one_mul _).symm)
      rw [hpages]
      exact pagesCovering_pos _ _
    · have hlt := h.dataLen_lt (Nat.pos_of_ne_zero hzero)
      have hholds := le_pagesCovering_mul b.bytes g.pageLevel
      rw [hdataLen, hpageSize] at hlt
      apply Nat.le_of_lt_succ
      apply Nat.lt_of_mul_lt_mul_right (a := 2 ^ g.pageLevel)
      rw [Nat.succ_mul]
      omega
  · rw [pagesCovering_le_iff _ _ h.pageNum_pos, ← hdataLen]
    exact h.bytes_le

theorem Sizes.pageLevel_le (h : b.Sizes g) (h' : b'.Sizes g') (hbytes : b.bytes ≤ b'.bytes)
    {least : Nat} (hleast : 8 - 8 / b.way ≤ max (8 - 8 / b'.way) least) :
    max g.pageLevel least ≤ max g'.pageLevel least := by
  obtain ⟨first, hfirst, hlevel⟩ := h.pageLevel_eq
  obtain ⟨first', hfirst', hlevel'⟩ := h'.pageLevel_eq
  have hmono := hfirst.mono hfirst' hbytes
  omega

theorem refusal_mono (hbytes : b.bytes ≤ b'.bytes) (items items' : Nat)
    (h : b'.refusal items' = none) : b.refusal items = none := by
  rw [refusal] at h ⊢
  split_ifs at h
  rw [if_neg (by omega)]

theorem exists_sizes (h : minWay ≤ b.way ∧ b.way ≤ maxWay)
    (h' : minWay ≤ b'.way ∧ b'.way ≤ maxWay) (hbytes : b.bytes ≤ b'.bytes) {items' : Nat}
    (hg' : b'.geometry items' = .ok g') (items : Nat) :
    b'.Sizes g' ∧ ∃ g, b.geometry items = .ok g ∧ b.Sizes g := by
  obtain ⟨hrule, hsizes'⟩ := (answers_geometry h' items').of_eq_ok hg'
  exact ⟨hsizes', (answers_geometry h items).made (refusal_mono hbytes items items' hrule)⟩

/-- A smaller budget of no greater way is planned within a larger one. -/
theorem within_geometry (h : minWay ≤ b.way ∧ b.way ≤ maxWay)
    (h' : minWay ≤ b'.way ∧ b'.way ≤ maxWay) (hway : b.way ≤ b'.way) (hbytes : b.bytes ≤ b'.bytes)
    (items items' : Nat) : Within (b.geometry items) (b'.geometry items') := by
  intro g' hg'
  obtain ⟨hsizes', g, hg, hsizes⟩ := exists_sizes h h' hbytes hg' items
  have hleast := least_level_mono hway (Nat.lt_of_lt_of_le (by decide) h.1)
  have hlevel := hsizes.pageLevel_le hsizes' hbytes (hleast.trans (Nat.le_max_left _ 0))
  rw [Nat.max_zero, Nat.max_zero] at hlevel
  exact ⟨g, hg, hlevel, hsizes.covers.dataLen_mono hsizes'.covers hbytes hlevel⟩

theorem estimate_mono (rate : Float) {items items' : Nat} (h : items ≤ items')
    (hlt : items' < 2 ^ 64) :
    (estimate items rate).way = (estimate items' rate).way ∧
      (estimate items rate).bytes ≤ (estimate items' rate).bytes :=
  ⟨rfl, Rounding.scaled_mono _ h hlt⟩

end Budget

def plannedBudget (items : Nat) (rate : Float) : Budget := Budget.estimate (max items 1) rate

section Requests
variable {items items' : Nat} {rate rate' : Float}

theorem plan_eq_geometry (items : Nat) (h : rate.isNaN = false) :
    plan items rate = (plannedBudget items rate).geometry (max items 1) := by
  rw [plan, h]
  rfl

theorem isNaN_of_plan_eq_ok {g : Geometry} (h : plan items rate = .ok g) : rate.isNaN = false := by
  cases hnan : rate.isNaN with
  | false => rfl
  | true =>
    rw [plan, hnan] at h
    cases h

theorem within_plan (hnumber : rate.isNaN = false)
    (hway : (plannedBudget items rate).way ≤ (plannedBudget items' rate').way)
    (hbytes : (plannedBudget items rate).bytes ≤ (plannedBudget items' rate').bytes) :
    Within (plan items rate) (plan items' rate') := by
  intro g' hg'
  have hnumber' := isNaN_of_plan_eq_ok hg'
  rw [plan_eq_geometry items' hnumber'] at hg'
  rw [plan_eq_geometry items hnumber]
  exact Budget.within_geometry (Budget.way_estimate _ _) (Budget.way_estimate _ _) hway hbytes
    _ _ g' hg'

/-- The least level that a way asks for is raised to that of another, which is seven but for the
least way of all. -/
theorem least_level_le_max {way₁ way₂ way : Nat} (h₁ : minWay ≤ way₁ ∧ way₁ ≤ maxWay)
    (h : way₁ ≤ way₂ ∨ minWay < way) :
    8 - 8 / way₁ ≤ max (8 - 8 / way₂) (8 - 8 / way) := by
  rcases h with hle | hlt
  · have hpos : 0 < way₁ := Nat.lt_of_lt_of_le (by decide) h₁.1
    exact (least_level_mono hle hpos).trans (Nat.le_max_left _ _)
  · have hseven : 8 - 8 / 5 ≤ 8 - 8 / way := least_level_mono hlt (by decide)
    have hcases := least_level_cases h₁
    omega

/-- Budgets need not be of one way where the way that is asked for takes larger pages than the
least of all. -/
theorem within_override (hnumber : rate.isNaN = false) {way : Nat}
    (hway : minWay ≤ way ∧ way ≤ maxWay)
    (hways : (plannedBudget items rate).way ≤ (plannedBudget items' rate').way ∨ minWay < way)
    (hbytes : (plannedBudget items rate).bytes ≤ (plannedBudget items' rate').bytes) :
    Within (FilterRequest.geometry ⟨items, rate, some way⟩)
      (FilterRequest.geometry ⟨items', rate', some way⟩) := by
  intro g' hg'
  have hover := FilterRequest.overrides_plan items rate way
  have hover' := FilterRequest.overrides_plan items' rate' way
  cases hplan' : plan items' rate' with
  | error failure =>
    rw [hplan'] at hover'
    cases hg'.symm.trans hover'
  | ok planned' =>
    rw [hplan'] at hover'
    rw [plan_eq_geometry items' (isNaN_of_plan_eq_ok hplan')] at hplan'
    obtain ⟨hsizes', planned, hplan, hsizes⟩ := Budget.exists_sizes (b := plannedBudget items rate)
      (Budget.way_estimate _ _) (Budget.way_estimate _ _) hbytes hplan' (max items 1)
    rw [plan_eq_geometry items hnumber, hplan] at hover
    obtain ⟨-, hreplaces'⟩ := Answers.of_eq_ok hover' hg'
    obtain ⟨g, hg, hreplaces⟩ := Answers.made hover (if_pos hway)
    have hlevel : g.pageLevel ≤ g'.pageLevel := by
      rw [hreplaces.pageLevel_eq, hreplaces'.pageLevel_eq]
      exact hsizes.pageLevel_le hsizes' hbytes
        (least_level_le_max (Budget.way_estimate _ _) hways)
    exact ⟨g, hg, hlevel, (hreplaces.covers hsizes.covers).dataLen_mono
      (hreplaces'.covers hsizes'.covers) hbytes hlevel⟩

end Requests

/-- Of two budgets the smaller is planned within the larger, where its way is no greater; so are
plans, and so are requests that ask for one way. More items are a larger budget at one rate. -/
theorem planning_grows :
    (∀ b b' : Budget, minWay ≤ b.way ∧ b.way ≤ maxWay → minWay ≤ b'.way ∧ b'.way ≤ maxWay →
      b.way ≤ b'.way → b.bytes ≤ b'.bytes →
        ∀ items items', Within (b.geometry items) (b'.geometry items')) ∧
    (∀ items items' rate rate', rate.isNaN = false →
      (plannedBudget items rate).bytes ≤ (plannedBudget items' rate').bytes →
        ((plannedBudget items rate).way ≤ (plannedBudget items' rate').way →
          Within (plan items rate) (plan items' rate')) ∧
        ∀ way, minWay ≤ way ∧ way ≤ maxWay →
          (plannedBudget items rate).way ≤ (plannedBudget items' rate').way ∨ minWay < way →
            ∀ ways ways', Within (FilterRequest.ofWays items rate (ways ++ [way])).geometry
              (FilterRequest.ofWays items' rate' (ways' ++ [way])).geometry) ∧
    ∀ items items' rate, items ≤ items' → items' < 2 ^ 64 →
      (plannedBudget items rate).way = (plannedBudget items' rate).way ∧
        (plannedBudget items rate).bytes ≤ (plannedBudget items' rate).bytes := by
  refine ⟨fun b b' => Budget.within_geometry, ?_, ?_⟩
  · intro items items' rate rate' hnumber hbytes
    refine ⟨fun hway => within_plan hnumber hway hbytes, ?_⟩
    intro way hway hways ways ways'
    rw [FilterRequest.ofWays_concat, FilterRequest.ofWays_concat]
    exact within_override hnumber hway hways hbytes
  · intro items items' rate hitems hlt
    exact Budget.estimate_mono rate (by omega) (by omega)

/-- One byte more halves the number of pages here. -/
theorem planning_grows_over_a_level :
    Budget.geometry ⟨7, 32767⟩ 272000 = .ok ⟨7, 11, 16⟩ ∧
    Budget.geometry ⟨7, 32768⟩ 273000 = .ok ⟨7, 12, 8⟩ ∧
    Within (Budget.geometry ⟨7, 32767⟩ 272000) (Budget.geometry ⟨7, 32768⟩ 273000) ∧
    Within (plan 10 0.01) (plan 1000 0.01) ∧
    Within (FilterRequest.ofWays 10 0.01 [4]).geometry
      (FilterRequest.ofWays 1000 0.01 [6, 4]).geometry := by
  obtain ⟨hbudgets, hrequests, hitems⟩ := planning_grows
  obtain ⟨hway, hbytes⟩ := hitems 10 1000 0.01 (by decide) (by decide)
  obtain ⟨hplans, hways⟩ := hrequests 10 1000 0.01 0.01 (by decide +kernel) hbytes
  refine ⟨by decide +kernel, by decide +kernel, ?_, hplans hway.le, ?_⟩
  · exact hbudgets ⟨7, 32767⟩ ⟨7, 32768⟩ (by decide) (by decide) (by decide) (by decide) _ _
  · exact hways 4 (by decide) (.inl hway.le) [] [6]

end PagedFilter
