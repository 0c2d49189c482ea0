import PagedFilter.Request
import PagedFilter.Proofs.Geometry.Planning
/-! A request that asks for a way gets the planned bytes in pages that are large enough for it. -/
namespace PagedFilter

def refusalOfWay (way : Nat) : Option Refusal :=
  if 4 ≤ way ∧ way ≤ 8 then none else some (.invalidWay way)

theorem answers_checkWay (way : Nat) :
    Answers (fun _ => minWay ≤ way ∧ way ≤ maxWay) (refusalOfWay way)
      (liftM (checkWay way) : Except Failure Unit) := by
  rw [checkWay, refusalOfWay]
  by_cases hway : minWay ≤ way ∧ way ≤ maxWay
  · rw [if_pos hway, if_pos (show 4 ≤ way ∧ way ≤ 8 from hway)]
    exact .ok hway
  · rw [if_neg hway, if_neg (show ¬(4 ≤ way ∧ way ≤ 8) from hway)]
    exact .refuse _

namespace Geometry

/-- The planned bytes, in just the pages that they need, of a level that is fit for the way. -/
structure Replaces (g planned : Geometry) (way : Nat) : Prop where
  way_eq : g.way = way
  pageLevel_eq : g.pageLevel = max planned.pageLevel (8 - 8 / way)
  dataLen_le : planned.dataLen ≤ g.dataLen
  dataLen_lt : g.dataLen < planned.dataLen + g.pageSize
  pageNum_eq : g.pageNum.toNat = pagesCovering planned.dataLen g.pageLevel
  pageNum_kept : g.pageLevel = planned.pageLevel → g.pageNum = planned.pageNum
  eq_planned : way = planned.way → g = planned
  check_eq : g.check = .ok ()

variable {g planned : Geometry} {way : Nat}

theorem Valid.dataLen_pos (h : g.Valid) : 0 < g.dataLen := by
  rw [h.dataLen]
  exact Nat.mul_pos h.pageNum_pos (Nat.two_pow_pos _)

theorem Valid.least_le (h : g.Valid) : 8 - 8 / g.way ≤ g.pageLevel :=
  h.fits.2.1

/-- Larger pages for the bytes of a geometry are no more than its own. -/
theorem Valid.pagesCovering_le (h : g.Valid) {level : Nat} (hlevel : g.pageLevel ≤ level) :
    pagesCovering g.dataLen level ≤ g.pageNum.toNat := by
  rw [pagesCovering_le_iff _ _ h.pageNum_pos, h.dataLen]
  exact Nat.mul_le_mul_left _ (Nat.pow_le_pow_right (by decide) hlevel)

theorem Covers.replaces (h : g.Covers planned.dataLen) (hplanned : planned.Valid)
    (hway : g.way = way) (hlevel : g.pageLevel = max planned.pageLevel (8 - 8 / way)) :
    g.Replaces planned way := by
  have hkept : g.pageLevel = planned.pageLevel → g.pageNum = planned.pageNum := by
    intro hsame
    apply UInt32.toNat_inj.mp
    rw [h.pageNum_eq, hplanned.covers_dataLen.pageNum_eq, hsame]
  refine ⟨hway, hlevel, h.le_dataLen, h.dataLen_lt hplanned.dataLen_pos, h.pageNum_eq, hkept, ?_,
    h.valid.check⟩
  intro hsame
  have hleast := hplanned.least_le
  rw [hsame, Nat.max_eq_left hleast] at hlevel
  have hpages := hkept hlevel
  cases g
  cases planned
  exact (Geometry.mk.injEq ..).mpr ⟨hway.trans hsame, hlevel, hpages⟩

end Geometry

/-- The refusal of the plan, or else of the way, or else a geometry in place of the planned one. -/
def Overrides (way : Nat) : Except Failure Geometry → Except Failure Geometry → Prop
  | .error failure, x => x = .error failure
  | .ok planned, x => Answers (fun g => g.Replaces planned way) (refusalOfWay way) x

namespace FilterRequest

theorem answers_overrideWay {planned : Geometry} (h : planned.Valid) (way : Nat) :
    Answers (fun g => g.Replaces planned way) (refusalOfWay way) (overrideWay planned way) := by
  rw [overrideWay]
  refine (answers_checkWay way).bind_ok ?_
  intro _ hway
  have hmax : planned.pageLevel ≤ maxPageLevel := h.fits.2.2
  rw [minPageLevel_eq hway, lift_ok, ok_bind]
  by_cases hraise : planned.pageLevel < 8 - 8 / way
  · -- Larger pages are no more than the planned ones, so their number still fits its field.
    have hpages := h.pagesCovering_le (Nat.le_of_lt hraise)
    have hfits : LevelFits way (8 - 8 / way) :=
      ⟨hway, Nat.le_refl _, Nat.le_trans (Nat.sub_le _ _) (by decide)⟩
    have hcovers := Geometry.covers_of_lt hfits (Nat.lt_of_le_of_lt hpages planned.pageNum.toNat_lt)
    refine ⟨_, if_pos hraise, hcovers.replaces h rfl ?_⟩
    exact (Nat.max_eq_right (Nat.le_of_lt hraise)).symm
  · have hfits : LevelFits way planned.pageLevel := ⟨hway, Nat.le_of_not_lt hraise, hmax⟩
    have hcovers : Geometry.Covers ⟨way, planned.pageLevel, planned.pageNum⟩ planned.dataLen :=
      ⟨⟨hfits, h.pageNum_ne⟩, h.covers_dataLen.pageNum_eq⟩
    refine ⟨_, if_neg hraise, hcovers.replaces h rfl ?_⟩
    exact (Nat.max_eq_left (Nat.le_of_not_lt hraise)).symm

example : overrideWay ⟨4, 6, 9⟩ 8 = .ok ⟨8, 7, 5⟩ := rfl

theorem geometry_ofRate (items : Nat) (rate : Float) :
    (ofRate items rate).geometry = plan items rate := by
  have hplan := (answers_plan items rate).delivers
  rw [geometry, ofRate]
  cases h : plan items rate with
  | error failure => rfl
  | ok planned =>
    have hcheck := (hplan.of_eq_ok h).check_eq
    dsimp only
    rw [ok_bind, pure_bind, hcheck]
    rfl

theorem overrides_plan (items : Nat) (rate : Float) (way : Nat) :
    Overrides way (plan items rate) (geometry ⟨items, rate, some way⟩) := by
  have hplan := (answers_plan items rate).delivers
  rw [geometry]
  cases h : plan items rate with
  | error failure => rfl
  | ok planned =>
    have hvalid := (hplan.of_eq_ok h).valid
    refine (answers_overrideWay hvalid way).bind_ok ?_
    intro g hg
    refine ⟨g, ?_, hg⟩
    dsimp only
    rw [hg.check_eq]
    rfl

def ofWays (items : Nat) (rate : Float) (ways : List Nat) : FilterRequest :=
  ways.foldl withWay (ofRate items rate)

theorem items_foldl_withWay (request : FilterRequest) (ways : List Nat) :
    (ways.foldl withWay request).items = request.items ∧
      (ways.foldl withWay request).rate = request.rate := by
  induction ways generalizing request with
  | nil => exact ⟨rfl, rfl⟩
  | cons way ways ih => exact ih (request.withWay way)

theorem ofWays_concat (items : Nat) (rate : Float) (ways : List Nat) (way : Nat) :
    ofWays items rate (ways ++ [way]) = ⟨items, rate, some way⟩ := by
  obtain ⟨hitems, hrate⟩ := items_foldl_withWay (ofRate items rate) ways
  rw [ofWays, List.foldl_append, List.foldl_cons, List.foldl_nil, withWay, hitems, hrate]
  rfl

end FilterRequest
end PagedFilter
