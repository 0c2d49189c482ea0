import PagedFilter.Proofs.Geometry.Acceptance
import PagedFilter.Storage.PagedBits
/-! Well-formed bits are just those that can be rebuilt from their own buffer. -/
namespace PagedFilter.PagedBits

/-- The buffer is a positive number of pages, of a level for which page sizes are exact. -/
structure Whole (bits : PagedBits) : Prop where
  level_le : bits.pageLevel ≤ maxPageLevel
  pages_eq : Reciprocal.of bits.pageNum = .ok bits.pages
  size_data : bits.data.size = bits.pageNum.toNat * 2 ^ bits.pageLevel

/-- The representation invariant of a filter of a way. -/
structure WellFormed (way : Nat) (bits : PagedBits) : Prop extends Whole bits where
  fits : LevelFits way bits.pageLevel

theorem Whole.pageNum_ne {bits : PagedBits} (h : bits.Whole) : bits.pageNum ≠ 0 :=
  (Reciprocal.divisor_of_eq_ok h.pages_eq).1

theorem Whole.pageNum_pos {bits : PagedBits} (h : bits.Whole) : 1 ≤ bits.pageNum.toNat := by
  have hne : bits.pageNum.toNat ≠ 0 := fun hz => h.pageNum_ne (UInt32.toNat_inj.mp hz)
  omega

theorem Whole.size_lt {bits : PagedBits} (h : bits.Whole) : bits.data.size < 2 ^ 45 := by
  rw [h.size_data]
  exact pages_mul_lt bits.pageNum h.level_le

theorem WellFormed.way_le {way : Nat} {bits : PagedBits} (h : bits.WellFormed way) : way ≤ 8 :=
  h.fits.1.2

structure SamePages (bits other : PagedBits) : Prop where
  level_eq : other.pageLevel = bits.pageLevel
  pages_eq : other.pages = bits.pages
  size_eq : other.data.size = bits.data.size

namespace SamePages
variable {a b c : PagedBits}

theorem refl (a : PagedBits) : SamePages a a := ⟨rfl, rfl, rfl⟩

theorem trans (hab : SamePages a b) (hbc : SamePages b c) : SamePages a c :=
  ⟨hbc.level_eq.trans hab.level_eq, hbc.pages_eq.trans hab.pages_eq,
    hbc.size_eq.trans hab.size_eq⟩

theorem pageNum_eq (hab : SamePages a b) : b.pageNum = a.pageNum := by
  rw [pageNum, pageNum, hab.pages_eq]

theorem whole (hab : SamePages a b) (h : a.Whole) : b.Whole := by
  refine ⟨hab.level_eq ▸ h.level_le, ?_, ?_⟩
  · rw [hab.pageNum_eq, hab.pages_eq, h.pages_eq]
  · rw [hab.size_eq, hab.pageNum_eq, hab.level_eq, h.size_data]

theorem wellFormed {way : Nat} (hab : SamePages a b) (h : a.WellFormed way) : b.WellFormed way :=
  ⟨hab.whole h.toWhole, hab.level_eq ▸ h.fits⟩

theorem clear (a : PagedBits) : SamePages a a.clear := ⟨rfl, rfl, size_zeros _⟩

end SamePages

theorem answers_create (way level : Nat) (pageNum : UInt32) :
    Answers (fun bits => bits.WellFormed way ∧ bits.pageLevel = level ∧
        bits.pageNum = pageNum ∧ bits.data = zeros (pageNum.toNat * 2 ^ level) ∧
        bits.uniqueCount = 0)
      (refusalOfGeometry way level pageNum) (create way level pageNum) := by
  rw [create]
  refine (Geometry.answers_create way level pageNum).bind_ok ?_
  rintro g ⟨rfl, hvalid⟩
  obtain ⟨pages, hpages, hdivisor⟩ := Reciprocal.of_ne_zero pageNum hvalid.pageNum_ne
  rw [hpages, hvalid.dataLen]
  refine ⟨_, rfl, ⟨⟨hvalid.fits.2.2, ?_, ?_⟩, hvalid.fits⟩, rfl, hdivisor, rfl, rfl⟩
  · rw [PagedBits.pageNum, hdivisor, hpages]
  · rw [size_zeros, PagedBits.pageNum, hdivisor]

theorem delivers_create (way level : Nat) (pageNum : UInt32) :
    Delivers (fun bits => bits.WellFormed way ∧ bits.pageLevel = level ∧
      bits.pageNum = pageNum ∧ bits.data = zeros (pageNum.toNat * 2 ^ level) ∧
      bits.uniqueCount = 0) (create way level pageNum) :=
  (answers_create way level pageNum).delivers

theorem answers_ofBytes (way level : Nat) (data : ByteArray) (uniqueCount : UInt64) :
    Answers (fun bits => bits.WellFormed way ∧ bits.pageLevel = level ∧ bits.data = data ∧
        bits.uniqueCount = uniqueCount)
      (refusalOfBuffer way level data.size) (ofBytes way level data uniqueCount) := by
  rw [ofBytes, refusalOfBuffer]
  refine (answers_checkPageLevel way level).bind ?_
  intro _ hfits
  refine (answers_countPages data.size level hfits.2.2).bind_ok ?_
  rintro n ⟨hn, hsize⟩
  obtain ⟨pages, hpages, hdivisor⟩ := Reciprocal.of_ne_zero n hn
  rw [hpages]
  refine ⟨_, rfl, ⟨⟨hfits.2.2, ?_, ?_⟩, hfits⟩, rfl, rfl, rfl⟩
  · rw [pageNum, hdivisor, hpages]
  · rw [pageNum, hdivisor, hsize]

theorem delivers_ofBytes (way level : Nat) (data : ByteArray) (uniqueCount : UInt64) :
    Delivers (fun bits => bits.WellFormed way ∧ bits.pageLevel = level ∧ bits.data = data ∧
      bits.uniqueCount = uniqueCount) (ofBytes way level data uniqueCount) :=
  (answers_ofBytes way level data uniqueCount).delivers

/-- Well-formed bits are rebuilt from their own buffer, page number and reciprocal included. -/
theorem WellFormed.ofBytes_eq {way : Nat} {bits : PagedBits} (h : bits.WellFormed way) :
    ofBytes way bits.pageLevel bits.data bits.uniqueCount = .ok bits := by
  rw [ofBytes, checkPageLevel_of_fits h.fits, ok_bind, h.size_data,
    countPages_mul _ _ h.pageNum_ne h.level_le, ok_bind, h.pages_eq, lift_ok, ok_bind]
  rfl

theorem ofBytes_eq_ok_iff {way level : Nat} {data : ByteArray} {uniqueCount : UInt64}
    {bits : PagedBits} :
    ofBytes way level data uniqueCount = .ok bits ↔
      bits.WellFormed way ∧ bits.pageLevel = level ∧ bits.data = data ∧
        bits.uniqueCount = uniqueCount := by
  constructor
  · exact (delivers_ofBytes way level data uniqueCount).of_eq_ok
  · rintro ⟨h, rfl, rfl, rfl⟩
    exact h.ofBytes_eq

theorem create_of_valid {way level : Nat} {pageNum : UInt32}
    (h : (⟨way, level, pageNum⟩ : Geometry).Valid) :
    ∃ bits, create way level pageNum = .ok bits := by
  obtain ⟨pages, hpages, -⟩ := Reciprocal.of_ne_zero pageNum h.pageNum_ne
  rw [create, Geometry.create, h.check, hpages]
  exact ⟨_, rfl⟩

theorem ofBytes_of_valid {g : Geometry} (h : g.Valid) {data : ByteArray}
    (hsize : data.size = g.dataLen) (uniqueCount : UInt64) :
    ∃ bits, ofBytes g.way g.pageLevel data uniqueCount = .ok bits ∧ bits.pageNum = g.pageNum := by
  obtain ⟨pages, hpages, hdivisor⟩ := Reciprocal.of_ne_zero g.pageNum h.pageNum_ne
  refine ⟨⟨data, g.pageLevel, pages, uniqueCount⟩, ofBytes_eq_ok_iff.mpr ?_, hdivisor⟩
  refine ⟨⟨⟨h.fits.2.2, ?_, ?_⟩, h.fits⟩, rfl, rfl, rfl⟩
  · rw [pageNum, hdivisor, hpages]
  · rw [pageNum, hdivisor, hsize, h.dataLen]

theorem wellFormed_three_pages (data : ByteArray) (hsize : data.size = 192)
    (uniqueCount : UInt64) : WellFormed 4 ⟨data, 6, ⟨0x5555555555555556, 3⟩, uniqueCount⟩ := by
  have hpages : Reciprocal.of 3 = .ok ⟨0x5555555555555556, 3⟩ := by simp [Reciprocal.of]
  exact ⟨⟨(by decide : 6 ≤ maxPageLevel), hpages, hsize⟩, (by decide : LevelFits 4 6)⟩

end PagedFilter.PagedBits
