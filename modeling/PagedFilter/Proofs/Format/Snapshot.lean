import PagedFilter.Format.Snapshot
import PagedFilter.Proofs.Filter.EntryPoints
/-! The numbers of a well-formed filter fit the fields of its snapshot. -/
namespace PagedFilter.Snapshot

open PagedView (WellFormed bits)

def ofBits (way : Nat) (b : PagedBits) : Snapshot where
  version := formatVersion
  way := UInt64.ofNat way
  pageLevel := UInt32.ofNat b.pageLevel
  uniqueCount := b.uniqueCount
  data := b.data

theorem ofFilter_eq {F : Type} [StoredFilter F] [StoredView F] {f : F} (h : WellFormed f) :
    ofFilter f = ofBits (PagedView.way f) (bits f) := by
  rw [ofFilter, h.geometry_eq, PagedView.uniqueCount_eq, StoredView.data_eq]
  rfl

theorem ofShared_eq {f : SharedFilter} (h : WellFormed f) :
    ofShared f = ofBits (PagedView.way f) (bits f) := by
  have hgeometry : f.cached = ⟨PagedView.way f, (bits f).pageLevel, (bits f).pageNum⟩ :=
    h.geometry_eq
  have hdata : StoredFilter.data f.inner = (bits f).data := StoredView.data_eq f.inner
  have hcount : KeyFilter.uniqueCount f.inner = (bits f).uniqueCount :=
    PagedView.uniqueCount_eq f.inner
  rw [ofShared, SharedFilter.contents, hgeometry, hdata, hcount]
  rfl

theorem toNat_way_ofBits {way : Nat} {b : PagedBits} (h : b.WellFormed way) :
    (ofBits way b).way.toNat = way :=
  UInt64.toNat_ofNat_of_lt (Nat.lt_of_le_of_lt h.way_le (by decide))

theorem toNat_pageLevel_ofBits {way : Nat} {b : PagedBits} (h : b.WellFormed way) :
    (ofBits way b).pageLevel.toNat = b.pageLevel :=
  UInt32.toNat_ofNat_of_lt (Nat.lt_of_le_of_lt h.level_le (by decide))

theorem toAny_of_version {s : Snapshot} (h : s.version = formatVersion) :
    s.toAny = AnyFilter.ofBytes s.way.toNat s.pageLevel.toNat s.data s.uniqueCount := by
  rw [toAny, checkVersion, if_pos h]
  rfl

theorem toFixed_of_version {s : Snapshot} (h : s.version = formatVersion) (way : Nat) :
    s.toFixed way =
      if s.way.toNat = way then FixedFilter.ofBytes way s.pageLevel.toNat s.data s.uniqueCount
      else refuse (.invalidWay s.way.toNat) := by
  rw [toFixed, checkVersion, if_pos h]
  change (if s.way.toNat ≠ way then _ else _) = _
  rw [ite_not]
  rfl

theorem toAny_ofBits {way : Nat} {b : PagedBits} (h : b.WellFormed way) :
    (ofBits way b).toAny = AnyFilter.ofBytes way b.pageLevel b.data b.uniqueCount := by
  rw [toAny_of_version rfl, toNat_way_ofBits h, toNat_pageLevel_ofBits h]
  rfl

theorem toAny_eq_ok {f : AnyFilter} (h : WellFormed f) : (ofBits f.way f.bits).toAny = .ok f := by
  rw [toAny_ofBits (f.wellFormed_iff.mp h)]
  exact AnyFilter.ofBytes_eq_ok_iff.mpr ⟨h, rfl, rfl, rfl, rfl⟩

/-- A stored filter of one way is a fixed filter of that way and of no other. -/
theorem toFixed_ofBits {way : Nat} {b : PagedBits} (h : b.WellFormed way) :
    (ofBits way b).toFixed way = .ok ⟨b⟩ ∧
      ∀ v, v ≠ way → (ofBits way b).toFixed v = refuse (.invalidWay way) := by
  constructor
  · have hmade : FixedFilter.ofBytes way b.pageLevel b.data b.uniqueCount =
        .ok (⟨b⟩ : FixedFilter way) := by
      rw [FixedFilter.ofBytes, h.ofBytes_eq]
      rfl
    rw [toFixed_of_version rfl, toNat_way_ofBits h, toNat_pageLevel_ofBits h, if_pos rfl]
    exact hmade
  · intro v hne
    rw [toFixed_of_version rfl, toNat_way_ofBits h, if_neg hne.symm]

end PagedFilter.Snapshot
