import PagedFilter.Proofs.Filter.AcceptanceRule
import PagedFilter.Proofs.Session.Reachable
/-! A snapshot restores a filter just where it is the snapshot of that filter. -/
namespace PagedFilter.Snapshot

open PagedView (WellFormed)

theorem toAny_of_ne {s : Snapshot} (h : s.version ≠ formatVersion) :
    s.toAny = refuse (.serialization (.snapshotVersion s.version)) := by
  rw [toAny, checkVersion, if_neg h]
  rfl

theorem toFixed_of_ne {s : Snapshot} (h : s.version ≠ formatVersion) (way : Nat) :
    s.toFixed way = refuse (.serialization (.snapshotVersion s.version)) := by
  rw [toFixed, checkVersion, if_neg h]
  rfl

theorem version_of_toAny {s : Snapshot} {f : AnyFilter} (h : s.toAny = .ok f) :
    s.version = formatVersion := by
  by_contra hversion
  rw [toAny_of_ne hversion] at h
  cases h

theorem version_of_toFixed {s : Snapshot} {way : Nat} {g : FixedFilter way}
    (h : s.toFixed way = .ok g) : s.version = formatVersion := by
  by_contra hversion
  rw [toFixed_of_ne hversion] at h
  cases h

theorem eq_ofBits {s : Snapshot} {way : Nat} {b : PagedBits} (hversion : s.version = formatVersion)
    (hway : way = s.way.toNat) (hlevel : b.pageLevel = s.pageLevel.toNat) (hdata : b.data = s.data)
    (hcount : b.uniqueCount = s.uniqueCount) : s = ofBits way b := by
  rw [ofBits, hway, hlevel, hdata, hcount, UInt64.ofNat_toNat, UInt32.ofNat_toNat, ← hversion]

theorem toAny_eq_ok_iff {s : Snapshot} {f : AnyFilter} :
    s.toAny = .ok f ↔ WellFormed f ∧ s = ofBits f.way f.bits := by
  constructor
  · intro h
    have hversion := version_of_toAny h
    rw [toAny_of_version hversion] at h
    obtain ⟨hf, hway, hlevel, hdata, hcount⟩ := AnyFilter.ofBytes_eq_ok_iff.mp h
    exact ⟨hf, eq_ofBits hversion hway hlevel hdata hcount⟩
  · rintro ⟨hf, rfl⟩
    exact toAny_eq_ok hf

theorem toFixed_eq_ok_iff {s : Snapshot} {way : Nat} {g : FixedFilter way} :
    s.toFixed way = .ok g ↔ g.bits.WellFormed way ∧ s = ofBits way g.bits := by
  constructor
  · intro h
    have hversion := version_of_toFixed h
    rw [toFixed_of_version hversion] at h
    by_cases hway : s.way.toNat = way
    · rw [if_pos hway] at h
      obtain ⟨b, hmade, hg⟩ := bind_eq_ok.mp h
      cases hg
      obtain ⟨hb, hlevel, hdata, hcount⟩ := PagedBits.ofBytes_eq_ok_iff.mp hmade
      exact ⟨hb, eq_ofBits hversion hway.symm hlevel hdata hcount⟩
    · rw [if_neg hway] at h
      cases h
  · rintro ⟨hg, rfl⟩
    exact (toFixed_ofBits hg).1

theorem ofFilter_of_toAny {s : Snapshot} {f : AnyFilter} (h : s.toAny = .ok f) :
    ofFilter f = s := by
  obtain ⟨hf, hs⟩ := toAny_eq_ok_iff.mp h
  rw [ofFilter_eq hf, hs]
  rfl

theorem toFixed_eq_ok_iff_place {s : Snapshot} {way : Nat} {g : FixedFilter way} :
    s.toFixed way = .ok g ↔
      s.way.toNat = way ∧ ∃ f, AnyFilter.ofFixed? g = some f ∧ s.toAny = .ok f := by
  rw [toFixed_eq_ok_iff]
  constructor
  · rintro ⟨hg, rfl⟩
    obtain ⟨f, hplace, hf, hway, hbits⟩ := AnyFilter.ofFixed?_total (g.wellFormed_iff.mpr hg)
    refine ⟨toNat_way_ofBits hg, f, hplace, toAny_eq_ok_iff.mpr ⟨hf, ?_⟩⟩
    rw [hway, hbits]
  · rintro ⟨-, f, hplace, hmade⟩
    obtain ⟨hf, hs⟩ := toAny_eq_ok_iff.mp hmade
    obtain ⟨hway, hbits⟩ := AnyFilter.ofFixed?_eq_some hplace
    rw [f.wellFormed_iff, hway, hbits] at hf
    rw [hway, hbits] at hs
    exact ⟨hf, hs⟩

structure RestoresAlike (way : Nat) (s : Snapshot) : Prop where
  made_iff (g : FixedFilter way) : s.toFixed way = .ok g ↔
    s.way.toNat = way ∧ ∃ f, AnyFilter.ofFixed? g = some f ∧ s.toAny = .ok f
  version_first : s.version ≠ 1 →
    s.toAny = refuse (.serialization (.snapshotVersion s.version)) ∧
      s.toFixed way = refuse (.serialization (.snapshotVersion s.version))
  way_next : s.version = 1 → s.way.toNat ≠ way →
    s.toFixed way = refuse (.invalidWay s.way.toNat)
  same_failure : s.version = 1 → s.way.toNat = way →
    ∀ failure, s.toFixed way = .error failure ↔ s.toAny = .error failure

theorem restoresAlike (way : Nat) (s : Snapshot) : RestoresAlike way s := by
  refine ⟨fun g => toFixed_eq_ok_iff_place, ?_, ?_, ?_⟩
  · exact fun hversion => ⟨toAny_of_ne hversion, toFixed_of_ne hversion way⟩
  · intro hversion hway
    rw [toFixed_of_version hversion, if_neg hway]
  · rintro hversion rfl failure
    obtain ⟨hany, hfixed⟩ := (rebuildsAlike s.way.toNat s.pageLevel.toNat s.data
      s.uniqueCount).snapshot s hversion rfl rfl rfl rfl
    exact hfixed.error_iff hany failure

/-- A snapshot that restores a filter is the snapshot of it, every reachable filter is restored from
its snapshot, and restoring at a fixed way agrees with restoring at the stored way. -/
theorem snapshots_correspond :
    (∀ s f, toAny s = .ok f → ofFilter f = s) ∧
    (∀ f : AnyFilter, Form.Reachable (.any f) → toAny (ofFilter f) = .ok f) ∧
    (∀ (way : Nat) (g : FixedFilter way), Form.Reachable (.fixed g) →
      toFixed way (ofFilter g) = .ok g ∧
      ∃ f, AnyFilter.ofFixed? g = some f ∧ toAny (ofFilter g) = .ok f) ∧
    (∀ f : SharedFilter, Form.Reachable (.shared f) →
      toAny (ofShared f) = .ok f.inner ∧ f = .ofAny f.inner) ∧
    (∀ way s, RestoresAlike way s) := by
  refine ⟨fun s f => ofFilter_of_toAny, ?_, ?_, ?_, restoresAlike⟩
  · intro f hreach
    have hf : WellFormed f := f.wellFormed_iff.mpr (Form.reachable_iff.mp hreach).bits_wellFormed
    rw [ofFilter_eq hf]
    exact toAny_eq_ok hf
  · intro way g hreach
    have hg : g.bits.WellFormed way := (Form.reachable_iff.mp hreach).bits_wellFormed
    have hmade : toFixed way (ofFilter g) = .ok g := by
      rw [ofFilter_eq (g.wellFormed_iff.mpr hg)]
      exact (toFixed_ofBits hg).1
    exact ⟨hmade, (toFixed_eq_ok_iff_place.mp hmade).2⟩
  · intro f hreach
    have hform := Form.reachable_iff.mp hreach
    have hf : WellFormed f := ⟨hform.bits_wellFormed, hform.geometry_eq⟩
    refine ⟨?_, SharedFilter.eq_ofAny hf⟩
    rw [ofShared_eq hf]
    exact toAny_eq_ok (f.inner.wellFormed_iff.mpr hf.bits_wellFormed)

theorem snapshots_correspond_three_pages :
    let data := markBits (zeros 192) [5, 700]
    let g : FixedFilter 4 := ⟨⟨data, 6, ⟨0x5555555555555556, 3⟩, 0xffffffffffffffff⟩⟩
    let s : Snapshot := ⟨1, 4, 6, 0xffffffffffffffff, data⟩
    Form.Reachable (.fixed g) ∧ Form.Reachable (.any (.way4 g)) ∧
      Form.Reachable (.shared (.ofAny (.way4 g))) ∧
      toFixed 4 (ofFilter g) = .ok g ∧ toAny (ofFilter (AnyFilter.way4 g)) = .ok (.way4 g) ∧
      toAny (ofShared (.ofAny (.way4 g))) = .ok (.way4 g) ∧
      toAny s = .ok (.way4 g) ∧ ofFilter (AnyFilter.way4 g) = s ∧
      toFixed 5 s = refuse (.invalidWay 4) ∧
      toFixed 4 { s with version := 99, way := 12 } =
        refuse (.serialization (.snapshotVersion 99)) ∧
      toAny { s with version := 99, way := 12 } =
        refuse (.serialization (.snapshotVersion 99)) := by
  intro data g s
  have hsize : data.size = 192 := (size_markBits _ _).trans (size_zeros 192)
  have hbits : g.bits.WellFormed 4 := PagedBits.wellFormed_three_pages data hsize _
  have hfixed : Form.Reachable (.fixed g) := Form.reachable_iff.mpr ⟨hbits, rfl⟩
  have hany : Form.Reachable (.any (.way4 g)) := Form.reachable_iff.mpr ⟨hbits, rfl⟩
  have hshared : Form.Reachable (.shared (.ofAny (.way4 g))) := Form.reachable_iff.mpr ⟨hbits, rfl⟩
  obtain ⟨hback, htoAny, htoFixed, htoShared, halike⟩ := snapshots_correspond
  have hs : ofFilter (AnyFilter.way4 g) = s := by
    rw [ofFilter_eq ((AnyFilter.way4 g).wellFormed_iff.mpr hbits)]
    clear_value data
    rfl
  have hmade : toAny s = .ok (.way4 g) := hs ▸ htoAny _ hany
  have hversion := (halike 4 { s with version := 99, way := 12 }).version_first (by decide)
  exact ⟨hfixed, hany, hshared, (htoFixed 4 g hfixed).1, htoAny _ hany, (htoShared _ hshared).1,
    hmade, hback s _ hmade, (halike 5 s).way_next rfl (by decide), hversion.2, hversion.1⟩

end PagedFilter.Snapshot
