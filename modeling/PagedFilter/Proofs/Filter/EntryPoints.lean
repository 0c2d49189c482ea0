import PagedFilter.Proofs.Filter.Operations
import PagedFilter.Proofs.Geometry.Overriding
import PagedFilter.Format.Snapshot
import PagedFilter.Format.Frame
/-! Every entry point gives well-formed filters only, and refuses or succeeds but does not fault. -/
namespace PagedFilter

open PagedView (WellFormed)

namespace FixedFilter
variable {way : Nat}

theorem wellFormed_iff (f : FixedFilter way) : WellFormed f ↔ f.bits.WellFormed way :=
  ⟨fun h => h.bits_wellFormed, fun h => ⟨h, rfl⟩⟩

theorem delivers_create {way level : Nat} {pageNum : UInt32} {P : PagedBits → Prop}
    (h : Delivers P (PagedBits.create way level pageNum)) :
    Delivers (fun f : FixedFilter way => P f.bits) (create way level pageNum) :=
  h.bind fun _ hb => hb

theorem delivers_ofBytes {way level : Nat} {data : ByteArray} {uniqueCount : UInt64}
    {P : PagedBits → Prop} (h : Delivers P (PagedBits.ofBytes way level data uniqueCount)) :
    Delivers (fun f : FixedFilter way => P f.bits) (ofBytes way level data uniqueCount) :=
  h.bind fun _ hb => hb

end FixedFilter

namespace AnyFilter

theorem wellFormed_iff (f : AnyFilter) : WellFormed f ↔ f.bits.WellFormed f.way :=
  ⟨fun h => h.bits_wellFormed, fun h => ⟨h, f.geometry_eq⟩⟩

def ofBits (way : Nat) (b : PagedBits) : Except Failure AnyFilter :=
  match ofFixed? (⟨b⟩ : FixedFilter way) with
  | some f => .ok f
  | none => refuse (.invalidWay way)

theorem ofFixed?_eq_some {way : Nat} {g : FixedFilter way} {f : AnyFilter}
    (h : ofFixed? g = some f) : f.way = way ∧ f.bits = g.bits := by
  unfold ofFixed? at h
  split at h
  all_goals first
    | (cases h; exact ⟨rfl, rfl⟩)
    | cases h

theorem ofFixed?_total {way : Nat} {g : FixedFilter way} (h : WellFormed g) :
    ∃ f, ofFixed? g = some f ∧ WellFormed f ∧ f.way = way ∧ f.bits = g.bits := by
  have hbits : g.bits.WellFormed way := g.wellFormed_iff.mp h
  have hplace : ∃ f, ofFixed? g = some f := by
    rcases way_cases hbits.fits.1 with rfl | rfl | rfl | rfl | rfl
    all_goals exact ⟨_, rfl⟩
  obtain ⟨f, hf⟩ := hplace
  obtain ⟨hway, hsame⟩ := ofFixed?_eq_some hf
  refine ⟨f, hf, f.wellFormed_iff.mpr ?_, hway, hsame⟩
  rw [hway, hsame]
  exact hbits

theorem ofBits_total {way : Nat} {b : PagedBits} (h : b.WellFormed way) :
    ∃ f, ofBits way b = .ok f ∧ WellFormed f ∧ f.way = way ∧ f.bits = b := by
  obtain ⟨f, hplace, hf⟩ := ofFixed?_total ((FixedFilter.wellFormed_iff ⟨b⟩).mpr h)
  refine ⟨f, ?_, hf⟩
  rw [ofBits, hplace]

theorem delivers_ofBits {way : Nat} {b : PagedBits} {P : PagedBits → Prop} (hb : P b) :
    Delivers (fun f => f.way = way ∧ P f.bits) (ofBits way b) := by
  rw [ofBits]
  cases h : ofFixed? (⟨b⟩ : FixedFilter way) with
  | none => exact Delivers.refuse _
  | some f =>
    obtain ⟨hway, hbits⟩ := ofFixed?_eq_some h
    exact ⟨hway, hbits ▸ hb⟩

/-- Rebuilding a filter is rebuilding its bits, with the same refusals. -/
theorem ofBytes_eq (way level : Nat) (data : ByteArray) (uniqueCount : UInt64) :
    ofBytes way level data uniqueCount =
      PagedBits.ofBytes way level data uniqueCount >>= ofBits way := by
  unfold ofBytes
  split
  case h_1 => rw [FixedFilter.ofBytes]; cases PagedBits.ofBytes 4 level data uniqueCount <;> rfl
  case h_2 => rw [FixedFilter.ofBytes]; cases PagedBits.ofBytes 5 level data uniqueCount <;> rfl
  case h_3 => rw [FixedFilter.ofBytes]; cases PagedBits.ofBytes 6 level data uniqueCount <;> rfl
  case h_4 => rw [FixedFilter.ofBytes]; cases PagedBits.ofBytes 7 level data uniqueCount <;> rfl
  case h_5 => rw [FixedFilter.ofBytes]; cases PagedBits.ofBytes 8 level data uniqueCount <;> rfl
  case h_6 _ h4 h5 h6 h7 h8 =>
    have hway : ¬(minWay ≤ way ∧ way ≤ maxWay) := by
      intro hway
      rcases way_cases hway with h | h | h | h | h
      exacts [h4 h, h5 h, h6 h, h7 h, h8 h]
    rw [PagedBits.ofBytes, checkPageLevel_eq, if_neg hway]
    rfl

theorem create_eq (g : Geometry) :
    create g = PagedBits.create g.way g.pageLevel g.pageNum >>= ofBits g.way := by
  obtain ⟨way, level, pageNum⟩ := g
  have hcheck := Geometry.delivers_check ⟨way, level, pageNum⟩
  cases h : Geometry.check ⟨way, level, pageNum⟩ with
  | error e =>
    rw [create, PagedBits.create, Geometry.create, h]
    rfl
  | ok u =>
    have hvalid := hcheck.of_eq_ok h
    obtain ⟨b, hb⟩ := PagedBits.create_of_valid hvalid
    rw [create, h, ok_bind]
    rcases way_cases hvalid.fits.1 with rfl | rfl | rfl | rfl | rfl
    all_goals
      simp only [FixedFilter.create, hb]
      rfl

theorem ofBits_bits (f : AnyFilter) : ofBits f.way f.bits = .ok f := by
  cases f <;> rfl

theorem delivers_ofBytes {way level : Nat} {data : ByteArray} {uniqueCount : UInt64}
    {P : PagedBits → Prop} (h : Delivers P (PagedBits.ofBytes way level data uniqueCount)) :
    Delivers (fun f => f.way = way ∧ P f.bits) (ofBytes way level data uniqueCount) := by
  rw [ofBytes_eq]
  exact h.bind fun _ hb => delivers_ofBits hb

theorem delivers_create {g : Geometry} {P : PagedBits → Prop}
    (h : Delivers P (PagedBits.create g.way g.pageLevel g.pageNum)) :
    Delivers (fun f => f.way = g.way ∧ P f.bits) (create g) := by
  rw [create_eq]
  exact h.bind fun _ hb => delivers_ofBits hb

end AnyFilter

namespace SharedFilter

theorem wellFormed_ofAny {f : AnyFilter} (h : WellFormed f) : WellFormed (ofAny f) :=
  ⟨h.bits_wellFormed, h.geometry_eq⟩

theorem eq_ofAny {f : SharedFilter} (h : WellFormed f) : f = .ofAny f.inner := by
  obtain ⟨inner, cached⟩ := f
  have hcached : cached = KeyFilter.geometry inner := h.geometry_eq.trans inner.geometry_eq.symm
  rw [hcached]
  rfl

theorem delivers_ofAny {x : Except Failure AnyFilter} (h : Delivers WellFormed x) :
    Delivers WellFormed (do return ofAny (← x)) :=
  h.bind fun _ hf => wellFormed_ofAny hf

end SharedFilter

namespace FilterRequest

theorem delivers_geometry (request : FilterRequest) :
    Delivers Geometry.Valid request.geometry := by
  rw [geometry]
  refine (answers_plan request.items request.rate).delivers.bind ?_
  intro planned hplanned
  have hcheck (g : Geometry) : Delivers Geometry.Valid (do g.check; return g) :=
    g.delivers_check.bind fun _ hvalid => hvalid
  cases request.way with
  | none => exact hcheck planned
  | some way =>
    exact (answers_overrideWay hplanned.valid way).delivers.bind fun g _ => hcheck g

theorem capacity_total {g : Geometry} (h : g.Valid) :
    ∃ n, Estimate.capacity g.dataLen g.way = .ok n := by
  have hlevel : g.pageLevel ≤ 13 := h.fits.2.2
  have hway : 4 ≤ g.way := h.fits.1.1
  have hlt : g.dataLen < 2 ^ 45 := by
    rw [h.dataLen]
    exact pages_mul_lt _ h.fits.2.2
  rw [Estimate.capacity, if_neg (by omega), if_neg (by omega)]
  exact ⟨_, rfl⟩

end FilterRequest

namespace FixedFilter

theorem wellFormed_create (way level : Nat) (pageNum : UInt32) :
    Delivers (WellFormed (F := FixedFilter way)) (create way level pageNum) := by
  refine (delivers_create (PagedBits.delivers_create way level pageNum)).mono ?_
  exact fun f h => f.wellFormed_iff.mpr h.1

theorem wellFormed_ofBytes (way level : Nat) (data : ByteArray) (uniqueCount : UInt64) :
    Delivers (WellFormed (F := FixedFilter way)) (ofBytes way level data uniqueCount) := by
  refine (delivers_ofBytes (PagedBits.delivers_ofBytes way level data uniqueCount)).mono ?_
  exact fun f h => f.wellFormed_iff.mpr h.1

end FixedFilter

namespace AnyFilter

theorem wellFormed_create (g : Geometry) : Delivers WellFormed (create g) := by
  refine (delivers_create (PagedBits.delivers_create g.way g.pageLevel g.pageNum)).mono ?_
  rintro f ⟨hway, h, -⟩
  rw [f.wellFormed_iff, hway]
  exact h

theorem wellFormed_ofBytes (way level : Nat) (data : ByteArray) (uniqueCount : UInt64) :
    Delivers WellFormed (ofBytes way level data uniqueCount) := by
  refine (delivers_ofBytes (PagedBits.delivers_ofBytes way level data uniqueCount)).mono ?_
  rintro f ⟨hway, h, -⟩
  rw [f.wellFormed_iff, hway]
  exact h

theorem ofBytes_eq_ok_iff {way level : Nat} {data : ByteArray} {uniqueCount : UInt64}
    {f : AnyFilter} :
    ofBytes way level data uniqueCount = .ok f ↔
      WellFormed f ∧ f.way = way ∧ f.bits.pageLevel = level ∧ f.bits.data = data ∧
        f.bits.uniqueCount = uniqueCount := by
  constructor
  · intro h
    obtain ⟨hway, hbits, hrest⟩ :=
      (delivers_ofBytes (PagedBits.delivers_ofBytes way level data uniqueCount)).of_eq_ok h
    exact ⟨f.wellFormed_iff.mpr (hway ▸ hbits), hway, hrest⟩
  · rintro ⟨h, rfl, rfl, rfl, rfl⟩
    have hbits : f.bits.WellFormed f.way := f.wellFormed_iff.mp h
    rw [ofBytes_eq, hbits.ofBytes_eq, ok_bind, ofBits_bits]

theorem wellFormed_withRate (items : Nat) (rate : Float) :
    Delivers WellFormed (withRate items rate) :=
  (answers_plan items rate).delivers.bind fun g _ => wellFormed_create g

end AnyFilter

namespace FilterRequest

theorem wellFormed_build (request : FilterRequest) : Delivers WellFormed request.build :=
  request.delivers_geometry.bind fun g _ => AnyFilter.wellFormed_create g

/-- The sizing of a request does not fail, so what is built is what creation delivers. -/
theorem delivers_buildSized {P : AnyFilter → Prop} (h : ∀ g, Delivers P (AnyFilter.create g))
    (request : FilterRequest) : Delivers (fun r => P r.1) request.buildSized := by
  rw [buildSized]
  refine request.delivers_geometry.bind ?_
  intro g hg
  refine (h g).bind ?_
  intro f hf
  obtain ⟨n, hn⟩ := capacity_total hg
  dsimp only
  rw [hn, lift_ok, ok_bind]
  exact hf

theorem wellFormed_buildSized (request : FilterRequest) :
    Delivers (fun r => WellFormed r.1) request.buildSized :=
  delivers_buildSized AnyFilter.wellFormed_create request

end FilterRequest

theorem Frame.wellFormed_decode (bytes : ByteArray) :
    Delivers WellFormed (Frame.decode bytes) := by
  refine (Delivers.of_frameError (Frame.split bytes)).bind ?_
  rintro ⟨header, data⟩ _
  exact AnyFilter.wellFormed_ofBytes _ _ _ _

namespace Snapshot

theorem wellFormed_toAny (s : Snapshot) : Delivers WellFormed s.toAny :=
  (Delivers.of_refusal s.checkVersion).bind fun _ _ => AnyFilter.wellFormed_ofBytes _ _ _ _

theorem wellFormed_toFixed (way : Nat) (s : Snapshot) :
    Delivers (WellFormed (F := FixedFilter way)) (s.toFixed way) := by
  refine (Delivers.of_refusal s.checkVersion).bind ?_
  intro _ _
  by_cases hway : s.way.toNat ≠ way
  · rw [if_pos hway]
    exact Delivers.refuse _
  · rw [if_neg hway]
    exact FixedFilter.wellFormed_ofBytes way _ _ _

end Snapshot

end PagedFilter
