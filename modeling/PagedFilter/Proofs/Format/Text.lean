import PagedFilter.Format.Stored
import PagedFilter.Proofs.Format.Json.Record
import PagedFilter.Proofs.Format.Snapshot
namespace PagedFilter

open Json
open PagedView (WellFormed)

namespace Snapshot

def fields (s : Snapshot) : List (String × FieldValue) :=
  [("version", .number s.version.toNat), ("way", .number s.way.toNat),
    ("page_level", .number s.pageLevel.toNat), ("unique_cnt", .number s.uniqueCount.toNat),
    ("data", .bytes s.data)]

theorem writes_fields (s : Snapshot) : Writes schema s.fields := by
  refine ⟨rfl, (by decide : ["version", "way", "page_level", "unique_cnt", "data"].Nodup), ?_⟩
  have hplain : ∀ name ∈ ["version", "way", "page_level", "unique_cnt", "data"],
      ∀ c ∈ name.toList, IsPlain c := by simp [IsPlain]
  intro field hfield
  refine ⟨hplain field.1 (List.mem_map_of_mem (f := Prod.fst) hfield), ?_⟩
  simp only [fields, List.mem_cons, List.not_mem_nil, or_false] at hfield
  rcases hfield with rfl | rfl | rfl | rfl | rfl
  · exact ⟨_, rfl, Nat.le_of_lt_succ s.version.toNat_lt⟩
  · exact ⟨_, rfl, Nat.le_of_lt_succ s.way.toNat_lt⟩
  · exact ⟨_, rfl, Nat.le_of_lt_succ s.pageLevel.toNat_lt⟩
  · exact ⟨_, rfl, Nat.le_of_lt_succ s.uniqueCount.toNat_lt⟩
  · exact ⟨_, rfl, trivial⟩

theorem ofText?_toText (s : Snapshot) : ofText? s.toText = some s := by
  have htext : s.toText.toList = writeRecord s.fields := String.toList_ofList
  rw [ofText?, htext, readRecord_writeRecord s.writes_fields]
  simp [fields]

/-- The text in full: one object without blanks, its fields in order, every number in decimal. -/
def storedText (version way level uniqueCount : Nat) (data : ByteArray) : String :=
  String.join ["\x7b\"version\":", toString version, ",\"way\":", toString way,
    ",\"page_level\":", toString level, ",\"unique_cnt\":", toString uniqueCount,
    ",\"data\":[", ",".intercalate (data.data.toList.map fun o => toString o.toNat), "]\x7d"]

theorem toText_eq (s : Snapshot) :
    s.toText = storedText s.version.toNat s.way.toNat s.pageLevel.toNat s.uniqueCount.toNat
      s.data := by
  apply String.toList_inj.mp
  simp [toText, storedText, writeRecord, writeField, FieldValue.write, writeNat,
    String.toList_intercalate, Function.comp_def]

theorem readText_toText (s : Snapshot) : readText s.toText = .ok s := by
  rw [readText, s.ofText?_toText]

end Snapshot

theorem FixedFilter.toText_eq {way : Nat} {f : FixedFilter way} (h : WellFormed f) :
    f.toText = (Snapshot.ofBits way f.bits).toText :=
  congrArg Snapshot.toText (Snapshot.ofFilter_eq h)

theorem AnyFilter.toText_eq {f : AnyFilter} (h : WellFormed f) :
    f.toText = (Snapshot.ofBits f.way f.bits).toText :=
  congrArg Snapshot.toText (Snapshot.ofFilter_eq h)

theorem SharedFilter.toText_eq {f : SharedFilter} (h : WellFormed f) :
    f.toText = (Snapshot.ofBits f.inner.way f.inner.bits).toText :=
  congrArg Snapshot.toText (Snapshot.ofShared_eq h)

theorem AnyFilter.ofText_toText {f : AnyFilter} (h : WellFormed f) :
    AnyFilter.ofText f.toText = .ok f := by
  rw [toText_eq h, ofText, Snapshot.readText_toText, ok_bind, Snapshot.toAny_eq_ok h]
  rfl

structure SameState {way : Nat} (fixed : FixedFilter way) (any : AnyFilter)
    (shared : SharedFilter) : Prop where
  wellFormed : WellFormed any
  way_eq : any.way = way
  bits_eq : any.bits = fixed.bits
  shared_eq : shared = .ofAny any

/-- Filters in one state have one text, which is read back as each of them, and which no fixed way
but the stored one accepts. -/
theorem text_round_trip :
    ((∀ (way : Nat) (fixed : FixedFilter way), WellFormed fixed →
        ∃ any shared, SameState fixed any shared) ∧
      (∀ any : AnyFilter, WellFormed any →
        ∃ shared, SameState (⟨any.bits⟩ : FixedFilter any.way) any shared) ∧
      (∀ shared : SharedFilter, WellFormed shared →
        SameState (⟨shared.inner.bits⟩ : FixedFilter shared.inner.way) shared.inner shared)) ∧
    (∀ (way : Nat) (fixed : FixedFilter way) (any : AnyFilter) (shared : SharedFilter),
      SameState fixed any shared →
        any.toText = Snapshot.storedText 1 way any.bits.pageLevel
          (KeyFilter.uniqueCount any).toNat (StoredFilter.data any) ∧
        fixed.toText = any.toText ∧ shared.toText = any.toText ∧
        AnyFilter.ofText any.toText = .ok any ∧ SharedFilter.ofText any.toText = .ok shared ∧
        FixedFilter.ofText way any.toText = .ok fixed ∧
        ∀ v, v ≠ way → FixedFilter.ofText v any.toText =
          .error (.rejected (.refused (.invalidWay way)))) := by
  refine ⟨⟨?_, ?_, ?_⟩, ?_⟩
  · intro way fixed h
    obtain ⟨any, -, hany, hway, hbits⟩ := AnyFilter.ofFixed?_total h
    exact ⟨any, .ofAny any, hany, hway, hbits, rfl⟩
  · exact fun any h => ⟨.ofAny any, h, rfl, rfl, rfl⟩
  · intro shared h
    have hinner : WellFormed shared.inner := shared.inner.wellFormed_iff.mpr h.bits_wellFormed
    exact ⟨hinner, rfl, rfl, SharedFilter.eq_ofAny h⟩
  · rintro _ ⟨_⟩ any _ ⟨h, rfl, rfl, rfl⟩
    have hbits : any.bits.WellFormed any.way := any.wellFormed_iff.mp h
    obtain ⟨hfixed, hother⟩ := Snapshot.toFixed_ofBits hbits
    have hread (v : Nat) : FixedFilter.ofText v any.toText =
        liftM ((Snapshot.ofBits any.way any.bits).toFixed v) := by
      rw [AnyFilter.toText_eq h, FixedFilter.ofText, Snapshot.readText_toText, ok_bind]
    have hwell : WellFormed (⟨any.bits⟩ : FixedFilter any.way) :=
      (FixedFilter.wellFormed_iff _).mpr hbits
    refine ⟨?_, ?_, ?_, AnyFilter.ofText_toText h, ?_, ?_, ?_⟩
    · rw [AnyFilter.toText_eq h, Snapshot.toText_eq, Snapshot.toNat_way_ofBits hbits,
        Snapshot.toNat_pageLevel_ofBits hbits, PagedView.uniqueCount_eq, StoredView.data_eq]
      rfl
    · rw [AnyFilter.toText_eq h]
      exact FixedFilter.toText_eq hwell
    · rw [AnyFilter.toText_eq h, SharedFilter.toText_eq (SharedFilter.wellFormed_ofAny h)]
      rfl
    · rw [SharedFilter.ofText, AnyFilter.ofText_toText h]
      rfl
    · rw [hread, hfixed]
      rfl
    · intro v hne
      rw [hread, hother v hne]
      rfl

theorem text_round_trip_three_pages :
    let data := markBits (zeros 192) [5, 700]
    let fixed : FixedFilter 4 := ⟨⟨data, 6, ⟨0x5555555555555556, 3⟩, 0xffffffffffffffff⟩⟩
    let any : AnyFilter := .way4 fixed
    SameState fixed any (.ofAny any) ∧ fixed.toText = any.toText ∧
      AnyFilter.ofText any.toText = .ok any ∧ FixedFilter.ofText 4 any.toText = .ok fixed ∧
      FixedFilter.ofText 5 any.toText = .error (.rejected (.refused (.invalidWay 4))) := by
  intro data fixed any
  have hsize : data.size = 192 := (size_markBits _ _).trans (size_zeros 192)
  have hbits : fixed.bits.WellFormed 4 := PagedBits.wellFormed_three_pages data hsize _
  have hstate : SameState fixed any (.ofAny any) := ⟨any.wellFormed_iff.mpr hbits, rfl, rfl, rfl⟩
  obtain ⟨-, hsame, -, hany, -, hfixed, hother⟩ :=
    text_round_trip.2 4 fixed any (.ofAny any) hstate
  exact ⟨hstate, hsame, hany, hfixed, hother 5 (by decide)⟩

end PagedFilter
