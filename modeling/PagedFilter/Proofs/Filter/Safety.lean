import PagedFilter.Proofs.Filter.EntryPoints
namespace PagedFilter

open PagedView (WellFormed)

namespace PagedBits

structure InRange (bits : PagedBits) : Prop where
  pageNum_pos : 1 ≤ bits.pageNum.toNat
  shift_lt : bits.pageLevel + 3 < 32
  page_le (key : ByteArray) :
    (Placement.ofKey key bits.pages bits.pageLevel).offset + 2 ^ bits.pageLevel ≤ bits.data.size
  probe_lt (key : ByteArray) : ∀ code ∈ (Placement.ofKey key bits.pages bits.pageLevel).codes,
    maskCode bits.pageLevel code / 8 < 2 ^ bits.pageLevel

theorem Whole.inRange {bits : PagedBits} (h : bits.Whole) : bits.InRange := by
  refine ⟨h.pageNum_pos, ?_, h.page_le, ?_⟩
  · have hle : bits.pageLevel ≤ 13 := h.level_le
    omega
  · exact fun _ code _ => maskCode_div_lt _ code

end PagedBits

/-- Every step on a state succeeds, but for an insertion that would overflow the count, and
leads to a state with the invariant. -/
structure Steady {F : Type} (inv : F → Prop) (set : F → ByteArray → Except Fault (Bool × F))
    (test : F → ByteArray → Except Fault Bool) (clear : F → F) (count : F → UInt64) (f : F) :
    Prop where
  test_ok (key : ByteArray) : ∃ answer, test f key = .ok answer
  set_ok (key : ByteArray) : (∃ new g, set f key = .ok (new, g) ∧ inv g) ∨
    (count f = 0xffffffffffffffff ∧ set f key = .error .counterOverflow)
  clear_keeps : inv (clear f)

theorem PagedBits.WellFormed.steady {way : Nat} {bits : PagedBits} (h : bits.WellFormed way) :
    Steady (PagedBits.WellFormed way) (PagedBits.set · way) (PagedBits.test · way)
      PagedBits.clear PagedBits.uniqueCount bits := by
  refine ⟨?_, ?_, (SamePages.clear bits).wellFormed h⟩
  · exact fun key => ⟨_, h.test_eq h.way_le key⟩
  · intro key
    rw [h.set_eq h.way_le key]
    cases bits.covers way key with
    | true => exact Or.inl ⟨false, bits, rfl, h⟩
    | false =>
      by_cases hfull : bits.uniqueCount = 0xffffffffffffffff
      · rw [if_neg Bool.false_ne_true, if_pos hfull]
        exact Or.inr ⟨hfull, rfl⟩
      · rw [if_neg Bool.false_ne_true, if_neg hfull]
        exact Or.inl ⟨true, _, rfl, (SamePages.inserted bits way key).wellFormed h⟩

theorem PagedView.WellFormed.steady {F : Type} [KeyFilter F] [PagedView F] {f : F}
    (h : WellFormed f) :
    Steady WellFormed KeyFilter.set KeyFilter.test KeyFilter.clear KeyFilter.uniqueCount f := by
  refine ⟨?_, ?_, ?_⟩
  · exact fun key => ⟨_, h.test_eq key⟩
  · intro key
    rw [PagedView.set_eq, PagedView.uniqueCount_eq]
    rcases h.bits_wellFormed.steady.set_ok key with ⟨new, after, hset, -⟩ | ⟨hfull, hset⟩
    · have hpages := (h.whole.inserts_of_set h.way_le hset).2.pages
      refine Or.inl ⟨new, PagedView.withBits f after, ?_, h.of_samePages hpages⟩
      rw [hset]
      rfl
    · refine Or.inr ⟨hfull, ?_⟩
      rw [hset]
      rfl
  · rw [PagedView.clear_eq]
    exact h.of_samePages (PagedBits.SamePages.clear _)

/-- Each entry point, for every input, refuses or gives a well-formed filter. From there every step
stays in range, succeeds unless the count gives out, and leads to a well-formed state. -/
theorem entry_points_safe :
    ((∀ way level pageNum,
        Delivers (PagedBits.WellFormed way) (PagedBits.create way level pageNum)) ∧
      (∀ way level data uniqueCount,
        Delivers (PagedBits.WellFormed way) (PagedBits.ofBytes way level data uniqueCount))) ∧
    ((∀ way level pageNum, Delivers WellFormed (FixedFilter.create way level pageNum)) ∧
      (∀ way level data uniqueCount,
        Delivers WellFormed (FixedFilter.ofBytes way level data uniqueCount)) ∧
      (∀ way s, Delivers WellFormed (Snapshot.toFixed way s))) ∧
    ((∀ g, Delivers WellFormed (AnyFilter.create g)) ∧
      (∀ items rate, Delivers WellFormed (AnyFilter.withRate items rate)) ∧
      (∀ request, Delivers WellFormed (FilterRequest.build request)) ∧
      (∀ request, Delivers (fun r => WellFormed r.1) (FilterRequest.buildSized request)) ∧
      (∀ way level data uniqueCount,
        Delivers WellFormed (AnyFilter.ofBytes way level data uniqueCount)) ∧
      (∀ bytes, Delivers WellFormed (Frame.decode bytes)) ∧
      (∀ s, Delivers WellFormed (Snapshot.toAny s))) ∧
    ((∀ f, WellFormed f → WellFormed (SharedFilter.ofAny f)) ∧
      (∀ items rate, Delivers WellFormed (SharedFilter.withRate items rate)) ∧
      (∀ request, Delivers WellFormed (FilterRequest.buildShared request)) ∧
      (∀ way level data uniqueCount,
        Delivers WellFormed (SharedFilter.ofBytes way level data uniqueCount))) ∧
    (∀ way bits, PagedBits.WellFormed way bits → bits.InRange ∧
      Steady (PagedBits.WellFormed way) (PagedBits.set · way) (PagedBits.test · way)
        PagedBits.clear PagedBits.uniqueCount bits) ∧
    (∀ (F : Type) [KeyFilter F] [PagedView F] (f : F), WellFormed f →
      (PagedView.bits f).InRange ∧
      Steady WellFormed KeyFilter.set KeyFilter.test KeyFilter.clear KeyFilter.uniqueCount f) := by
  refine ⟨⟨?_, ?_⟩, ⟨?_, ?_, ?_⟩, ⟨?_, ?_, ?_, ?_, ?_, ?_, ?_⟩, ⟨?_, ?_, ?_, ?_⟩, ?_, ?_⟩
  · exact fun way level pageNum => (PagedBits.delivers_create way level pageNum).mono fun _ h => h.1
  · exact fun way level data count =>
      (PagedBits.delivers_ofBytes way level data count).mono fun _ h => h.1
  · exact FixedFilter.wellFormed_create
  · exact FixedFilter.wellFormed_ofBytes
  · exact Snapshot.wellFormed_toFixed
  · exact AnyFilter.wellFormed_create
  · exact AnyFilter.wellFormed_withRate
  · exact FilterRequest.wellFormed_build
  · exact FilterRequest.wellFormed_buildSized
  · exact AnyFilter.wellFormed_ofBytes
  · exact Frame.wellFormed_decode
  · exact Snapshot.wellFormed_toAny
  · exact fun f h => SharedFilter.wellFormed_ofAny h
  · exact fun items rate => SharedFilter.delivers_ofAny (AnyFilter.wellFormed_withRate items rate)
  · exact fun request => SharedFilter.delivers_ofAny request.wellFormed_build
  · exact fun way level data count =>
      SharedFilter.delivers_ofAny (AnyFilter.wellFormed_ofBytes way level data count)
  · exact fun way bits h => ⟨h.toWhole.inRange, h.steady⟩
  · exact fun F _ _ f h => ⟨h.whole.inRange, h.steady⟩

theorem three_pages_safe :
    let f : FixedFilter 4 := ⟨⟨zeros 192, 6, ⟨0x5555555555555556, 3⟩, 7⟩⟩
    FixedFilter.ofBytes 4 6 (zeros 192) 7 = .ok f ∧ WellFormed f ∧ f.bits.InRange ∧
      Steady WellFormed KeyFilter.set KeyFilter.test KeyFilter.clear KeyFilter.uniqueCount f := by
  intro f
  have hpages : Reciprocal.of 3 = .ok ⟨0x5555555555555556, 3⟩ := by simp [Reciprocal.of]
  have hbits : f.bits.WellFormed 4 := ⟨⟨by decide, hpages, size_zeros 192⟩, by decide⟩
  have hmade : FixedFilter.ofBytes 4 6 (zeros 192) 7 = .ok f := by
    rw [FixedFilter.ofBytes, hbits.ofBytes_eq]
    rfl
  have hwell : WellFormed f := Delivers.of_eq_ok (entry_points_safe.2.1.2.1 4 6 _ 7) hmade
  exact ⟨hmade, hwell, entry_points_safe.2.2.2.2.2 (FixedFilter 4) f hwell⟩

end PagedFilter
