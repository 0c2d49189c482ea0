import PagedFilter.Proofs.Storage.Runs
/-! A lesser way looks at the first of the bits that a greater one looks at. -/
namespace PagedFilter

theorem Probes.testAll_take {start size : Nat} {data : ByteArray} {bits : List Nat}
    (h : testAll start size data bits = .ok true) (n : Nat) :
    testAll start size data (bits.take n) = .ok true := by
  induction bits generalizing n with
  | nil => simpa using h
  | cons bit bits ih =>
    cases n with
    | zero => rfl
    | succ n =>
      rw [testAll] at h
      rw [List.take_succ_cons, testAll]
      split at h
      case isFalse => cases h
      case isTrue hin =>
        rw [dif_pos hin]
        split at h
        case isFalse => cases h
        case isTrue hbit =>
          rw [if_pos hbit]
          exact ih h n

namespace PagedBits

/-- The probes of a key exist where a page of it fits the buffer and there are codes enough. -/
theorem probes_eq_ok_iff {level size way : Nat} {pages : Reciprocal} {key : ByteArray}
    {ps : Probes} :
    probes level pages size way key = .ok ps ↔
      (level + 3 < 32 ∧
        (Placement.ofKey key pages level).offset + bytesOfPages 1 level ≤ size ∧ way ≤ 8) ∧
      ps = ⟨(Placement.ofKey key pages level).offset, bytesOfPages 1 level,
        ((Placement.ofKey key pages level).codes.toList.take way).map (maskCode level)⟩ := by
  have hcodes : (Placement.ofKey key pages level).codes.size = 8 := rfl
  rw [probes, checkShift]
  by_cases hshift : level + 3 < 32
  · rw [if_pos hshift, ok_bind]
    by_cases hpage : size < (Placement.ofKey key pages level).offset + bytesOfPages 1 level
    · simp only [if_pos hpage]
      constructor
      · intro h
        cases h
      · intro h
        omega
    · by_cases hway : 8 < way
      · simp only [if_neg hpage, hcodes, if_pos hway]
        constructor
        · intro h
          cases h
        · intro h
          omega
      · simp [hcodes, hpage, hway, pure, Except.pure, hshift, Nat.le_of_not_lt, eq_comm]
  · rw [if_neg hshift]
    constructor
    · intro h
      cases h
    · intro h
      exact absurd h.1.1 hshift

theorem way_le_of_set {bits after : PagedBits} {way : Nat} {key : ByteArray} {new : Bool}
    (hset : bits.set way key = .ok (new, after)) : way ≤ 8 := by
  obtain ⟨ps, hps, -⟩ := bind_eq_ok.mp hset
  exact (probes_eq_ok_iff.mp hps).1.2.2

theorem way_le_of_test {bits : PagedBits} {way : Nat} {key : ByteArray} {answer : Bool}
    (htest : bits.test way key = .ok answer) : way ≤ 8 := by
  obtain ⟨ps, hps, -⟩ := bind_eq_ok.mp htest
  exact (probes_eq_ok_iff.mp hps).1.2.2

/-- What is answered yes at a way is answered yes at every lesser way. -/
theorem test_of_le {bits : PagedBits} {v w : Nat} (hle : v ≤ w) {key : ByteArray}
    (h : bits.test w key = .ok true) : bits.test v key = .ok true := by
  obtain ⟨ps, hps, htest⟩ := bind_eq_ok.mp h
  obtain ⟨⟨hshift, hpage, hway⟩, rfl⟩ := probes_eq_ok_iff.mp hps
  -- the place of the page is read off the key alone, so only the list of bits gets shorter
  have hfewer := probes_eq_ok_iff.mpr ⟨⟨hshift, hpage, Nat.le_trans hle hway⟩, rfl⟩
  have hfirst := Probes.testAll_take htest v
  rw [← List.map_take, List.take_take, Nat.min_eq_left hle] at hfirst
  rw [test, hfewer, ok_bind, hfirst]

def setEach (bits : PagedBits) : List (Nat × ByteArray) → Except Fault PagedBits
  | [] => return bits
  | (way, key) :: sets => do
    let (_, bits) ← bits.set way key
    bits.setEach sets

structure Extends (bits after : PagedBits) : Prop where
  pages : SamePages bits after
  kept (j : Nat) : bitAt bits.data j = true → bitAt after.data j = true

namespace Extends
variable {a b c : PagedBits}

theorem refl (a : PagedBits) : Extends a a := ⟨.refl a, fun _ h => h⟩

theorem trans (hab : Extends a b) (hbc : Extends b c) : Extends a c :=
  ⟨hab.pages.trans hbc.pages, fun j h => hbc.kept j (hab.kept j h)⟩

theorem covers (hab : Extends a b) {way : Nat} {key : ByteArray}
    (h : a.covers way key = true) : b.covers way key = true := by
  rw [PagedBits.covers, hab.pages.probePositions_eq, List.all_eq_true]
  intro j hj
  exact hab.kept j (List.all_eq_true.mp h j hj)

end Extends

variable {bits after : PagedBits}

theorem Whole.extends_of_set (h : bits.Whole) {way : Nat} {key : ByteArray} {new : Bool}
    (hset : bits.set way key = .ok (new, after)) :
    Extends bits after ∧ after.covers way key = true := by
  have hinserts := (h.inserts_of_set (way_le_of_set hset) hset).2
  refine ⟨⟨hinserts.pages, ?_⟩, hinserts.covers_of_covers h (Or.inr List.mem_cons_self)⟩
  intro j hj
  exact (hinserts.bitAt_eq h j).mpr (Or.inl hj)

theorem Whole.extends_of_setEach (h : bits.Whole) {sets : List (Nat × ByteArray)}
    (hsets : bits.setEach sets = .ok after) : Extends bits after := by
  induction sets generalizing bits with
  | nil =>
    cases hsets
    exact .refl after
  | cons first sets ih =>
    obtain ⟨way, key⟩ := first
    obtain ⟨⟨new, next⟩, hset, hrest⟩ := bind_eq_ok.mp hsets
    have hnext := (h.extends_of_set hset).1
    exact hnext.trans (ih (hnext.pages.whole h) hrest)

/-- A key that was inserted with some number of probes is found with any lesser number, whatever
was inserted after it and with however many probes. -/
theorem Whole.test_of_setEach (h : bits.Whole) {v w : Nat} (hle : v ≤ w) {key : ByteArray}
    {sets : List (Nat × ByteArray)} (hsets : bits.setEach ((w, key) :: sets) = .ok after) :
    after.test v key = .ok true := by
  obtain ⟨⟨new, next⟩, hset, hrest⟩ := bind_eq_ok.mp hsets
  obtain ⟨hnext, hcovers⟩ := h.extends_of_set hset
  have hafter := (hnext.pages.whole h).extends_of_setEach hrest
  have hwhole := hafter.pages.whole (hnext.pages.whole h)
  apply test_of_le hle
  rw [hwhole.test_eq (way_le_of_set hset), hafter.covers hcovers]

theorem Whole.setEach_total (h : bits.Whole) (sets : List (Nat × ByteArray))
    (hways : ∀ s ∈ sets, s.1 ≤ 8) (hcount : bits.uniqueCount.toNat + sets.length < 2 ^ 64) :
    ∃ after, bits.setEach sets = .ok after := by
  induction sets generalizing bits with
  | nil => exact ⟨bits, rfl⟩
  | cons first sets ih =>
    obtain ⟨way, key⟩ := first
    have hway : way ≤ 8 := hways _ List.mem_cons_self
    rw [List.length_cons] at hcount
    have hroom : bits.uniqueCount ≠ 0xffffffffffffffff := room_iff.mpr (by omega)
    obtain ⟨new, next, hset⟩ := h.set_total hway key hroom
    have hinserts := (h.inserts_of_set hway hset).2
    have hone := Bool.toNat_le new
    have hnext : next.uniqueCount.toNat + sets.length < 2 ^ 64 := by
      rw [hinserts.count_eq]
      omega
    obtain ⟨after, hrest⟩ :=
      ih (hinserts.pages.whole h) (fun s hs => hways s (List.mem_cons_of_mem _ hs)) hnext
    refine ⟨after, ?_⟩
    rw [setEach, hset, ok_bind]
    exact hrest

end PagedBits
end PagedFilter
