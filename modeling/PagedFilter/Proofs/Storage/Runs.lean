import PagedFilter.Filter.Basic
import PagedFilter.Proofs.Storage.Insertion
/-! A run of insertions can end early only where the count gives out. -/
namespace PagedFilter

section
variable {F : Type} (set : F → ByteArray → Except Fault (Bool × F))

private def countStep (state : Nat × F) (key : ByteArray) : Except Fault (Nat × F) :=
  (set state.2 key).map fun (new, f) => (state.1 + new.toNat, f)

private theorem countNew_eq_foldlM (f : F) (keys : List ByteArray) :
    countNew set f keys = keys.foldlM (countStep set) (0, f) := rfl

private theorem foldlM_countStep (f : F) (count : Nat) (keys : List ByteArray) :
    keys.foldlM (countStep set) (count, f) =
      (keys.foldlM (countStep set) (0, f)).map fun (n, f) => (count + n, f) := by
  induction keys generalizing f count with
  | nil => rfl
  | cons key keys ih =>
    rw [List.foldlM_cons, List.foldlM_cons, countStep, countStep]
    cases set f key with
    | error e => rfl
    | ok r =>
      obtain ⟨new, g⟩ := r
      change keys.foldlM (countStep set) (count + new.toNat, g) =
        (keys.foldlM (countStep set) (0 + new.toNat, g)).map _
      rw [ih g (count + new.toNat), ih g (0 + new.toNat)]
      cases keys.foldlM (countStep set) (0, g) with
      | error e => rfl
      | ok r => simp [Except.map, Nat.add_assoc]

theorem countNew_cons (f : F) (key : ByteArray) (keys : List ByteArray) :
    countNew set f (key :: keys) = (do
      let (new, f) ← set f key
      (countNew set f keys).map fun (n, f) => (new.toNat + n, f)) := by
  rw [countNew_eq_foldlM, List.foldlM_cons, countStep]
  cases set f key with
  | error e => rfl
  | ok r =>
    obtain ⟨new, g⟩ := r
    change keys.foldlM (countStep set) (0 + new.toNat, g) = (countNew set g keys).map _
    rw [foldlM_countStep, countNew_eq_foldlM, Nat.zero_add]

end

namespace PagedBits

/-- Inserting the keys, `n` of them new, has led from the first bits to the second. -/
structure Inserts (way : Nat) (keys : List ByteArray) (n : Nat) (bits after : PagedBits) :
    Prop where
  pages : SamePages bits after
  data_eq : after.data = markBits bits.data (keys.flatMap (bits.probePositions way))
  count_eq : after.uniqueCount.toNat = bits.uniqueCount.toNat + n

def Counted (bits : PagedBits) : Prop :=
  bits.uniqueCount.toNat ≤ (onePositions bits.data).length

theorem counted_of_eq_zero {bits : PagedBits} (h : bits.uniqueCount = 0) : bits.Counted := by
  rw [Counted, h]
  exact Nat.zero_le _

theorem room_iff {bits : PagedBits} :
    bits.uniqueCount ≠ 0xffffffffffffffff ↔ bits.uniqueCount.toNat + 1 < 2 ^ 64 := by
  have hlt := bits.uniqueCount.toNat_lt
  have hmax : (0xffffffffffffffff : UInt64).toNat = 2 ^ 64 - 1 := by decide
  rw [Ne, ← UInt64.toNat_inj, hmax]
  omega

namespace Inserts
variable {way n m : Nat} {xs ys : List ByteArray} {a b c : PagedBits}

theorem nil (way : Nat) (a : PagedBits) : Inserts way [] 0 a a := ⟨.refl a, rfl, rfl⟩

theorem trans (hab : Inserts way xs n a b) (hbc : Inserts way ys m b c) :
    Inserts way (xs ++ ys) (n + m) a c := by
  refine ⟨hab.pages.trans hbc.pages, ?_, ?_⟩
  · rw [hbc.data_eq, hab.data_eq, hab.pages.probePositions_eq, List.flatMap_append,
      markBits_append]
  · rw [hbc.count_eq, hab.count_eq, Nat.add_assoc]

theorem bitAt_eq (hab : Inserts way xs n a b) (ha : a.Whole) (j : Nat) :
    bitAt b.data j = true ↔ bitAt a.data j = true ∨ ∃ key ∈ xs, j ∈ a.probePositions way key := by
  have hin : ∀ i ∈ xs.flatMap (a.probePositions way), i < 8 * a.data.size := by
    intro i hi
    obtain ⟨key, -, hkey⟩ := List.mem_flatMap.mp hi
    exact ha.probe_lt hkey
  rw [hab.data_eq, bitAt_markBits _ _ _ hin, Bool.or_eq_true, decide_eq_true_eq,
    List.mem_flatMap]

theorem covers_iff (hab : Inserts way xs n a b) (ha : a.Whole) (key : ByteArray) :
    b.covers way key = true ↔ ∀ j ∈ a.probePositions way key,
      bitAt a.data j = true ∨ ∃ other ∈ xs, j ∈ a.probePositions way other := by
  rw [covers, List.all_eq_true, hab.pages.probePositions_eq]
  exact forall₂_congr fun j _ => hab.bitAt_eq ha j

theorem covers_of_covers (hab : Inserts way xs n a b) (ha : a.Whole) {key : ByteArray}
    (h : a.covers way key = true ∨ key ∈ xs) : b.covers way key = true := by
  rw [hab.covers_iff ha]
  intro j hj
  rcases h with hcovers | hmem
  · exact Or.inl (List.all_eq_true.mp hcovers j hj)
  · exact Or.inr ⟨key, hmem, hj⟩

end Inserts

theorem Whole.inserts_of_covers {bits : PagedBits} (h : bits.Whole) {way : Nat} {key : ByteArray}
    (hcovers : bits.covers way key = true) : Inserts way [key] 0 bits bits := by
  refine ⟨.refl bits, ?_, rfl⟩
  rw [List.flatMap_singleton]
  exact (markBits_of_set _ _ (fun i hi => h.probe_lt hi) (List.all_eq_true.mp hcovers)).symm

theorem inserts_inserted (bits : PagedBits) (way : Nat) (key : ByteArray)
    (hroom : bits.uniqueCount ≠ 0xffffffffffffffff) :
    Inserts way [key] 1 bits (bits.inserted way key) := by
  refine ⟨.inserted bits way key, ?_, ?_⟩
  · rw [List.flatMap_singleton]
    rfl
  · rw [inserted, UInt64.toNat_add]
    exact Nat.mod_eq_of_lt (room_iff.mp hroom)

theorem Whole.inserts_of_set {bits after : PagedBits} (h : bits.Whole) {way : Nat}
    (hway : way ≤ 8) {key : ByteArray} {new : Bool} (hset : bits.set way key = .ok (new, after)) :
    new = !bits.covers way key ∧ Inserts way [key] new.toNat bits after := by
  rw [h.set_eq hway] at hset
  cases hcovers : bits.covers way key with
  | true =>
    rw [hcovers, if_pos rfl] at hset
    cases hset
    exact ⟨rfl, h.inserts_of_covers hcovers⟩
  | false =>
    rw [hcovers, if_neg Bool.false_ne_true] at hset
    by_cases hfull : bits.uniqueCount = 0xffffffffffffffff
    · rw [if_pos hfull] at hset
      cases hset
    · rw [if_neg hfull] at hset
      cases hset
      exact ⟨rfl, inserts_inserted bits way key hfull⟩

theorem Whole.set_total {bits : PagedBits} (h : bits.Whole) {way : Nat} (hway : way ≤ 8)
    (key : ByteArray) (hroom : bits.uniqueCount ≠ 0xffffffffffffffff) :
    ∃ new after, bits.set way key = .ok (new, after) := by
  rw [h.set_eq hway, if_neg hroom]
  cases bits.covers way key with
  | true => exact ⟨_, _, rfl⟩
  | false => exact ⟨_, _, rfl⟩

theorem Whole.inserts_of_countNew {bits after : PagedBits} (h : bits.Whole) {way : Nat}
    (hway : way ≤ 8) {keys : List ByteArray} {n : Nat}
    (hrun : countNew (set · way) bits keys = .ok (n, after)) :
    Inserts way keys n bits after := by
  induction keys generalizing bits n with
  | nil =>
    cases hrun
    exact .nil way after
  | cons key keys ih =>
    rw [countNew_cons] at hrun
    obtain ⟨⟨new, next⟩, hset, hcounted⟩ := bind_eq_ok.mp hrun
    obtain ⟨⟨m, last⟩, hrest, heq⟩ := map_eq_ok.mp hcounted
    cases heq
    have hfirst := (h.inserts_of_set hway hset).2
    exact hfirst.trans (ih (hfirst.pages.whole h) hrest)

/-- A run of insertions ends wherever `P`, which may depend on how many keys are still to come,
leaves room for the next one and is kept by it. -/
theorem Whole.countNew_total {way : Nat} (hway : way ≤ 8) (P : Nat → PagedBits → Prop)
    (hroom : ∀ k bits, bits.Whole → P (k + 1) bits → bits.uniqueCount ≠ 0xffffffffffffffff)
    (hkeep : ∀ k bits key after, bits.Whole → P (k + 1) bits →
      Inserts way [key] (!bits.covers way key).toNat bits after → P k after)
    {bits : PagedBits} (h : bits.Whole) (keys : List ByteArray) (hP : P keys.length bits) :
    ∃ n after, countNew (set · way) bits keys = .ok (n, after) ∧ P 0 after := by
  induction keys generalizing bits with
  | nil => exact ⟨0, bits, rfl, hP⟩
  | cons key keys ih =>
    obtain ⟨new, next, hset⟩ := h.set_total hway key (hroom _ _ h hP)
    obtain ⟨hnew, hfirst⟩ := h.inserts_of_set hway hset
    have hnext := hkeep _ _ key next h hP (hnew ▸ hfirst)
    obtain ⟨n, after, hrun, hafter⟩ := ih (hfirst.pages.whole h) hnext
    refine ⟨new.toNat + n, after, ?_, hafter⟩
    rw [countNew_cons, hset, ok_bind]
    dsimp only
    rw [hrun]
    rfl

theorem Whole.countNew_of_lt {bits : PagedBits} (h : bits.Whole) {way : Nat} (hway : way ≤ 8)
    (keys : List ByteArray) (hcount : bits.uniqueCount.toNat + keys.length < 2 ^ 64) :
    ∃ n after, countNew (set · way) bits keys = .ok (n, after) ∧
      Inserts way keys n bits after := by
  obtain ⟨n, after, hrun, -⟩ := h.countNew_total hway
    (fun k bits => bits.uniqueCount.toNat + k < 2 ^ 64)
    (by
      intro k bits _ hlt
      exact room_iff.mpr (by omega))
    (by
      intro k bits key after _ hlt hinserts
      have hone := Bool.toNat_le (!bits.covers way key)
      rw [hinserts.count_eq]
      omega) keys hcount
  exact ⟨n, after, hrun, h.inserts_of_countNew hway hrun⟩

theorem Whole.room_of_counted {bits : PagedBits} (h : bits.Whole) (hcounted : bits.Counted) :
    bits.uniqueCount ≠ 0xffffffffffffffff := by
  have hones := length_onePositions_le bits.data
  have hsize := h.size_lt
  rw [Counted] at hcounted
  rw [room_iff]
  omega

/-- A new key sets a bit that was clear, so the count does not overtake the bits. -/
theorem Whole.counted_of_inserts {bits after : PagedBits} (h : bits.Whole) {way : Nat}
    {key : ByteArray} (hcounted : bits.Counted)
    (hinserts : Inserts way [key] (!bits.covers way key).toNat bits after) : after.Counted := by
  have hin : ∀ i ∈ bits.probePositions way key, i < 8 * bits.data.size :=
    fun i hi => h.probe_lt hi
  rw [Counted] at hcounted ⊢
  rw [hinserts.count_eq, hinserts.data_eq, List.flatMap_singleton]
  cases hcovers : bits.covers way key with
  | true =>
    rw [markBits_of_set _ _ hin (List.all_eq_true.mp hcovers)]
    exact hcounted
  | false =>
    obtain ⟨i, hi, hclear⟩ := List.all_eq_false.mp hcovers
    have hlt := length_onePositions_markBits bits.data _ i hin hi (Bool.eq_false_iff.mpr hclear)
    change bits.uniqueCount.toNat + 1 ≤ _
    omega

theorem Whole.countNew_of_counted {bits : PagedBits} (h : bits.Whole) {way : Nat} (hway : way ≤ 8)
    (keys : List ByteArray) (hcounted : bits.Counted) :
    ∃ n after, countNew (set · way) bits keys = .ok (n, after) ∧
      Inserts way keys n bits after ∧ after.Counted := by
  obtain ⟨n, after, hrun, hafter⟩ := h.countNew_total hway (fun _ bits => bits.Counted)
    (fun _ _ hbits hc => hbits.room_of_counted hc)
    (fun _ _ _ _ hbits hc hinserts => hbits.counted_of_inserts hc hinserts) keys hcounted
  exact ⟨n, after, hrun, h.inserts_of_countNew hway hrun, hafter⟩

end PagedBits
end PagedFilter
