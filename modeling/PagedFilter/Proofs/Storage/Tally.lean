import Mathlib.Data.Finset.Card
import Mathlib.Data.Finset.Dedup
import PagedFilter.Proofs.Bytes.Marking
import PagedFilter.Proofs.Storage.Steps
/-! A new key raises the count by one, and the set bits by one at least and the way at most. -/
namespace PagedFilter

def newKeys (keys : List ByteArray) (news : List Bool) : List ByteArray :=
  ((keys.zip news).filter Prod.snd).map Prod.fst

theorem newKeys_append {xs : List ByteArray} {as : List Bool} (hlength : as.length = xs.length)
    (ys : List ByteArray) (bs : List Bool) :
    newKeys (xs ++ ys) (as ++ bs) = newKeys xs as ++ newKeys ys bs := by
  rw [newKeys, List.zip_append hlength.symm, List.filter_append, List.map_append]
  rfl

theorem newKeys_subset (keys : List ByteArray) (news : List Bool) : newKeys keys news ⊆ keys := by
  intro key hkey
  obtain ⟨⟨other, new⟩, hmem, rfl⟩ := List.mem_map.mp hkey
  exact (List.of_mem_zip (List.mem_filter.mp hmem).1).1

theorem length_newKeys {keys : List ByteArray} {news : List Bool}
    (hlength : news.length = keys.length) : (newKeys keys news).length = news.count true := by
  have hsnd : (keys.zip news).map Prod.snd = news := List.map_snd_zip (Nat.le_of_eq hlength)
  rw [newKeys, List.length_map, ← List.countP_eq_length_filter, List.count_eq_countP]
  conv_rhs => rw [← hsnd, List.countP_map]
  exact List.countP_congr fun s _ => by simp

namespace PagedBits

structure Balanced (way : Nat) (bits : PagedBits) : Prop where
  counted : bits.Counted
  ones_le : bits.countOnes ≤ way * bits.uniqueCount.toNat

/-- Insertions of the keys, one by one, have led from the first bits to the second with these
reports. -/
structure Tally (way : Nat) (keys : List ByteArray) (news : List Bool) (bits after : PagedBits) :
    Prop where
  run_eq : bits.run way (keys.map .set) = .ok (news.map .flag, after)
  length_eq : news.length = keys.length
  inserts : Inserts way keys (news.count true) bits after
  nodup : (newKeys keys news).Nodup
  uncovered : ∀ key ∈ newKeys keys news, bits.covers way key = false

variable {a b c : PagedBits} {way : Nat}

theorem length_probePositions_le (a : PagedBits) (way : Nat) (key : ByteArray) :
    (a.probePositions way key).length ≤ way := by
  rw [probePositions, List.length_map]
  exact List.length_take_le _ _

theorem Balanced.count_le (h : a.Balanced way) : a.uniqueCount.toNat ≤ a.countOnes := by
  rw [countOnes, countOnes_eq]
  exact h.counted

theorem Balanced.count_eq_zero_iff (h : a.Balanced way) :
    a.uniqueCount = 0 ↔ a.data = zeros a.data.size := by
  rw [← countOnes_eq_zero_iff]
  have hle := h.count_le
  have hones := h.ones_le
  constructor
  · intro hzero
    rw [hzero] at hones
    exact Nat.le_zero.mp hones
  · intro hnone
    rw [countOnes, hnone] at hle
    exact UInt64.toNat_inj.mp (Nat.le_zero.mp hle)

theorem balanced_of_clear (hcount : a.uniqueCount = 0) (hdata : a.data = zeros a.data.size) :
    a.Balanced way := by
  have hones : a.countOnes = 0 := (countOnes_eq_zero_iff _).mpr hdata
  refine ⟨counted_of_eq_zero hcount, ?_⟩
  rw [hones]
  exact Nat.zero_le _

theorem Whole.balanced_afterStep (h : a.Whole) (hbalanced : a.Balanced way) (s : KeyStep) :
    (a.afterStep way s).Balanced way := by
  refine ⟨h.counted_afterStep hbalanced.counted way s, ?_⟩
  cases s with
  | set key =>
    rw [afterStep]
    cases a.covers way key with
    | true => exact hbalanced.ones_le
    | false =>
      have hinserts := inserts_inserted a way key (h.room_of_counted hbalanced.counted)
      calc countOnes (a.inserted way key)
          ≤ a.countOnes + (a.probePositions way key).length :=
            countOnes_markBits_le _ _ fun i hi => h.probe_lt hi
        _ ≤ way * a.uniqueCount.toNat + way :=
            Nat.add_le_add hbalanced.ones_le (length_probePositions_le a way key)
        _ = way * (a.inserted way key).uniqueCount.toNat := by
            rw [hinserts.count_eq, Nat.mul_succ]
  | test key => exact hbalanced.ones_le
  | clear => exact (balanced_of_clear rfl (by rw [afterStep, clear, size_zeros])).ones_le

theorem run_append {xs ys : List KeyStep} {as bs : List Answer} (hab : a.run way xs = .ok (as, b))
    (hbc : b.run way ys = .ok (bs, c)) : a.run way (xs ++ ys) = .ok (as ++ bs, c) := by
  induction xs generalizing a as with
  | nil =>
    cases hab
    exact hbc
  | cons s xs ih =>
    obtain ⟨⟨answer, next⟩, hstep, hrest⟩ := bind_eq_ok.mp hab
    obtain ⟨⟨answers, last⟩, hlast, heq⟩ := bind_eq_ok.mp hrest
    cases heq
    rw [List.cons_append, run, hstep, ok_bind]
    dsimp only
    rw [ih hlast]
    rfl

namespace Tally

theorem nil (way : Nat) (a : PagedBits) : Tally way [] [] a a :=
  ⟨rfl, rfl, .nil way a, List.nodup_nil, fun _ h => absurd h List.not_mem_nil⟩

theorem single (h : a.Whole) (hway : way ≤ 8) (hroom : a.uniqueCount ≠ 0xffffffffffffffff)
    (key : ByteArray) :
    Tally way [key] [!a.covers way key] a (a.afterStep way (.set key)) := by
  have hrun : a.run way [.set key] =
      .ok ([.flag (!a.covers way key)], a.afterStep way (.set key)) := by
    rw [h.run_cons hway hroom]
    rfl
  rw [afterStep] at hrun ⊢
  cases hcovers : a.covers way key with
  | true =>
    rw [hcovers] at hrun
    exact ⟨hrun, rfl, h.inserts_of_covers hcovers, List.nodup_nil,
      fun _ h => absurd h List.not_mem_nil⟩
  | false =>
    rw [hcovers] at hrun
    refine ⟨hrun, rfl, inserts_inserted a way key hroom, List.nodup_singleton key, ?_⟩
    intro other hother
    rwa [List.mem_singleton.mp hother]

/-- A key that was new in the second run was not covered after the first, so it was not among the
keys of the first. -/
theorem trans {xs ys : List ByteArray} {as bs : List Bool} (h : a.Whole)
    (hab : Tally way xs as a b) (hbc : Tally way ys bs b c) :
    Tally way (xs ++ ys) (as ++ bs) a c := by
  have happend := newKeys_append hab.length_eq ys bs
  refine ⟨?_, ?_, ?_, ?_, ?_⟩
  · rw [List.map_append, List.map_append]
    exact run_append hab.run_eq hbc.run_eq
  · rw [List.length_append, List.length_append, hab.length_eq, hbc.length_eq]
  · rw [List.count_append]
    exact hab.inserts.trans hbc.inserts
  · rw [happend, List.nodup_append]
    refine ⟨hab.nodup, hbc.nodup, ?_⟩
    rintro key hfirst _ hsecond rfl
    have hcovered := hab.inserts.covers_of_covers h (Or.inr (newKeys_subset xs as hfirst))
    rw [hbc.uncovered key hsecond] at hcovered
    exact Bool.false_ne_true hcovered
  · intro key hkey
    rw [happend, List.mem_append] at hkey
    rcases hkey with hfirst | hsecond
    · exact hab.uncovered key hfirst
    · rw [Bool.eq_false_iff]
      intro hcovers
      have hcovered := hab.inserts.covers_of_covers h (Or.inl hcovers)
      rw [hbc.uncovered key hsecond] at hcovered
      exact Bool.false_ne_true hcovered

theorem count_le {keys : List ByteArray} {news : List Bool} (h : Tally way keys news a b) :
    news.count true ≤ keys.toFinset.card := by
  rw [← length_newKeys h.length_eq, ← List.toFinset_card_of_nodup h.nodup]
  refine Finset.card_le_card fun key hkey => ?_
  exact List.mem_toFinset.mpr (newKeys_subset keys news (List.mem_toFinset.mp hkey))

end Tally

theorem Whole.tally (h : a.Whole) (hway : way ≤ 8) (hbalanced : a.Balanced way)
    (keys : List ByteArray) :
    ∃ news b, Tally way keys news a b ∧ b.Balanced way := by
  induction keys generalizing a with
  | nil => exact ⟨[], a, .nil way a, hbalanced⟩
  | cons key keys ih =>
    have hfirst := Tally.single h hway (h.room_of_counted hbalanced.counted) key
    obtain ⟨news, b, hrest, hb⟩ := ih (hfirst.inserts.pages.whole h)
      (h.balanced_afterStep hbalanced (.set key))
    exact ⟨_, b, hfirst.trans h hrest, hb⟩

end PagedBits
end PagedFilter
