import Mathlib.Data.Nat.Bitwise
import PagedFilter.Proofs.Bytes.Marking
import PagedFilter.Proofs.Storage.WellFormed
/-! On whole bits a test asks for the probe positions of its key, and an insertion marks them. -/
namespace PagedFilter
namespace Probes

theorem bitAt_probe (data : ByteArray) (start bit : Nat) (h : start + bit / 8 < data.size) :
    bitAt data (8 * start + bit) = hasBit data[start + bit / 8] (bit % 8) := by
  have hdiv : (8 * start + bit) / 8 = start + bit / 8 := by omega
  have hmod : (8 * start + bit) % 8 = bit % 8 := by omega
  rw [bitAt, hdiv, hmod, octet_of_lt _ _ h]

theorem set_eq_markBit (data : ByteArray) (start bit : Nat) (h : start + bit / 8 < data.size) :
    data.set (start + bit / 8) (withBit data[start + bit / 8] (bit % 8)) h =
      markBit data (8 * start + bit) := by
  have hdiv : (8 * start + bit) / 8 = start + bit / 8 := by omega
  have hmod : (8 * start + bit) % 8 = bit % 8 := by omega
  simp only [markBit, hdiv, hmod, dif_pos h]

theorem testAll_eq (start size : Nat) (data : ByteArray) (bits : List Nat)
    (hbits : ∀ bit ∈ bits, bit / 8 < size) (hpage : start + size ≤ data.size) :
    testAll start size data bits = .ok ((bits.map (8 * start + ·)).all (bitAt data)) := by
  induction bits with
  | nil => rfl
  | cons bit bits ih =>
    have hbit : bit / 8 < size := hbits bit List.mem_cons_self
    have hin : start + bit / 8 < data.size := by omega
    have hrest := ih fun b hb => hbits b (List.mem_cons_of_mem bit hb)
    rw [testAll, dif_pos ⟨hbit, hin⟩, hrest, List.map_cons, List.all_cons,
      bitAt_probe data start bit hin]
    cases hasBit data[start + bit / 8] (bit % 8) <;> rfl

/-- A clear bit stays clear until the loop reaches it, so the flag speaks of the first buffer. -/
theorem setAll_eq (start size : Nat) (bits : List Nat) (hit : Bool) (data : ByteArray)
    (hbits : ∀ bit ∈ bits, bit / 8 < size) (hpage : start + size ≤ data.size) :
    setAll start size bits hit data =
      .ok (hit && (bits.map (8 * start + ·)).all (bitAt data),
        markBits data (bits.map (8 * start + ·))) := by
  induction bits generalizing hit data with
  | nil => simp [setAll, markBits]
  | cons bit bits ih =>
    have hbit : bit / 8 < size := hbits bit List.mem_cons_self
    have hin : start + bit / 8 < data.size := by omega
    have hpos : 8 * start + bit < 8 * data.size := by omega
    have hrest := ih (hit && bitAt data (8 * start + bit)) (markBit data (8 * start + bit))
      (fun b hb => hbits b (List.mem_cons_of_mem bit hb)) (by rwa [size_markBit])
    rw [setAll, dif_pos ⟨hbit, hin⟩]
    dsimp only
    rw [set_eq_markBit data start bit hin, ← bitAt_probe data start bit hin, hrest,
      List.map_cons, List.all_cons, markBits_cons]
    congr 2
    rw [Bool.and_assoc]
    congr 1
    cases hset : bitAt data (8 * start + bit) with
    | false => rfl
    | true =>
      -- The bit was set before, so marking it changes no bit that is looked at later.
      have hsame : bitAt (markBit data (8 * start + bit)) = bitAt data := by
        funext j
        rw [bitAt_markBit _ _ _ hpos]
        by_cases hj : 8 * start + bit = j
        · rw [← hj, hset, decide_eq_true rfl, Bool.or_true]
        · rw [decide_eq_false hj, Bool.or_false]
      rw [hsame]

end Probes

namespace PagedBits

/-- The bits of the buffer that a key probes, in order: those of its first `way` codes, in the
page that its digest picks. -/
def probePositions (bits : PagedBits) (way : Nat) (key : ByteArray) : List Nat :=
  let place := Placement.ofKey key bits.pages bits.pageLevel
  (place.codes.toList.take way).map fun code => 8 * place.offset + maskCode bits.pageLevel code

def covers (bits : PagedBits) (way : Nat) (key : ByteArray) : Bool :=
  (bits.probePositions way key).all (bitAt bits.data)

theorem maskCode_lt (level : Nat) (code : UInt16) : maskCode level code < 8 * 2 ^ level := by
  have hpow : 2 ^ (level + 3) = 8 * 2 ^ level := by rw [Nat.pow_add, Nat.mul_comm]
  rw [maskCode, Nat.and_two_pow_sub_one_eq_mod, ← hpow]
  exact Nat.mod_lt _ (Nat.two_pow_pos _)

theorem maskCode_div_lt (level : Nat) (code : UInt16) : maskCode level code / 8 < 2 ^ level := by
  have hlt := maskCode_lt level code
  omega

theorem Whole.page_le {bits : PagedBits} (h : bits.Whole) (key : ByteArray) :
    (Placement.ofKey key bits.pages bits.pageLevel).offset + 2 ^ bits.pageLevel ≤
      bits.data.size := by
  have hrem := Reciprocal.rem_lt bits.pages (Digest.ofBytes key).pageSelector h.pageNum_ne
  have hpages : (bits.pages.rem (Digest.ofBytes key).pageSelector).toNat + 1 ≤
      bits.pageNum.toNat := hrem
  have hoffset : (Placement.ofKey key bits.pages bits.pageLevel).offset =
      (bits.pages.rem (Digest.ofBytes key).pageSelector).toNat * 2 ^ bits.pageLevel :=
    bytesOfPages_eq _ _ (UInt32.toNat_lt _) h.level_le
  calc (Placement.ofKey key bits.pages bits.pageLevel).offset + 2 ^ bits.pageLevel
      = ((bits.pages.rem (Digest.ofBytes key).pageSelector).toNat + 1) *
          2 ^ bits.pageLevel := by rw [hoffset, Nat.succ_mul]
    _ ≤ bits.pageNum.toNat * 2 ^ bits.pageLevel := Nat.mul_le_mul_right _ hpages
    _ = bits.data.size := h.size_data.symm

theorem Whole.probe_lt {bits : PagedBits} (h : bits.Whole) {way : Nat} {key : ByteArray}
    {i : Nat} (hi : i ∈ bits.probePositions way key) : i < 8 * bits.data.size := by
  obtain ⟨code, -, rfl⟩ := List.mem_map.mp hi
  have hpage := h.page_le key
  have hmask := maskCode_lt bits.pageLevel code
  omega

theorem Whole.probes_eq {bits : PagedBits} (h : bits.Whole) {way : Nat} (hway : way ≤ 8)
    (key : ByteArray) :
    probes bits.pageLevel bits.pages bits.data.size way key =
      let place := Placement.ofKey key bits.pages bits.pageLevel
      .ok ⟨place.offset, 2 ^ bits.pageLevel,
        (place.codes.toList.take way).map (maskCode bits.pageLevel)⟩ := by
  have hle : bits.pageLevel ≤ 13 := h.level_le
  have hpage := Nat.not_lt.mpr (h.page_le key)
  rw [probes, checkShift_of_lt (by omega), ok_bind]
  simp only [bytesOfPages_one _ h.level_le, if_neg hpage, if_neg (Nat.not_lt.mpr hway)]
  rfl

theorem Whole.test_eq {bits : PagedBits} (h : bits.Whole) {way : Nat} (hway : way ≤ 8)
    (key : ByteArray) : bits.test way key = .ok (bits.covers way key) := by
  rw [test, h.probes_eq hway, ok_bind, Probes.testAll_eq, List.map_map]
  · rfl
  · intro bit hbit
    obtain ⟨code, -, rfl⟩ := List.mem_map.mp hbit
    exact maskCode_div_lt _ code
  · exact h.page_le key

def inserted (bits : PagedBits) (way : Nat) (key : ByteArray) : PagedBits :=
  { bits with
    data := markBits bits.data (bits.probePositions way key)
    uniqueCount := bits.uniqueCount + 1 }

/-- An insertion changes nothing when all probe positions were set, and otherwise marks them and
counts; the count is the only thing that can give out. -/
theorem Whole.set_eq {bits : PagedBits} (h : bits.Whole) {way : Nat} (hway : way ≤ 8)
    (key : ByteArray) :
    bits.set way key =
      if bits.covers way key then .ok (false, bits)
      else if bits.uniqueCount = 0xffffffffffffffff then .error .counterOverflow
      else .ok (true, bits.inserted way key) := by
  have hloop := Probes.setAll_eq (Placement.ofKey key bits.pages bits.pageLevel).offset
    (2 ^ bits.pageLevel) (((Placement.ofKey key bits.pages bits.pageLevel).codes.toList.take
      way).map (maskCode bits.pageLevel)) true bits.data (by
        intro bit hbit
        obtain ⟨code, -, rfl⟩ := List.mem_map.mp hbit
        exact maskCode_div_lt _ code) (h.page_le key)
  rw [List.map_map, Bool.true_and] at hloop
  change _ = Except.ok (bits.covers way key, markBits bits.data (bits.probePositions way key))
    at hloop
  rw [set, h.probes_eq hway, ok_bind, hloop, ok_bind]
  cases hcovers : bits.covers way key with
  | false =>
    by_cases hfull : bits.uniqueCount = 0xffffffffffffffff
    · simp [hfull]
    · simp [hfull, inserted, pure, Except.pure]
  | true =>
    -- All the positions were set, so that marking them gives the same buffer.
    have hsame : markBits bits.data (bits.probePositions way key) = bits.data :=
      markBits_of_set _ _ (fun i hi => h.probe_lt hi) (List.all_eq_true.mp hcovers)
    simp [hsame, pure, Except.pure]

theorem SamePages.inserted (bits : PagedBits) (way : Nat) (key : ByteArray) :
    SamePages bits (bits.inserted way key) := ⟨rfl, rfl, size_markBits _ _⟩

theorem SamePages.probePositions_eq {bits other : PagedBits} (h : SamePages bits other) :
    other.probePositions = bits.probePositions := by
  funext way key
  rw [probePositions, probePositions, h.level_eq, h.pages_eq]

end PagedBits
end PagedFilter
