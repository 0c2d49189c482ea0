import PagedFilter.Proofs.Storage.Pages
/-! What an insertion does, on bits and in the two passes over bytes. -/
namespace PagedFilter

theorem hasBit_and_shiftRight (flag byte : UInt8) (k : Nat) (hk : k < 8) :
    hasBit (flag &&& (byte >>> UInt8.ofNat k)) 0 = (hasBit flag 0 && hasBit byte k) := by
  have hmod : k % 256 = k := Nat.mod_eq_of_lt (by omega)
  simp [hasBit, UInt8.toNat_and, UInt8.toNat_shiftRight, hmod, Nat.mod_eq_of_lt hk]

theorem and_mask_ne_zero_iff (byte : UInt8) (k : Nat) (hk : k < 8) :
    byte &&& (1 <<< UInt8.ofNat k) ≠ 0 ↔ hasBit byte k = true := by
  have hand : (byte &&& (1 <<< UInt8.ofNat k)).toNat = (byte.toNat.testBit k).toNat * 2 ^ k := by
    rw [UInt8.toNat_and, toNat_one_shiftLeft k hk, Nat.and_two_pow]
  rw [hasBit, ne_eq, ← UInt8.toNat_inj, hand]
  cases byte.toNat.testBit k with
  | false => simp
  | true => simp

namespace Probes

/-- Each probed byte is shifted into the flag before it is written. Only the lowest bit of the flag
is of use; the others are leftovers of shifts. -/
def writePass (start size : Nat) :
    List Nat → UInt8 → ByteArray → Except Fault (UInt8 × ByteArray)
  | [], flag, data => .ok (flag, data)
  | bit :: bits, flag, data =>
    let i := start + bit / 8
    let k := UInt8.ofNat (bit % 8)
    if h : bit / 8 < size ∧ i < data.size then
      writePass start size bits (flag &&& (data[i] >>> k)) (data.set i (data[i] ||| (1 <<< k)) h.2)
    else .error .probeOutsidePage

def readPass (start size : Nat) (data : ByteArray) : List Nat → Except Fault Bool
  | [] => .ok true
  | bit :: bits =>
    let i := start + bit / 8
    if h : bit / 8 < size ∧ i < data.size then
      if data[i] &&& (1 <<< UInt8.ofNat (bit % 8)) ≠ 0 then readPass start size data bits
      else .ok false
    else .error .probeOutsidePage

theorem setAll_eq_writePass (start size : Nat) (bits : List Nat) (flag : UInt8)
    (data : ByteArray) :
    setAll start size bits (hasBit flag 0) data =
      (writePass start size bits flag data).map (Prod.map (hasBit · 0) id) := by
  induction bits generalizing flag data with
  | nil => rfl
  | cons bit bits ih =>
    have hstep : writePass start size (bit :: bits) flag data =
        if h : bit / 8 < size ∧ start + bit / 8 < data.size then
          writePass start size bits
            (flag &&& (data[start + bit / 8] >>> UInt8.ofNat (bit % 8)))
            (data.set (start + bit / 8) (withBit data[start + bit / 8] (bit % 8)) h.2)
        else .error .probeOutsidePage := rfl
    rw [setAll, hstep]
    by_cases h : bit / 8 < size ∧ start + bit / 8 < data.size
    · rw [dif_pos h, dif_pos h]
      dsimp only
      rw [← hasBit_and_shiftRight _ _ _ (Nat.mod_lt bit (by decide))]
      exact ih _ _
    · rw [dif_neg h, dif_neg h]
      rfl

theorem testAll_eq_readPass (start size : Nat) (data : ByteArray) (bits : List Nat) :
    testAll start size data bits = readPass start size data bits := by
  induction bits with
  | nil => rfl
  | cons bit bits ih =>
    have hstep : readPass start size data (bit :: bits) =
        if h : bit / 8 < size ∧ start + bit / 8 < data.size then
          if data[start + bit / 8] &&& (1 <<< UInt8.ofNat (bit % 8)) ≠ 0 then
            readPass start size data bits
          else .ok false
        else .error .probeOutsidePage := rfl
    rw [testAll, hstep]
    by_cases h : bit / 8 < size ∧ start + bit / 8 < data.size
    · rw [dif_pos h, dif_pos h]
      simp only [and_mask_ne_zero_iff _ _ (Nat.mod_lt bit (by decide)), ih]
    · rw [dif_neg h, dif_neg h]

end Probes

namespace PagedBits

def setOnBytes (bits : PagedBits) (way : Nat) (key : ByteArray) :
    Except Fault (Bool × PagedBits) := do
  let ⟨data, level, pages, uniqueCount⟩ := bits
  let ps ← probes level pages data.size way key
  let (flag, data) ← Probes.writePass ps.start ps.size ps.bits 1 data
  if flag &&& 1 ≠ 0 then return (false, ⟨data, level, pages, uniqueCount⟩)
  if uniqueCount = 0xffffffffffffffff then .error .counterOverflow
  return (true, ⟨data, level, pages, uniqueCount + 1⟩)

def testOnBytes (bits : PagedBits) (way : Nat) (key : ByteArray) : Except Fault Bool := do
  let ps ← probes bits.pageLevel bits.pages bits.data.size way key
  Probes.readPass ps.start ps.size bits.data ps.bits

theorem setOnBytes_eq (bits : PagedBits) (way : Nat) (key : ByteArray) :
    bits.setOnBytes way key = bits.set way key := by
  rw [setOnBytes, set]
  cases probes bits.pageLevel bits.pages bits.data.size way key with
  | error e => rfl
  | ok ps =>
    have hpass := Probes.setAll_eq_writePass ps.start ps.size ps.bits 1 bits.data
    change Probes.setAll ps.start ps.size ps.bits true bits.data = _ at hpass
    rw [ok_bind, ok_bind, hpass]
    cases Probes.writePass ps.start ps.size ps.bits 1 bits.data with
    | error e => rfl
    | ok r =>
      have hflag : r.1 &&& 1 ≠ 0 ↔ hasBit r.1 0 = true := and_mask_ne_zero_iff r.1 0 (by decide)
      change (if r.1 &&& 1 ≠ 0 then _ else _) = if hasBit r.1 0 = true then _ else _
      simp only [hflag]
      rfl

theorem testOnBytes_eq (bits : PagedBits) (way : Nat) (key : ByteArray) :
    bits.testOnBytes way key = bits.test way key := by
  simp only [testOnBytes, test, Probes.testAll_eq_readPass]

/-- What an insertion leaves behind: the probe bits of the key are set, in the page of the key and
nowhere else, and the count tells whether the key was new. -/
structure Outcome (way : Nat) (key : ByteArray) (new : Bool) (bits after : PagedBits) : Prop where
  bit_iff (j : Nat) : bitAt after.data j = true ↔
    bitAt bits.data j = true ∨ j ∈ bits.probePositions way key
  octet_eq (i : Nat) : i / 2 ^ bits.pageLevel ≠ pageOf bits.pageNum key →
    octet after.data i = octet bits.data i
  pages : SamePages bits after
  count_eq : after.uniqueCount.toNat = bits.uniqueCount.toNat + new.toNat
  unchanged : new = false → after = bits

theorem Whole.page_of_probe {bits : PagedBits} (h : bits.Whole) {way : Nat} {key : ByteArray}
    {j : Nat} (hj : j ∈ bits.probePositions way key) :
    j / 8 / 2 ^ bits.pageLevel = pageOf bits.pageNum key := by
  rw [h.probePositions_eq] at hj
  obtain ⟨k, hk, rfl⟩ := List.mem_map.mp hj
  have hlt := inPage_lt hk
  rw [Nat.div_div_eq_div_mul, Nat.mul_add_div (Nat.zero_lt_of_lt hlt), Nat.div_eq_of_lt hlt,
    Nat.add_zero]

theorem Whole.outcome {bits after : PagedBits} (h : bits.Whole) {way : Nat} {key : ByteArray}
    {new : Bool} (hinserts : Inserts way [key] new.toNat bits after)
    (hunchanged : new = false → after = bits) : Outcome way key new bits after := by
  have hbit (j : Nat) : bitAt after.data j = true ↔
      bitAt bits.data j = true ∨ j ∈ bits.probePositions way key := by
    rw [hinserts.bitAt_eq h]
    simp only [List.mem_singleton, exists_eq_left]
  refine ⟨hbit, ?_, hinserts.pages, hinserts.count_eq, hunchanged⟩
  intro i hi
  apply byte_ext
  intro k hk
  have hdiv : (8 * i + k) / 8 = i := by omega
  have hmod : (8 * i + k) % 8 = k := by omega
  have hout : 8 * i + k ∉ bits.probePositions way key := by
    intro hmem
    have hpage := h.page_of_probe hmem
    rw [hdiv] at hpage
    exact hi hpage
  have hsame : bitAt after.data (8 * i + k) = bitAt bits.data (8 * i + k) := by
    apply Bool.eq_iff_iff.mpr
    rw [hbit, or_iff_left hout]
  rwa [bitAt, bitAt, hdiv, hmod] at hsame

/-- An insertion with up to eight probes and room in the count succeeds, answers the opposite of a
test just before it, leaves behind what it should, and both passes on bytes come to the same. -/
theorem insertion_exact (bits : PagedBits) (h : bits.Whole)
    (hroom : bits.uniqueCount.toNat < 2 ^ 64 - 1) (way : Nat) (hway : way ≤ 8)
    (key : ByteArray) :
    ∃ new after, bits.set way key = .ok (new, after) ∧ bits.test way key = .ok (!new) ∧
      Outcome way key new bits after ∧ bits.setOnBytes way key = .ok (new, after) ∧
      bits.testOnBytes way key = .ok (!new) := by
  have hne : bits.uniqueCount ≠ 0xffffffffffffffff := by
    intro hmax
    rw [hmax] at hroom
    exact absurd hroom (by decide)
  obtain ⟨new, after, hset⟩ := h.set_total hway key hne
  obtain ⟨hnew, hinserts⟩ := h.inserts_of_set hway hset
  have htest : bits.test way key = .ok (!new) := by
    rw [h.test_eq hway, hnew, Bool.not_not]
  have hunchanged : new = false → after = bits := by
    intro hold
    rw [hnew, Bool.not_eq_false'] at hold
    rw [h.set_eq hway, if_pos hold] at hset
    cases hset
    rfl
  refine ⟨new, after, hset, htest, h.outcome hinserts hunchanged, ?_, ?_⟩
  · rw [setOnBytes_eq, hset]
  · rw [testOnBytes_eq, htest]

/-- Two of the four probes of this key meet in one bit. -/
theorem insertion_exact_meeting_probes :
    let bits : PagedBits := ⟨zeros 192, 6, ⟨0x5555555555555556, 3⟩, 7⟩
    bits.Whole ∧ bits.uniqueCount.toNat < 2 ^ 64 - 1 ∧
      bits.probePositions 4 ⟨#[240]⟩ = [30, 354, 162, 162] ∧
      ∃ after, bits.set 4 ⟨#[240]⟩ = .ok (true, after) ∧ after.uniqueCount.toNat = 8 ∧
        (∀ j, bitAt after.data j = true ↔ j = 30 ∨ j = 354 ∨ j = 162) ∧
        after.set 4 ⟨#[240]⟩ = .ok (false, after) := by
  intro bits
  have hwhole : bits.Whole := (wellFormed_three_pages _ (size_zeros 192) 7).toWhole
  have hprobes : bits.probePositions 4 ⟨#[240]⟩ = [30, 354, 162, 162] := by decide
  refine ⟨hwhole, by decide, hprobes, ?_⟩
  obtain ⟨new, after, hset, htest, houtcome, -⟩ :=
    insertion_exact bits hwhole (by decide) 4 (by decide) ⟨#[240]⟩
  have hclear : bits.covers 4 ⟨#[240]⟩ = false := by
    rw [covers, hprobes]
    simp [bits]
  have hnew : new = true := by
    rw [hwhole.test_eq (by decide), hclear] at htest
    simpa using htest
  subst hnew
  have hbits (j : Nat) : bitAt after.data j = true ↔ j = 30 ∨ j = 354 ∨ j = 162 := by
    rw [houtcome.bit_iff, hprobes]
    simp [bits]
  refine ⟨after, hset, houtcome.count_eq, hbits, ?_⟩
  have hcount : after.uniqueCount.toNat = 8 := houtcome.count_eq
  obtain ⟨again, last, hagain, htest', hlast, -⟩ := insertion_exact after
    (houtcome.pages.whole hwhole) (by omega) 4 (by decide) ⟨#[240]⟩
  have hcovers : after.covers 4 ⟨#[240]⟩ = true := by
    rw [covers, houtcome.pages.probePositions_eq, hprobes]
    simp [hbits]
  have hold : again = false := by
    rw [(houtcome.pages.whole hwhole).test_eq (by decide), hcovers] at htest'
    simpa using htest'
  subst hold
  rw [hagain, hlast.unchanged rfl]

end PagedBits
end PagedFilter
