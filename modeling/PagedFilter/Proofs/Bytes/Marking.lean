import Mathlib.Data.List.Perm.Subperm
import Mathlib.Tactic.ByContra
import PagedFilter.Bytes
/-! Marking bits of a buffer, and how many there are. -/
namespace PagedFilter

theorem toNat_one_shiftLeft (k : Nat) (hk : k < 8) :
    ((1 : UInt8) <<< UInt8.ofNat k).toNat = 2 ^ k := by
  have hmod : k % 256 = k := Nat.mod_eq_of_lt (by omega)
  have hpow : 2 ^ k < 256 := by
    calc 2 ^ k < 2 ^ 8 := Nat.pow_lt_pow_right (by decide) hk
      _ = 256 := rfl
  simp [UInt8.toNat_shiftLeft, hmod, Nat.mod_eq_of_lt hk, Nat.shiftLeft_eq, Nat.mod_eq_of_lt hpow]

theorem hasBit_withBit (byte : UInt8) (k j : Nat) (hk : k < 8) :
    hasBit (withBit byte k) j = (hasBit byte j || decide (k = j)) := by
  simp [hasBit, withBit, UInt8.toNat_or, toNat_one_shiftLeft k hk, Nat.testBit_or,
    Nat.testBit_two_pow]

theorem hasBit_eq_false_of_le (byte : UInt8) (k : Nat) (hk : 8 ≤ k) : hasBit byte k = false := by
  have hlt : byte.toNat < 2 ^ k := by
    calc byte.toNat < 2 ^ 8 := byte.toNat_lt
      _ ≤ 2 ^ k := Nat.pow_le_pow_right (by decide) hk
  exact Nat.testBit_lt_two_pow hlt

theorem byte_ext (x y : UInt8) (h : ∀ k < 8, hasBit x k = hasBit y k) : x = y := by
  apply UInt8.toNat_inj.mp
  apply Nat.eq_of_testBit_eq
  intro k
  by_cases hk : k < 8
  · exact h k hk
  · have hle : 8 ≤ k := by omega
    rw [← hasBit, ← hasBit, hasBit_eq_false_of_le x k hle, hasBit_eq_false_of_le y k hle]

theorem octet_of_lt (bytes : ByteArray) (i : Nat) (hi : i < bytes.size) :
    octet bytes i = bytes[i] := by
  simp [octet, hi]

theorem octet_of_size_le (bytes : ByteArray) (i : Nat) (hi : bytes.size ≤ i) :
    octet bytes i = 0 := by
  simp [octet, Nat.not_lt.mpr hi]

theorem size_set (bytes : ByteArray) (i : Nat) (byte : UInt8) (hi : i < bytes.size) :
    (bytes.set i byte hi).size = bytes.size := by
  rw [← ByteArray.size_data, ByteArray.data_set, Array.size_set, ByteArray.size_data]

theorem octet_set (bytes : ByteArray) (i : Nat) (byte : UInt8) (hi : i < bytes.size) (j : Nat) :
    octet (bytes.set i byte hi) j = if i = j then byte else octet bytes j := by
  have hsize := size_set bytes i byte hi
  by_cases hj : j < bytes.size
  · rw [octet_of_lt _ _ (by omega), octet_of_lt _ _ hj]
    simp [ByteArray.getElem_eq_getElem_data, Array.getElem_set]
  · have hij : i ≠ j := by omega
    rw [octet_of_size_le _ _ (by omega), octet_of_size_le _ _ (by omega), if_neg hij]

theorem bitAt_of_le (bytes : ByteArray) (j : Nat) (hj : 8 * bytes.size ≤ j) :
    bitAt bytes j = false := by
  rw [bitAt, octet_of_size_le _ _ (by omega)]
  simp [hasBit]

theorem buffer_ext (a b : ByteArray) (hsize : a.size = b.size) (h : ∀ j, bitAt a j = bitAt b j) :
    a = b := by
  apply ByteArray.ext_getElem hsize
  intro i hi hi'
  apply byte_ext
  intro k hk
  have hbit := h (8 * i + k)
  have hdiv : (8 * i + k) / 8 = i := by omega
  have hmod : (8 * i + k) % 8 = k := by omega
  rwa [bitAt, bitAt, hdiv, hmod, octet_of_lt a i hi, octet_of_lt b i hi'] at hbit

theorem bitAt_extract (bytes : ByteArray) {start size j : Nat} (hsize : start + size ≤ bytes.size)
    (hj : j < 8 * size) :
    bitAt (bytes.extract start (start + size)) j = bitAt bytes (8 * start + j) := by
  have hdiv : (8 * start + j) / 8 = start + j / 8 := by omega
  have hmod : (8 * start + j) % 8 = j % 8 := by omega
  have hpart : j / 8 < (bytes.extract start (start + size)).size := by
    rw [ByteArray.size_extract]
    omega
  rw [bitAt, bitAt, hdiv, hmod, octet_of_lt _ _ hpart, octet_of_lt _ _ (by omega),
    ByteArray.getElem_extract]

@[simp] theorem bitAt_zeros (size j : Nat) : bitAt (zeros size) j = false := by
  have hoctet : octet (zeros size) (j / 8) = 0 := by
    rw [octet]
    split
    · simp [zeros, ByteArray.getElem_eq_getElem_data]
    · rfl
  simp [bitAt, hoctet, hasBit]

/-- A buffer with bit `i` set; a position past the end changes nothing. -/
def markBit (bytes : ByteArray) (i : Nat) : ByteArray :=
  if h : i / 8 < bytes.size then bytes.set (i / 8) (withBit bytes[i / 8] (i % 8)) h else bytes

def markBits (bytes : ByteArray) (positions : List Nat) : ByteArray :=
  positions.foldl markBit bytes

theorem markBits_cons (bytes : ByteArray) (i : Nat) (positions : List Nat) :
    markBits bytes (i :: positions) = markBits (markBit bytes i) positions := rfl

theorem markBits_append (bytes : ByteArray) (xs ys : List Nat) :
    markBits bytes (xs ++ ys) = markBits (markBits bytes xs) ys := List.foldl_append

@[simp] theorem size_markBit (bytes : ByteArray) (i : Nat) :
    (markBit bytes i).size = bytes.size := by
  rw [markBit]
  split
  · exact size_set _ _ _ _
  · rfl

@[simp] theorem size_markBits (bytes : ByteArray) (positions : List Nat) :
    (markBits bytes positions).size = bytes.size := by
  induction positions generalizing bytes with
  | nil => rfl
  | cons i positions ih => rw [markBits_cons, ih, size_markBit]

theorem bitAt_markBit (bytes : ByteArray) (i j : Nat) (hi : i < 8 * bytes.size) :
    bitAt (markBit bytes i) j = (bitAt bytes j || decide (i = j)) := by
  have hbyte : i / 8 < bytes.size := by omega
  rw [markBit, dif_pos hbyte, bitAt, octet_set]
  by_cases hij : i / 8 = j / 8
  · rw [if_pos hij, hasBit_withBit _ _ _ (by omega), ← octet_of_lt bytes _ hbyte, hij, ← bitAt]
    congr 1
    apply decide_eq_decide.mpr
    omega
  · have hne : i ≠ j := by intro h; exact hij (by rw [h])
    rw [if_neg hij, ← bitAt, decide_eq_false hne, Bool.or_false]

theorem bitAt_markBits (bytes : ByteArray) (positions : List Nat) (j : Nat)
    (hin : ∀ i ∈ positions, i < 8 * bytes.size) :
    bitAt (markBits bytes positions) j = (bitAt bytes j || decide (j ∈ positions)) := by
  induction positions generalizing bytes with
  | nil => simp [markBits]
  | cons i positions ih =>
    have hi : i < 8 * bytes.size := hin i List.mem_cons_self
    have hrest : ∀ k ∈ positions, k < 8 * (markBit bytes i).size := by
      intro k hk
      rw [size_markBit]
      exact hin k (List.mem_cons_of_mem i hk)
    rw [markBits_cons, ih _ hrest, bitAt_markBit bytes i j hi]
    simp [List.mem_cons, Bool.or_assoc, eq_comm]

theorem markBits_of_set (bytes : ByteArray) (positions : List Nat)
    (hin : ∀ i ∈ positions, i < 8 * bytes.size) (hset : ∀ i ∈ positions, bitAt bytes i = true) :
    markBits bytes positions = bytes := by
  apply buffer_ext _ _ (size_markBits _ _)
  intro j
  rw [bitAt_markBits _ _ _ hin]
  by_cases hj : j ∈ positions
  · rw [hset j hj, Bool.true_or]
  · rw [decide_eq_false hj, Bool.or_false]

def orBytes (a b : ByteArray) : ByteArray := ⟨Array.zipWith (· ||| ·) a.data b.data⟩

theorem size_orBytes (a b : ByteArray) : (orBytes a b).size = min a.size b.size := by
  rw [← ByteArray.size_data, orBytes, Array.size_zipWith, ByteArray.size_data,
    ByteArray.size_data]

theorem bitAt_orBytes (a b : ByteArray) (hsize : a.size = b.size) (j : Nat) :
    bitAt (orBytes a b) j = (bitAt a j || bitAt b j) := by
  have hor : (orBytes a b).size = a.size := by rw [size_orBytes, hsize, Nat.min_self]
  by_cases hj : j / 8 < a.size
  · rw [bitAt, bitAt, bitAt, octet_of_lt _ _ (by omega), octet_of_lt _ _ hj,
      octet_of_lt _ _ (by omega)]
    simp [ByteArray.getElem_eq_getElem_data, orBytes, hasBit, UInt8.toNat_or, Nat.testBit_or]
  · rw [bitAt_of_le _ _ (by omega), bitAt_of_le _ _ (by omega), bitAt_of_le _ _ (by omega)]
    rfl

theorem length_onePositions_le (bytes : ByteArray) :
    (onePositions bytes).length ≤ 8 * bytes.size := by
  calc (onePositions bytes).length
      ≤ (List.range (8 * bytes.size)).length := List.length_filter_le _ _
    _ = 8 * bytes.size := List.length_range

theorem mem_onePositions (bytes : ByteArray) (j : Nat) :
    j ∈ onePositions bytes ↔ bitAt bytes j = true := by
  rw [onePositions, List.mem_filter, List.mem_range]
  constructor
  · exact fun h => h.2
  · intro h
    refine ⟨?_, h⟩
    by_contra hle
    rw [bitAt_of_le _ _ (by omega)] at h
    contradiction

theorem nodup_onePositions (bytes : ByteArray) : (onePositions bytes).Nodup :=
  List.nodup_range.filter _

theorem mem_onePositions_markBits (bytes : ByteArray) (positions : List Nat)
    (hin : ∀ i ∈ positions, i < 8 * bytes.size) (j : Nat) :
    j ∈ onePositions (markBits bytes positions) ↔ j ∈ onePositions bytes ∨ j ∈ positions := by
  rw [mem_onePositions, bitAt_markBits _ _ _ hin, Bool.or_eq_true, decide_eq_true_eq,
    mem_onePositions]

/-- Setting a clear bit, and others with it, raises the number of set bits. -/
theorem length_onePositions_markBits (bytes : ByteArray) (positions : List Nat) (i : Nat)
    (hin : ∀ k ∈ positions, k < 8 * bytes.size) (hi : i ∈ positions)
    (hclear : bitAt bytes i = false) :
    (onePositions bytes).length < (onePositions (markBits bytes positions)).length := by
  have hsub : i :: onePositions bytes ⊆ onePositions (markBits bytes positions) := by
    intro j hj
    rw [mem_onePositions_markBits _ _ hin]
    rcases List.mem_cons.mp hj with rfl | hj
    · exact Or.inr hi
    · exact Or.inl hj
  have hnodup : (i :: onePositions bytes).Nodup := by
    refine List.nodup_cons.mpr ⟨?_, nodup_onePositions bytes⟩
    rw [mem_onePositions, hclear]
    exact Bool.false_ne_true
  exact (List.subperm_of_subset hnodup hsub).length_le

private theorem countP_range_bits (bytes : ByteArray) (k : Nat) (hk : k ≤ bytes.size) :
    (List.range (8 * k)).countP (bitAt bytes) =
      (bytes.data.toList.take k).foldl (fun total byte => total + onesOfByte byte) 0 := by
  induction k with
  | zero => rfl
  | succ k ih =>
    have hlt : k < bytes.data.toList.length := hk
    have hbyte : (List.range 8).countP (bitAt bytes ∘ (8 * k + ·)) = onesOfByte bytes[k] := by
      apply List.countP_congr
      intro j hj
      have hj : j < 8 := List.mem_range.mp hj
      have hdiv : (8 * k + j) / 8 = k := by omega
      have hmod : (8 * k + j) % 8 = j := by omega
      rw [Function.comp_apply, bitAt, hdiv, hmod, octet_of_lt bytes k hk]
    rw [Nat.mul_succ, List.range_add, List.countP_append, List.countP_map, hbyte,
      ih (Nat.le_of_succ_le hk), List.take_succ_eq_append_getElem hlt, List.foldl_concat]
    rfl

theorem countOnes_eq (bytes : ByteArray) : countOnes bytes = (onePositions bytes).length := by
  have hall := countP_range_bits bytes bytes.size (Nat.le_refl _)
  have htake : bytes.data.toList.take bytes.size = bytes.data.toList := List.take_length
  rw [onePositions, ← List.countP_eq_length_filter, hall, htake, countOnes, Array.foldl_toList]

theorem countOnes_le (bytes : ByteArray) : countOnes bytes ≤ 8 * bytes.size := by
  rw [countOnes_eq]
  exact length_onePositions_le bytes

theorem countOnes_eq_zero_iff (bytes : ByteArray) :
    countOnes bytes = 0 ↔ bytes = zeros bytes.size := by
  rw [countOnes_eq, List.length_eq_zero_iff]
  constructor
  · intro hnone
    refine buffer_ext _ _ (size_zeros _).symm fun j => ?_
    rw [bitAt_zeros, Bool.eq_false_iff]
    intro hset
    have hmem := (mem_onePositions bytes j).mpr hset
    rw [hnone] at hmem
    exact List.not_mem_nil hmem
  · intro hzeros
    apply List.eq_nil_iff_forall_not_mem.mpr
    intro j hmem
    have hset := (mem_onePositions bytes j).mp hmem
    rw [hzeros, bitAt_zeros] at hset
    exact Bool.false_ne_true hset

theorem countOnes_markBits_le (bytes : ByteArray) (positions : List Nat)
    (hin : ∀ i ∈ positions, i < 8 * bytes.size) :
    countOnes (markBits bytes positions) ≤ countOnes bytes + positions.length := by
  have hsub : onePositions (markBits bytes positions) ⊆ onePositions bytes ++ positions := by
    intro j hj
    rw [mem_onePositions_markBits _ _ hin] at hj
    exact List.mem_append.mpr hj
  rw [countOnes_eq, countOnes_eq, ← List.length_append]
  exact (List.subperm_of_subset (nodup_onePositions _) hsub).length_le

end PagedFilter
