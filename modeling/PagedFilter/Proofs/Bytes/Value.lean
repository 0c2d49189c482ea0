import Mathlib.Algebra.BigOperators.Intervals
import Mathlib.Algebra.BigOperators.Ring.Finset
import PagedFilter.Proofs.Bytes.Fields
/-! Bytes as the digits of a number to the base 256. -/
namespace PagedFilter.LittleEndian

def value (bytes : ByteArray) (pos width : Nat) : Nat :=
  ∑ i ∈ Finset.range width, (octet bytes (pos + i)).toNat * 256 ^ i

@[simp] theorem value_zero (bytes : ByteArray) (pos : Nat) : value bytes pos 0 = 0 := rfl

theorem value_succ (bytes : ByteArray) (pos width : Nat) :
    value bytes pos (width + 1) =
      (octet bytes pos).toNat + 256 * value bytes (pos + 1) width := by
  have hlow : (octet bytes (pos + 0)).toNat * 256 ^ 0 = (octet bytes pos).toNat :=
    Nat.mul_one _
  rw [value, Finset.sum_range_succ', hlow, Nat.add_comm, value, Finset.mul_sum]
  congr 1
  apply Finset.sum_congr rfl
  intro i _
  rw [Nat.pow_succ, Nat.add_comm i 1, ← Nat.add_assoc, ← Nat.mul_assoc, Nat.mul_comm]

theorem value_add (bytes : ByteArray) (pos low high : Nat) :
    value bytes pos (low + high) =
      value bytes pos low + 256 ^ low * value bytes (pos + low) high := by
  rw [value, Finset.sum_range_add, value, value, Finset.mul_sum]
  congr 1
  apply Finset.sum_congr rfl
  intro i _
  rw [Nat.pow_add, Nat.add_assoc, Nat.mul_left_comm]

theorem value_lt (bytes : ByteArray) (pos width : Nat) :
    value bytes pos width < 256 ^ width := by
  induction width generalizing pos with
  | zero => exact Nat.one_pos
  | succ width ih =>
    have hrest := ih (pos + 1)
    have hbyte : (octet bytes pos).toNat < 256 := (octet bytes pos).toNat_lt
    rw [value_succ, Nat.pow_succ]
    omega

theorem value_congr {a b : ByteArray} {i j width : Nat}
    (h : ∀ k < width, octet a (i + k) = octet b (j + k)) : value a i width = value b j width := by
  apply Finset.sum_congr rfl
  intro k hk
  rw [h k (Finset.mem_range.mp hk)]

/-- The number determines the bytes in its range. -/
theorem octet_eq_of_value {a b : ByteArray} {i j width : Nat}
    (h : value a i width = value b j width) : ∀ k < width, octet a (i + k) = octet b (j + k) := by
  induction width generalizing i j with
  | zero => exact fun k hk => absurd hk (Nat.not_lt_zero k)
  | succ width ih =>
    rw [value_succ, value_succ] at h
    have ha : (octet a i).toNat < 256 := (octet a i).toNat_lt
    have hb : (octet b j).toNat < 256 := (octet b j).toNat_lt
    have hlow : octet a i = octet b j := UInt8.toNat_inj.mp (by omega)
    have hrest := ih (i := i + 1) (j := j + 1) (by omega)
    intro k hk
    cases k with
    | zero => exact hlow
    | succ k =>
      have hnext := hrest k (Nat.lt_of_succ_lt_succ hk)
      rwa [Nat.add_right_comm, Nat.add_right_comm j] at hnext

theorem octets_ext {a b : ByteArray} (hsize : a.size = b.size)
    (h : ∀ i < a.size, octet a i = octet b i) : a = b := by
  apply ByteArray.ext_getElem hsize
  intro i ha hb
  rw [← octet_of_lt a i ha, ← octet_of_lt b i hb, h i ha]

theorem toNat_read (bytes : ByteArray) (pos width : Nat) (hwidth : width ≤ 8) :
    (read bytes pos width).toNat = value bytes pos width := by
  induction width generalizing pos with
  | zero => rfl
  | succ width ih =>
    rw [toNat_read_succ bytes pos width hwidth, value_succ, ih (pos + 1) (Nat.le_of_succ_le hwidth)]

theorem read_eq_ofNat (bytes : ByteArray) (pos width : Nat) (hwidth : width ≤ 8) :
    read bytes pos width = UInt64.ofNat (value bytes pos width) := by
  rw [← toNat_read bytes pos width hwidth, UInt64.ofNat_toNat]

theorem toNat_ofNat_value (bytes : ByteArray) (pos width : Nat) (hwidth : width ≤ 8) :
    (UInt64.ofNat (value bytes pos width)).toNat = value bytes pos width := by
  rw [← read_eq_ofNat bytes pos width hwidth, toNat_read bytes pos width hwidth]

end PagedFilter.LittleEndian
