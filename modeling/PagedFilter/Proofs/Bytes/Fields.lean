import PagedFilter.Proofs.Bytes.Marking
/-! A field of up to eight bytes and its number determine each other. -/
namespace PagedFilter

theorem extract_append_left (a b : ByteArray) (i j : Nat) (hj : j ≤ a.size) :
    (a ++ b).extract i j = a.extract i j := by
  have hempty : b.extract (i - a.size) (j - a.size) = ByteArray.empty := by
    rw [ByteArray.extract_eq_empty_iff]
    omega
  rw [ByteArray.extract_append, hempty, ByteArray.append_empty]

namespace LittleEndian

private theorem toNat_push (byte : UInt8) (rest : UInt64) (hrest : rest.toNat < 2 ^ 56) :
    (byte.toUInt64 + (rest <<< 8)).toNat = byte.toNat + 256 * rest.toNat := by
  have hbyte : byte.toNat < 256 := byte.toNat_lt
  have hshift : (rest <<< 8).toNat = 256 * rest.toNat := by
    have hlt : rest.toNat * 2 ^ 8 < 2 ^ 64 := by omega
    rw [UInt64.toNat_shiftLeft, Nat.shiftLeft_eq]
    change rest.toNat * 2 ^ 8 % 2 ^ 64 = _
    rw [Nat.mod_eq_of_lt hlt]
    omega
  rw [UInt64.toNat_add, hshift, UInt8.toNat_toUInt64, Nat.mod_eq_of_lt (by omega)]

private theorem pow_le_of_lt {width : Nat} (h : width < 8) : 256 ^ width ≤ 2 ^ 56 := by
  calc 256 ^ width ≤ 256 ^ 7 := Nat.pow_le_pow_right (by decide) (by omega)
    _ = 2 ^ 56 := by decide

theorem toNat_read_lt (bytes : ByteArray) (pos width : Nat) (hwidth : width ≤ 8) :
    (read bytes pos width).toNat < 256 ^ width := by
  induction width generalizing pos with
  | zero => exact Nat.one_pos
  | succ width ih =>
    have hrest := ih (pos + 1) (by omega)
    have hpow : 256 ^ width ≤ 2 ^ 56 := pow_le_of_lt (by omega)
    have hbyte : (octet bytes pos).toNat < 256 := (octet bytes pos).toNat_lt
    rw [read, toNat_push _ _ (by omega), Nat.pow_succ]
    omega

theorem toNat_read_succ (bytes : ByteArray) (pos width : Nat) (hwidth : width < 8) :
    (read bytes pos (width + 1)).toNat =
      (octet bytes pos).toNat + 256 * (read bytes (pos + 1) width).toNat := by
  have hrest := toNat_read_lt bytes (pos + 1) width (by omega)
  have hpow := pow_le_of_lt hwidth
  rw [read, toNat_push _ _ (by omega)]

theorem encode_read (bytes : ByteArray) (pos width : Nat) (hwidth : width ≤ 8)
    (hsize : pos + width ≤ bytes.size) :
    encode width (read bytes pos width).toNat = bytes.extract pos (pos + width) := by
  induction width generalizing pos with
  | zero => simp [encode, digits]
  | succ width ih =>
    have hrest := ih (pos + 1) (by omega) (by omega)
    have hpos : pos < bytes.size := by omega
    have hbyte : (octet bytes pos).toNat < 256 := (octet bytes pos).toNat_lt
    have hlow : UInt8.ofNat (read bytes pos (width + 1)).toNat = bytes[pos] := by
      rw [toNat_read_succ _ _ _ (by omega), ← octet_of_lt bytes pos hpos]
      apply UInt8.toNat_inj.mp
      rw [UInt8.toNat_ofNat']
      omega
    have hhigh : (read bytes pos (width + 1)).toNat / 256 = (read bytes (pos + 1) width).toNat := by
      rw [toNat_read_succ _ _ _ (by omega)]
      omega
    have hcons (byte : UInt8) (rest : List UInt8) :
        (byte :: rest).toByteArray = [byte].toByteArray ++ rest.toByteArray :=
      List.toByteArray_append (l := [byte])
    have hpart : bytes.extract pos (pos + (width + 1)) =
        [bytes[pos]].toByteArray ++ bytes.extract (pos + 1) (pos + 1 + width) := by
      rw [ByteArray.extract_eq_extract_append_extract (pos + 1) (by omega) (by omega),
        ByteArray.extract_add_one (by omega), Nat.add_right_comm pos 1 width, Nat.add_assoc]
    rw [encode, digits, hlow, hhigh, hcons, ← encode, hrest, hpart]

theorem digits_inj {width m n : Nat} (hm : m < 256 ^ width) (hn : n < 256 ^ width)
    (h : digits width m = digits width n) : m = n := by
  induction width generalizing m n with
  | zero =>
    rw [Nat.pow_zero] at hm hn
    omega
  | succ width ih =>
    rw [Nat.pow_succ] at hm hn
    rw [digits, digits, List.cons.injEq] at h
    have hlow : m % 256 = n % 256 := by
      have hbyte := congrArg UInt8.toNat h.1
      rwa [UInt8.toNat_ofNat', UInt8.toNat_ofNat'] at hbyte
    have hhigh : m / 256 = n / 256 := ih (by omega) (by omega) h.2
    omega

theorem encode_inj {width m n : Nat} (hm : m < 256 ^ width) (hn : n < 256 ^ width)
    (h : encode width m = encode width n) : m = n := by
  apply digits_inj hm hn
  have hlist := congrArg (fun bytes : ByteArray => bytes.data.toList) h
  simpa [encode] using hlist

theorem read_of_extract {bytes : ByteArray} {pos width n : Nat} (hwidth : width ≤ 8)
    (hsize : pos + width ≤ bytes.size) (hn : n < 256 ^ width)
    (h : bytes.extract pos (pos + width) = encode width n) :
    (read bytes pos width).toNat = n := by
  apply encode_inj (toNat_read_lt bytes pos width hwidth) hn
  rw [encode_read bytes pos width hwidth hsize, h]

theorem read_append_encode (before after : ByteArray) {pos width n : Nat}
    (hpos : before.size = pos) (hwidth : width ≤ 8) (hn : n < 256 ^ width) :
    (read (before ++ encode width n ++ after) pos width).toNat = n := by
  have hend : (before ++ encode width n).size = pos + width := by
    rw [ByteArray.size_append, size_encode, hpos]
  apply read_of_extract hwidth ?_ hn
  · rw [extract_append_left _ _ _ _ (Nat.le_of_eq hend.symm)]
    exact ByteArray.extract_append_eq_right hpos.symm (by rw [hpos, size_encode])
  · rw [ByteArray.size_append, hend]
    exact Nat.le_add_right _ _

end LittleEndian
end PagedFilter
