import Mathlib.Algebra.BigOperators.Fin
import PagedFilter.Hash.Item
import PagedFilter.Proofs.Bytes.Value
import PagedFilter.Proofs.Geometry.Remainder
import PagedFilter.Storage.PagedBits
/-! Words, codes, bytes and text of a digest are the digits of one number to different bases. -/
namespace PagedFilter

open LittleEndian

def pushHexDigit? (n : Nat) (c : Char) : Option Nat := (hexValue? c).map (16 * n + ·)

def hexNumber? (text : List Char) : Option Nat := text.foldlM pushHexDigit? 0

def IsLowerHex (c : Char) : Prop := c ∈ "0123456789abcdef".toList

theorem hexValue?_digitChar : ∀ k < 16, hexValue? (Nat.digitChar k) = some k := by decide

theorem isLowerHex_digitChar : ∀ k < 16, IsLowerHex (Nat.digitChar k) := by
  unfold IsLowerHex
  decide

theorem isLowerHex_hexDigits (width n : Nat) : ∀ c ∈ hexDigits width n, IsLowerHex c := by
  induction width generalizing n with
  | zero => exact fun c hc => absurd hc List.not_mem_nil
  | succ width ih =>
    intro c hc
    rcases List.mem_append.mp hc with hhigh | hlow
    · exact ih (n / 16) c hhigh
    · rw [List.mem_singleton.mp hlow]
      exact isLowerHex_digitChar _ (Nat.mod_lt n (by decide))

theorem foldlM_hexDigits {width n : Nat} (hn : n < 16 ^ width) (before : Nat) :
    (hexDigits width n).foldlM pushHexDigit? before = some (16 ^ width * before + n) := by
  induction width generalizing n with
  | zero =>
    have hzero : n = 0 := by
      rw [Nat.pow_zero] at hn
      omega
    rw [hzero, Nat.pow_zero, Nat.one_mul]
    rfl
  | succ width ih =>
    have hhigh : n / 16 < 16 ^ width := by
      rw [Nat.pow_succ] at hn
      omega
    have hlow := hexValue?_digitChar (n % 16) (Nat.mod_lt n (by decide))
    rw [hexDigits, List.foldlM_append, ih hhigh, Option.bind_eq_bind, Option.bind_some,
      List.foldlM_cons, pushHexDigit?, hlow, Option.map_some, Option.bind_eq_bind, Option.bind_some,
      List.foldlM_nil, Nat.pow_succ]
    apply congrArg some
    rw [Nat.mul_right_comm, Nat.mul_comm _ 16]
    omega

namespace Digest

theorem toNat_eq (d : Digest) : d.toNat = d.low.toNat + 2 ^ 64 * d.high.toNat := by
  rw [toNat, ← Nat.shiftLeft_add_eq_or_of_lt d.low.toNat_lt, Nat.shiftLeft_eq]
  omega

theorem toNat_inj {d d' : Digest} (h : d.toNat = d'.toNat) : d = d' := by
  have hlow := d.low.toNat_lt
  have hlow' := d'.low.toNat_lt
  rw [toNat_eq, toNat_eq] at h
  have hlows : d.low = d'.low := UInt64.toNat_inj.mp (by omega)
  have hhighs : d.high = d'.high := UInt64.toNat_inj.mp (by omega)
  cases d
  cases d'
  exact (Digest.mk.injEq ..).mpr ⟨hlows, hhighs⟩

theorem toNat_halves (x : UInt64) :
    x.toNat = x.toUInt32.toNat + (x >>> 32).toUInt32.toNat * 2 ^ 32 := by
  have hlt := x.toNat_lt
  have hamount : (32 : UInt64).toNat % 64 = 32 := by decide
  rw [UInt64.toNat_toUInt32, UInt64.toNat_toUInt32, UInt64.toNat_shiftRight, hamount,
    Nat.shiftRight_eq_div_pow]
  omega

theorem toNat_word_halves (w : UInt32) :
    w.toNat = w.toUInt16.toNat + (w >>> 16).toUInt16.toNat * 2 ^ 16 := by
  have hlt := w.toNat_lt
  have hamount : (16 : UInt32).toNat % 32 = 16 := by decide
  rw [UInt32.toNat_toUInt16, UInt32.toNat_toUInt16, UInt32.toNat_shiftRight, hamount,
    Nat.shiftRight_eq_div_pow]
  omega

theorem toNat_words (d : Digest) :
    d.toNat = ∑ i : Fin 4, d.words[i].toNat * 2 ^ (32 * i.val) := by
  have hlow := toNat_halves d.low
  have hhigh := toNat_halves d.high
  rw [Fin.sum_univ_four, toNat_eq]
  change _ = d.low.toUInt32.toNat * 1 + (d.low >>> 32).toUInt32.toNat * 2 ^ 32 +
    d.high.toUInt32.toNat * 2 ^ 64 + (d.high >>> 32).toUInt32.toNat * 2 ^ 96
  omega

theorem toNat_codes (d : Digest) :
    d.toNat = ∑ i : Fin 8, d.codes[i].toNat * 2 ^ (16 * i.val) := by
  have hlow := toNat_word_halves d.words[0]
  have hlow' := toNat_word_halves d.words[1]
  have hhigh := toNat_word_halves d.words[2]
  have hhigh' := toNat_word_halves d.words[3]
  rw [Fin.sum_univ_eight, toNat_words, Fin.sum_univ_four]
  change d.words[0].toNat * 1 + d.words[1].toNat * 2 ^ 32 + d.words[2].toNat * 2 ^ 64 +
      d.words[3].toNat * 2 ^ 96 =
    d.words[0].toUInt16.toNat * 1 + (d.words[0] >>> 16).toUInt16.toNat * 2 ^ 16 +
      d.words[1].toUInt16.toNat * 2 ^ 32 + (d.words[1] >>> 16).toUInt16.toNat * 2 ^ 48 +
      d.words[2].toUInt16.toNat * 2 ^ 64 + (d.words[2] >>> 16).toUInt16.toNat * 2 ^ 80 +
      d.words[3].toUInt16.toNat * 2 ^ 96 + (d.words[3] >>> 16).toUInt16.toNat * 2 ^ 112
  omega

theorem eq_of_codes {d d' : Digest} (h : d.codes = d'.codes) : d = d' := by
  apply toNat_inj
  rw [toNat_codes, toNat_codes, h]

theorem value_toBytes (d : Digest) : value d.toBytes 0 16 = d.toNat := by
  have hlow : value d.toBytes 0 8 = d.low.toNat := by
    have hread := read_append_encode ByteArray.empty (encode 8 d.high.toNat) rfl (Nat.le_refl 8)
      d.low.toNat_lt
    rwa [ByteArray.empty_append, toNat_read _ _ _ (Nat.le_refl 8)] at hread
  have hhigh : value d.toBytes 8 8 = d.high.toNat := by
    have hread := read_append_encode (encode 8 d.low.toNat) ByteArray.empty (size_encode 8 _)
      (Nat.le_refl 8) d.high.toNat_lt
    rwa [ByteArray.append_empty, toNat_read _ _ _ (Nat.le_refl 8)] at hread
  rw [value_add d.toBytes 0 8 8, hlow, Nat.zero_add, hhigh, toNat_eq]

theorem size_toBytes (d : Digest) : d.toBytes.size = 16 := by
  rw [toBytes, ByteArray.size_append, size_encode, size_encode]

theorem toList_hex (d : Digest) :
    d.hex.toList = hexDigits 16 d.high.toNat ++ hexDigits 16 d.low.toNat :=
  String.toList_ofList

theorem hexNumber?_hex (d : Digest) : hexNumber? d.hex.toList = some d.toNat := by
  rw [toList_hex, hexNumber?, List.foldlM_append, foldlM_hexDigits d.high.toNat_lt,
    Option.bind_eq_bind, Option.bind_some, foldlM_hexDigits d.low.toNat_lt, toNat_eq]
  apply congrArg some
  omega

structure ViewsAgree (d : Digest) : Prop where
  words_eq : d.toNat = ∑ i : Fin 4, d.words[i].toNat * 2 ^ (32 * i.val)
  codes_eq : d.toNat = ∑ i : Fin 8, d.codes[i].toNat * 2 ^ (16 * i.val)
  hex_length : d.hex.length = 32
  hex_lower : ∀ c ∈ d.hex.toList, IsLowerHex c
  hex_eq : hexNumber? d.hex.toList = some d.toNat
  bytes_size : d.toBytes.size = 16
  bytes_eq : value d.toBytes 0 16 = d.toNat

theorem viewsAgree (d : Digest) : d.ViewsAgree := by
  refine ⟨d.toNat_words, d.toNat_codes, ?_, ?_, d.hexNumber?_hex, d.size_toBytes,
    d.value_toBytes⟩
  · rw [← String.length_toList, toList_hex, List.length_append, length_hexDigits, length_hexDigits]
  · rw [toList_hex]
    intro c hc
    rcases List.mem_append.mp hc with hhigh | hlow
    · exact isLowerHex_hexDigits _ _ c hhigh
    · exact isLowerHex_hexDigits _ _ c hlow

def joinCodes (low high : UInt16) : BitVec 32 := high.toBitVec ++ low.toBitVec

/-- The fold of the words that picks the page, from the codes alone. -/
def selectorOfCodes (codes : Vector UInt16 8) : BitVec 32 :=
  (joinCodes codes[0] codes[1]).rotateLeft 8 ^^^ (joinCodes codes[2] codes[3]).rotateLeft 6 ^^^
    (joinCodes codes[4] codes[5]).rotateLeft 4 ^^^ (joinCodes codes[6] codes[7]).rotateLeft 2

theorem joinCodes_halves (w : UInt32) :
    joinCodes w.toUInt16 (w >>> 16).toUInt16 = w.toBitVec := by
  apply BitVec.eq_of_toNat_eq
  have hlow := w.toUInt16.toNat_lt
  rw [joinCodes, BitVec.toNat_append]
  change (w >>> 16).toUInt16.toNat <<< 16 ||| w.toUInt16.toNat = w.toNat
  rw [← Nat.shiftLeft_add_eq_or_of_lt hlow, Nat.shiftLeft_eq, Nat.add_comm]
  exact (toNat_word_halves w).symm

theorem toBitVec_rotateWord (x : UInt32) {r : UInt32} (hpos : 0 < r.toNat) (hlt : r.toNat < 32) :
    (rotateWord x r).toBitVec = x.toBitVec.rotateLeft r.toNat := by
  have hle : r ≤ 32 := UInt32.le_iff_toNat_le.mpr (Nat.le_of_lt hlt)
  have hrest : (32 - r).toNat = 32 - r.toNat := UInt32.toNat_sub_of_le _ _ hle
  have hleft : (r.toBitVec % 32).toNat = r.toNat := Nat.mod_eq_of_lt hlt
  have hright : ((32 - r).toBitVec % 32).toNat = 32 - r.toNat := by
    change (32 - r).toNat % 32 = _
    rw [hrest]
    exact Nat.mod_eq_of_lt (by omega)
  rw [rotateWord, UInt32.toBitVec_or, UInt32.toBitVec_shiftLeft, UInt32.toBitVec_shiftRight,
    BitVec.rotateLeft_def, Nat.mod_eq_of_lt hlt, BitVec.shiftLeft_eq', BitVec.ushiftRight_eq',
    hleft, hright]

theorem toBitVec_pageSelector (d : Digest) :
    d.pageSelector.toBitVec = selectorOfCodes d.codes := by
  change (rotateWord d.words[0] 8 ^^^ rotateWord d.words[1] 6 ^^^ rotateWord d.words[2] 4 ^^^
    rotateWord d.words[3] 2).toBitVec = _
  rw [UInt32.toBitVec_xor, UInt32.toBitVec_xor, UInt32.toBitVec_xor,
    toBitVec_rotateWord _ (by decide) (by decide), toBitVec_rotateWord _ (by decide) (by decide),
    toBitVec_rotateWord _ (by decide) (by decide), toBitVec_rotateWord _ (by decide) (by decide),
    ← joinCodes_halves, ← joinCodes_halves, ← joinCodes_halves, ← joinCodes_halves]
  rfl

structure PlacesByCodes (n : UInt32) (level : Nat) (key : ByteArray) (p : Placement) : Prop where
  codes_eq : p.codes = (ofBytes key).codes
  offset_eq : p.offset = (selectorOfCodes p.codes).toNat % n.toNat * 2 ^ level

theorem placesByCodes {n : UInt32} {pages : Reciprocal} {level : Nat}
    (hpages : Reciprocal.of n = .ok pages) (hlevel : level ≤ maxPageLevel) (key : ByteArray) :
    PlacesByCodes n level key (Placement.ofKey key pages level) := by
  refine ⟨rfl, ?_⟩
  change bytesOfPages (pages.rem (ofBytes key).pageSelector).toNat level =
    (selectorOfCodes (ofBytes key).codes).toNat % n.toNat * 2 ^ level
  rw [bytesOfPages_eq _ level (pages.rem _).toNat_lt hlevel, Reciprocal.toNat_rem hpages,
    ← toBitVec_pageSelector]
  rfl

theorem PlacesByCodes.eq_of_codes {n : UInt32} {level : Nat} {key other : ByteArray}
    {p q : Placement} (hp : PlacesByCodes n level key p) (hq : PlacesByCodes n level other q)
    (h : p.codes = q.codes) : ofBytes key = ofBytes other ∧ p.offset = q.offset := by
  constructor
  · apply Digest.eq_of_codes
    rw [← hp.codes_eq, h, hq.codes_eq]
  · rw [hp.offset_eq, h, hq.offset_eq]

/-- The views of every digest are one number, and so is the key of every item. The codes of a key
decide its page, for every number of pages and every level. -/
theorem views_agree :
    (∀ d : Digest, d.ViewsAgree) ∧
    (∀ item : Item, item.key.size = 16 ∧ value item.key 0 16 = item.hashed.digest.toNat) ∧
    ∀ n : UInt32, n ≠ 0 → ∃ pages, Reciprocal.of n = .ok pages ∧ ∀ level ≤ maxPageLevel,
      (∀ key, PlacesByCodes n level key (Placement.ofKey key pages level)) ∧
      ∀ key other,
        let p := Placement.ofKey key pages level
        let q := Placement.ofKey other pages level
        p.codes = q.codes → ofBytes key = ofBytes other ∧ p.offset = q.offset := by
  refine ⟨viewsAgree, ?_, ?_⟩
  · intro item
    exact ⟨item.hashed.digest.size_toBytes, item.hashed.digest.value_toBytes⟩
  · intro n hn
    have hpages : Reciprocal.of n = .ok ⟨0xffffffffffffffff / n.toUInt64 + 1, n⟩ := if_neg hn
    refine ⟨_, hpages, ?_⟩
    intro level hlevel
    have hplaces := placesByCodes hpages hlevel
    refine ⟨hplaces, ?_⟩
    intro key other p q hcodes
    exact (hplaces key).eq_of_codes (hplaces other) hcodes

theorem views_agree_empty :
    (ofBytes ByteArray.empty).hex = "8b72ee65b4e851c7232706fc6bf50919" ∧
    hexNumber? "8b72ee65b4e851c7232706fc6bf50919".toList =
      some 0x8b72ee65b4e851c7232706fc6bf50919 ∧
    ∃ pages, Reciprocal.of 13 = .ok pages ∧
      (Placement.ofKey ByteArray.empty pages 13).codes =
        #v[0x0919, 0x6bf5, 0x06fc, 0x2327, 0x51c7, 0xb4e8, 0xee65, 0x8b72] ∧
      (Placement.ofKey ByteArray.empty pages 13).offset = 3 * 2 ^ 13 := by
  have hdigest : ofBytes ByteArray.empty = ⟨0x232706fc6bf50919, 0x8b72ee65b4e851c7⟩ := by
    decide +kernel
  obtain ⟨hviews, -, hplaces⟩ := views_agree
  have hnumber := (hviews (ofBytes ByteArray.empty)).hex_eq
  have hhex : (ofBytes ByteArray.empty).hex = "8b72ee65b4e851c7232706fc6bf50919" := by
    rw [hdigest]
    decide +kernel
  obtain ⟨pages, hpages, hlevels⟩ := hplaces 13 (by decide)
  obtain ⟨hcodes, hoffset⟩ := (hlevels 13 (by decide)).1 ByteArray.empty
  have hvector : (ofBytes ByteArray.empty).codes =
      #v[0x0919, 0x6bf5, 0x06fc, 0x2327, 0x51c7, 0xb4e8, 0xee65, 0x8b72] := by
    rw [hdigest]
    decide +kernel
  rw [hhex, hdigest] at hnumber
  refine ⟨hhex, hnumber, pages, hpages, hcodes.trans hvector, ?_⟩
  rw [hoffset, hcodes, hvector]
  decide +kernel

end Digest
end PagedFilter
