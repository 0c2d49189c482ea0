import PagedFilter.Proofs.Hash.Rounds
import PagedFilter.Proofs.Hash.Stream
/-! Messages that differ in one chunk, or only in their tails, leave different registers behind. -/
namespace PagedFilter

open LittleEndian

namespace Registers
variable {s s' : Registers} {x x' y y' : UInt64}

theorem addBack_addBack (s : Registers) (x y x' y' : UInt64) :
    (s.addBack x y).addBack x' y' = s.addBack (x + x') (y + y') := by
  simp only [addBack, UInt64.add_assoc]

theorem words_of_addBack (h : s.addBack x y = s.addBack x' y') : x = x' ∧ y = y' := by
  simp only [addBack, Registers.mk.injEq, UInt64.add_right_inj] at h
  exact h.2.2

theorem words_of_addFront (h : s.addFront x y = s.addFront x' y') : x = x' ∧ y = y' := by
  simp only [addFront, Registers.mk.injEq, UInt64.add_right_inj] at h
  exact ⟨h.1, h.2.1⟩

theorem state_of_addBack (h : s.addBack x y = s'.addBack x y) : s = s' := by
  cases s
  cases s'
  simpa only [addBack, Registers.mk.injEq, UInt64.add_left_inj] using h

theorem state_of_addFront (h : s.addFront x y = s'.addFront x y) : s = s' := by
  cases s
  cases s'
  simpa only [addFront, Registers.mk.injEq, UInt64.add_left_inj] using h

end Registers

namespace Digest

open Registers

variable {s s' : Registers} {u v : ByteArray} {n : Nat}

theorem chunk_of_words {a b : ByteArray} (ha : a.size = 16) (hb : b.size = 16)
    (hlow : UInt64.ofNat (value a 0 8) = UInt64.ofNat (value b 0 8))
    (hhigh : UInt64.ofNat (value a 8 8) = UInt64.ofNat (value b 8 8)) : a = b := by
  have hvalue : value a 0 (8 + 8) = value b 0 (8 + 8) := by
    have hlow := congrArg UInt64.toNat hlow
    have hhigh := congrArg UInt64.toNat hhigh
    rw [toNat_ofNat_value _ _ _ (by decide), toNat_ofNat_value _ _ _ (by decide)] at hlow hhigh
    rw [value_add, value_add, hlow, Nat.zero_add, hhigh]
  apply octets_ext (ha.trans hb.symm)
  intro i hi
  have hoctet := octet_eq_of_value hvalue i (by omega)
  rwa [Nat.zero_add] at hoctet

theorem chunk_of_takeChunk {j : Nat} {a b : ByteArray} (ha : a.size = 16) (hb : b.size = 16)
    (h : takeChunk s j a = takeChunk s j b) : a = b := by
  dsimp only [takeChunk] at h
  by_cases heven : j % 2 = 0
  · rw [if_pos heven, if_pos heven, ← mix_eq, ← mix_eq] at h
    obtain ⟨hlow, hhigh⟩ := words_of_addBack (mix_bijective.injective h)
    exact chunk_of_words ha hb hlow hhigh
  · rw [if_neg heven, if_neg heven] at h
    obtain ⟨hlow, hhigh⟩ := words_of_addFront h
    exact chunk_of_words ha hb hlow hhigh

theorem state_of_takeChunk {j : Nat} {chunk : ByteArray}
    (h : takeChunk s j chunk = takeChunk s' j chunk) : s = s' := by
  dsimp only [takeChunk] at h
  by_cases heven : j % 2 = 0
  · rw [if_pos heven, if_pos heven, ← mix_eq, ← mix_eq] at h
    exact state_of_addBack (mix_bijective.injective h)
  · rw [if_neg heven, if_neg heven] at h
    exact state_of_addFront h

theorem takeChunks_congr (h : ∀ j < n, part u j = part v j) :
    takeChunks u n = takeChunks v n := by
  induction n with
  | zero => rfl
  | succ n ih =>
    rw [takeChunks, takeChunks, ih fun j hj => h j (Nat.lt_succ_of_lt hj), h n (Nat.lt_succ_self n)]

/-- Chunks that all agree but one agree there too when they leave the same registers. -/
theorem part_of_takeChunks {k : Nat} (hu : n ≤ u.size / 16) (hv : n ≤ v.size / 16)
    (hparts : ∀ j < n, j ≠ k → part u j = part v j) (h : takeChunks u n = takeChunks v n) :
    ∀ j < n, part u j = part v j := by
  induction n with
  | zero => exact fun j hj => absurd hj (Nat.not_lt_zero j)
  | succ n ih =>
    have hbefore : ∀ j < n, j ≠ k → part u j = part v j :=
      fun j hj => hparts j (Nat.lt_succ_of_lt hj)
    rw [takeChunks, takeChunks] at h
    have hboth : (∀ j < n, part u j = part v j) ∧ part u n = part v n := by
      by_cases hlast : n = k
      · have hall : ∀ j < n, part u j = part v j :=
          fun j hj => hbefore j hj (by omega)
        rw [takeChunks_congr hall] at h
        exact ⟨hall, chunk_of_takeChunk (size_chunk hu) (size_chunk hv) h⟩
      · have hsame := hparts n (Nat.lt_succ_self n) hlast
        rw [hsame] at h
        exact ⟨ih (by omega) (by omega) hbefore (state_of_takeChunk h), hsame⟩
    exact Nat.forall_lt_succ_right.mpr hboth

theorem toNat_tailWords {t : ByteArray} (hsome : t.size ≠ 0) (ht : t.size < 16) :
    (tailWords t).1.toNat = value t 0 (min t.size 8) ∧
      (tailWords t).2.toNat = value t 8 (t.size - 8) := by
  rw [tailWords, if_neg hsome]
  exact ⟨toNat_ofNat_value _ _ _ (by omega), toNat_ofNat_value _ _ _ (by omega)⟩

theorem toNat_tailWords_lt {t : ByteArray} (hsome : t.size ≠ 0) (ht : t.size < 16) :
    (tailWords t).2.toNat < 2 ^ 56 := by
  have hpow : 256 ^ (t.size - 8) ≤ 2 ^ 56 := by
    calc 256 ^ (t.size - 8) ≤ 256 ^ 7 := Nat.pow_le_pow_right (by decide) (by omega)
      _ = 2 ^ 56 := by decide
  have hlt := value_lt t 8 (t.size - 8)
  rw [(toNat_tailWords hsome ht).2]
  omega

theorem toNat_lengthWord_add (size : Nat) (word : UInt64) :
    (lengthWord size + word).toNat = (size % 256 * 2 ^ 56 + word.toNat) % 2 ^ 64 := by
  rw [UInt64.toNat_add, lengthWord, UInt64.toNat_ofNat', Nat.mod_add_mod]

/-- A tail shorter than a word is too small for the seed, and behind a longer one stands a length
that is not the highest byte of the seed. -/
theorem words_of_empty_ne {e t : ByteArray} (he : e.size = 0) (hsome : t.size ≠ 0)
    (ht : t.size < 16) (hlow : (tailWords e).1 = (tailWords t).1) :
    lengthWord (16 * n + e.size) + (tailWords e).2 ≠
      lengthWord (16 * n + t.size) + (tailWords t).2 := by
  intro hhigh
  have hseed : tailWords e = (seed, seed) := if_pos he
  have hvalue : seed.toNat = 0xdeadbeefdeadbeef := by decide
  have hlt := toNat_tailWords_lt hsome ht
  have hlow := congrArg UInt64.toNat hlow
  have hhigh := congrArg UInt64.toNat hhigh
  rw [hseed, (toNat_tailWords hsome ht).1, hvalue] at hlow
  rw [toNat_lengthWord_add, toNat_lengthWord_add, hseed, hvalue, he] at hhigh
  by_cases hshort : t.size < 8
  · have hbound := value_lt t 0 (min t.size 8)
    have hpow : 256 ^ min t.size 8 ≤ 256 ^ 7 := Nat.pow_le_pow_right (by decide) (by omega)
    omega
  · omega

/-- Tails behind the same chunks that add the same, with their lengths, are the same. -/
theorem tail_of_words {t t' : ByteArray} (ht : t.size < 16) (ht' : t'.size < 16)
    (hlow : (tailWords t).1 = (tailWords t').1)
    (hhigh : lengthWord (16 * n + t.size) + (tailWords t).2 =
      lengthWord (16 * n + t'.size) + (tailWords t').2) : t = t' := by
  by_cases hnone : t.size = 0
  · by_cases hnone' : t'.size = 0
    · rw [ByteArray.size_eq_zero_iff.mp hnone, ByteArray.size_eq_zero_iff.mp hnone']
    · exact absurd hhigh (words_of_empty_ne hnone hnone' ht' hlow)
  · by_cases hnone' : t'.size = 0
    · exact absurd hhigh.symm (words_of_empty_ne hnone' hnone ht hlow.symm)
    · -- The highest byte is the length, so that both tails fill the same bytes of the words.
      have hlt := toNat_tailWords_lt hnone ht
      have hlt' := toNat_tailWords_lt hnone' ht'
      have hlow := congrArg UInt64.toNat hlow
      have hhigh := congrArg UInt64.toNat hhigh
      rw [toNat_lengthWord_add, toNat_lengthWord_add] at hhigh
      have hsize : t.size = t'.size := by omega
      have hwords : (tailWords t).2.toNat = (tailWords t').2.toNat := by omega
      rw [(toNat_tailWords hnone ht).1, (toNat_tailWords hnone' ht').1, hsize] at hlow
      rw [(toNat_tailWords hnone ht).2, (toNat_tailWords hnone' ht').2, hsize] at hwords
      apply octets_ext hsize
      intro i hi
      by_cases hword : i < 8
      · have hoctet := octet_eq_of_value hlow i (by omega)
        rwa [Nat.zero_add] at hoctet
      · have hoctet := octet_eq_of_value hwords (i - 8) (by omega)
        rwa [Nat.add_sub_cancel' (Nat.le_of_not_lt hword)] at hoctet

theorem tail_of_takeTail {t t' : ByteArray} (ht : t.size < 16) (ht' : t'.size < 16)
    (h : takeTail s (16 * n + t.size) t = takeTail s (16 * n + t'.size) t') : t = t' := by
  rw [takeTail, takeTail, addBack_addBack, addBack_addBack, UInt64.zero_add, UInt64.zero_add] at h
  obtain ⟨hlow, hhigh⟩ := words_of_addBack h
  exact tail_of_words ht ht' hlow hhigh

theorem state_of_takeTail {size : Nat} {tail : ByteArray}
    (h : takeTail s size tail = takeTail s' size tail) : s = s' :=
  state_of_addBack (state_of_addBack h)

theorem size_eq (bytes : ByteArray) (hn : bytes.size / 16 = n) :
    bytes.size = 16 * n + (part bytes n).size ∧ (part bytes n).size < 16 := by
  have htail := size_tail bytes
  rw [hn] at htail
  omega

theorem eq_of_parts (hchunks : u.size / 16 = v.size / 16)
    (h : ∀ j ≤ u.size / 16, part u j = part v j) : u = v := by
  have hsize : u.size = v.size := by
    rw [(size_eq u rfl).1, (size_eq v hchunks.symm).1, h _ (Nat.le_refl _)]
  apply octets_ext hsize
  intro i hi
  have hpart := h (i / 16) (by omega)
  have hoctet := octet_part u (i / 16) (Nat.mod_lt i (by decide))
  have hoctet' := octet_part v (i / 16) (Nat.mod_lt i (by decide))
  rw [Nat.div_add_mod] at hoctet hoctet'
  rw [← hoctet, ← hoctet', hpart]

/-- Messages that agree in all parts but one agree there too when they leave the same registers. -/
theorem parts_of_takeTail {k : Nat} (hu : u.size / 16 = n) (hv : v.size / 16 = n)
    (hparts : ∀ j ≤ n, j ≠ k → part u j = part v j)
    (h : takeTail (takeChunks u n) u.size (part u n) =
      takeTail (takeChunks v n) v.size (part v n)) : ∀ j ≤ n, part u j = part v j := by
  obtain ⟨hsize, htail⟩ := size_eq u hu
  obtain ⟨hsize', htail'⟩ := size_eq v hv
  have hbefore : ∀ j < n, j ≠ k → part u j = part v j :=
    fun j hj => hparts j (Nat.le_of_lt hj)
  have hboth : (∀ j < n, part u j = part v j) ∧ part u n = part v n := by
    by_cases hlast : n = k
    · -- All chunks agree, and so do the registers before the tails.
      have hall : ∀ j < n, part u j = part v j := fun j hj => hbefore j hj (by omega)
      rw [takeChunks_congr hall, hsize, hsize'] at h
      exact ⟨hall, tail_of_takeTail htail htail' h⟩
    · -- The tails agree, and so do the registers before them.
      have hrest := hparts n (Nat.le_refl n) hlast
      have hsame : u.size = v.size := by rw [hsize, hsize', hrest]
      rw [hrest, hsame] at h
      have htake := state_of_takeTail h
      exact ⟨part_of_takeChunks (Nat.le_of_eq hu.symm) (Nat.le_of_eq hv.symm) hbefore htake, hrest⟩
  exact fun j hj => Nat.forall_lt_succ_right.mpr hboth j (Nat.lt_succ_of_le hj)

/-- Two messages with the same number of whole chunks agree in all their parts but one: a chunk,
or the tail, which may be longer in one of them. -/
structure DifferInOnePart (u v : ByteArray) : Prop where
  chunks_eq : u.size / 16 = v.size / 16
  ne : u ≠ v
  parts_eq : ∃ k ≤ u.size / 16, ∀ j ≤ u.size / 16, j ≠ k → part u j = part v j

theorem DifferInOnePart.finalRegisters_ne (h : DifferInOnePart u v) :
    finalRegisters u ≠ finalRegisters v := by
  obtain ⟨hchunks, hne, k, -, hparts⟩ := h
  intro hsame
  apply hne
  apply eq_of_parts hchunks
  apply parts_of_takeTail rfl hchunks.symm hparts
  apply finish_bijective.injective
  rwa [finalRegisters_eq, finalRegisters_eq, streamed, streamed, ← finish_eq, ← finish_eq,
    ← hchunks] at hsame

theorem part_append {a b : ByteArray} {j : Nat} (hj : 16 * j + 16 ≤ a.size) :
    part (a ++ b) j = part a j :=
  extract_append_left a b _ _ hj

theorem differInOnePart_of_tails {chunks t t' : ByteArray} (hwhole : chunks.size % 16 = 0)
    (ht : t.size < 16) (ht' : t'.size < 16) (hne : t ≠ t') :
    DifferInOnePart (chunks ++ t) (chunks ++ t') := by
  have hcount : (chunks ++ t).size / 16 = chunks.size / 16 := by
    rw [ByteArray.size_append]
    omega
  have hcount' : (chunks ++ t').size / 16 = chunks.size / 16 := by
    rw [ByteArray.size_append]
    omega
  refine ⟨hcount.trans hcount'.symm, ?_, chunks.size / 16, Nat.le_of_eq hcount.symm, ?_⟩
  · intro hsame
    exact hne ((ByteArray.append_right_inj chunks).mp hsame)
  · intro j hj hother
    rw [part_append (by omega), part_append (by omega)]

/-- The mixer and the finisher are bijections, and messages that agree in all parts but one end with
different registers, of which the digest shows half. -/
theorem messages_kept_apart :
    Function.Bijective mix ∧ Function.Bijective finish ∧
    (∀ u v, DifferInOnePart u v → finalRegisters u ≠ finalRegisters v) ∧
    ∀ chunks t t' : ByteArray, chunks.size % 16 = 0 → t.size < 16 → t'.size < 16 → t ≠ t' →
      finalRegisters (chunks ++ t) ≠ finalRegisters (chunks ++ t') := by
  refine ⟨mix_bijective, finish_bijective, fun _ _ h => h.finalRegisters_ne, ?_⟩
  intro chunks t t' hwhole ht ht' hne
  exact (differInOnePart_of_tails hwhole ht ht' hne).finalRegisters_ne

/-- The last tail has the seed, which stands for an empty one, as its first word. -/
theorem messages_kept_apart_at_seed :
    finalRegisters (zeros 3) ≠ finalRegisters (zeros 4) ∧
    DifferInOnePart (zeros 40) ((zeros 40).set! 5 1) ∧
    finalRegisters (zeros 40) ≠ finalRegisters ((zeros 40).set! 5 1) ∧
    finalRegisters (zeros 16 ++ ByteArray.empty) ≠
      finalRegisters (zeros 16 ++ encode 8 seed.toNat) := by
  obtain ⟨-, -, happart, htails⟩ := messages_kept_apart
  have hzeros : DifferInOnePart (zeros 3) (zeros 4) :=
    ⟨by decide, by decide, 0, by decide, by decide⟩
  have hbyte : DifferInOnePart (zeros 40) ((zeros 40).set! 5 1) :=
    ⟨by decide, by decide, 0, by decide, by decide⟩
  have hempty := htails (zeros 16) ByteArray.empty (encode 8 seed.toNat) (by decide) (by decide)
    (by decide) (by decide)
  exact ⟨happart _ _ hzeros, hbyte, happart _ _ hbyte, hempty⟩

end Digest
end PagedFilter
