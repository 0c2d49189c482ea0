import PagedFilter.Proofs.Format.Frame.Checks
namespace PagedFilter.Frame

open PagedView (WellFormed)

/-- The bytes with a field written over what was there, from a position on. -/
def overwrite (bytes : ByteArray) (pos : Nat) (field : ByteArray) : ByteArray :=
  bytes.extract 0 pos ++ field ++ bytes.extract (pos + field.size) bytes.size

theorem overwrite_append (before old after field : ByteArray) (hsize : field.size = old.size) :
    overwrite (before ++ old ++ after) before.size field = before ++ field ++ after := by
  have hfirst : (before ++ old ++ after).extract 0 before.size = before := by
    rw [ByteArray.append_assoc]
    exact ByteArray.extract_append_eq_left rfl
  have hlast : (before ++ old ++ after).extract (before.size + field.size)
      (before ++ old ++ after).size = after := by
    apply ByteArray.extract_append_eq_right
    · rw [ByteArray.size_append, hsize]
    · exact ByteArray.size_append
  rw [overwrite, hfirst, hlast]

def Refused (bytes : ByteArray) (cause : FrameError) : Prop :=
  decode bytes = refuse cause ∧ validate bytes = refuse cause

theorem refused_of_form {bytes : ByteArray} {cause : FrameError}
    (h : firstRefusal (formChecks bytes) = some ↑cause) : Refused bytes cause := by
  have hchecks : firstRefusal (checks bytes) = some ↑cause := by
    rw [firstRefusal_checks, h]
    rfl
  exact ⟨(answers_decode bytes).refused _ hchecks, (answers_validate bytes).refused _ hchecks⟩

theorem refused_of_short {bytes : ByteArray} (hsize : bytes.size < 24) :
    Refused bytes (.bufferTooSmall 24 bytes.size) := by
  apply refused_of_form
  simp [formChecks, hsize]

theorem refused_of_magic {bytes : ByteArray} (hsize : 24 ≤ bytes.size)
    (hmagic : bytes.extract 0 4 ≠ magic) : Refused bytes .invalidMagic := by
  apply refused_of_form
  simp [formChecks, Nat.not_lt.mpr hsize, hmagic]

theorem Header.size_append (h : Header) (data : ByteArray) :
    (h.bytes ++ data).size = 24 + data.size := by
  rw [ByteArray.size_append, h.size_bytes]
  rfl

/-- Behind a header of any version and length only these two are still to be checked. -/
theorem firstRefusal_append_data {h : Header} (hway : h.way < 256) (hlevel : h.pageLevel < 256)
    (data : ByteArray) : firstRefusal (formChecks (h.bytes ++ data)) =
      if h.version ≠ 1 then some ↑(FrameError.unsupportedVersion h.version)
      else if data.size < h.dataLen.toNat then
        some ↑(FrameError.bufferTooSmall (min (24 + h.dataLen.toNat) (2 ^ 64 - 1))
          (24 + data.size))
      else if h.dataLen.toNat < data.size then
        some ↑(FrameError.trailingBytes h.dataLen.toNat data.size)
      else none := by
  have hheader : (h.bytes ++ data).extract 0 headerSize = h.bytes :=
    ByteArray.extract_append_eq_left h.size_bytes.symm
  have hsize := h.size_append data
  have hfields : fieldsOf (h.bytes ++ data) = h :=
    fieldsOf_of_extract hway hlevel (by rw [hsize]; exact Nat.le_add_right _ _) hheader
  have hmagic : (h.bytes ++ data).extract 0 4 = magic := by
    rw [extract_append_left _ _ _ _ (by rw [h.size_bytes]; decide), h.extract_bytes.1]
  simp only [formChecks, firstRefusal_cons, firstRefusal_nil, decide_eq_true_eq, hfields, hsize,
    hmagic, Nat.add_sub_cancel_left]
  rw [if_neg (by omega), if_neg (not_not_intro rfl)]

theorem refused_of_version {h : Header} (hway : h.way < 256) (hlevel : h.pageLevel < 256)
    (hversion : h.version ≠ 1) (data : ByteArray) :
    Refused (h.bytes ++ data) (.unsupportedVersion h.version) := by
  apply refused_of_form
  rw [firstRefusal_append_data hway hlevel, if_pos hversion]

theorem refused_of_missing {h : Header} (hfits : h.Writable) (data : ByteArray)
    (hsize : data.size < h.dataLen.toNat) : Refused (h.bytes ++ data)
      (.bufferTooSmall (min (24 + h.dataLen.toNat) (2 ^ 64 - 1)) (24 + data.size)) := by
  have hversion : ¬h.version ≠ 1 := not_not_intro hfits.version_eq
  apply refused_of_form
  rw [firstRefusal_append_data hfits.way_lt hfits.pageLevel_lt, if_neg hversion, if_pos hsize]

theorem refused_of_trailing {h : Header} (hfits : h.Writable) (data : ByteArray)
    (hsize : h.dataLen.toNat < data.size) :
    Refused (h.bytes ++ data) (.trailingBytes h.dataLen.toNat data.size) := by
  have hversion : ¬h.version ≠ 1 := not_not_intro hfits.version_eq
  apply refused_of_form
  rw [firstRefusal_append_data hfits.way_lt hfits.pageLevel_lt, if_neg hversion,
    if_neg (Nat.lt_asymm hsize), if_pos hsize]

theorem overwrite_magic (h : Header) (data other : ByteArray) (hsize : other.size = 4) :
    ∃ rest, rest.size = 20 + data.size ∧ overwrite (h.bytes ++ data) 0 other = other ++ rest := by
  obtain ⟨rest, hrest⟩ : ∃ rest, h.bytes = magic ++ rest := by
    simp only [Header.bytes, ByteArray.append_assoc]
    exact ⟨_, rfl⟩
  have hbytes : h.bytes ++ data = ByteArray.empty ++ magic ++ (rest ++ data) := by
    rw [hrest, ByteArray.empty_append, ByteArray.append_assoc]
  have htotal := h.size_bytes
  rw [hrest, ByteArray.size_append, size_magic] at htotal
  refine ⟨rest ++ data, ?_, ?_⟩
  · have hcount : rest.size = 20 := Nat.add_left_cancel (htotal.trans rfl : 4 + rest.size = 4 + 20)
    rw [ByteArray.size_append, hcount]
  · rw [hbytes, ← ByteArray.size_empty, overwrite_append _ _ _ _ (hsize.trans size_magic.symm),
      ByteArray.empty_append]

theorem overwrite_version (h : Header) (data : ByteArray) (version : UInt16) :
    overwrite (h.bytes ++ data) 4 (LittleEndian.encode 2 version.toNat) =
      ({ h with version := version } : Header).bytes ++ data := by
  simp only [Header.bytes, ByteArray.append_assoc]
  rw [← ByteArray.append_assoc, ← size_magic, overwrite_append, ByteArray.append_assoc]
  rw [LittleEndian.size_encode, LittleEndian.size_encode]

theorem overwrite_dataLen (h : Header) (data : ByteArray) (dataLen : UInt64) :
    overwrite (h.bytes ++ data) 16 (LittleEndian.encode 8 dataLen.toNat) =
      ({ h with dataLen := dataLen } : Header).bytes ++ data := by
  have hpos : (magic ++ LittleEndian.encode 2 h.version.toNat ++ LittleEndian.encode 1 h.way ++
      LittleEndian.encode 1 h.pageLevel ++ LittleEndian.encode 8 h.uniqueCount.toNat).size = 16 := by
    simp only [ByteArray.size_append, LittleEndian.size_encode, size_magic]
  rw [Header.bytes, ← hpos, overwrite_append]
  · rfl
  · rw [LittleEndian.size_encode, LittleEndian.size_encode]

theorem extract_past {a b : ByteArray} {m : Nat} (hm : a.size ≤ m) :
    (a ++ b).extract 0 m = a ++ b.extract 0 (m - a.size) := by
  have hrest : (a ++ b).extract (a.size + 0) (a.size + (m - a.size)) = b.extract 0 (m - a.size) :=
    ByteArray.extract_append_size_add
  rw [Nat.add_zero, Nat.add_sub_cancel' hm] at hrest
  rw [ByteArray.extract_eq_extract_append_extract a.size (Nat.zero_le _) hm, hrest,
    ByteArray.extract_append_eq_left rfl]

structure DamageFound (frame : ByteArray) (size : Nat) : Prop where
  size_eq : frame.size = 24 + size
  cut_header (m : Nat) : m < 24 → Refused (frame.extract 0 m) (.bufferTooSmall 24 m)
  cut_data (m : Nat) : 24 ≤ m → m < 24 + size →
    Refused (frame.extract 0 m) (.bufferTooSmall (24 + size) m)
  trailing (extra : ByteArray) : 0 < extra.size →
    Refused (frame ++ extra) (.trailingBytes size (size + extra.size))
  magic (other : ByteArray) : other.size = 4 → other ≠ Frame.magic →
    Refused (overwrite frame 0 other) .invalidMagic
  version (other : UInt16) : other ≠ 1 →
    Refused (overwrite frame 4 (LittleEndian.encode 2 other.toNat)) (.unsupportedVersion other)
  longer (declared : UInt64) : size < declared.toNat →
    Refused (overwrite frame 16 (LittleEndian.encode 8 declared.toNat))
      (.bufferTooSmall (min (24 + declared.toNat) (2 ^ 64 - 1)) (24 + size))
  shorter (declared : UInt64) : declared.toNat < size →
    Refused (overwrite frame 16 (LittleEndian.encode 8 declared.toNat))
      (.trailingBytes declared.toNat size)

theorem Header.Writable.declaring {h : Header} (hfits : h.Writable) (declared : UInt64) :
    ({ h with dataLen := declared } : Header).Writable :=
  ⟨hfits.version_eq, hfits.way_lt, hfits.pageLevel_lt⟩

theorem Header.Writable.damageFound {h : Header} (hfits : h.Writable) {data : ByteArray}
    (hlen : h.dataLen.toNat = data.size) (hlt : data.size < 2 ^ 45) :
    DamageFound (h.bytes ++ data) data.size where
  size_eq := h.size_append data
  cut_header m hm := by
    have hcut : ((h.bytes ++ data).extract 0 m).size = m := by
      rw [ByteArray.size_extract, h.size_append]
      omega
    have hshort := refused_of_short (hcut.trans_lt hm)
    rwa [hcut] at hshort
  cut_data m hge hm := by
    have hheader : h.bytes.size = 24 := h.size_bytes
    have hcut : (data.extract 0 (m - 24)).size = m - 24 := by
      rw [ByteArray.size_extract]
      omega
    have hmissing := refused_of_missing hfits (data.extract 0 (m - 24)) (by omega)
    rw [hlen, hcut, Nat.min_eq_left (by omega), Nat.add_sub_cancel' hge] at hmissing
    rwa [extract_past (by omega), hheader]
  trailing extra hextra := by
    have hmore := refused_of_trailing hfits (data ++ extra) (by rw [ByteArray.size_append]; omega)
    rwa [hlen, ByteArray.size_append, ← ByteArray.append_assoc] at hmore
  magic other hother hne := by
    obtain ⟨rest, hrest, heq⟩ := overwrite_magic h data other hother
    rw [heq]
    apply refused_of_magic
    · rw [ByteArray.size_append]
      omega
    · rwa [ByteArray.extract_append_eq_left hother.symm]
  version other hne := by
    rw [overwrite_version]
    exact refused_of_version (h := { h with version := other }) hfits.way_lt hfits.pageLevel_lt
      hne data
  longer declared hmore := by
    rw [overwrite_dataLen]
    exact refused_of_missing (hfits.declaring declared) data hmore
  shorter declared hless := by
    rw [overwrite_dataLen]
    exact refused_of_trailing (hfits.declaring declared) data hless

theorem damageFound {F : Type} [StoredFilter F] [StoredView F] {f : F} (h : WellFormed f) :
    DamageFound (encode f) (StoredFilter.data f).size := by
  rw [encode_eq h, StoredView.data_eq]
  exact (writable_headerOf h).damageFound (toNat_dataLen_headerOf h) h.whole.size_lt

/-- A frame that is cut short, has bytes behind it, or has other magic bytes, another version or
another declared length is refused for just that, so no valid frame begins another. -/
theorem damage_detected :
    (∀ (F : Type) [StoredFilter F] [StoredView F] (f : F), WellFormed f →
      DamageFound (encode f) (StoredFilter.data f).size) ∧
    ∀ frame extra : ByteArray, validate frame = .ok () → 0 < extra.size →
      validate (frame ++ extra) ≠ .ok () := by
  refine ⟨fun F _ _ f h => damageFound h, ?_⟩
  intro frame extra hframe hextra hlonger
  obtain ⟨f, hf⟩ := ((answers_validate frame).ok_iff (answers_decode frame)).mp ⟨(), hframe⟩
  obtain ⟨hwell, rfl⟩ := encode_of_decode hf
  have hrefused := ((damageFound hwell).trailing extra hextra).2
  rw [hlonger] at hrefused
  cases hrefused

theorem damage_detected_three_pages :
    let f : AnyFilter := .way4 ⟨⟨zeros 192, 6, ⟨0x5555555555555556, 3⟩, 7⟩⟩
    WellFormed f ∧ validate (encode f) = .ok () ∧ validate (encode f ++ zeros 1) ≠ .ok () ∧
      Refused ((encode f).extract 0 23) (.bufferTooSmall 24 23) ∧
      Refused ((encode f).extract 0 215) (.bufferTooSmall 216 215) ∧
      Refused (encode f ++ zeros 1) (.trailingBytes 192 193) ∧
      Refused (overwrite (encode f) 0 "PBF2".toUTF8) .invalidMagic ∧
      Refused (overwrite (encode f) 4 (LittleEndian.encode 2 (2 : UInt16).toNat))
        (.unsupportedVersion 2) ∧
      Refused (overwrite (encode f) 16 (LittleEndian.encode 8 (2 ^ 64 - 1)))
        (.bufferTooSmall (2 ^ 64 - 1) 216) := by
  intro f
  have hf : WellFormed f :=
    f.wellFormed_iff.mpr (PagedBits.wellFormed_three_pages _ (size_zeros 192) 7)
  have hvalid : validate (encode f) = .ok () := by
    obtain ⟨⟨⟩, hvalid⟩ := ((answers_validate _).ok_iff (answers_decode _)).mpr ⟨f, decode_encode hf⟩
    exact hvalid
  have hlonger : validate (encode f ++ zeros 1) ≠ .ok () :=
    damage_detected.2 _ _ hvalid (by rw [size_zeros]; decide)
  have hfound := damage_detected.1 AnyFilter f hf
  have hsize : (StoredFilter.data f).size = 192 := size_zeros 192
  rw [hsize] at hfound
  have htrailing := hfound.trailing (zeros 1) (by rw [size_zeros]; decide)
  have hall : (0xffffffffffffffff : UInt64).toNat = 2 ^ 64 - 1 := rfl
  have hdeclared := hfound.longer 0xffffffffffffffff (by rw [hall]; decide)
  rw [size_zeros] at htrailing
  rw [hall, Nat.min_eq_right (by decide)] at hdeclared
  exact ⟨hf, hvalid, hlonger, hfound.cut_header 23 (by decide),
    hfound.cut_data 215 (by decide) (by decide), htrailing, hfound.magic _ (by decide) (by decide),
    hfound.version 2 (by decide), hdeclared⟩

end PagedFilter.Frame
