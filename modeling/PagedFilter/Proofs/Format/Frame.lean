import PagedFilter.Format.Frame
import PagedFilter.Proofs.Bytes.Fields
import PagedFilter.Proofs.Filter.EntryPoints
/-! A byte string restores a filter exactly when it is the frame of that filter. -/
namespace PagedFilter.Frame

open LittleEndian
open PagedView (WellFormed way bits)

def Header.bytes (h : Header) : ByteArray :=
  magic ++ LittleEndian.encode 2 h.version.toNat ++ LittleEndian.encode 1 h.way ++
    LittleEndian.encode 1 h.pageLevel ++ LittleEndian.encode 8 h.uniqueCount.toNat ++
    LittleEndian.encode 8 h.dataLen.toNat

structure Header.Writable (h : Header) : Prop where
  version_eq : h.version = formatVersion
  way_lt : h.way < 256
  pageLevel_lt : h.pageLevel < 256

theorem size_magic : magic.size = 4 := by rfl

theorem Header.size_bytes (h : Header) : h.bytes.size = headerSize := by
  simp only [Header.bytes, ByteArray.size_append, size_encode, size_magic, headerSize]

theorem Header.extract_bytes (h : Header) :
    h.bytes.extract 0 4 = magic ∧
      h.bytes.extract 4 6 = LittleEndian.encode 2 h.version.toNat ∧
      h.bytes.extract 6 7 = LittleEndian.encode 1 h.way ∧
      h.bytes.extract 7 8 = LittleEndian.encode 1 h.pageLevel ∧
      h.bytes.extract 8 16 = LittleEndian.encode 8 h.uniqueCount.toNat ∧
      h.bytes.extract 16 24 = LittleEndian.encode 8 h.dataLen.toNat := by
  have hmagic := size_magic
  rw [Header.bytes]
  refine ⟨?_, ?_, ?_, ?_, ?_, ?_⟩
  · iterate 5 rw [extract_append_left _ _ _ _ (by simp [ByteArray.size_append, hmagic])]
    rw [← hmagic, ByteArray.extract_zero_size]
  · iterate 4 rw [extract_append_left _ _ _ _ (by simp [ByteArray.size_append, hmagic])]
    rw [ByteArray.extract_append_eq_right] <;> simp [hmagic]
  · iterate 3 rw [extract_append_left _ _ _ _ (by simp [ByteArray.size_append, hmagic])]
    rw [ByteArray.extract_append_eq_right] <;> simp [ByteArray.size_append, hmagic]
  · iterate 2 rw [extract_append_left _ _ _ _ (by simp [ByteArray.size_append, hmagic])]
    rw [ByteArray.extract_append_eq_right] <;> simp [ByteArray.size_append, hmagic]
  · rw [extract_append_left _ _ _ _ (by simp [ByteArray.size_append, hmagic])]
    rw [ByteArray.extract_append_eq_right] <;> simp [ByteArray.size_append, hmagic]
  · rw [ByteArray.extract_append_eq_right] <;> simp [ByteArray.size_append, hmagic]

def fieldsOf (bytes : ByteArray) : Header where
  version := (read bytes 4 2).toUInt16
  way := (read bytes 6 1).toNat
  pageLevel := (read bytes 7 1).toNat
  uniqueCount := read bytes 8 8
  dataLen := read bytes 16 8

theorem readHeader_eq (bytes : ByteArray) :
    readHeader bytes =
      if bytes.size < headerSize then .error (.bufferTooSmall headerSize bytes.size)
      else if bytes.extract 0 4 ≠ magic then .error .invalidMagic
      else if (fieldsOf bytes).version ≠ formatVersion then
        .error (.unsupportedVersion (fieldsOf bytes).version)
      else .ok (fieldsOf bytes) := by
  rw [readHeader]
  by_cases hsize : bytes.size < headerSize
  · rw [if_pos hsize, if_pos hsize]
    rfl
  · rw [if_neg hsize, if_neg hsize]
    by_cases hmagic : bytes.extract 0 4 ≠ magic
    · simp only [if_pos hmagic]
      rfl
    · simp only [if_neg hmagic]
      by_cases hversion : (fieldsOf bytes).version ≠ formatVersion
      · rw [if_pos hversion]
        exact if_pos hversion
      · rw [if_neg hversion]
        exact if_neg hversion

private theorem toNat_version (bytes : ByteArray) :
    (fieldsOf bytes).version.toNat = (read bytes 4 2).toNat := by
  have hlt : (read bytes 4 2).toNat < 256 ^ 2 := toNat_read_lt bytes 4 2 (by decide)
  rw [fieldsOf, UInt64.toNat_toUInt16]
  exact Nat.mod_eq_of_lt hlt

private theorem bytes_fieldsOf {bytes : ByteArray} (hsize : headerSize ≤ bytes.size)
    (hmagic : bytes.extract 0 4 = magic) :
    (fieldsOf bytes).bytes = bytes.extract 0 headerSize := by
  have hsize : 24 ≤ bytes.size := hsize
  have hfield (pos width : Nat) (hwidth : width ≤ 8) (hend : pos + width ≤ 24) :
      bytes.extract 0 pos ++ LittleEndian.encode width (read bytes pos width).toNat =
        bytes.extract 0 (pos + width) := by
    rw [encode_read bytes pos width hwidth (by omega),
      ByteArray.extract_eq_extract_append_extract pos (Nat.zero_le _) (Nat.le_add_right _ _)]
  rw [Header.bytes, toNat_version, ← hmagic, hfield 4 2 (by decide) (by decide)]
  simp only [fieldsOf]
  rw [hfield 6 1 (by decide) (by decide), hfield 7 1 (by decide) (by decide),
    hfield 8 8 (by decide) (by decide), hfield 16 8 (by decide) (by decide)]
  rfl

theorem fieldsOf_of_extract {bytes : ByteArray} {h : Header} (hway : h.way < 256)
    (hlevel : h.pageLevel < 256) (hsize : headerSize ≤ bytes.size)
    (hbytes : bytes.extract 0 headerSize = h.bytes) : fieldsOf bytes = h := by
  have hsize : 24 ≤ bytes.size := hsize
  have hfield (i j : Nat) (hj : j ≤ 24) : bytes.extract i j = h.bytes.extract i j := by
    rw [← hbytes, ByteArray.extract_extract, Nat.zero_add, Nat.zero_add]
    congr 1
    exact (Nat.min_eq_left hj).symm
  have hread (pos width n : Nat) (hwidth : width ≤ 8) (hend : pos + width ≤ 24)
      (hn : n < 256 ^ width)
      (hplace : h.bytes.extract pos (pos + width) = LittleEndian.encode width n) :
      (read bytes pos width).toNat = n := by
    apply read_of_extract hwidth (by omega) hn
    rw [hfield _ _ hend, hplace]
  obtain ⟨-, hversion, hplace, hplace', hcount, hlen⟩ := h.extract_bytes
  have hversion := hread 4 2 _ (by decide) (by decide) h.version.toNat_lt hversion
  have hway := hread 6 1 _ (by decide) (by decide) hway hplace
  have hlevel := hread 7 1 _ (by decide) (by decide) hlevel hplace'
  have hcount := hread 8 8 _ (by decide) (by decide) h.uniqueCount.toNat_lt hcount
  have hlen := hread 16 8 _ (by decide) (by decide) h.dataLen.toNat_lt hlen
  cases h
  simp only [fieldsOf, Header.mk.injEq]
  refine ⟨?_, hway, hlevel, UInt64.toNat_inj.mp hcount, UInt64.toNat_inj.mp hlen⟩
  apply UInt16.toNat_inj.mp
  rw [← hversion]
  exact toNat_version bytes

/-- A header is read off just the bytes that begin with it as it is written. -/
theorem readHeader_eq_ok_iff {bytes : ByteArray} {h : Header} :
    readHeader bytes = .ok h ↔
      h.Writable ∧ headerSize ≤ bytes.size ∧ bytes.extract 0 headerSize = h.bytes := by
  rw [readHeader_eq]
  constructor
  · intro hread
    by_cases hsize : bytes.size < headerSize
    · rw [if_pos hsize] at hread
      cases hread
    by_cases hmagic : bytes.extract 0 4 ≠ magic
    · rw [if_neg hsize, if_pos hmagic] at hread
      cases hread
    by_cases hversion : (fieldsOf bytes).version ≠ formatVersion
    · rw [if_neg hsize, if_neg hmagic, if_pos hversion] at hread
      cases hread
    rw [if_neg hsize, if_neg hmagic, if_neg hversion] at hread
    obtain rfl : fieldsOf bytes = h := Except.ok.inj hread
    rw [Decidable.not_not] at hmagic hversion
    have hsize : headerSize ≤ bytes.size := Nat.le_of_not_lt hsize
    have hway : (read bytes 6 1).toNat < 256 ^ 1 := toNat_read_lt bytes 6 1 (by decide)
    have hlevel : (read bytes 7 1).toNat < 256 ^ 1 := toNat_read_lt bytes 7 1 (by decide)
    exact ⟨⟨hversion, hway, hlevel⟩, hsize, (bytes_fieldsOf hsize hmagic).symm⟩
  · rintro ⟨hfits, hsize, hbytes⟩
    have hfields := fieldsOf_of_extract hfits.way_lt hfits.pageLevel_lt hsize hbytes
    have hmagic : bytes.extract 0 4 = magic := by
      have hfirst := congrArg (ByteArray.extract · 0 4) hbytes
      rwa [ByteArray.extract_extract, h.extract_bytes.1] at hfirst
    rw [if_neg (Nat.not_lt.mpr hsize), if_neg (not_not_intro hmagic), hfields,
      if_neg (not_not_intro hfits.version_eq)]

/-- A frame is split just where its header ends, and holds as much data as the header says. -/
theorem split_eq_ok_iff {bytes : ByteArray} {h : Header} {data : ByteArray} :
    split bytes = .ok (h, data) ↔
      h.Writable ∧ h.dataLen.toNat = data.size ∧ bytes = h.bytes ++ data := by
  constructor
  · intro hsplit
    obtain ⟨header, hheader, hrest⟩ := bind_eq_ok.mp hsplit
    dsimp only at hrest
    by_cases hshort : (bytes.extract headerSize bytes.size).size < header.dataLen.toNat
    · rw [if_pos hshort] at hrest
      cases hrest
    by_cases hlong : header.dataLen.toNat < (bytes.extract headerSize bytes.size).size
    · rw [if_neg hshort, if_pos hlong] at hrest
      cases hrest
    rw [if_neg hshort, if_neg hlong] at hrest
    cases hrest
    obtain ⟨hfits, hsize, hbytes⟩ := readHeader_eq_ok_iff.mp hheader
    refine ⟨hfits, by omega, ?_⟩
    rw [← hbytes, ← ByteArray.extract_eq_extract_append_extract _ (Nat.zero_le _) hsize,
      ByteArray.extract_zero_size]
  · rintro ⟨hfits, hlen, rfl⟩
    have hsize := h.size_bytes
    have hheader : readHeader (h.bytes ++ data) = .ok h := by
      refine readHeader_eq_ok_iff.mpr ⟨hfits, ?_, ?_⟩
      · rw [ByteArray.size_append]
        omega
      · exact ByteArray.extract_append_eq_left hsize.symm
    have hdata : (h.bytes ++ data).extract headerSize (h.bytes ++ data).size = data :=
      ByteArray.extract_append_eq_right hsize.symm ByteArray.size_append
    rw [split, hheader, ok_bind]
    simp only [hdata, hlen, Nat.lt_irrefl, if_false]
    rfl

section
variable {F : Type} [StoredFilter F] [StoredView F]

def headerOf (f : F) : Header where
  version := formatVersion
  way := way f
  pageLevel := (bits f).pageLevel
  uniqueCount := (bits f).uniqueCount
  dataLen := UInt64.ofNat (bits f).data.size

theorem toNat_dataLen_headerOf {f : F} (h : WellFormed f) :
    (headerOf f).dataLen.toNat = (bits f).data.size := by
  exact UInt64.toNat_ofNat_of_lt (Nat.lt_trans h.whole.size_lt (by decide))

theorem writable_headerOf {f : F} (h : WellFormed f) : (headerOf f).Writable := by
  refine ⟨rfl, ?_, ?_⟩
  · have hway : way f ≤ 8 := h.way_le
    change way f < 256
    omega
  · have hlevel : (bits f).pageLevel ≤ 13 := h.whole.level_le
    change (bits f).pageLevel < 256
    omega

theorem encode_eq {f : F} (h : WellFormed f) :
    encode f = (headerOf f).bytes ++ (bits f).data := by
  rw [encode, encodeHeader, StoredView.data_eq, h.geometry_eq, PagedView.uniqueCount_eq,
    Header.bytes, toNat_dataLen_headerOf h]
  rfl

theorem split_encode {f : F} (h : WellFormed f) :
    split (encode f) = .ok (headerOf f, (bits f).data) :=
  split_eq_ok_iff.mpr ⟨writable_headerOf h, toNat_dataLen_headerOf h, encode_eq h⟩

theorem size_encode {f : F} (h : WellFormed f) : (encode f).size = encodedSize f := by
  rw [encode_eq h, ByteArray.size_append, Header.size_bytes, encodedSize, StoredView.data_eq]

theorem readHeader_encode {f : F} (h : WellFormed f) :
    readHeader (encode f) = .ok (headerOf f) := by
  have hsize := (headerOf f).size_bytes
  refine readHeader_eq_ok_iff.mpr ⟨writable_headerOf h, ?_, ?_⟩
  · rw [size_encode h]
    exact Nat.le_add_right _ _
  · rw [encode_eq h]
    exact ByteArray.extract_append_eq_left hsize.symm

end

theorem decode_encode {f : AnyFilter} (h : WellFormed f) : decode (encode f) = .ok f := by
  have hsplit := split_encode h
  rw [decode, hsplit]
  exact AnyFilter.ofBytes_eq_ok_iff.mpr ⟨h, rfl, rfl, rfl, rfl⟩

theorem encode_of_decode {bytes : ByteArray} {f : AnyFilter} (h : decode bytes = .ok f) :
    WellFormed f ∧ encode f = bytes := by
  rw [decode] at h
  cases hsplit : split bytes with
  | error e =>
    rw [hsplit] at h
    cases h
  | ok r =>
    obtain ⟨header, data⟩ := r
    rw [hsplit] at h
    obtain ⟨hf, hway, hlevel, hdata, hcount⟩ := AnyFilter.ofBytes_eq_ok_iff.mp h
    obtain ⟨hfits, hlen, rfl⟩ := split_eq_ok_iff.mp hsplit
    refine ⟨hf, ?_⟩
    have hdataLen : (headerOf f).dataLen = header.dataLen := by
      apply UInt64.toNat_inj.mp
      rw [toNat_dataLen_headerOf hf, hlen, ← hdata]
      rfl
    have hheader : headerOf f = header := by
      cases header
      simp only [headerOf, Header.mk.injEq]
      exact ⟨hfits.version_eq.symm, hway, hlevel, hcount, hdataLen⟩
    rw [encode_eq hf, hheader, ← hdata]
    rfl

theorem encode_ofFixed? {way : Nat} {g : FixedFilter way} {f : AnyFilter} (hg : WellFormed g)
    (hf : WellFormed f) (h : AnyFilter.ofFixed? g = some f) : encode f = encode g := by
  obtain ⟨hway, hbits⟩ := AnyFilter.ofFixed?_eq_some h
  have hheader : headerOf f = headerOf g := by
    simp only [headerOf, Header.mk.injEq]
    change _ ∧ f.way = way ∧ f.bits.pageLevel = g.bits.pageLevel ∧
      f.bits.uniqueCount = g.bits.uniqueCount ∧
      UInt64.ofNat f.bits.data.size = UInt64.ofNat g.bits.data.size
    rw [hbits]
    exact ⟨trivial, hway, rfl, rfl, rfl⟩
  rw [encode_eq hf, encode_eq hg, hheader]
  change _ ++ f.bits.data = _ ++ g.bits.data
  rw [hbits]

/-- The frame of the first filter is as long as announced, shows its numbers in the header, and
restores the second. -/
structure Restores {F : Type} [StoredFilter F] (f : F) (g : AnyFilter) : Prop where
  size_eq : (encode f).size = encodedSize f
  header_eq : ∃ h, readHeader (encode f) = .ok h ∧ h.version = 1 ∧
    h.way = (KeyFilter.geometry f).way ∧ h.pageLevel = (KeyFilter.geometry f).pageLevel ∧
    h.uniqueCount = KeyFilter.uniqueCount f ∧ h.dataLen.toNat = (StoredFilter.data f).size
  decode_eq : decode (encode f) = .ok g

theorem restores_of_decode {F : Type} [StoredFilter F] [StoredView F] {f : F} {g : AnyFilter}
    (h : WellFormed f) (hdecode : decode (encode f) = .ok g) : Restores f g := by
  refine ⟨size_encode h, ⟨headerOf f, readHeader_encode h, rfl, ?_, ?_, ?_, ?_⟩, hdecode⟩
  · rw [h.geometry_eq]
    rfl
  · rw [h.geometry_eq]
    rfl
  · rw [PagedView.uniqueCount_eq]
    rfl
  · rw [toNat_dataLen_headerOf h, StoredView.data_eq]

/-- The frame of a filter, of a fixed way or of any, restores it, and a byte string that restores a
filter is the frame of that filter. -/
theorem frames_correspond :
    (∀ f : AnyFilter, WellFormed f → Restores f f) ∧
    (∀ (way : Nat) (g : FixedFilter way), WellFormed g →
      ∃ f, AnyFilter.ofFixed? g = some f ∧ WellFormed f ∧ f.bits = g.bits ∧ Restores g f) ∧
    (∀ bytes f, decode bytes = .ok f ↔ WellFormed f ∧ encode f = bytes) ∧
    (∀ f g : AnyFilter, WellFormed f → WellFormed g → encode f = encode g → f = g) ∧
    (∀ bytes other f, decode bytes = .ok f → decode other = .ok f → bytes = other) := by
  refine ⟨?_, ?_, ?_, ?_, ?_⟩
  · intro f h
    exact restores_of_decode h (decode_encode h)
  · intro way g hg
    obtain ⟨f, hplace, hf, -, hbits⟩ := AnyFilter.ofFixed?_total hg
    refine ⟨f, hplace, hf, hbits, restores_of_decode hg ?_⟩
    rw [← encode_ofFixed? hg hf hplace]
    exact decode_encode hf
  · intro bytes f
    constructor
    · exact encode_of_decode
    · rintro ⟨h, rfl⟩
      exact decode_encode h
  · intro f g hf hg hsame
    have hdecode := decode_encode hf
    rw [hsame, decode_encode hg] at hdecode
    exact (Except.ok.inj hdecode).symm
  · intro bytes other f hbytes hother
    rw [← (encode_of_decode hbytes).2, (encode_of_decode hother).2]

theorem three_pages_correspond :
    let g : FixedFilter 4 := ⟨⟨zeros 192, 6, ⟨0x5555555555555556, 3⟩, 0xffffffffffffffff⟩⟩
    WellFormed g ∧ WellFormed (AnyFilter.way4 g) ∧ Restores g (.way4 g) ∧
      Restores (AnyFilter.way4 g) (.way4 g) := by
  intro g
  have hpages : Reciprocal.of 3 = .ok ⟨0x5555555555555556, 3⟩ := by simp [Reciprocal.of]
  have hbits : g.bits.WellFormed 4 := ⟨⟨by decide, hpages, size_zeros 192⟩, by decide⟩
  have hfixed : WellFormed g := g.wellFormed_iff.mpr hbits
  have hany : WellFormed (AnyFilter.way4 g) := (AnyFilter.way4 g).wellFormed_iff.mpr hbits
  obtain ⟨f, hplace, -, -, hrestores⟩ := frames_correspond.2.1 4 g hfixed
  have hf : AnyFilter.way4 g = f := Option.some.inj hplace
  rw [← hf] at hrestores
  exact ⟨hfixed, hany, hrestores, frames_correspond.1 (.way4 g) hany⟩

end PagedFilter.Frame
