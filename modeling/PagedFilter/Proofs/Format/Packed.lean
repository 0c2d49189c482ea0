import PagedFilter.Format.Stored
import PagedFilter.Proofs.Bytes.Fields
import PagedFilter.Proofs.Format.Snapshot
/-! Filters are read back from packed bytes, whatever stands behind them. -/
namespace PagedFilter

open LittleEndian
open PagedView (WellFormed)

namespace Snapshot

private def packedHeader (s : Snapshot) : ByteArray :=
  encode 2 s.version.toNat ++ encode 8 s.way.toNat ++ encode 4 s.pageLevel.toNat ++
    encode 8 s.uniqueCount.toNat ++ encode 8 s.data.size

private theorem size_packedHeader (s : Snapshot) : s.packedHeader.size = packedHeaderSize := by
  simp [packedHeader, packedHeaderSize]

private theorem pack_eq (s : Snapshot) : s.pack = s.packedHeader ++ s.data := rfl

theorem size_pack (s : Snapshot) : s.pack.size = packedHeaderSize + s.data.size := by
  rw [pack_eq, ByteArray.size_append, size_packedHeader]

private theorem read_packedHeader (s : Snapshot) (hsize : s.data.size < 2 ^ 64)
    (rest : ByteArray) :
    (read (s.packedHeader ++ rest) 0 2).toUInt16 = s.version ∧
      read (s.packedHeader ++ rest) 2 8 = s.way ∧
      (read (s.packedHeader ++ rest) 10 4).toUInt32 = s.pageLevel ∧
      read (s.packedHeader ++ rest) 14 8 = s.uniqueCount ∧
      (read (s.packedHeader ++ rest) 22 8).toNat = s.data.size := by
  have hfield (before after : ByteArray) (pos width n : Nat) (hpos : before.size = pos)
      (hwidth : width ≤ 8) (hn : n < 256 ^ width)
      (hplace : s.packedHeader ++ rest = before ++ encode width n ++ after) :
      (read (s.packedHeader ++ rest) pos width).toNat = n := by
    rw [hplace]
    exact read_append_encode before after hpos hwidth hn
  have hversion := hfield ByteArray.empty
    (encode 8 s.way.toNat ++ encode 4 s.pageLevel.toNat ++ encode 8 s.uniqueCount.toNat ++
      encode 8 s.data.size ++ rest) 0 2 s.version.toNat rfl (by decide) s.version.toNat_lt
    (by simp [packedHeader, ByteArray.append_assoc])
  have hway := hfield (encode 2 s.version.toNat)
    (encode 4 s.pageLevel.toNat ++ encode 8 s.uniqueCount.toNat ++ encode 8 s.data.size ++ rest)
    2 8 s.way.toNat (by simp) (by decide) s.way.toNat_lt
    (by simp [packedHeader, ByteArray.append_assoc])
  have hlevel := hfield (encode 2 s.version.toNat ++ encode 8 s.way.toNat)
    (encode 8 s.uniqueCount.toNat ++ encode 8 s.data.size ++ rest) 10 4 s.pageLevel.toNat
    (by simp) (by decide) s.pageLevel.toNat_lt (by simp [packedHeader, ByteArray.append_assoc])
  have hcount := hfield
    (encode 2 s.version.toNat ++ encode 8 s.way.toNat ++ encode 4 s.pageLevel.toNat)
    (encode 8 s.data.size ++ rest) 14 8 s.uniqueCount.toNat (by simp) (by decide)
    s.uniqueCount.toNat_lt (by simp [packedHeader, ByteArray.append_assoc])
  have hlen := hfield
    (encode 2 s.version.toNat ++ encode 8 s.way.toNat ++ encode 4 s.pageLevel.toNat ++
      encode 8 s.uniqueCount.toNat) rest 22 8 s.data.size (by simp) (by decide) hsize
    (by simp [packedHeader, ByteArray.append_assoc])
  refine ⟨?_, UInt64.toNat_inj.mp hway, ?_, UInt64.toNat_inj.mp hcount, hlen⟩
  · apply UInt16.toNat_inj.mp
    rw [UInt64.toNat_toUInt16, hversion]
    exact Nat.mod_eq_of_lt s.version.toNat_lt
  · apply UInt32.toNat_inj.mp
    rw [UInt64.toNat_toUInt32, hlevel]
    exact Nat.mod_eq_of_lt s.pageLevel.toNat_lt

theorem unpack?_pack_append (s : Snapshot) (hsize : s.data.size < 2 ^ 64) (extra : ByteArray) :
    unpack? (s.pack ++ extra) = some s := by
  have hbytes : s.pack ++ extra = s.packedHeader ++ (s.data ++ extra) := by
    rw [pack_eq, ByteArray.append_assoc]
  obtain ⟨hversion, hway, hlevel, hcount, hlen⟩ := s.read_packedHeader hsize (s.data ++ extra)
  have hheader := s.size_packedHeader
  have htotal : (s.packedHeader ++ (s.data ++ extra)).size =
      packedHeaderSize + (s.data.size + extra.size) := by
    rw [ByteArray.size_append, ByteArray.size_append, hheader]
  have hdata : (s.packedHeader ++ (s.data ++ extra)).extract packedHeaderSize
      (packedHeaderSize + s.data.size) = s.data := by
    rw [← ByteArray.append_assoc, extract_append_left _ _ _ _ (by simp [hheader])]
    exact ByteArray.extract_append_eq_right hheader.symm (by rw [hheader])
  rw [hbytes, unpack?, if_neg (by omega)]
  dsimp only
  rw [hlen, if_neg (by omega), hversion, hway, hlevel, hcount, hdata]

/-- A packed form that ends early is read as nothing. -/
theorem unpack?_extract (s : Snapshot) (hsize : s.data.size < 2 ^ 64) (n : Nat)
    (hn : n < s.pack.size) : unpack? (s.pack.extract 0 n) = none := by
  have hpack := s.size_pack
  have hpart : (s.pack.extract 0 n).size = n := by
    rw [ByteArray.size_extract]
    omega
  by_cases hshort : n < packedHeaderSize
  · rw [unpack?, if_pos (by omega)]
  · -- The header is still there and announces more bytes than follow.
    have hheader := s.size_packedHeader
    have hbytes : s.pack.extract 0 n =
        s.packedHeader ++ s.data.extract 0 (n - packedHeaderSize) := by
      have hle : s.packedHeader.size ≤ n := by omega
      have hall : s.packedHeader.extract 0 n = s.packedHeader := by
        rw [← Nat.max_eq_left hle, ByteArray.extract_zero_max_size]
      rw [pack_eq, ByteArray.extract_append, hheader, hall, Nat.zero_sub]
    have hlen : (read (s.pack.extract 0 n) 22 8).toNat = s.data.size := by
      rw [hbytes]
      exact (s.read_packedHeader hsize _).2.2.2.2
    rw [unpack?, if_neg (by omega), hlen, if_pos (by omega)]

/-- The bytes in full: five fields of fixed widths, little-endian and without padding. -/
def packedBytes (version way level uniqueCount : Nat) (data : ByteArray) : ByteArray :=
  encode 2 version ++ encode 8 way ++ encode 4 level ++ encode 8 uniqueCount ++
    encode 8 data.size ++ data

theorem readPacked_pack_append (s : Snapshot) (hsize : s.data.size < 2 ^ 64)
    (extra : ByteArray) : readPacked (s.pack ++ extra) = .ok s := by
  rw [readPacked, s.unpack?_pack_append hsize]

theorem readPacked_extract (s : Snapshot) (hsize : s.data.size < 2 ^ 64) (n : Nat)
    (hn : n < s.pack.size) : readPacked (s.pack.extract 0 n) = .error .malformed := by
  rw [readPacked, s.unpack?_extract hsize n hn]

end Snapshot

structure Packs {way : Nat} (bytes : ByteArray) (fixed : FixedFilter way) (any : AnyFilter)
    (shared : SharedFilter) : Prop where
  place_eq : AnyFilter.ofFixed? fixed = some any
  wrap_eq : shared = .ofAny any
  layout_eq : bytes = Snapshot.packedBytes 1 way (KeyFilter.geometry any).pageLevel
    (KeyFilter.uniqueCount any).toNat (StoredFilter.data any)
  size_eq : bytes.size = 30 + (StoredFilter.data any).size
  any_eq (extra : ByteArray) : AnyFilter.unpack (bytes ++ extra) = .ok any
  shared_eq (extra : ByteArray) : SharedFilter.unpack (bytes ++ extra) = .ok shared
  fixed_eq (extra : ByteArray) : FixedFilter.unpack way (bytes ++ extra) = .ok fixed
  short (n : Nat) : n < bytes.size →
    AnyFilter.unpack (bytes.extract 0 n) = .error .malformed ∧
      SharedFilter.unpack (bytes.extract 0 n) = .error .malformed ∧
      ∀ v, FixedFilter.unpack v (bytes.extract 0 n) = .error .malformed

theorem AnyFilter.packs {f : AnyFilter} (h : WellFormed f) :
    Packs (Snapshot.ofBits f.way f.bits).pack (⟨f.bits⟩ : FixedFilter f.way) f (.ofAny f) := by
  have hbits : f.bits.WellFormed f.way := f.wellFormed_iff.mp h
  have hsize : (Snapshot.ofBits f.way f.bits).data.size < 2 ^ 64 :=
    Nat.lt_trans hbits.size_lt (by decide)
  have hread := Snapshot.readPacked_pack_append _ hsize
  have hshort := Snapshot.readPacked_extract _ hsize
  have hany (extra : ByteArray) :
      AnyFilter.unpack ((Snapshot.ofBits f.way f.bits).pack ++ extra) = .ok f := by
    rw [AnyFilter.unpack, hread, ok_bind, Snapshot.toAny_eq_ok h]
    rfl
  refine ⟨?_, rfl, ?_, ?_, hany, ?_, ?_, ?_⟩
  · cases f <;> rfl
  · rw [Snapshot.pack, Snapshot.toNat_way_ofBits hbits, Snapshot.toNat_pageLevel_ofBits hbits,
      h.geometry_eq, PagedView.uniqueCount_eq, StoredView.data_eq]
    rfl
  · rw [Snapshot.size_pack, StoredView.data_eq]
    rfl
  · intro extra
    rw [SharedFilter.unpack, hany]
    rfl
  · intro extra
    rw [FixedFilter.unpack, hread, ok_bind, (Snapshot.toFixed_ofBits hbits).1]
    rfl
  · intro n hn
    have hmalformed := hshort n hn
    refine ⟨?_, ?_, ?_⟩
    · rw [AnyFilter.unpack, hmalformed]
      rfl
    · rw [SharedFilter.unpack, AnyFilter.unpack, hmalformed]
      rfl
    · intro v
      rw [FixedFilter.unpack, hmalformed]
      rfl

/-- A well-formed filter of any kind is written in the format, and is restored in each kind from its
bytes, whatever stands behind them, but not from a part of them. -/
theorem packed_round_trip :
    (∀ (way : Nat) (fixed : FixedFilter way), WellFormed fixed →
      ∃ any, Packs fixed.pack fixed any (.ofAny any)) ∧
    (∀ any : AnyFilter, WellFormed any →
      Packs any.pack (⟨any.bits⟩ : FixedFilter any.way) any (.ofAny any)) ∧
    (∀ shared : SharedFilter, WellFormed shared →
      Packs shared.pack (⟨shared.inner.bits⟩ : FixedFilter shared.inner.way) shared.inner
        shared) := by
  refine ⟨?_, ?_, ?_⟩
  · intro way fixed h
    obtain ⟨any, -, hany, rfl, hbits⟩ := AnyFilter.ofFixed?_total h
    obtain ⟨b⟩ := fixed
    cases hbits
    refine ⟨any, ?_⟩
    rw [FixedFilter.pack, Snapshot.ofFilter_eq h]
    exact AnyFilter.packs hany
  · intro any h
    rw [AnyFilter.pack, Snapshot.ofFilter_eq h]
    exact AnyFilter.packs h
  · intro shared h
    have hinner : WellFormed shared.inner := shared.inner.wellFormed_iff.mpr h.bits_wellFormed
    have hpacks := AnyFilter.packs hinner
    rw [← SharedFilter.eq_ofAny h] at hpacks
    rw [SharedFilter.pack, Snapshot.ofShared_eq h]
    exact hpacks

theorem packed_round_trip_three_pages :
    let data := markBits (zeros 192) [5, 700]
    let fixed : FixedFilter 4 := ⟨⟨data, 6, ⟨0x5555555555555556, 3⟩, 0xffffffffffffffff⟩⟩
    let any : AnyFilter := .way4 fixed
    WellFormed fixed ∧ fixed.pack.size = 222 ∧
      AnyFilter.unpack (fixed.pack ++ ⟨#[9]⟩) = .ok any ∧
      SharedFilter.unpack (fixed.pack ++ ⟨#[9]⟩) = .ok (.ofAny any) ∧
      FixedFilter.unpack 4 (fixed.pack ++ ⟨#[9]⟩) = .ok fixed ∧
      AnyFilter.unpack (fixed.pack.extract 0 221) = .error .malformed := by
  intro data fixed any
  have hsize : data.size = 192 := (size_markBits _ _).trans (size_zeros 192)
  -- From here on the buffer matters by its size only.
  clear_value data
  have hwell : WellFormed fixed :=
    fixed.wellFormed_iff.mpr (PagedBits.wellFormed_three_pages data hsize _)
  obtain ⟨made, hpacks⟩ := packed_round_trip.1 4 fixed hwell
  obtain rfl : any = made := Option.some.inj hpacks.place_eq
  have hdata : StoredFilter.data any = data := rfl
  have hlen : fixed.pack.size = 222 := by rw [hpacks.size_eq, hdata, hsize]
  refine ⟨hwell, hlen, hpacks.any_eq _, hpacks.shared_eq _, hpacks.fixed_eq _, ?_⟩
  exact (hpacks.short 221 (by omega)).1

end PagedFilter
