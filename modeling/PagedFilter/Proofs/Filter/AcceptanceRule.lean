import PagedFilter.Proofs.Filter.FrontEnds
import PagedFilter.Proofs.Format.Frame
import PagedFilter.Proofs.Format.Snapshot
/-! One acceptance rule for all entry points that are given a geometry or a buffer. -/
namespace PagedFilter

open PagedView (WellFormed)

def Geometry.showing (g : Geometry) (data : ByteArray) (uniqueCount : UInt64) : Shown where
  buffer := data
  uniqueCount := uniqueCount
  geometry := g
  dataLen := data.size
  capacity := .ok (data.size * 8 / g.way)

def Geometry.ShownEmpty (g : Geometry) (s : Shown) : Prop :=
  s = g.showing (zeros (g.pageNum.toNat * 2 ^ g.pageLevel)) 0

def ShownWith (way level : Nat) (data : ByteArray) (uniqueCount : UInt64) (s : Shown) : Prop :=
  ∃ n : UInt32, data.size = n.toNat * 2 ^ level ∧
    s = Geometry.showing ⟨way, level, n⟩ data uniqueCount

/-- An empty filter of the geometry, or the first refusal of the geometry. -/
def Creates {F : Type} (g : Geometry) (look : F → Shown) : Except Failure F → Prop :=
  Answers (fun f => g.ShownEmpty (look f)) (refusalOfGeometry g.way g.pageLevel g.pageNum)

/-- A filter with the buffer and the count, or the first refusal of the buffer. -/
def Rebuilds {F : Type} (way level : Nat) (data : ByteArray) (uniqueCount : UInt64)
    (look : F → Shown) : Except Failure F → Prop :=
  Answers (fun f => ShownWith way level data uniqueCount (look f))
    (refusalOfBuffer way level data.size)

theorem PagedBits.answers_empty (g : Geometry) :
    Answers (fun b => b.WellFormed g.way ∧ g.ShownEmpty (b.shown g.way))
      (refusalOfGeometry g.way g.pageLevel g.pageNum) (create g.way g.pageLevel g.pageNum) := by
  refine (answers_create g.way g.pageLevel g.pageNum).mono ?_
  rintro b ⟨h, hlevel, hpageNum, hdata, hcount⟩
  refine ⟨h, ?_⟩
  rw [Geometry.ShownEmpty, shown, hlevel, hpageNum, hdata, hcount]
  rfl

theorem PagedBits.answers_with (way level : Nat) (data : ByteArray) (uniqueCount : UInt64) :
    Answers (fun b => b.WellFormed way ∧ ShownWith way level data uniqueCount (b.shown way))
      (refusalOfBuffer way level data.size) (ofBytes way level data uniqueCount) := by
  refine (answers_ofBytes way level data uniqueCount).mono ?_
  rintro b ⟨h, rfl, rfl, rfl⟩
  exact ⟨h, b.pageNum, h.size_data, rfl⟩

section
variable {way : Nat} {P : Shown → Prop} {r : Option Refusal}

theorem FixedFilter.answers_of_bits {x : Except Failure PagedBits}
    (h : Answers (fun b => b.WellFormed way ∧ P (b.shown way)) r x) :
    Answers (fun f : FixedFilter way => P (shown f)) r (do return ⟨← x⟩) := by
  refine h.bind_ok ?_
  rintro b ⟨hb, hshown⟩
  have hf : WellFormed (⟨b⟩ : FixedFilter way) := (FixedFilter.wellFormed_iff _).mpr hb
  refine ⟨⟨b⟩, rfl, ?_⟩
  rw [hf.shown_eq]
  exact hshown

theorem AnyFilter.answers_of_bits {x : Except Failure PagedBits}
    (h : Answers (fun b => b.WellFormed way ∧ P (b.shown way)) r x) :
    Answers (fun f => WellFormed f ∧ P (shown f)) r (x >>= ofBits way) := by
  refine h.bind_ok ?_
  rintro b ⟨hb, hshown⟩
  obtain ⟨f, hmade, hf, rfl, rfl⟩ := ofBits_total hb
  refine ⟨f, hmade, hf, ?_⟩
  rw [hf.shown_eq]
  exact hshown

theorem SharedFilter.answers_ofAny {x : Except Failure AnyFilter}
    (h : Answers (fun f => WellFormed f ∧ P (shown f)) r x) :
    Answers (fun f => P (shown f)) r (do return ofAny (← x)) := by
  refine h.bind_ok ?_
  rintro f ⟨hf, hshown⟩
  refine ⟨ofAny f, rfl, ?_⟩
  rw [hf.shown_eq] at hshown
  rw [(wellFormed_ofAny hf).shown_eq]
  exact hshown

end

structure CreatesAlike (g : Geometry) : Prop where
  geometry : Answers (· = g) (refusalOfGeometry g.way g.pageLevel g.pageNum)
    (Geometry.create g.way g.pageLevel g.pageNum)
  check : Answers (fun _ => True) (refusalOfGeometry g.way g.pageLevel g.pageNum) g.check
  bits : Creates g (PagedBits.shown g.way) (PagedBits.create g.way g.pageLevel g.pageNum)
  fixed : Creates g shown (FixedFilter.create g.way g.pageLevel g.pageNum)
  any : Creates g shown (AnyFilter.create g)

structure RebuildsAlike (way level : Nat) (data : ByteArray) (uniqueCount : UInt64) : Prop where
  accepted_iff : refusalOfBuffer way level data.size = none ↔
    ∃ n : UInt32, data.size = n.toNat * 2 ^ level ∧
      Geometry.create way level n = .ok ⟨way, level, n⟩
  bits : Rebuilds way level data uniqueCount (PagedBits.shown way)
    (PagedBits.ofBytes way level data uniqueCount)
  fixed : Rebuilds way level data uniqueCount shown
    (FixedFilter.ofBytes way level data uniqueCount)
  any : Rebuilds way level data uniqueCount shown (AnyFilter.ofBytes way level data uniqueCount)
  shared : Rebuilds way level data uniqueCount shown
    (SharedFilter.ofBytes way level data uniqueCount)
  snapshot (s : Snapshot) : s.version = 1 → s.way.toNat = way → s.pageLevel.toNat = level →
    s.data = data → s.uniqueCount = uniqueCount →
    Rebuilds way level data uniqueCount shown s.toAny ∧
      Rebuilds way level data uniqueCount shown (s.toFixed way)
  frame (h : Frame.Header) : h.version = 1 → h.way = way → h.pageLevel = level →
    h.uniqueCount = uniqueCount → h.dataLen.toNat = data.size → way ≤ 255 → level ≤ 255 →
    Rebuilds way level data uniqueCount shown (Frame.decode (h.bytes ++ data))

theorem Geometry.createsAlike (g : Geometry) : CreatesAlike g := by
  have hbits := PagedBits.answers_empty g
  refine ⟨?_, ?_, hbits.mono fun _ h => h.2, FixedFilter.answers_of_bits hbits, ?_⟩
  · exact (answers_create g.way g.pageLevel g.pageNum).mono fun _ h => h.1
  · exact g.answers_check.mono fun _ _ => trivial
  · rw [Creates, AnyFilter.create_eq]
    exact (AnyFilter.answers_of_bits hbits).mono fun _ h => h.2

theorem refusalOfBuffer_eq_none_iff_create (way level size : Nat) :
    refusalOfBuffer way level size = none ↔
      ∃ n : UInt32, size = n.toNat * 2 ^ level ∧
        Geometry.create way level n = .ok ⟨way, level, n⟩ := by
  have hcreate (n : UInt32) : Geometry.create way level n = .ok ⟨way, level, n⟩ ↔
      refusalOfGeometry way level n = none :=
    (Geometry.createsAlike ⟨way, level, n⟩).geometry.eq_ok_iff
  simp only [refusalOfBuffer_eq_none_iff, hcreate]

theorem rebuildsAlike (way level : Nat) (data : ByteArray) (uniqueCount : UInt64) :
    RebuildsAlike way level data uniqueCount := by
  have hbits := PagedBits.answers_with way level data uniqueCount
  have hfixed := FixedFilter.answers_of_bits hbits
  have hany := AnyFilter.answers_of_bits hbits
  rw [← AnyFilter.ofBytes_eq] at hany
  have hrebuilt : Rebuilds way level data uniqueCount shown
      (AnyFilter.ofBytes way level data uniqueCount) := hany.mono fun _ h => h.2
  refine ⟨refusalOfBuffer_eq_none_iff_create way level data.size, hbits.mono fun _ h => h.2,
    hfixed, hrebuilt, SharedFilter.answers_ofAny hany, ?_, ?_⟩
  · rintro s hversion rfl rfl rfl rfl
    rw [Snapshot.toAny_of_version hversion, Snapshot.toFixed_of_version hversion,
      if_pos rfl]
    exact ⟨hrebuilt, hfixed⟩
  · rintro ⟨version, way, level, uniqueCount, dataLen⟩ hversion rfl rfl rfl hlen hway hlevel
    have hwritable : Frame.Header.Writable ⟨version, way, level, uniqueCount, dataLen⟩ :=
      ⟨hversion, Nat.lt_succ_of_le hway, Nat.lt_succ_of_le hlevel⟩
    rw [Frame.decode, Frame.split_eq_ok_iff.mpr ⟨hwritable, hlen, rfl⟩]
    exact hrebuilt

/-- One rule decides at every entry point: which geometries there are, which buffers they take,
what is held then, and what is refused first where something is wrong. -/
theorem acceptance_rule :
    (∀ g : Geometry, CreatesAlike g) ∧
    ∀ way level data uniqueCount, RebuildsAlike way level data uniqueCount :=
  ⟨Geometry.createsAlike, rebuildsAlike⟩

theorem acceptance_rule_three_pages :
    (∃ f : FixedFilter 4, FixedFilter.create 4 6 3 = .ok f ∧
      Geometry.ShownEmpty ⟨4, 6, 3⟩ (shown f)) ∧
    (∃ f, Frame.decode (Frame.Header.bytes ⟨1, 4, 6, 7, 192⟩ ++ zeros 192) = .ok f ∧
      ShownWith 4 6 (zeros 192) 7 (shown f)) ∧
    Frame.decode (Frame.Header.bytes ⟨1, 0, 255, 7, 0⟩ ++ zeros 0) = refuse (.invalidWay 0) ∧
    Snapshot.toAny ⟨1, 8, 6, 7, zeros 192⟩ = refuse (.invalidPageLevel 6 7 13) := by
  have hsize : (zeros 192).size = 192 := size_zeros 192
  have hlen : (192 : UInt64).toNat = (zeros 192).size := by
    rw [hsize]
    rfl
  have hframe := (acceptance_rule.2 4 6 (zeros 192) 7).frame ⟨1, 4, 6, 7, 192⟩ rfl rfl rfl rfl
    hlen (by decide) (by decide)
  have hbad := (acceptance_rule.2 0 255 (zeros 0) 7).frame ⟨1, 0, 255, 7, 0⟩ rfl rfl rfl rfl rfl
    (by decide) (by decide)
  have hsnapshot := (acceptance_rule.2 8 6 (zeros 192) 7).snapshot ⟨1, 8, 6, 7, zeros 192⟩
    rfl rfl rfl rfl rfl
  refine ⟨(acceptance_rule.1 ⟨4, 6, 3⟩).fixed.made (by decide), hframe.made ?_,
    hbad.refused _ (by decide), hsnapshot.1.refused _ ?_⟩
  · rw [hsize]
    decide
  · rw [hsize]
    decide

end PagedFilter
