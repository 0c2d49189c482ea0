import PagedFilter.Proofs.Session.Rebuilding
/-! A filter that is cleared is the one that would be made anew of its geometry. -/
namespace PagedFilter

open PagedView (WellFormed way bits withBits)

namespace PagedBits
variable {b : PagedBits}

theorem WellFormed.create_eq_clear {way : Nat} (h : b.WellFormed way) :
    create way b.pageLevel b.pageNum = .ok b.clear := by
  obtain ⟨new, hmade⟩ := create_of_valid (⟨h.fits, h.pageNum_ne⟩ :
    (⟨way, b.pageLevel, b.pageNum⟩ : Geometry).Valid)
  obtain ⟨hnew, hlevel, -, hdata, hcount⟩ := (delivers_create _ _ _).of_eq_ok hmade
  have hclear : b.clear.Whole := (SamePages.clear b).whole h.toWhole
  have hzeros : new.data = b.clear.data := by
    rw [hdata, clear, h.size_data]
  rw [hmade, hnew.toWhole.eq_of_exported hclear hlevel hcount hzeros]

theorem covers_clear {way : Nat} (hway : 1 ≤ way) (b : PagedBits) (key : ByteArray) :
    b.clear.covers way key = false := by
  have hlength : 0 < (b.clear.probePositions way key).length := by
    simp [probePositions]
    omega
  obtain ⟨j, hj⟩ := List.exists_mem_of_length_pos hlength
  rw [covers, List.all_eq_false]
  exact ⟨j, hj, by simp [clear]⟩

theorem Whole.test_clear (h : b.Whole) {way : Nat} (hpos : 1 ≤ way) (hle : way ≤ 8)
    (key : ByteArray) : b.clear.test way key = .ok false := by
  rw [((SamePages.clear b).whole h).test_eq hle, covers_clear hpos]

theorem Whole.set_clear (h : b.Whole) {way : Nat} (hpos : 1 ≤ way) (hle : way ≤ 8)
    (key : ByteArray) : b.clear.set way key = .ok (true, b.clear.inserted way key) := by
  have hroom : b.clear.uniqueCount ≠ 0xffffffffffffffff :=
    (by decide : (0 : UInt64) ≠ 0xffffffffffffffff)
  rw [((SamePages.clear b).whole h).set_eq hle, covers_clear hpos, if_neg Bool.false_ne_true,
    if_neg hroom]

end PagedBits

/-- Nothing is found in the filter, every key is new to it, and no run of operations fails on it. -/
structure Blank {F : Type} [KeyFilter F] (f : F) : Prop where
  isEmpty_eq : KeyFilter.isEmpty f = true
  test_eq (key : ByteArray) : KeyFilter.test f key = .ok false
  set_new (key : ByteArray) : ∃ after, KeyFilter.set f key = .ok (true, after)
  run_total (ops : List Operation) : ∃ answers after, KeyFilter.run f ops = .ok (answers, after)

section
variable {F : Type} [KeyFilter F] [PagedView F] {f : F}

theorem PagedView.WellFormed.of_clear (h : WellFormed f) : WellFormed (KeyFilter.clear f) := by
  rw [PagedView.clear_eq]
  exact h.of_samePages (.clear _)

theorem PagedView.bits_clear (f : F) : bits (KeyFilter.clear f) = (bits f).clear := by
  rw [PagedView.clear_eq, PagedView.bits_withBits]

theorem PagedView.way_clear (f : F) : way (KeyFilter.clear f) = way f := by
  rw [PagedView.clear_eq, PagedView.way_withBits]

theorem PagedView.WellFormed.blank_clear (h : WellFormed f) : Blank (KeyFilter.clear f) := by
  have hpos : 1 ≤ way f := Nat.le_trans (by decide) h.bits_wellFormed.fits.1.1
  refine ⟨?_, ?_, ?_, ?_⟩
  · rw [KeyFilter.isEmpty, PagedView.uniqueCount_eq, PagedView.bits_clear]
    rfl
  · intro key
    rw [PagedView.test_eq, PagedView.bits_clear, PagedView.way_clear,
      h.whole.test_clear hpos h.way_le]
  · intro key
    rw [PagedView.set_eq, PagedView.bits_clear, PagedView.way_clear,
      h.whole.set_clear hpos h.way_le]
    exact ⟨_, rfl⟩
  · intro ops
    have hcounted : (bits (KeyFilter.clear f)).Counted := by
      rw [PagedView.bits_clear]
      exact PagedBits.counted_of_eq_zero rfl
    obtain ⟨answers, after, hrun⟩ :=
      h.of_clear.whole.applyAll_of_counted h.of_clear.way_le hcounted ops
    refine ⟨answers, withBits (KeyFilter.clear f) after, ?_⟩
    rw [h.of_clear.run_eq, hrun]
    rfl

end

namespace Form
variable {f g : Form}

theorem kind_clear (f : Form) : (KeyFilter.clear f).kind = f.kind := by
  cases f <;> rfl

theorem create_geometry (h : WellFormed f) (kind : FormKind) :
    create (KeyFilter.geometry f) kind = ofBits f.way kind f.bits.clear := by
  have hbits : f.bits.WellFormed f.way := h.bits_wellFormed
  rw [geometry_of_wellFormed h, create_eq, hbits.create_eq_clear, ok_bind]

/-- A cleared form is the one that is made anew of its geometry, in its own kind. -/
theorem create_kind (h : WellFormed f) :
    create (KeyFilter.geometry f) f.kind = .ok (KeyFilter.clear f) := by
  have hplace := ofBits_kind h.of_clear
  have hclear : (KeyFilter.clear f).bits = f.bits.clear := PagedView.bits_clear f
  have hway : (KeyFilter.clear f).way = f.way := PagedView.way_clear f
  rw [hclear, hway, kind_clear] at hplace
  rw [create_geometry h, hplace]

theorem create_runAlike (h : WellFormed f) (kind : FormKind) :
    ∃ new, create (KeyFilter.geometry f) kind = .ok new ∧ RunAlike (KeyFilter.clear f) new := by
  have hbits : f.bits.WellFormed f.way := h.bits_wellFormed
  obtain ⟨new, hplace, hnew⟩ := ofBits_total ((PagedBits.SamePages.clear _).wellFormed hbits) kind
  refine ⟨new, ?_, h.of_clear.runAlike hnew.wellFormed ?_ ?_⟩
  · rw [create_geometry h, hplace]
  · rw [PagedView.way_clear]
    exact hnew.way_eq.symm
  · rw [PagedView.bits_clear]
    exact hnew.bits_eq.symm

theorem runAlike_clear (hf : WellFormed f) (hg : WellFormed g)
    (hgeometry : KeyFilter.geometry f = KeyFilter.geometry g) :
    RunAlike (KeyFilter.clear f) (KeyFilter.clear g) := by
  have hnew := hf.bits_wellFormed.create_eq_clear
  have hnew' := hg.bits_wellFormed.create_eq_clear
  rw [hf.geometry_eq, hg.geometry_eq] at hgeometry
  obtain ⟨hway, hlevel, hnum⟩ := Geometry.mk.inj hgeometry
  rw [hway, hlevel, hnum, hnew'] at hnew
  apply hf.of_clear.runAlike hg.of_clear
  · rw [PagedView.way_clear, PagedView.way_clear, hway]
  · rw [PagedView.bits_clear, PagedView.bits_clear, Except.ok.inj hnew]

end Form

/-- Reachable bits and reachable filters of every front end are after a clear what is made anew of
their geometry, go on as new filters do, and two that have one geometry go on alike. -/
theorem clearing_renews :
    (∀ (way : Nat) (b : PagedBits), PagedBits.Reachable way b →
      PagedBits.create way b.pageLevel b.pageNum = .ok b.clear ∧
      (∀ probes key, 1 ≤ probes → probes ≤ 8 → b.clear.test probes key = .ok false ∧
        ∃ after, b.clear.set probes key = .ok (true, after)) ∧
      ∀ probes steps, probes ≤ 8 → ∃ answers after, b.clear.run probes steps = .ok (answers, after)) ∧
    (∀ f : Form, Form.Reachable f →
      Form.create (KeyFilter.geometry f) f.kind = .ok (KeyFilter.clear f) ∧
      Blank (KeyFilter.clear f) ∧
      ∀ kind, ∃ new, Form.create (KeyFilter.geometry f) kind = .ok new ∧
        RunAlike (KeyFilter.clear f) new) ∧
    (∀ f : SharedFilter, Form.Reachable (.shared f) →
      ∃ new, AnyFilter.create (KeyFilter.geometry f) = .ok new ∧
        KeyFilter.clear (FilterHandle.mk f) = ⟨.ofAny new⟩ ∧
        Blank (KeyFilter.clear (FilterHandle.mk f))) ∧
    (∀ f g : Form, Form.Reachable f → Form.Reachable g →
      KeyFilter.geometry f = KeyFilter.geometry g →
      RunAlike (KeyFilter.clear f) (KeyFilter.clear g)) := by
  refine ⟨?_, ?_, ?_, ?_⟩
  · intro way b hb
    have hwell := PagedBits.reachable_iff.mp hb
    refine ⟨hwell.create_eq_clear, ?_, ?_⟩
    · exact fun probes key hpos hle =>
        ⟨hwell.test_clear hpos hle key, _, hwell.set_clear hpos hle key⟩
    · intro probes steps hle
      obtain ⟨answers, after, hrun, -⟩ := ((PagedBits.SamePages.clear b).whole
        hwell.toWhole).run_of_counted hle (PagedBits.counted_of_eq_zero rfl) steps
      exact ⟨answers, after, hrun⟩
  · intro f hreach
    have hf := Form.reachable_iff.mp hreach
    exact ⟨Form.create_kind hf, hf.blank_clear, Form.create_runAlike hf⟩
  · intro f hreach
    have hform := Form.reachable_iff.mp hreach
    have hf : WellFormed f := ⟨hform.bits_wellFormed, hform.geometry_eq⟩
    have hhandle : WellFormed (FilterHandle.mk f) := ⟨hf.bits_wellFormed, hf.geometry_eq⟩
    obtain ⟨new, hmade, hnew⟩ := bind_eq_ok.mp (Form.create_kind hform)
    have hclear : KeyFilter.clear f = .ofAny new := Form.shared.inj (Except.ok.inj hnew).symm
    exact ⟨new, hmade, congrArg FilterHandle.mk hclear, hhandle.blank_clear⟩
  · exact fun f g hf hg =>
      Form.runAlike_clear (Form.reachable_iff.mp hf) (Form.reachable_iff.mp hg)

theorem clearing_renews_three_pages :
    let data := markBits (zeros 192) [5, 700]
    let b : PagedBits := ⟨data, 6, ⟨0x5555555555555556, 3⟩, 0xffffffffffffffff⟩
    let f : Form := .any (.way4 ⟨b⟩)
    PagedBits.Reachable 4 b ∧ PagedBits.create 4 6 3 = .ok b.clear ∧
      b.clear.test 1 ⟨#[1]⟩ = .ok false ∧ Form.Reachable f ∧
      Form.create ⟨4, 6, 3⟩ .any = .ok (KeyFilter.clear f) ∧ Blank (KeyFilter.clear f) ∧
      (∃ new, Form.create ⟨4, 6, 3⟩ .shared = .ok new ∧ RunAlike (KeyFilter.clear f) new) := by
  intro data b f
  have hsize : data.size = 192 := (size_markBits _ _).trans (size_zeros 192)
  clear_value data
  have hwell : b.WellFormed 4 := PagedBits.wellFormed_three_pages data hsize _
  have hb : PagedBits.Reachable 4 b := PagedBits.reachable_iff.mpr hwell
  have hf : Form.Reachable f := Form.reachable_iff.mpr ⟨hwell, rfl⟩
  obtain ⟨hbits, hforms, -, -⟩ := clearing_renews
  obtain ⟨hmade, hanswers, -⟩ := hbits 4 b hb
  obtain ⟨hcreate, hblank, hany⟩ := hforms f hf
  exact ⟨hb, hmade, (hanswers 1 _ (by decide) (by decide)).1, hf, hcreate, hblank, hany .shared⟩

end PagedFilter
