import PagedFilter.Proofs.Session.Reachable
/-! Fewer probes find all that more probes found. -/
namespace PagedFilter

open PagedView (WellFormed)

theorem minPageLevel_of_le {v w : Nat} (hv : 0 < v) (hle : v ≤ w) :
    ∃ m n, minPageLevel v = .ok m ∧ minPageLevel w = .ok n ∧ m ≤ n := by
  have hdiv : 8 / w ≤ 8 / v := Nat.div_le_div_left hle hv
  refine ⟨8 - 8 / v, 8 - 8 / w, if_neg (by omega), if_neg (by omega), ?_⟩
  omega

theorem LevelFits.of_le {v w level : Nat} (h : LevelFits w level) (hv : minWay ≤ v)
    (hle : v ≤ w) : LevelFits v level := by
  have hpos : 0 < v := Nat.lt_of_lt_of_le (by decide) hv
  have hdiv : 8 / w ≤ 8 / v := Nat.div_le_div_left hle hpos
  have hlevel := h.2.1
  exact ⟨⟨hv, Nat.le_trans hle h.1.2⟩, by omega, h.2.2⟩

theorem PagedBits.WellFormed.of_le {v w : Nat} {bits : PagedBits} (h : bits.WellFormed w)
    (hv : minWay ≤ v) (hle : v ≤ w) : bits.WellFormed v :=
  ⟨h.toWhole, h.fits.of_le hv hle⟩

theorem Form.ofBytes_of_le {f : Form} (h : WellFormed f) {v : Nat} (hv : minWay ≤ v)
    (hle : v ≤ f.way) (kind : FormKind) :
    ∃ g, ofBytes v f.bits.pageLevel f.bits.data f.bits.uniqueCount kind = .ok g ∧
      Carries v f.bits g := by
  have hbits : f.bits.WellFormed v := PagedBits.WellFormed.of_le h.bits_wellFormed hv hle
  obtain ⟨g, hplace, hg⟩ := ofBits_total hbits kind
  refine ⟨g, ?_, hg⟩
  rw [ofBytes_eq, hbits.ofBytes_eq, ok_bind, hplace]

theorem Form.Carries.test_eq {v : Nat} {b : PagedBits} {g : Form} (h : Carries v b g)
    (key : ByteArray) : KeyFilter.test g key = b.test v key := by
  rw [PagedView.test_eq]
  change g.bits.test g.way key = _
  rw [h.bits_eq, h.way_eq]

/-- The second filter answers yes to all that the first does, and to the keys and the items. -/
structure Reads (keys : List ByteArray) (items : List Item) (f g : Form) : Prop where
  accepted (key : ByteArray) : KeyFilter.test f key = .ok true → KeyFilter.test g key = .ok true
  key_found : ∀ key ∈ keys, KeyFilter.test g key = .ok true
  item_found : ∀ item ∈ items, KeyFilter.testItem g item = .ok true

theorem SessionStep.reads_of_run {start f g : Form} (h : WellFormed start)
    {steps : List SessionStep} (hrun : run start steps = .ok f) {v : Nat} (hle : v ≤ f.way)
    (hg : Form.Carries v f.bits g) :
    Reads (recorded Operation.keys steps) (recorded Operation.items steps) f g := by
  have hcovers := covers_of_run (Form.covers_nil h) hrun
  have haccepted (key : ByteArray) (htest : KeyFilter.test f key = .ok true) :
      KeyFilter.test g key = .ok true := by
    rw [PagedView.test_eq] at htest
    rw [hg.test_eq]
    exact PagedBits.test_of_le hle htest
  have hfound : ∀ key ∈ recorded Operation.keys steps, KeyFilter.test g key = .ok true := by
    intro key hkey
    apply haccepted
    rw [hcovers.wellFormed.test_eq key]
    change Except.ok (f.bits.covers f.way key) = _
    rw [hcovers.way_eq, hcovers.covers key hkey]
  refine ⟨haccepted, hfound, ?_⟩
  intro item hitem
  exact hfound _ (key_mem_recorded (List.forall_mem_nil _) steps item hitem)

/-- A key stays found at every lower way, whatever is inserted after it, and a filter rebuilt at a
lower way finds all that was recorded and all that the first filter finds. -/
theorem lower_way_reads :
    (∀ (b : PagedBits) (key : ByteArray) (v w : Nat), v ≤ w →
      b.test w key = .ok true → b.test v key = .ok true) ∧
    (∀ (u : Nat) (b : PagedBits), PagedBits.Reachable u b →
      (∀ key w, w ≤ 8 → ∃ answer, b.test w key = .ok answer) ∧
      (∀ sets, (∀ s ∈ sets, s.1 ≤ 8) → b.uniqueCount.toNat + sets.length < 2 ^ 64 →
        ∃ after, b.setEach sets = .ok after) ∧
      (∀ key v w sets after, v ≤ w → b.setEach ((w, key) :: sets) = .ok after →
        after.test v key = .ok true)) ∧
    (∀ v w, 0 < v → v ≤ w → ∃ m n, minPageLevel v = .ok m ∧ minPageLevel w = .ok n ∧ m ≤ n) ∧
    (∀ (w : Nat) (b : PagedBits), PagedBits.Reachable w b → ∀ v, 4 ≤ v → v ≤ w →
      PagedBits.ofBytes v b.pageLevel b.data b.uniqueCount = .ok b) ∧
    (∀ (start f : Form) (steps : List SessionStep), Form.Reachable start →
      SessionStep.run start steps = .ok f → ∀ v kind, 4 ≤ v → v ≤ (KeyFilter.geometry f).way →
      ∃ g, Form.ofBytes v (KeyFilter.geometry f).pageLevel f.contents.1 f.contents.2 kind = .ok g ∧
        (KeyFilter.geometry g).way = v ∧
        Reads (SessionStep.recorded Operation.keys steps)
          (SessionStep.recorded Operation.items steps) f g) := by
  refine ⟨fun b key v w hle => PagedBits.test_of_le hle, ?_, fun v w => minPageLevel_of_le, ?_, ?_⟩
  · intro u b hb
    have hwhole := (PagedBits.reachable_iff.mp hb).toWhole
    refine ⟨?_, hwhole.setEach_total, fun key v w sets after hle => hwhole.test_of_setEach hle⟩
    exact fun key w hw => ⟨_, hwhole.test_eq hw key⟩
  · intro w b hb v hv hle
    exact ((PagedBits.reachable_iff.mp hb).of_le hv hle).ofBytes_eq
  · intro start f steps hstart hrun v kind hv hle
    have hwell : WellFormed start := Form.reachable_iff.mp hstart
    have hf := (SessionStep.covers_of_run (Form.covers_nil hwell) hrun).wellFormed
    have hgeometry := Form.geometry_of_wellFormed hf
    rw [hgeometry] at hle
    obtain ⟨g, hmade, hg⟩ := Form.ofBytes_of_le hf hv hle kind
    refine ⟨g, ?_, ?_, SessionStep.reads_of_run hwell hrun hle hg⟩
    · rw [hgeometry, f.contents_eq]
      exact hmade
    · rw [hg.wellFormed.geometry_eq]
      exact hg.way_eq

theorem lower_way_reads_three_pages :
    let data := markBits (zeros 384) [5, 700]
    let b : PagedBits := ⟨data, 7, ⟨0x5555555555555556, 3⟩, 0⟩
    let start : Form := .fixed (⟨b⟩ : FixedFilter 8)
    let steps : List SessionStep := [.operate (.set ⟨#[1]⟩), .operate .clear, .reframe,
      .operate (.setBatch [⟨#[2]⟩, ⟨#[3]⟩]), .operate (.setItem (.text "a"))]
    PagedBits.Reachable 8 b ∧ PagedBits.ofBytes 5 7 data 0 = .ok b ∧
      (∃ after, b.setEach [(6, ⟨#[1]⟩), (0, ⟨#[2]⟩), (8, ⟨#[3]⟩)] = .ok after ∧
        after.test 4 ⟨#[1]⟩ = .ok true) ∧
      Form.Reachable start ∧ ∃ f g, SessionStep.run start steps = .ok f ∧
        Form.ofBytes 5 (KeyFilter.geometry f).pageLevel f.contents.1 f.contents.2 .any = .ok g ∧
        KeyFilter.test g ⟨#[3]⟩ = .ok true ∧ KeyFilter.testItem g (.text "a") = .ok true := by
  intro data b start steps
  have hsize : data.size = 384 := (size_markBits _ _).trans (size_zeros 384)
  clear_value data
  have hpages : Reciprocal.of 3 = .ok ⟨0x5555555555555556, 3⟩ := by simp [Reciprocal.of]
  have hwell : b.WellFormed 8 := ⟨⟨(by decide : 7 ≤ maxPageLevel), hpages, hsize⟩,
    (by decide : LevelFits 8 7)⟩
  have hb : PagedBits.Reachable 8 b := PagedBits.reachable_iff.mpr hwell
  have hform : WellFormed start := ⟨hwell, rfl⟩
  have hstart : Form.Reachable start := Form.reachable_iff.mpr hform
  obtain ⟨-, hinsert, -, hbits, hread⟩ := lower_way_reads
  obtain ⟨-, htotal, hfound⟩ := hinsert 8 b hb
  obtain ⟨after, hafter⟩ := htotal [(6, ⟨#[1]⟩), (0, ⟨#[2]⟩), (8, ⟨#[3]⟩)] (by simp)
    (by decide : (0 : UInt64).toNat + 3 < 2 ^ 64)
  have hnew : start.Retains [] := ⟨hform, PagedBits.counted_of_eq_zero rfl, List.forall_mem_nil _⟩
  obtain ⟨f, hrun, hf⟩ := SessionStep.run_retains hnew steps
  have hway : (KeyFilter.geometry f).way = 8 := by
    rw [hf.wellFormed.geometry_eq]
    exact (SessionStep.covers_of_run (Form.covers_nil hform) hrun).way_eq
  obtain ⟨g, hmade, -, hg⟩ := hread start f steps hstart hrun 5 .any (by decide) (by omega)
  refine ⟨hb, hbits 8 b hb 5 (by decide) (by decide), ⟨after, hafter, ?_⟩, hstart, f, g, hrun,
    hmade, hg.key_found _ ?_, hg.item_found _ ?_⟩
  · exact hfound _ 4 6 _ after (by decide) hafter
  · exact List.mem_append_left _ (List.mem_cons_of_mem _ List.mem_cons_self)
  · exact List.mem_cons_self

end PagedFilter
