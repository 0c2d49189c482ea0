import PagedFilter.Proofs.Session.Retention
namespace PagedFilter

open PagedView (WellFormed way bits withBits)

namespace PagedView
variable {F : Type} [KeyFilter F] [PagedView F]

def Inserts (keys : List ByteArray) (n : Nat) (f g : F) : Prop :=
  ∃ after, g = withBits f after ∧ PagedBits.Inserts (way f) keys n (bits f) after

theorem WellFormed.inserts_of_countNew {f g : F} (h : WellFormed f) {keys : List ByteArray}
    {n : Nat} (hrun : countNew KeyFilter.set f keys = .ok (n, g)) : Inserts keys n f g := by
  rw [countNew_eq] at hrun
  obtain ⟨⟨n, after⟩, hbits, heq⟩ := map_eq_ok.mp hrun
  cases heq
  exact ⟨after, rfl, h.whole.inserts_of_countNew h.way_le hbits⟩

theorem WellFormed.countNew_of_lt {f : F} (h : WellFormed f) (keys : List ByteArray)
    (hcount : (KeyFilter.uniqueCount f).toNat + keys.length < 2 ^ 64) :
    ∃ n g, countNew KeyFilter.set f keys = .ok (n, g) ∧ Inserts keys n f g := by
  rw [uniqueCount_eq] at hcount
  obtain ⟨n, after, hrun, hinserts⟩ := h.whole.countNew_of_lt h.way_le keys hcount
  refine ⟨n, withBits f after, ?_, after, rfl, hinserts⟩
  rw [countNew_eq, hrun]
  rfl

/-- The set bits are those from before and the probe positions of the keys, and a key tests
positive where all its own positions are among these. -/
structure Holds (keys : List ByteArray) (f g : F) : Prop where
  size_eq : (bits g).data.size = (bits f).data.size
  bit_iff (j : Nat) : bitAt (bits g).data j = true ↔ bitAt (bits f).data j = true ∨
    ∃ key ∈ keys, j ∈ (bits f).probePositions (way f) key
  test_iff (key : ByteArray) : ∃ answer, KeyFilter.test g key = .ok answer ∧
    (answer = true ↔ ∀ j ∈ (bits f).probePositions (way f) key,
      bitAt (bits f).data j = true ∨ ∃ other ∈ keys, j ∈ (bits f).probePositions (way f) other)

theorem Inserts.wellFormed {keys : List ByteArray} {n : Nat} {f g : F}
    (hfg : Inserts keys n f g) (h : WellFormed f) : WellFormed g := by
  obtain ⟨after, rfl, hinserts⟩ := hfg
  exact h.of_samePages hinserts.pages

theorem Inserts.holds {keys : List ByteArray} {n : Nat} {f g : F} (hfg : Inserts keys n f g)
    (h : WellFormed f) : Holds keys f g := by
  have hg := hfg.wellFormed h
  obtain ⟨after, rfl, hinserts⟩ := hfg
  refine ⟨?_, ?_, ?_⟩
  · rw [bits_withBits]
    exact hinserts.pages.size_eq
  · intro j
    rw [bits_withBits]
    exact hinserts.bitAt_eq h.whole j
  · intro key
    refine ⟨_, hg.test_eq key, ?_⟩
    rw [bits_withBits, way_withBits]
    exact hinserts.covers_iff h.whole key

/-- Neither the order of the keys nor their repetition shows in the content. -/
theorem Holds.congr {xs ys : List ByteArray} {f a b : F} (ha : Holds xs f a) (hb : Holds ys f b)
    (hkeys : ∀ key, key ∈ xs ↔ key ∈ ys) :
    (bits a).data = (bits b).data ∧ ∀ key, KeyFilter.test a key = KeyFilter.test b key := by
  have hunion (j : Nat) : (∃ key ∈ xs, j ∈ (bits f).probePositions (way f) key) ↔
      ∃ key ∈ ys, j ∈ (bits f).probePositions (way f) key :=
    exists_congr fun key => and_congr_left fun _ => hkeys key
  constructor
  · apply buffer_ext _ _ (ha.size_eq.trans hb.size_eq.symm)
    intro j
    apply Bool.eq_iff_iff.mpr
    rw [ha.bit_iff j, hb.bit_iff j, hunion j]
  · intro key
    obtain ⟨first, htest, hfirst⟩ := ha.test_iff key
    obtain ⟨second, htest', hsecond⟩ := hb.test_iff key
    have hanswer : first = second := by
      apply Bool.eq_iff_iff.mpr
      rw [hfirst, hsecond]
      exact forall₂_congr fun j _ => or_congr_right (hunion j)
    rw [htest, htest', hanswer]

/-- What two runs on a clear buffer set, they set together one after the other. -/
theorem Holds.orBytes_eq {xs ys : List ByteArray} {f a b c : F} (ha : Holds xs f a)
    (hb : Holds ys f b) (hc : Holds (xs ++ ys) f c)
    (hclear : ∀ j, bitAt (bits f).data j = false) :
    (bits c).data = orBytes (bits a).data (bits b).data := by
  have hsize : (bits a).data.size = (bits b).data.size := ha.size_eq.trans hb.size_eq.symm
  have hor : (orBytes (bits a).data (bits b).data).size = (bits f).data.size := by
    rw [size_orBytes, ha.size_eq, hb.size_eq, Nat.min_self]
  apply buffer_ext _ _ (hc.size_eq.trans hor.symm)
  intro j
  apply Bool.eq_iff_iff.mpr
  rw [bitAt_orBytes _ _ hsize, Bool.or_eq_true, ha.bit_iff j, hb.bit_iff j, hc.bit_iff j, hclear j]
  simp only [Bool.false_eq_true, false_or, List.mem_append, or_and_right, exists_or]

end PagedView

namespace SessionStep
variable {f g : Form}

theorem bits_of_apply (h : WellFormed f) {step : SessionStep} (hstep : step ≠ operate .clear)
    (happly : step.apply f = .ok g) :
    WellFormed g ∧ ∀ j, bitAt f.bits.data j = true → bitAt g.bits.data j = true := by
  by_cases hop : ∃ op, step = operate op
  · obtain ⟨op, rfl⟩ := hop
    have hne : op ≠ .clear := fun heq => hstep (congrArg operate heq)
    obtain ⟨⟨answer, next⟩, hrun, heq⟩ := bind_eq_ok.mp happly
    cases heq
    obtain ⟨n, after, rfl, hinserts⟩ := h.inserts_of_apply hne (lift_eq_ok.mp hrun)
    have hbits : (f.withBits after).bits = after := PagedView.bits_withBits f after
    refine ⟨h.of_samePages hinserts.pages, ?_⟩
    intro j hj
    change bitAt (f.withBits after).bits.data j = true
    rw [hbits]
    exact (hinserts.bitAt_eq h.whole j).mpr (Or.inl hj)
  · have hne : ∀ op, step ≠ operate op := fun op heq => hop ⟨op, heq⟩
    obtain ⟨made, hmade, hcarries⟩ := apply_carries h hne
    rw [happly] at hmade
    cases hmade
    refine ⟨hcarries.wellFormed, ?_⟩
    rw [hcarries.bits_eq]
    exact fun _ hj => hj

theorem bits_of_run (h : WellFormed f) {steps : List SessionStep}
    (hsteps : operate .clear ∉ steps) (hrun : run f steps = .ok g) :
    WellFormed g ∧ ∀ j, bitAt f.bits.data j = true → bitAt g.bits.data j = true := by
  induction steps generalizing f with
  | nil =>
    cases hrun
    exact ⟨h, fun _ hj => hj⟩
  | cons step steps ih =>
    rw [List.mem_cons, not_or] at hsteps
    rw [run, List.foldlM_cons] at hrun
    obtain ⟨next, happly, hnextrun⟩ := bind_eq_ok.mp hrun
    obtain ⟨hnext, hkept⟩ := bits_of_apply h (Ne.symm hsteps.1) happly
    obtain ⟨hg, hrest⟩ := ih hnext hsteps.2 hnextrun
    exact ⟨hg, fun j hj => hrest j (hkept j hj)⟩

end SessionStep

/-- A run of insertions sets just the probe positions of its keys. The order and the repetition of
keys do not show, runs on a clear buffer join by disjunction, and only `clear` turns a bit off. -/
theorem content_exact :
    (∀ g kind f, Form.create g kind = .ok f →
      WellFormed f ∧ f.way = g.way ∧ f.bits.uniqueCount = 0 ∧ ∀ j, bitAt f.bits.data j = false) ∧
    (∀ way level data uniqueCount kind f, Form.ofBytes way level data uniqueCount kind = .ok f →
      WellFormed f ∧ f.way = way ∧ f.bits.uniqueCount = uniqueCount ∧ f.bits.data = data) ∧
    (∀ (F : Type) [KeyFilter F] [PagedView F] (f : F), WellFormed f →
      (∀ keys, (KeyFilter.uniqueCount f).toNat + keys.length < 2 ^ 64 →
        ∃ n g, countNew KeyFilter.set f keys = .ok (n, g) ∧ PagedView.Holds keys f g) ∧
      (∀ xs ys n m a b, countNew KeyFilter.set f xs = .ok (n, a) →
        countNew KeyFilter.set f ys = .ok (m, b) → (∀ key, key ∈ xs ↔ key ∈ ys) →
        (bits a).data = (bits b).data ∧ ∀ key, KeyFilter.test a key = KeyFilter.test b key) ∧
      (∀ xs ys n m k a b c, countNew KeyFilter.set f xs = .ok (n, a) →
        countNew KeyFilter.set f ys = .ok (m, b) →
        countNew KeyFilter.set f (xs ++ ys) = .ok (k, c) →
        (∀ j, bitAt (bits f).data j = false) →
        (bits c).data = orBytes (bits a).data (bits b).data)) ∧
    (∀ (f g : Form) (steps : List SessionStep), WellFormed f → .operate .clear ∉ steps →
      SessionStep.run f steps = .ok g → ∀ j, bitAt f.bits.data j = true →
      bitAt g.bits.data j = true) := by
  refine ⟨?_, ?_, ?_, ?_⟩
  · intro g kind f hcreate
    obtain ⟨b, hb, hcarries⟩ := Form.carries_of_create hcreate
    obtain ⟨-, -, -, hdata, hcount⟩ := (PagedBits.delivers_create _ _ _).of_eq_ok hb
    refine ⟨hcarries.wellFormed, hcarries.way_eq, ?_, ?_⟩
    · rw [hcarries.bits_eq, hcount]
    · intro j
      rw [hcarries.bits_eq, hdata, bitAt_zeros]
  · intro way level data uniqueCount kind f hmade
    obtain ⟨b, hb, hcarries⟩ := Form.carries_of_ofBytes hmade
    obtain ⟨-, -, hdata, hcount⟩ := PagedBits.ofBytes_eq_ok_iff.mp hb
    refine ⟨hcarries.wellFormed, hcarries.way_eq, ?_, ?_⟩
    · rw [hcarries.bits_eq, hcount]
    · rw [hcarries.bits_eq, hdata]
  · intro F _ _ f h
    have hholds {keys n g} (hrun : countNew KeyFilter.set f keys = .ok (n, g)) :
        PagedView.Holds keys f g := (h.inserts_of_countNew hrun).holds h
    refine ⟨?_, ?_, ?_⟩
    · intro keys hcount
      obtain ⟨n, g, hrun, -⟩ := h.countNew_of_lt keys hcount
      exact ⟨n, g, hrun, hholds hrun⟩
    · intro xs ys n m a b hxs hys hkeys
      exact (hholds hxs).congr (hholds hys) hkeys
    · intro xs ys n m k a b c hxs hys hall hclear
      exact (hholds hxs).orBytes_eq (hholds hys) (hholds hall) hclear
  · intro f g steps h hsteps hrun
    exact (SessionStep.bits_of_run h hsteps hrun).2

theorem content_exact_three_pages :
    let f : FixedFilter 4 := ⟨⟨zeros 192, 6, ⟨0x5555555555555556, 3⟩, 7⟩⟩
    let xs : List ByteArray := [⟨#[1]⟩, ⟨#[2]⟩]
    let ys : List ByteArray := [⟨#[2]⟩, ⟨#[1]⟩, ⟨#[2]⟩]
    WellFormed f ∧ ∃ n m a b, countNew KeyFilter.set f xs = .ok (n, a) ∧
      countNew KeyFilter.set f ys = .ok (m, b) ∧ PagedView.Holds xs f a ∧
      (bits a).data = (bits b).data := by
  intro f xs ys
  have hpages : Reciprocal.of 3 = .ok ⟨0x5555555555555556, 3⟩ := by simp [Reciprocal.of]
  have hbits : f.bits.WellFormed 4 := ⟨⟨by decide, hpages, size_zeros 192⟩, by decide⟩
  have hwell : WellFormed f := f.wellFormed_iff.mpr hbits
  obtain ⟨hrun, hsame, -⟩ := content_exact.2.2.1 (FixedFilter 4) f hwell
  obtain ⟨n, a, hxs, hholds⟩ := hrun xs (by decide)
  obtain ⟨m, b, hys, -⟩ := hrun ys (by decide)
  have hkeys (key : ByteArray) : key ∈ xs ↔ key ∈ ys := by
    simp only [xs, ys, List.mem_cons, List.not_mem_nil, or_false]
    constructor
    · rintro (h | h)
      exacts [Or.inr (Or.inl h), Or.inl h]
    · rintro (h | h | h)
      exacts [Or.inr h, Or.inl h, Or.inr h]
  exact ⟨hwell, n, m, a, b, hxs, hys, hholds, (hsame xs ys n m a b hxs hys hkeys).1⟩

end PagedFilter
