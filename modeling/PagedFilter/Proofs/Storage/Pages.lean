import Mathlib.Algebra.BigOperators.Group.Finset.Basic
import Mathlib.Algebra.BigOperators.Group.Finset.Piecewise
import PagedFilter.Proofs.Geometry.Remainder
import PagedFilter.Proofs.Storage.Steps
/-! Bits of `n` pages act as `n` bits of one page each. -/
namespace PagedFilter

def pageOf (n : UInt32) (key : ByteArray) : Nat :=
  (Digest.ofBytes key).pageSelector.toNat % n.toNat

namespace KeyStep

def reaches (n : UInt32) (p : Nat) : KeyStep → Bool
  | set key => pageOf n key = p
  | test key => pageOf n key = p
  | clear => true

/-- The answers to those steps of a run that reach page `p` of `n`. -/
def answersAt (n : UInt32) (p : Nat) (steps : List KeyStep) (answers : List Answer) :
    List Answer :=
  ((steps.zip answers).filter fun s => s.1.reaches n p).map Prod.snd

theorem answersAt_cons (n : UInt32) (p : Nat) (s : KeyStep) (steps : List KeyStep)
    (answer : Answer) (answers : List Answer) :
    answersAt n p (s :: steps) (answer :: answers) =
      if s.reaches n p then answer :: answersAt n p steps answers
      else answersAt n p steps answers := by
  rw [answersAt, List.zip_cons_cons, List.filter_cons, apply_ite (List.map Prod.snd)]
  rfl

def SameByPage (n : UInt32) (steps others : List KeyStep) : Prop :=
  ∀ p < n.toNat, steps.filter (reaches n p) = others.filter (reaches n p)

instance (n : UInt32) (steps others : List KeyStep) : Decidable (SameByPage n steps others) :=
  inferInstanceAs (Decidable (∀ p < n.toNat, _))

end KeyStep

namespace PagedBits

def inPage (level way : Nat) (key : ByteArray) : List Nat :=
  ((Digest.ofBytes key).codes.toList.take way).map (maskCode level)

variable {b : PagedBits} {level way : Nat} {n : UInt32}

theorem inPage_lt {key : ByteArray} {j : Nat} (hj : j ∈ inPage level way key) :
    j < 8 * 2 ^ level := by
  obtain ⟨code, -, rfl⟩ := List.mem_map.mp hj
  exact maskCode_lt level code

theorem Whole.pageOf_lt (h : b.Whole) (key : ByteArray) : pageOf b.pageNum key < b.pageNum.toNat :=
  Nat.mod_lt _ h.pageNum_pos

theorem Whole.probePositions_eq (h : b.Whole) (way : Nat) (key : ByteArray) :
    b.probePositions way key = (inPage b.pageLevel way key).map
      (8 * 2 ^ b.pageLevel * pageOf b.pageNum key + ·) := by
  have hoffset : (Placement.ofKey key b.pages b.pageLevel).offset =
      pageOf b.pageNum key * 2 ^ b.pageLevel := by
    change bytesOfPages (b.pages.rem _).toNat b.pageLevel = _
    rw [bytesOfPages_eq _ _ (UInt32.toNat_lt _) h.level_le, Reciprocal.toNat_rem h.pages_eq]
    rfl
  have hstart : 8 * (pageOf b.pageNum key * 2 ^ b.pageLevel) =
      8 * 2 ^ b.pageLevel * pageOf b.pageNum key := by
    rw [Nat.mul_comm (pageOf b.pageNum key), Nat.mul_assoc]
  rw [probePositions, inPage, List.map_map, hoffset, hstart]
  rfl

theorem Whole.covers_eq (h : b.Whole) (way : Nat) (key : ByteArray) :
    b.covers way key = (inPage b.pageLevel way key).all fun j =>
      bitAt b.data (8 * 2 ^ b.pageLevel * pageOf b.pageNum key + j) := by
  rw [covers, h.probePositions_eq, List.all_map]
  rfl

private theorem window_inj {w p q j k : Nat} (hj : j < w) (hk : k < w)
    (h : w * p + j = w * q + k) : p = q ∧ j = k := by
  have hw : 0 < w := Nat.zero_lt_of_lt hj
  constructor
  · have hdiv := congrArg (· / w) h
    simpa [Nat.mul_add_div hw, Nat.div_eq_of_lt hj, Nat.div_eq_of_lt hk] using hdiv
  · have hmod := congrArg (· % w) h
    simpa [Nat.mul_add_mod, Nat.mod_eq_of_lt hj, Nat.mod_eq_of_lt hk] using hmod

theorem Whole.bitAt_inserted (h : b.Whole) (way : Nat) (key : ByteArray) (p j : Nat)
    (hj : j < 8 * 2 ^ b.pageLevel) :
    bitAt (b.inserted way key).data (8 * 2 ^ b.pageLevel * p + j) =
      (bitAt b.data (8 * 2 ^ b.pageLevel * p + j) ||
        decide (pageOf b.pageNum key = p ∧ j ∈ inPage b.pageLevel way key)) := by
  rw [inserted, bitAt_markBits _ _ _ fun i hi => h.probe_lt hi]
  congr 1
  apply decide_eq_decide.mpr
  rw [h.probePositions_eq, List.mem_map]
  constructor
  · rintro ⟨k, hk, heq⟩
    obtain ⟨hp, rfl⟩ := window_inj (inPage_lt hk) hj heq
    exact ⟨hp, hk⟩
  · rintro ⟨rfl, hmem⟩
    exact ⟨j, hmem, rfl⟩

structure Shaped (level : Nat) (n : UInt32) (b : PagedBits) : Prop extends Whole b where
  level_eq : b.pageLevel = level
  num_eq : b.pageNum = n
  counted : b.Counted

theorem Shaped.of_create (h : create way level n = .ok b) : b.Shaped level n := by
  obtain ⟨hwell, hlevel, hnum, -, hcount⟩ := (delivers_create way level n).of_eq_ok h
  exact ⟨hwell.toWhole, hlevel, hnum, counted_of_eq_zero hcount⟩

theorem Shaped.size_eq (h : b.Shaped level n) : b.data.size = n.toNat * 2 ^ level := by
  rw [h.size_data, h.num_eq, h.level_eq]

theorem Shaped.afterStep (h : b.Shaped level n) (way : Nat) (s : KeyStep) :
    (b.afterStep way s).Shaped level n := by
  have hpages := SamePages.afterStep b way s
  exact ⟨hpages.whole h.toWhole, hpages.level_eq.trans h.level_eq,
    hpages.pageNum_eq.trans h.num_eq, h.counted_afterStep h.counted way s⟩

theorem Shaped.covers_eq (h : b.Shaped level n) (way : Nat) (key : ByteArray) :
    b.covers way key = (inPage level way key).all fun j =>
      bitAt b.data (8 * 2 ^ level * pageOf n key + j) := by
  rw [h.toWhole.covers_eq, h.level_eq, h.num_eq]

theorem Shaped.bitAt_inserted (h : b.Shaped level n) (way : Nat) (key : ByteArray) (p j : Nat)
    (hj : j < 8 * 2 ^ level) :
    bitAt (b.inserted way key).data (8 * 2 ^ level * p + j) =
      (bitAt b.data (8 * 2 ^ level * p + j) ||
        decide (pageOf n key = p ∧ j ∈ inPage level way key)) := by
  obtain ⟨hwhole, rfl, rfl, -⟩ := h
  exact hwhole.bitAt_inserted way key p j hj

theorem Shaped.count_inserted (h : b.Shaped level n) (way : Nat) (key : ByteArray) :
    (b.inserted way key).uniqueCount.toNat = b.uniqueCount.toNat + 1 :=
  (inserts_inserted b way key (h.room_of_counted h.counted)).count_eq

/-- Each page of the bits holds what its own one-page bits hold, and these count together what the
bits count. -/
structure Splits (level : Nat) (n : UInt32) (b : PagedBits) (pages : Nat → PagedBits) :
    Prop where
  whole : b.Shaped level n
  page (p : Nat) : (pages p).Shaped level 1
  bit_eq : ∀ p < n.toNat, ∀ j < 8 * 2 ^ level,
    bitAt b.data (8 * 2 ^ level * p + j) = bitAt (pages p).data j
  count_eq : b.uniqueCount.toNat = ∑ p ∈ Finset.range n.toNat, (pages p).uniqueCount.toNat

def pagesAfter (way : Nat) (n : UInt32) (pages : Nat → PagedBits) (s : KeyStep) (p : Nat) :
    PagedBits :=
  if s.reaches n p then (pages p).afterStep way s else pages p

namespace Splits
variable {pages : Nat → PagedBits}

theorem congr (h : Splits level n b pages) {others : Nat → PagedBits}
    (hothers : ∀ p, (others p).Shaped level 1) (hsame : ∀ p < n.toNat, others p = pages p) :
    Splits level n b others := by
  refine ⟨h.whole, hothers, ?_, ?_⟩
  · intro p hp j hj
    rw [hsame p hp]
    exact h.bit_eq p hp j hj
  · rw [h.count_eq]
    exact Finset.sum_congr rfl fun p hp => by rw [hsame p (Finset.mem_range.mp hp)]

theorem covers_eq (h : Splits level n b pages) (way : Nat) {key : ByteArray} {p : Nat}
    (hp : p < n.toNat) (hkey : pageOf n key = p) : b.covers way key = (pages p).covers way key := by
  rw [h.whole.covers_eq, (h.page p).covers_eq, hkey]
  apply Bool.eq_iff_iff.mpr
  rw [List.all_eq_true, List.all_eq_true]
  refine forall₂_congr fun j hj => ?_
  have hone : pageOf 1 key = 0 := Nat.mod_one _
  rw [h.bit_eq p hp j (inPage_lt hj), hone, Nat.mul_zero, Nat.zero_add]

theorem answerTo_eq (h : Splits level n b pages) (way : Nat) {s : KeyStep} {p : Nat}
    (hp : p < n.toNat) (hreach : s.reaches n p = true) :
    b.answerTo way s = (pages p).answerTo way s := by
  cases s with
  | set key => rw [answerTo, answerTo, h.covers_eq way hp (of_decide_eq_true hreach)]
  | test key => rw [answerTo, answerTo, h.covers_eq way hp (of_decide_eq_true hreach)]
  | clear => rfl

private theorem pagesAfter_set (h : Splits level n b pages) (way : Nat) (key : ByteArray) {p : Nat}
    (hp : p < n.toNat) : pagesAfter way n pages (.set key) p =
      if b.covers way key then pages p
      else if pageOf n key = p then (pages p).inserted way key else pages p := by
  rw [pagesAfter, KeyStep.reaches]
  by_cases hkey : pageOf n key = p
  · rw [if_pos (decide_eq_true hkey), PagedBits.afterStep, ← h.covers_eq way hp hkey, if_pos hkey]
  · rw [if_neg (by rwa [decide_eq_true_eq]), if_neg hkey, ite_self]

private theorem bit_inserted (h : Splits level n b pages) (way : Nat) (key : ByteArray) {p : Nat}
    (hp : p < n.toNat) {j : Nat} (hj : j < 8 * 2 ^ level) :
    bitAt (b.inserted way key).data (8 * 2 ^ level * p + j) =
      bitAt (if pageOf n key = p then (pages p).inserted way key else pages p).data j := by
  rw [h.whole.bitAt_inserted way key p j hj, h.bit_eq p hp j hj]
  by_cases hkey : pageOf n key = p
  · have hone : pageOf 1 key = 0 := Nat.mod_one _
    have hpage := (h.page p).bitAt_inserted way key 0 j hj
    rw [Nat.mul_zero, Nat.zero_add] at hpage
    rw [if_pos hkey, hpage]
    simp only [hkey, hone, true_and]
  · rw [if_neg hkey, decide_eq_false fun hboth => hkey hboth.1, Bool.or_false]

private theorem count_inserted (h : Splits level n b pages) (way : Nat) (key : ByteArray) :
    (b.inserted way key).uniqueCount.toNat = ∑ p ∈ Finset.range n.toNat,
      (if pageOf n key = p then (pages p).inserted way key else pages p).uniqueCount.toNat := by
  have hmem : pageOf n key ∈ Finset.range n.toNat := by
    rw [Finset.mem_range, ← h.whole.num_eq]
    exact h.whole.pageOf_lt key
  have hone (p : Nat) : (if pageOf n key = p then (pages p).inserted way key
      else pages p).uniqueCount.toNat =
        (pages p).uniqueCount.toNat + if pageOf n key = p then 1 else 0 := by
    split
    · exact (h.page p).count_inserted way key
    · rfl
  rw [Finset.sum_congr rfl fun p _ => hone p, Finset.sum_add_distrib, Finset.sum_ite_eq,
    if_pos hmem, ← h.count_eq, h.whole.count_inserted]

theorem afterStep (h : Splits level n b pages) (way : Nat) (s : KeyStep) :
    Splits level n (b.afterStep way s) (pagesAfter way n pages s) := by
  have hwhole := h.whole.afterStep way s
  have hpage (p : Nat) : (pagesAfter way n pages s p).Shaped level 1 := by
    rw [pagesAfter]
    split
    · exact (h.page p).afterStep way s
    · exact h.page p
  cases s with
  | set key =>
    rw [PagedBits.afterStep] at hwhole ⊢
    cases hcovers : b.covers way key with
    | true =>
      refine h.congr hpage fun p hp => ?_
      rw [h.pagesAfter_set way key hp, hcovers, if_pos rfl]
    | false =>
      rw [hcovers, if_neg Bool.false_ne_true] at hwhole
      have hset (p : Nat) (hp : p < n.toNat) : pagesAfter way n pages (.set key) p =
          if pageOf n key = p then (pages p).inserted way key else pages p := by
        rw [h.pagesAfter_set way key hp, hcovers, if_neg Bool.false_ne_true]
      refine ⟨hwhole, hpage, ?_, ?_⟩
      · intro p hp j hj
        rw [hset p hp]
        exact h.bit_inserted way key hp hj
      · rw [Finset.sum_congr rfl fun p hp => congrArg (fun q => q.uniqueCount.toNat)
          (hset p (Finset.mem_range.mp hp))]
        exact h.count_inserted way key
  | test key => exact h.congr hpage fun p _ => ite_self _
  | clear =>
    refine ⟨hwhole, hpage, ?_, ?_⟩
    · intro p hp j hj
      exact (bitAt_zeros _ _).trans (bitAt_zeros _ _).symm
    · exact (Finset.sum_eq_zero fun p _ => rfl).symm

/-- A run of all steps is, on each page, a run of the steps that reach it. -/
theorem run_eq (h : Splits level n b pages) (hway : way ≤ 8) (steps : List KeyStep) :
    ∃ answers after last, b.run way steps = .ok (answers, after) ∧
      answers.length = steps.length ∧ Splits level n after last ∧ ∀ p < n.toNat,
        (pages p).run way (steps.filter (KeyStep.reaches n p)) =
          .ok (KeyStep.answersAt n p steps answers, last p) := by
  induction steps generalizing b pages with
  | nil => exact ⟨[], b, pages, rfl, rfl, h, fun _ _ => rfl⟩
  | cons s steps ih =>
    obtain ⟨answers, after, last, hrun, hlength, hlast, hpages⟩ := ih (h.afterStep way s)
    have hroom {k m : _} {q : PagedBits} (hq : q.Shaped k m) :
        q.uniqueCount ≠ 0xffffffffffffffff := hq.room_of_counted hq.counted
    refine ⟨b.answerTo way s :: answers, after, last, ?_, ?_, hlast, ?_⟩
    · rw [h.whole.run_cons hway (hroom h.whole), hrun]
      rfl
    · rw [List.length_cons, List.length_cons, hlength]
    · intro p hp
      have hpage := hpages p hp
      rw [KeyStep.answersAt_cons, List.filter_cons]
      -- The step is one of the page's own, or the page's bits are the same before and after it.
      cases hreach : s.reaches n p with
      | true =>
        rw [pagesAfter, if_pos hreach] at hpage
        rw [if_pos rfl, if_pos rfl, (h.page p).run_cons hway (hroom (h.page p)), hpage,
          ← h.answerTo_eq way hp hreach]
        rfl
      | false =>
        rw [pagesAfter, hreach, if_neg Bool.false_ne_true] at hpage
        rw [if_neg Bool.false_ne_true, if_neg Bool.false_ne_true, hpage]

theorem extract_eq (h : Splits level n b pages) {p : Nat} (hp : p < n.toNat) :
    b.data.extract (p * 2 ^ level) (p * 2 ^ level + 2 ^ level) = (pages p).data := by
  have hsize : p * 2 ^ level + 2 ^ level ≤ b.data.size := by
    rw [h.whole.size_eq, ← Nat.succ_mul]
    exact Nat.mul_le_mul_right _ hp
  have hpage : (pages p).data.size = 2 ^ level := by
    rw [(h.page p).size_eq]
    exact Nat.one_mul _
  have hpart : (b.data.extract (p * 2 ^ level) (p * 2 ^ level + 2 ^ level)).size = 2 ^ level := by
    rw [ByteArray.size_extract]
    omega
  refine buffer_ext _ _ (hpart.trans hpage.symm) fun j => ?_
  by_cases hj : j < 8 * 2 ^ level
  · have hstart : 8 * (p * 2 ^ level) = 8 * 2 ^ level * p := by
      rw [Nat.mul_comm p, Nat.mul_assoc]
    rw [bitAt_extract _ hsize hj, hstart, h.bit_eq p hp j hj]
  · rw [bitAt_of_le _ _ (by omega), bitAt_of_le _ _ (by omega)]

private theorem data_unique (h : Splits level n b pages) {other : PagedBits}
    (hother : Splits level n other pages) : b.data = other.data := by
  refine buffer_ext _ _ (h.whole.size_eq.trans hother.whole.size_eq.symm) fun j => ?_
  have hw : 0 < 8 * 2 ^ level := Nat.mul_pos (by decide) (Nat.two_pow_pos level)
  have hj : 8 * 2 ^ level * (j / (8 * 2 ^ level)) + j % (8 * 2 ^ level) = j := Nat.div_add_mod _ _
  -- A position is a place in one of the pages, or it is past the end of both buffers.
  by_cases hp : j / (8 * 2 ^ level) < n.toNat
  · rw [← hj, h.bit_eq _ hp _ (Nat.mod_lt j hw), hother.bit_eq _ hp _ (Nat.mod_lt j hw)]
  · have hout : 8 * (n.toNat * 2 ^ level) ≤ j := by
      calc 8 * (n.toNat * 2 ^ level) = 8 * 2 ^ level * n.toNat := by
            rw [Nat.mul_comm n.toNat, Nat.mul_assoc]
        _ ≤ 8 * 2 ^ level * (j / (8 * 2 ^ level)) := Nat.mul_le_mul_left _ (Nat.not_lt.mp hp)
        _ ≤ j := Nat.mul_div_le j _
    rw [bitAt_of_le _ _ (by rwa [h.whole.size_eq]), bitAt_of_le _ _ (by rwa [hother.whole.size_eq])]

/-- The pages determine the bits. -/
theorem unique (h : Splits level n b pages) {other : PagedBits}
    (hother : Splits level n other pages) : b = other := by
  have hcount : b.uniqueCount = other.uniqueCount :=
    UInt64.toNat_inj.mp (h.count_eq.trans hother.count_eq.symm)
  have hpages : b.pages = other.pages := by
    have hof := h.whole.pages_eq
    rw [h.whole.num_eq, ← hother.whole.num_eq, hother.whole.pages_eq] at hof
    exact (Except.ok.inj hof).symm
  have hlevel := h.whole.level_eq.trans hother.whole.level_eq.symm
  have hdata := h.data_unique hother
  cases b
  cases other
  cases hdata
  cases hlevel
  cases hpages
  cases hcount
  rfl

theorem create (h : (⟨way, level, n⟩ : Geometry).Valid) :
    ∃ start page, PagedBits.create way level n = .ok start ∧
      PagedBits.create way level 1 = .ok page ∧ Splits level n start fun _ => page := by
  have hone : (⟨way, level, 1⟩ : Geometry).Valid := ⟨h.fits, (by decide : (1 : UInt32) ≠ 0)⟩
  obtain ⟨start, hstart⟩ := create_of_valid h
  obtain ⟨page, hpage⟩ := create_of_valid hone
  obtain ⟨-, -, -, hdata, hcount⟩ := (delivers_create way level n).of_eq_ok hstart
  obtain ⟨-, -, -, hzeros, hnone⟩ := (delivers_create way level 1).of_eq_ok hpage
  refine ⟨start, page, hstart, hpage, .of_create hstart, fun _ => .of_create hpage, ?_, ?_⟩
  · intro p _ j _
    rw [hdata, hzeros, bitAt_zeros, bitAt_zeros]
  · rw [hcount, hnone]
    exact (Finset.sum_eq_zero fun p _ => rfl).symm

end Splits

/-- Each page of fresh bits lives through a run as bits of one page that see only the steps that
reach them, so two runs that agree page by page end in the same state. -/
theorem pages_independent (h : (⟨way, level, n⟩ : Geometry).Valid) :
    ∃ start page, create way level n = .ok start ∧ create way level 1 = .ok page ∧
      (∀ steps, ∃ (answers : List Answer) (after : PagedBits) (last : Nat → PagedBits),
        start.run way steps = .ok (answers, after) ∧ answers.length = steps.length ∧
        (∀ p < n.toNat, page.run way (steps.filter (KeyStep.reaches n p)) =
            .ok (KeyStep.answersAt n p steps answers, last p) ∧
          after.data.extract (p * 2 ^ level) (p * 2 ^ level + 2 ^ level) = (last p).data) ∧
        after.data.size = n.toNat * 2 ^ level ∧
        after.uniqueCount.toNat = ∑ p ∈ Finset.range n.toNat, (last p).uniqueCount.toNat) ∧
      ∀ steps others, KeyStep.SameByPage n steps others →
        ∃ answers answers' after, start.run way steps = .ok (answers, after) ∧
          start.run way others = .ok (answers', after) ∧
          ∀ p < n.toNat, KeyStep.answersAt n p steps answers =
            KeyStep.answersAt n p others answers' := by
  obtain ⟨start, page, hstart, hpage, hsplits⟩ := Splits.create h
  have hway : way ≤ 8 := h.fits.1.2
  refine ⟨start, page, hstart, hpage, ?_, ?_⟩
  · intro steps
    obtain ⟨answers, after, last, hrun, hlength, hlast, hpages⟩ := hsplits.run_eq hway steps
    exact ⟨answers, after, last, hrun, hlength, fun p hp => ⟨hpages p hp, hlast.extract_eq hp⟩,
      hlast.whole.size_eq, hlast.count_eq⟩
  · intro steps others hsame
    obtain ⟨answers, after, last, hrun, -, hlast, hpages⟩ := hsplits.run_eq hway steps
    obtain ⟨answers', after', last', hrun', -, hlast', hpages'⟩ := hsplits.run_eq hway others
    have hboth (p : Nat) (hp : p < n.toNat) :
        KeyStep.answersAt n p steps answers = KeyStep.answersAt n p others answers' ∧
          last p = last' p := by
      have hpage := hpages p hp
      rw [hsame p hp, hpages' p hp] at hpage
      exact Prod.mk.inj (Except.ok.inj hpage.symm)
    obtain rfl := hlast.unique (hlast'.congr hlast.page fun p hp => (hboth p hp).2)
    exact ⟨answers, answers', after, hrun, hrun', fun p hp => (hboth p hp).1⟩

theorem pages_independent_three_pages :
    let steps : List KeyStep := [.set ⟨#[1]⟩, .test ⟨#[3]⟩, .set ⟨#[0]⟩, .set ⟨#[3]⟩,
      .set ⟨#[5]⟩, .set ⟨#[2]⟩]
    let others : List KeyStep := [.test ⟨#[3]⟩, .set ⟨#[0]⟩, .set ⟨#[3]⟩, .set ⟨#[2]⟩,
      .set ⟨#[1]⟩, .set ⟨#[5]⟩]
    (⟨4, 6, 3⟩ : Geometry).Valid ∧ KeyStep.SameByPage 3 steps others ∧
      ∃ start answers answers' after, create 4 6 3 = .ok start ∧
        start.run 4 steps = .ok (answers, after) ∧ start.run 4 others = .ok (answers', after) ∧
        ∀ p < 3, KeyStep.answersAt 3 p steps answers = KeyStep.answersAt 3 p others answers' := by
  intro steps others
  have hvalid : (⟨4, 6, 3⟩ : Geometry).Valid := ⟨by decide, by decide⟩
  have hsame : KeyStep.SameByPage 3 steps others := by decide
  obtain ⟨start, page, hstart, -, -, hagree⟩ := pages_independent hvalid
  obtain ⟨answers, answers', after, hrun, hrun', hanswers⟩ := hagree steps others hsame
  exact ⟨hvalid, hsame, start, answers, answers', after, hstart, hrun, hrun', hanswers⟩

end PagedBits
end PagedFilter
