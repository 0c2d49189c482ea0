import PagedFilter.Proofs.Filter.FrontEnds
import PagedFilter.Proofs.Storage.Tally
/-! From a fresh filter on, the count is the number of keys that were reported new. -/
namespace PagedFilter

open PagedView (WellFormed way bits withBits)

/-- What an operation reports of its keys. -/
def Operation.Reports (news : List Bool) (answer : Answer) : Operation → Prop
  | set _ => ∃ new, news = [new] ∧ answer = .flag new
  | setItem _ => ∃ new, news = [new] ∧ answer = .flag new
  | setBatch keys => news.length = keys.length ∧ answer = .count (news.count true)
  | _ => news = []

/-- The reports of all keys in order are those of the operations. -/
inductive Reported : List Operation → List Answer → List Bool → Prop
  | nil : Reported [] [] []
  | cons {op ops answer answers own news} (first : op.Reports own answer)
      (rest : Reported ops answers news) :
      Reported (op :: ops) (answer :: answers) (own ++ news)

theorem Operation.reports_answer (op : Operation) (hop : op ≠ .clear) {news : List Bool}
    (hlength : news.length = op.keys.length) (covers : ByteArray → Bool) :
    op.Reports news (op.answer covers (news.count true)) := by
  have hsingle (hone : news.length = 1) :
      ∃ new, news = [new] ∧ Answer.flag (news.count true = 1) = .flag new := by
    obtain ⟨new, rfl⟩ := List.length_eq_one_iff.mp hone
    refine ⟨new, rfl, ?_⟩
    cases new <;> rfl
  cases op with
  | set key => exact hsingle hlength
  | setItem item => exact hsingle hlength
  | setBatch keys => exact ⟨hlength, rfl⟩
  | test key => exact List.length_eq_zero_iff.mp hlength
  | testItem item => exact List.length_eq_zero_iff.mp hlength
  | testBatch keys => exact List.length_eq_zero_iff.mp hlength
  | testAll keys => exact List.length_eq_zero_iff.mp hlength
  | testAny keys => exact List.length_eq_zero_iff.mp hlength
  | clear => exact absurd rfl hop

namespace PagedBits
variable {a b : PagedBits} {way : Nat}

theorem Whole.apply_of_tally (h : a.Whole) (hway : way ≤ 8) {op : Operation} (hop : op ≠ .clear)
    {news : List Bool} (htally : Tally way op.keys news a b) :
    a.apply way op = .ok (op.answer (a.covers way) (news.count true), b) := by
  have hcount : countNew (set · way) a op.keys = .ok (news.count true, b) := by
    rw [← run_map_set, htally.run_eq]
    simp [Except.map]
  rw [h.apply_eq hway hop, hcount]
  rfl

theorem Whole.tally_of_operations (h : a.Whole) (hway : way ≤ 8) (hbalanced : a.Balanced way)
    {ops : List Operation} (hops : .clear ∉ ops) :
    ∃ answers news b, a.applyAll way ops = .ok (answers, b) ∧ Reported ops answers news ∧
      Tally way (ops.flatMap Operation.keys) news a b ∧ b.Balanced way := by
  induction ops generalizing a with
  | nil => exact ⟨[], [], a, rfl, .nil, .nil way a, hbalanced⟩
  | cons op ops ih =>
    rw [List.mem_cons, not_or] at hops
    have hop : op ≠ .clear := Ne.symm hops.1
    obtain ⟨own, next, hown, hnext⟩ := h.tally hway hbalanced op.keys
    obtain ⟨answers, news, b, hrun, hreported, htally, hb⟩ :=
      ih (hown.inserts.pages.whole h) hnext hops.2
    refine ⟨op.answer (a.covers way) (own.count true) :: answers, own ++ news, b, ?_,
      .cons (op.reports_answer hop hown.length_eq _) hreported, hown.trans h htally, hb⟩
    rw [applyAll, h.apply_of_tally hway hop hown, ok_bind]
    dsimp only
    rw [hrun]
    rfl

theorem applyAll_map_set (a : PagedBits) (way : Nat) (keys : List ByteArray) :
    a.applyAll way (keys.map .set) = a.run way (keys.map .set) := by
  induction keys generalizing a with
  | nil => rfl
  | cons key keys ih =>
    rw [List.map_cons, List.map_cons, applyAll, run, apply, Operation.steps, run, step]
    cases a.set way key with
    | error e => rfl
    | ok r =>
      change r.2.applyAll way (keys.map .set) >>= _ = r.2.run way (keys.map .set) >>= _
      rw [ih]
      rfl

end PagedBits

section
variable {F : Type} [KeyFilter F] [PagedView F]

structure Fresh (f : F) : Prop where
  wellFormed : WellFormed f
  count_eq : (bits f).uniqueCount = 0
  data_eq : (bits f).data = zeros (bits f).data.size

theorem PagedView.WellFormed.fresh_clear {f : F} (h : WellFormed f) :
    Fresh (KeyFilter.clear f) := by
  rw [PagedView.clear_eq]
  refine ⟨h.of_samePages (.clear _), ?_, ?_⟩
  · rw [PagedView.bits_withBits]
    rfl
  · rw [PagedView.bits_withBits, PagedBits.clear, size_zeros]

variable [FrontEnd F]

/-- What a filter of a way has come to when the keys were inserted with these reports. -/
structure Accounted (way : Nat) (keys : List ByteArray) (news : List Bool) (f : F) : Prop where
  count_eq : (KeyFilter.uniqueCount f).toNat = news.count true
  nodup : (newKeys keys news).Nodup
  count_le : (KeyFilter.uniqueCount f).toNat ≤ countOnes (FrontEnd.buffer f)
  ones_le : countOnes (FrontEnd.buffer f) ≤
    min (way * (KeyFilter.uniqueCount f).toNat) (8 * KeyFilter.dataLen f)
  count_le_keys : (KeyFilter.uniqueCount f).toNat ≤ keys.toFinset.card
  count_lt : (KeyFilter.uniqueCount f).toNat < 2 ^ 48
  isEmpty_iff : KeyFilter.isEmpty f = true ↔ FrontEnd.buffer f = zeros (KeyFilter.dataLen f)

theorem Fresh.accounted {f : F} (h : Fresh f) {keys : List ByteArray} {news : List Bool}
    {b : PagedBits} (htally : PagedBits.Tally (way f) keys news (bits f) b)
    (hbalanced : b.Balanced (way f)) : Accounted (way f) keys news (withBits f b) := by
  have hwell := h.wellFormed.of_samePages htally.inserts.pages
  have hbuffer : FrontEnd.buffer (withBits f b) = b.data := by
    rw [FrontEnd.buffer_eq, PagedView.bits_withBits]
  have hlen : KeyFilter.dataLen (withBits f b) = b.data.size := by
    rw [FrontEnd.dataLen_eq _ hwell, PagedView.bits_withBits]
  have huc : KeyFilter.uniqueCount (withBits f b) = b.uniqueCount := by
    rw [PagedView.uniqueCount_eq, PagedView.bits_withBits]
  have hcount : b.uniqueCount.toNat = news.count true := by
    rw [htally.inserts.count_eq, h.count_eq]
    exact Nat.zero_add _
  have hle : b.uniqueCount.toNat ≤ countOnes b.data := hbalanced.count_le
  have hones := countOnes_le b.data
  refine ⟨?_, htally.nodup, ?_, ?_, ?_, ?_, ?_⟩
  · rw [huc, hcount]
  · rw [huc, hbuffer]
    exact hle
  · rw [huc, hbuffer, hlen]
    exact Nat.le_min.mpr ⟨hbalanced.ones_le, hones⟩
  · rw [huc, hcount]
    exact htally.count_le
  · have hsize := (htally.inserts.pages.whole h.wellFormed.whole).size_lt
    rw [huc]
    omega
  · rw [KeyFilter.isEmpty, beq_iff_eq, huc, hbuffer, hlen]
    exact hbalanced.count_eq_zero_iff

end

theorem FixedFilter.fresh_create (way level : Nat) (pageNum : UInt32) :
    Delivers Fresh (FixedFilter.create way level pageNum) := by
  refine (delivers_create (PagedBits.delivers_create way level pageNum)).mono ?_
  rintro f ⟨hwell, -, -, hdata, hcount⟩
  refine ⟨f.wellFormed_iff.mpr hwell, hcount, ?_⟩
  change f.bits.data = zeros f.bits.data.size
  rw [hdata, size_zeros]

theorem AnyFilter.fresh_create (g : Geometry) : Delivers Fresh (AnyFilter.create g) := by
  refine (delivers_create (PagedBits.delivers_create g.way g.pageLevel g.pageNum)).mono ?_
  rintro f ⟨hway, hwell, -, -, hdata, hcount⟩
  refine ⟨f.wellFormed_iff.mpr (hway ▸ hwell), hcount, ?_⟩
  change f.bits.data = zeros f.bits.data.size
  rw [hdata, size_zeros]

theorem AnyFilter.fresh_withRate (items : Nat) (rate : Float) :
    Delivers Fresh (AnyFilter.withRate items rate) :=
  (answers_plan items rate).delivers.bind fun g _ => fresh_create g

theorem SharedFilter.fresh_ofAny {f : AnyFilter} (h : Fresh f) : Fresh (SharedFilter.ofAny f) :=
  ⟨wellFormed_ofAny h.wellFormed, h.count_eq, h.data_eq⟩

theorem FilterRequest.fresh_build (request : FilterRequest) : Delivers Fresh request.build :=
  request.delivers_geometry.bind fun g _ => AnyFilter.fresh_create g

/-- From its last fresh state on a filter answers and counts as single insertions of the keys do: no
key is reported new twice, and the set bits bound the count. -/
theorem insertions_accounted :
    ((∀ way level pageNum, Delivers Fresh (FixedFilter.create way level pageNum)) ∧
      (∀ g, Delivers Fresh (AnyFilter.create g)) ∧
      (∀ items rate, Delivers Fresh (AnyFilter.withRate items rate)) ∧
      (∀ request, Delivers Fresh (FilterRequest.build request)) ∧
      (∀ request, Delivers (fun r => Fresh r.1) (FilterRequest.buildSized request)) ∧
      (∀ f : AnyFilter, Fresh f → Fresh (SharedFilter.ofAny f)) ∧
      (∀ items rate, Delivers Fresh (SharedFilter.withRate items rate)) ∧
      (∀ request, Delivers Fresh (FilterRequest.buildShared request))) ∧
    (∀ (F : Type) [KeyFilter F] [PagedView F] (f : F), WellFormed f →
      Fresh (KeyFilter.clear f)) ∧
    (∀ (F : Type) [KeyFilter F] [PagedView F] [FrontEnd F] (f : F) (ops : List Operation),
      Fresh f → .clear ∉ ops → ∃ answers news g, KeyFilter.run f ops = .ok (answers, g) ∧
        KeyFilter.run f ((ops.flatMap Operation.keys).map .set) = .ok (news.map .flag, g) ∧
        Reported ops answers news ∧
        Accounted (KeyFilter.geometry f).way (ops.flatMap Operation.keys) news g) := by
  refine ⟨⟨?_, ?_, ?_, ?_, ?_, ?_, ?_, ?_⟩, ?_, ?_⟩
  · exact FixedFilter.fresh_create
  · exact AnyFilter.fresh_create
  · exact AnyFilter.fresh_withRate
  · exact FilterRequest.fresh_build
  · exact FilterRequest.delivers_buildSized AnyFilter.fresh_create
  · exact fun f h => SharedFilter.fresh_ofAny h
  · exact fun items rate => (AnyFilter.fresh_withRate items rate).bind fun f hf =>
      SharedFilter.fresh_ofAny hf
  · exact fun request => request.fresh_build.bind fun f hf => SharedFilter.fresh_ofAny hf
  · exact fun F _ _ f h => h.fresh_clear
  · intro F _ _ _ f ops h hops
    have hwell := h.wellFormed
    obtain ⟨answers, news, b, hrun, hreported, htally, hbalanced⟩ :=
      hwell.whole.tally_of_operations hwell.way_le
        (PagedBits.balanced_of_clear h.count_eq h.data_eq) hops
    refine ⟨answers, news, withBits f b, ?_, ?_, hreported, ?_⟩
    · rw [hwell.run_eq, hrun]
      rfl
    · rw [hwell.run_eq, PagedBits.applyAll_map_set, htally.run_eq]
      rfl
    · rw [hwell.geometry_eq]
      exact h.accounted htally hbalanced

theorem insertions_accounted_three_pages :
    let f : FixedFilter 4 := ⟨⟨zeros 192, 6, ⟨0x5555555555555556, 3⟩, 0⟩⟩
    let ops : List Operation := [.set ⟨#[1]⟩, .setBatch [⟨#[2]⟩, ⟨#[3]⟩, ⟨#[2]⟩], .test ⟨#[4]⟩,
      .setItem (.text "a")]
    Fresh f ∧ .clear ∉ ops ∧ ∃ answers news g, KeyFilter.run f ops = .ok (answers, g) ∧
      Reported ops answers news ∧ Accounted 4 (ops.flatMap Operation.keys) news g := by
  intro f ops
  have hbits : f.bits.WellFormed 4 := PagedBits.wellFormed_three_pages _ (size_zeros 192) 0
  have hfresh : Fresh f := ⟨f.wellFormed_iff.mpr hbits, rfl, congrArg zeros (size_zeros 192).symm⟩
  have hops : .clear ∉ ops := by simp [ops]
  obtain ⟨answers, news, g, hrun, -, hreported, haccounted⟩ :=
    insertions_accounted.2.2 (FixedFilter 4) f ops hfresh hops
  exact ⟨hfresh, hops, answers, news, g, hrun, hreported, haccounted⟩

end PagedFilter
