import PagedFilter.Proofs.Filter.View
import PagedFilter.Session
namespace PagedFilter

def Operation.answer (covers : ByteArray → Bool) (n : Nat) : Operation → Answer
  | set _ => .flag (n = 1)
  | setItem _ => .flag (n = 1)
  | setBatch _ => .count n
  | test key => .flag (covers key)
  | testItem item => .flag (covers item.key)
  | testBatch keys => .flags (keys.map covers)
  | testAll keys => .flag (keys.all covers)
  | testAny keys => .flag (keys.any covers)
  | clear => .done

namespace PagedView

section
variable {F : Type} [KeyFilter F] [PagedView F]

structure WellFormed (f : F) : Prop where
  bits_wellFormed : (bits f).WellFormed (way f)
  geometry_eq : KeyFilter.geometry f = ⟨way f, (bits f).pageLevel, (bits f).pageNum⟩

theorem WellFormed.of_samePages {f : F} (h : WellFormed f) {b : PagedBits}
    (hpages : (bits f).SamePages b) : WellFormed (withBits f b) := by
  refine ⟨?_, ?_⟩
  · rw [bits_withBits, way_withBits]
    exact hpages.wellFormed h.bits_wellFormed
  · rw [geometry_withBits f b hpages, h.geometry_eq, way_withBits, bits_withBits,
      hpages.level_eq, hpages.pageNum_eq]

theorem WellFormed.whole {f : F} (h : WellFormed f) : (bits f).Whole := h.bits_wellFormed.toWhole

theorem WellFormed.way_le {f : F} (h : WellFormed f) : way f ≤ 8 := h.bits_wellFormed.way_le

theorem WellFormed.test_eq {f : F} (h : WellFormed f) (key : ByteArray) :
    KeyFilter.test f key = .ok ((bits f).covers (way f) key) := by
  rw [PagedView.test_eq, h.whole.test_eq h.way_le]

end

private theorem mapM_of_ok {α β : Type} {g : α → Except Fault β} {p : α → β}
    (h : ∀ a, g a = .ok (p a)) (as : List α) : as.mapM g = .ok (as.map p) := by
  induction as with
  | nil => rfl
  | cons a as ih =>
    rw [List.mapM_cons, h, ih]
    rfl

private theorem allM_of_ok {α : Type} {g : α → Except Fault Bool} {p : α → Bool}
    (h : ∀ a, g a = .ok (p a)) (as : List α) : as.allM g = .ok (as.all p) := by
  induction as with
  | nil => rfl
  | cons a as ih =>
    rw [List.allM, h, List.all_cons, ok_bind, ih]
    cases p a <;> rfl

private theorem anyM_of_ok {α : Type} {g : α → Except Fault Bool} {p : α → Bool}
    (h : ∀ a, g a = .ok (p a)) (as : List α) : as.anyM g = .ok (as.any p) := by
  induction as with
  | nil => rfl
  | cons a as ih =>
    rw [List.anyM, h, List.any_cons, ok_bind, ih]
    cases p a <;> rfl

section
variable {F : Type} [KeyFilter F] [PagedView F]

theorem WellFormed.testBatch_eq {f : F} (h : WellFormed f) (keys : List ByteArray) :
    KeyFilter.testBatch f keys = .ok (keys.map ((bits f).covers (way f))) := by
  rw [PagedView.testBatch_eq]
  exact mapM_of_ok h.test_eq keys

theorem WellFormed.testAll_eq {f : F} (h : WellFormed f) (keys : List ByteArray) :
    KeyFilter.testAll f keys = .ok (keys.all ((bits f).covers (way f))) :=
  allM_of_ok h.test_eq keys

theorem WellFormed.testAny_eq {f : F} (h : WellFormed f) (keys : List ByteArray) :
    KeyFilter.testAny f keys = .ok (keys.any ((bits f).covers (way f))) :=
  anyM_of_ok h.test_eq keys

theorem apply_clear (f : F) :
    KeyFilter.apply f .clear = .ok (.done, withBits f (bits f).clear) := by
  rw [KeyFilter.apply, clear_eq]
  rfl

private theorem countNew_singleton (set : PagedBits → ByteArray → Except Fault (Bool × PagedBits))
    (b : PagedBits) (key : ByteArray) :
    countNew set b [key] = (set b key).map fun (new, b) => (new.toNat, b) := by
  rw [countNew_cons]
  cases set b key <;> rfl

private theorem apply_set (f : F) (key : ByteArray) :
    KeyFilter.apply f (.set key) =
      (countNew (PagedBits.set · (way f)) (bits f) [key]).map fun (n, b) =>
        (.flag (n = 1), withBits f b) := by
  rw [KeyFilter.apply, set_eq, countNew_singleton]
  cases (bits f).set (way f) key with
  | error e => rfl
  | ok r =>
    obtain ⟨new, b⟩ := r
    cases new <;> rfl

private theorem unchanged (f : F) (answer : Answer) :
    (pure (answer, f) : Except Fault (Answer × F)) =
      (countNew (PagedBits.set · (way f)) (bits f) []).map fun (_, b) =>
        (answer, withBits f b) := by
  change _ = Except.ok (answer, withBits f (bits f))
  rw [withBits_bits]
  rfl

/-- Every operation but `clear` is a run of insertions of the keys that it records, and answers
from the filter before the run and the number of keys that were new. -/
theorem WellFormed.apply_eq {f : F} (h : WellFormed f) {op : Operation} (hop : op ≠ .clear) :
    KeyFilter.apply f op =
      (countNew (PagedBits.set · (way f)) (bits f) op.keys).map fun (n, b) =>
        (op.answer ((bits f).covers (way f)) n, withBits f b) := by
  cases op with
  | set key => exact apply_set f key
  | setItem item => exact apply_set f item.key
  | setBatch keys =>
    rw [KeyFilter.apply, setBatch_eq, Operation.keys]
    cases countNew (PagedBits.set · (way f)) (bits f) keys <;> rfl
  | test key =>
    rw [KeyFilter.apply, h.test_eq]
    exact unchanged f _
  | testItem item =>
    rw [KeyFilter.apply, KeyFilter.testItem, h.test_eq]
    exact unchanged f _
  | testBatch keys =>
    rw [KeyFilter.apply, h.testBatch_eq]
    exact unchanged f _
  | testAll keys =>
    rw [KeyFilter.apply, h.testAll_eq]
    exact unchanged f _
  | testAny keys =>
    rw [KeyFilter.apply, h.testAny_eq]
    exact unchanged f _
  | clear => exact absurd rfl hop

theorem WellFormed.apply_total {f : F} (h : WellFormed f) (hcounted : (bits f).Counted)
    {op : Operation} (hop : op ≠ .clear) :
    ∃ answer n after, KeyFilter.apply f op = .ok (answer, withBits f after) ∧
      PagedBits.Inserts (way f) op.keys n (bits f) after ∧ after.Counted := by
  obtain ⟨n, after, hrun, hinserts, hafter⟩ :=
    h.whole.countNew_of_counted h.way_le op.keys hcounted
  refine ⟨op.answer ((bits f).covers (way f)) n, n, after, ?_, hinserts, hafter⟩
  rw [h.apply_eq hop, hrun]
  rfl

theorem WellFormed.inserts_of_apply {f g : F} (h : WellFormed f) {op : Operation}
    (hop : op ≠ .clear) {answer : Answer} (happly : KeyFilter.apply f op = .ok (answer, g)) :
    ∃ n after, g = withBits f after ∧ PagedBits.Inserts (way f) op.keys n (bits f) after := by
  rw [h.apply_eq hop] at happly
  obtain ⟨⟨n, after⟩, hrun, heq⟩ := map_eq_ok.mp happly
  cases heq
  exact ⟨n, after, rfl, h.whole.inserts_of_countNew h.way_le hrun⟩

end
end PagedView
end PagedFilter
