import PagedFilter.Proofs.Session.Forms
/-! What a session records tests positive until it is cleared, in whatever form the filter is. -/
namespace PagedFilter

open PagedView (WellFormed)

/-- What a session keeps up: a well-formed filter, with a count that its bits bear out, in which
all probe positions of the keys are set. -/
structure Form.Retains (keys : List ByteArray) (f : Form) : Prop where
  wellFormed : WellFormed f
  counted : f.bits.Counted
  covers : ∀ key ∈ keys, f.bits.covers f.way key = true

namespace SessionStep
variable {f : Form} {keys : List ByteArray}

theorem apply_operate {g : Form} {op : Operation} {answer : Answer}
    (h : KeyFilter.apply f op = .ok (answer, g)) : (operate op).apply f = .ok g := by
  rw [apply, h]
  rfl

theorem keep_operate {α : Type} (ofOperation : Operation → List α) (kept : List α)
    {op : Operation} (hop : op ≠ .clear) :
    (operate op).keep ofOperation kept = kept ++ ofOperation op := by
  cases op with
  | clear => exact absurd rfl hop
  | _ => rfl

theorem keep_of_ne {α : Type} (ofOperation : Operation → List α) (kept : List α)
    {step : SessionStep} (hstep : ∀ op, step ≠ operate op) :
    step.keep ofOperation kept = kept := by
  cases step with
  | operate op => exact absurd rfl (hstep op)
  | _ => rfl

private theorem retains_clear (h : f.Retains keys) :
    ∃ g, (operate .clear).apply f = .ok g ∧ g.Retains [] := by
  refine ⟨f.withBits f.bits.clear, apply_operate (PagedView.apply_clear f), ?_⟩
  have hbits : (f.withBits f.bits.clear).bits = f.bits.clear := PagedView.bits_withBits f _
  refine ⟨h.wellFormed.of_samePages (PagedBits.SamePages.clear _), ?_, ?_⟩
  · rw [hbits]
    exact PagedBits.counted_of_eq_zero rfl
  · intro key hkey
    cases hkey

private theorem retains_operate (h : f.Retains keys) {op : Operation} (hop : op ≠ .clear) :
    ∃ g, (operate op).apply f = .ok g ∧ g.Retains (keys ++ op.keys) := by
  obtain ⟨answer, n, after, happly, hinserts, hafter⟩ := h.wellFormed.apply_total h.counted hop
  have hbits : (f.withBits after).bits = after := PagedView.bits_withBits f after
  have hway : (f.withBits after).way = f.way := PagedView.way_withBits f after
  refine ⟨f.withBits after, apply_operate happly, h.wellFormed.of_samePages hinserts.pages, ?_, ?_⟩
  · rw [hbits]
    exact hafter
  · intro key hkey
    rw [hbits, hway]
    apply hinserts.covers_of_covers h.wellFormed.whole
    rcases List.mem_append.mp hkey with hkept | hnew
    · exact Or.inl (h.covers key hkept)
    · exact Or.inr hnew

private theorem retains_carries (h : f.Retains keys) {step : SessionStep}
    (hstep : ∀ op, step ≠ operate op) : ∃ g, step.apply f = .ok g ∧ g.Retains keys := by
  obtain ⟨g, happly, hg⟩ := apply_carries h.wellFormed hstep
  refine ⟨g, happly, hg.wellFormed, ?_, ?_⟩
  · rw [hg.bits_eq]
    exact h.counted
  · rw [hg.bits_eq, hg.way_eq]
    exact h.covers

theorem apply_retains (h : f.Retains keys) (step : SessionStep) :
    ∃ g, step.apply f = .ok g ∧ g.Retains (step.keep Operation.keys keys) := by
  by_cases hstep : ∃ op, step = operate op
  · obtain ⟨op, rfl⟩ := hstep
    by_cases hop : op = .clear
    · subst hop
      exact retains_clear h
    · rw [keep_operate Operation.keys keys hop]
      exact retains_operate h hop
  · have hne : ∀ op, step ≠ operate op := fun op heq => hstep ⟨op, heq⟩
    rw [keep_of_ne Operation.keys keys hne]
    exact retains_carries h hne

/-- A session succeeds and retains what is kept after it. -/
theorem run_retains (h : f.Retains keys) (steps : List SessionStep) :
    ∃ g, run f steps = .ok g ∧ g.Retains (steps.foldl (keep Operation.keys) keys) := by
  induction steps generalizing f keys with
  | nil => exact ⟨f, rfl, h⟩
  | cons step steps ih =>
    obtain ⟨next, happly, hnext⟩ := apply_retains h step
    obtain ⟨g, hrun, hg⟩ := ih hnext
    refine ⟨g, ?_, hg⟩
    rw [run, List.foldlM_cons, happly]
    exact hrun

private theorem key_mem_keys {op : Operation} {item : Item} (h : item ∈ op.items) :
    item.key ∈ op.keys := by
  cases op with
  | setItem other =>
    rcases List.mem_singleton.mp h with rfl
    exact List.mem_singleton_self _
  | _ => cases h

private theorem key_mem_keep {items : List Item} (h : ∀ item ∈ items, item.key ∈ keys)
    (step : SessionStep) :
    ∀ item ∈ step.keep Operation.items items, item.key ∈ step.keep Operation.keys keys := by
  by_cases hstep : ∃ op, step = operate op
  · obtain ⟨op, rfl⟩ := hstep
    by_cases hop : op = .clear
    · subst hop
      intro item hitem
      cases hitem
    · rw [keep_operate Operation.items items hop, keep_operate Operation.keys keys hop]
      intro item hitem
      rcases List.mem_append.mp hitem with hkept | hnew
      · exact List.mem_append_left _ (h item hkept)
      · exact List.mem_append_right _ (key_mem_keys hnew)
  · have hne : ∀ op, step ≠ operate op := fun op heq => hstep ⟨op, heq⟩
    rw [keep_of_ne Operation.items items hne, keep_of_ne Operation.keys keys hne]
    exact h

theorem key_mem_recorded {items : List Item} (h : ∀ item ∈ items, item.key ∈ keys)
    (steps : List SessionStep) :
    ∀ item ∈ steps.foldl (keep Operation.items) items,
      item.key ∈ steps.foldl (keep Operation.keys) keys := by
  induction steps generalizing keys items with
  | nil => exact h
  | cons step steps ih => exact ih (key_mem_keep h step)

/-- In a session on a new filter every step succeeds, and in the state reached every key and
every item recorded since the last clear tests positive. -/
theorem no_false_negatives (g : Geometry) (hg : g.Valid) (kind : FormKind)
    (steps : List SessionStep) :
    ∃ start final, Form.create g kind = .ok start ∧ run start steps = .ok final ∧
      (∀ key ∈ recorded Operation.keys steps, KeyFilter.test final key = .ok true) ∧
      (∀ item ∈ recorded Operation.items steps, KeyFilter.testItem final item = .ok true) := by
  obtain ⟨b, hb⟩ := PagedBits.create_of_valid hg
  obtain ⟨hwell, -, -, -, hcount⟩ := (PagedBits.delivers_create _ _ _).of_eq_ok hb
  obtain ⟨start, hplace, hstart⟩ := Form.ofBits_total hwell kind
  have hcreate : Form.create g kind = .ok start := by
    rw [Form.create_eq, hb, ok_bind, hplace]
  have hnew : start.Retains [] := by
    refine ⟨hstart.wellFormed, ?_, ?_⟩
    · rw [hstart.bits_eq, PagedBits.Counted, hcount]
      exact Nat.zero_le _
    · intro key hkey
      cases hkey
  obtain ⟨final, hrun, hfinal⟩ := run_retains hnew steps
  have htest : ∀ key ∈ recorded Operation.keys steps, KeyFilter.test final key = .ok true := by
    intro key hkey
    rw [hfinal.wellFormed.test_eq key]
    exact congrArg Except.ok (hfinal.covers key hkey)
  refine ⟨start, final, hcreate, hrun, htest, ?_⟩
  intro item hitem
  apply htest
  refine key_mem_recorded ?_ steps item hitem
  intro item hitem
  cases hitem

theorem no_false_negatives_three_pages :
    (⟨4, 6, 3⟩ : Geometry).Valid ∧
      ∃ start final, Form.create ⟨4, 6, 3⟩ .fixed = .ok start ∧
        run start [.operate (.set ⟨#[1]⟩), .operate .clear, .operate (.setItem (.text "a")),
          .convert, .reframe, .convert, .operate (.setBatch [⟨#[2]⟩, ⟨#[3]⟩]), .resnapshot,
          .rebuild .fixed] = .ok final ∧
        KeyFilter.test final ⟨#[3]⟩ = .ok true ∧
        KeyFilter.testItem final (.text "a") = .ok true := by
  have hvalid : (⟨4, 6, 3⟩ : Geometry).Valid := ⟨by decide, by decide⟩
  obtain ⟨start, final, hcreate, hrun, hkeys, hitems⟩ := no_false_negatives ⟨4, 6, 3⟩ hvalid .fixed
    [.operate (.set ⟨#[1]⟩), .operate .clear, .operate (.setItem (.text "a")), .convert, .reframe,
      .convert, .operate (.setBatch [⟨#[2]⟩, ⟨#[3]⟩]), .resnapshot, .rebuild .fixed]
  refine ⟨hvalid, start, final, hcreate, hrun, hkeys _ ?_, hitems _ ?_⟩
  · exact List.mem_append_right _ (List.mem_cons_of_mem _ List.mem_cons_self)
  · exact List.mem_cons_self

end SessionStep
end PagedFilter
