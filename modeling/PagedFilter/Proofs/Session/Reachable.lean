import PagedFilter.Proofs.Filter.FrontEnds
import PagedFilter.Proofs.Session.Retention
import PagedFilter.Proofs.Storage.Probing
/-! The reachable states are just the well-formed ones. -/
namespace PagedFilter

open PagedView (WellFormed)

namespace PagedBits

/-- Bits that were built for a way, whatever numbers of probes were used on them since. -/
inductive Reachable (way : Nat) : PagedBits → Prop
  | create {level pageNum bits} (made : create way level pageNum = .ok bits) : Reachable way bits
  | ofBytes {level data uniqueCount bits} (made : ofBytes way level data uniqueCount = .ok bits) :
      Reachable way bits
  | step {bits after probes s answer} (before : Reachable way bits)
      (taken : bits.step probes s = .ok (answer, after)) : Reachable way after

theorem Whole.samePages_of_anyStep {bits after : PagedBits} (h : bits.Whole) {probes : Nat}
    {s : KeyStep} {answer : Answer} (hstep : bits.step probes s = .ok (answer, after)) :
    SamePages bits after := by
  cases s with
  | set key =>
    obtain ⟨⟨new, next⟩, hset, -⟩ := bind_eq_ok.mp hstep
    exact h.samePages_of_step (way_le_of_set hset) hstep
  | test key =>
    obtain ⟨found, htest, -⟩ := bind_eq_ok.mp hstep
    exact h.samePages_of_step (way_le_of_test htest) hstep
  | clear =>
    cases hstep
    exact .clear bits

theorem reachable_iff {way : Nat} {bits : PagedBits} : Reachable way bits ↔ bits.WellFormed way := by
  constructor
  · intro h
    induction h with
    | create made => exact ((delivers_create _ _ _).of_eq_ok made).1
    | ofBytes made => exact ((delivers_ofBytes _ _ _ _).of_eq_ok made).1
    | step _ taken ih => exact (ih.toWhole.samePages_of_anyStep taken).wellFormed ih
  · exact fun h => .ofBytes h.ofBytes_eq

end PagedBits

namespace Form
variable {f : Form}

def kind : Form → FormKind
  | fixed _ => .fixed
  | any _ => .any
  | shared _ => .shared

theorem ofBits_kind (h : WellFormed f) : ofBits f.way f.kind f.bits = .ok f := by
  cases f with
  | fixed g => rfl
  | any g =>
    change AnyFilter.ofBits g.way g.bits >>= _ = _
    rw [g.ofBits_bits]
    rfl
  | shared g =>
    have hwrap : g = .ofAny g.inner := SharedFilter.eq_ofAny ⟨h.bits_wellFormed, h.geometry_eq⟩
    change AnyFilter.ofBits g.inner.way g.inner.bits >>= _ = _
    rw [g.inner.ofBits_bits, ok_bind, ← hwrap]
    rfl

theorem geometry_of_wellFormed (h : WellFormed f) :
    KeyFilter.geometry f = ⟨f.way, f.bits.pageLevel, f.bits.pageNum⟩ :=
  h.geometry_eq

theorem ofBytes_kind (h : WellFormed f) :
    ofBytes (KeyFilter.geometry f).way (KeyFilter.geometry f).pageLevel f.contents.1
      f.contents.2 f.kind = .ok f := by
  have hbits : f.bits.WellFormed f.way := h.bits_wellFormed
  rw [geometry_of_wellFormed h, f.contents_eq, ofBytes_eq]
  dsimp only
  rw [hbits.ofBytes_eq, ok_bind, ofBits_kind h]

inductive Entered : Form → Prop
  | create {g kind} {f : Form} (made : create g kind = .ok f) : Entered f
  | ofBytes {way level data uniqueCount kind} {f : Form}
      (made : ofBytes way level data uniqueCount kind = .ok f) : Entered f
  | withRate {items rate} {f : AnyFilter} (made : AnyFilter.withRate items rate = .ok f) : Entered (any f)
  | build {request} {f : AnyFilter} (made : FilterRequest.build request = .ok f) : Entered (any f)
  | buildSized {request sizing} {f : AnyFilter}
      (made : FilterRequest.buildSized request = .ok (f, sizing)) : Entered (any f)
  | decode {bytes} {f : AnyFilter} (made : Frame.decode bytes = .ok f) : Entered (any f)
  | toAny {s} {f : AnyFilter} (made : Snapshot.toAny s = .ok f) : Entered (any f)
  | toFixed {way s} {f : FixedFilter way} (made : Snapshot.toFixed way s = .ok f) : Entered (fixed f)

inductive Reachable : Form → Prop
  | entered {f : Form} (start : Entered f) : Reachable f
  | step {f g : Form} {step} (before : Reachable f) (taken : SessionStep.apply f step = .ok g) :
      Reachable g

theorem Entered.wellFormed (h : Entered f) : WellFormed f := by
  have hany {g : AnyFilter} (hg : WellFormed g) : WellFormed (any g) :=
    (carries_any ⟨hg, rfl, rfl⟩).wellFormed
  cases h with
  | create made =>
    obtain ⟨b, -, hcarries⟩ := carries_of_create made
    exact hcarries.wellFormed
  | ofBytes made =>
    obtain ⟨b, -, hcarries⟩ := carries_of_ofBytes made
    exact hcarries.wellFormed
  | withRate made => exact hany ((AnyFilter.wellFormed_withRate _ _).of_eq_ok made)
  | build made => exact hany ((FilterRequest.wellFormed_build _).of_eq_ok made)
  | @buildSized request sizing f made =>
    exact hany (request.wellFormed_buildSized.of_eq_ok made)
  | decode made => exact hany ((Frame.wellFormed_decode _).of_eq_ok made)
  | toAny made => exact hany ((Snapshot.wellFormed_toAny _).of_eq_ok made)
  | toFixed made =>
    have hfixed := (Snapshot.wellFormed_toFixed _ _).of_eq_ok made
    exact (carries_fixed hfixed.bits_wellFormed).wellFormed

structure Covers (way : Nat) (keys : List ByteArray) (f : Form) : Prop where
  wellFormed : WellFormed f
  way_eq : f.way = way
  covers : ∀ key ∈ keys, f.bits.covers way key = true

theorem covers_nil (h : WellFormed f) : Covers f.way [] f := ⟨h, rfl, nofun⟩

end Form

namespace SessionStep
variable {f g : Form} {way : Nat} {keys : List ByteArray}

theorem covers_of_apply (h : f.Covers way keys) {step : SessionStep}
    (happly : step.apply f = .ok g) : g.Covers way (step.keep Operation.keys keys) := by
  by_cases hstep : ∃ op, step = operate op
  · obtain ⟨op, rfl⟩ := hstep
    obtain ⟨⟨answer, next⟩, hrun, heq⟩ := bind_eq_ok.mp happly
    cases heq
    have hway (b : PagedBits) : (PagedView.withBits f b).way = way :=
      (PagedView.way_withBits f b).trans h.way_eq
    by_cases hop : op = .clear
    · subst hop
      rw [PagedView.apply_clear] at hrun
      cases hrun
      exact ⟨h.wellFormed.of_samePages (PagedBits.SamePages.clear _), hway _, nofun⟩
    · -- every other operation is a run of insertions, which takes no bit back
      obtain ⟨n, after, rfl, hinserts⟩ := h.wellFormed.inserts_of_apply hop (lift_eq_ok.mp hrun)
      have hinserts : PagedBits.Inserts way op.keys n f.bits after := h.way_eq ▸ hinserts
      have hbits : (PagedView.withBits f after).bits = after := PagedView.bits_withBits f after
      rw [keep_operate Operation.keys keys hop]
      refine ⟨h.wellFormed.of_samePages hinserts.pages, hway after, ?_⟩
      intro key hkey
      rw [hbits]
      apply hinserts.covers_of_covers h.wellFormed.whole
      rcases List.mem_append.mp hkey with hkept | hnew
      · exact Or.inl (h.covers key hkept)
      · exact Or.inr hnew
  · have hne : ∀ op, step ≠ operate op := fun op heq => hstep ⟨op, heq⟩
    obtain ⟨made, hmade, hcarries⟩ := apply_carries h.wellFormed hne
    rw [happly] at hmade
    cases hmade
    rw [keep_of_ne Operation.keys keys hne]
    refine ⟨hcarries.wellFormed, hcarries.way_eq.trans h.way_eq, ?_⟩
    rw [hcarries.bits_eq]
    exact h.covers

/-- A session, wherever it ends, leaves what was recorded since the last clear covered. -/
theorem covers_of_run (h : f.Covers way keys) {steps : List SessionStep}
    (hrun : run f steps = .ok g) : g.Covers way (steps.foldl (keep Operation.keys) keys) := by
  induction steps generalizing f keys with
  | nil =>
    cases hrun
    exact h
  | cons step steps ih =>
    rw [run, List.foldlM_cons] at hrun
    obtain ⟨next, happly, hrest⟩ := bind_eq_ok.mp hrun
    exact ih (covers_of_apply h happly) hrest

end SessionStep

theorem Form.reachable_iff {f : Form} : Reachable f ↔ WellFormed f := by
  constructor
  · intro h
    induction h with
    | entered start => exact start.wellFormed
    | step _ taken ih => exact (SessionStep.covers_of_apply (covers_nil ih) taken).wellFormed
  · -- what a well-formed form exports is an input that leads to it again
    exact fun h => .entered (.ofBytes (ofBytes_kind h))

end PagedFilter
