import PagedFilter.Proofs.Session.Reachable
/-! The number of pages and its reciprocal are found again from the length of the buffer. -/
namespace PagedFilter

open PagedView (WellFormed way bits)

theorem PagedBits.Whole.eq_of_exported {a b : PagedBits} (ha : a.Whole) (hb : b.Whole)
    (hlevel : a.pageLevel = b.pageLevel) (hcount : a.uniqueCount = b.uniqueCount)
    (hdata : a.data = b.data) : a = b := by
  -- one length and one level leave one number of pages, and the number has one reciprocal
  have hbytes : a.pageNum.toNat * 2 ^ b.pageLevel = b.pageNum.toNat * 2 ^ b.pageLevel := by
    rw [← hb.size_data, ← hdata, ha.size_data, hlevel]
  have hnum : a.pageNum = b.pageNum :=
    UInt32.toNat_inj.mp (Nat.eq_of_mul_eq_mul_right (Nat.two_pow_pos _) hbytes)
  have hpages : a.pages = b.pages := by
    have hof := ha.pages_eq
    rw [hnum, hb.pages_eq] at hof
    exact (Except.ok.inj hof).symm
  cases a
  cases b
  simp only [PagedBits.mk.injEq]
  exact ⟨hdata, hlevel, hpages, hcount⟩

/-- On every run of operations the two give the same answers, fail alike and show the same. -/
def RunAlike {F G : Type} [KeyFilter F] [PagedView F] [FrontEnd F] [KeyFilter G] [PagedView G]
    [FrontEnd G] (f : F) (g : G) : Prop :=
  ∀ ops, (KeyFilter.run f ops).map (Prod.map id shown) =
    (KeyFilter.run g ops).map (Prod.map id shown)

theorem PagedView.WellFormed.runAlike {F G : Type} [KeyFilter F] [PagedView F] [FrontEnd F]
    [KeyFilter G] [PagedView G] [FrontEnd G] {f : F} {g : G} (hf : WellFormed f)
    (hg : WellFormed g) (hway : way f = way g) (hbits : bits f = bits g) : RunAlike f g := by
  intro ops
  rw [hf.runsAs, hg.runsAs, hway, hbits]

namespace Form

instance : FrontEnd Form where
  buffer f := f.contents.1
  buffer_eq f := congrArg Prod.fst f.contents_eq
  dataLen_eq f h := by
    cases f with
    | fixed g => rfl
    | any g => exact FrontEnd.dataLen_eq g ⟨h.bits_wellFormed, h.geometry_eq⟩
    | shared g => exact FrontEnd.dataLen_eq g ⟨h.bits_wellFormed, h.geometry_eq⟩

end Form

/-- Reachable bits are rebuilt from what is exported of them. So is a reachable filter in its own
kind, and in any other kind it goes on as the filter that was exported. -/
theorem rebuilding_lossless :
    (∀ (way : Nat) (b : PagedBits), PagedBits.Reachable way b →
      PagedBits.ofBytes way b.pageLevel b.data b.uniqueCount = .ok b) ∧
    (∀ (v w : Nat) (a b : PagedBits), PagedBits.Reachable v a → PagedBits.Reachable w b →
      (a = b ↔ a.pageLevel = b.pageLevel ∧ a.uniqueCount = b.uniqueCount ∧ a.data = b.data)) ∧
    (∀ f : Form, Form.Reachable f → (SessionStep.rebuild f.kind).apply f = .ok f ∧
      ∀ kind, ∃ g, (SessionStep.rebuild kind).apply f = .ok g ∧ RunAlike f g) ∧
    (∀ f g : Form, Form.Reachable f → Form.Reachable g → f.kind = g.kind →
      (f = g ↔ (KeyFilter.geometry f).way = (KeyFilter.geometry g).way ∧
        (KeyFilter.geometry f).pageLevel = (KeyFilter.geometry g).pageLevel ∧
        f.contents = g.contents)) := by
  refine ⟨?_, ?_, ?_, ?_⟩
  · exact fun way b hb => (PagedBits.reachable_iff.mp hb).ofBytes_eq
  · intro v w a b ha hb
    constructor
    · rintro rfl
      exact ⟨rfl, rfl, rfl⟩
    · rintro ⟨hlevel, hcount, hdata⟩
      exact (PagedBits.reachable_iff.mp ha).toWhole.eq_of_exported
        (PagedBits.reachable_iff.mp hb).toWhole hlevel hcount hdata
  · intro f hreach
    have hf : WellFormed f := Form.reachable_iff.mp hreach
    refine ⟨Form.ofBytes_kind hf, ?_⟩
    intro kind
    have hrebuild : ∀ op, SessionStep.rebuild kind ≠ .operate op := nofun
    obtain ⟨g, hmade, hg⟩ := SessionStep.apply_carries hf hrebuild
    exact ⟨g, hmade, hf.runAlike hg.wellFormed hg.way_eq.symm hg.bits_eq.symm⟩
  · intro f g hreach hreach' hkind
    constructor
    · rintro rfl
      exact ⟨rfl, rfl, rfl⟩
    · rintro ⟨hway, hlevel, hcontents⟩
      have hf := Form.ofBytes_kind (Form.reachable_iff.mp hreach)
      have hg := Form.ofBytes_kind (Form.reachable_iff.mp hreach')
      rw [hway, hlevel, hcontents, hkind, hg] at hf
      exact (Except.ok.inj hf).symm

theorem rebuilding_lossless_three_pages :
    let data := markBits (zeros 192) [5, 700]
    let b : PagedBits := ⟨data, 6, ⟨0x5555555555555556, 3⟩, 7⟩
    let f : Form := .shared (.ofAny (.way4 ⟨b⟩))
    PagedBits.Reachable 4 b ∧ PagedBits.ofBytes 4 6 data 7 = .ok b ∧
      (∀ a, PagedBits.Reachable 4 a → a.pageLevel = 6 ∧ a.uniqueCount = 7 ∧ a.data = data →
        a = b) ∧
      Form.Reachable f ∧ (SessionStep.rebuild .shared).apply f = .ok f ∧
      (∃ g, (SessionStep.rebuild .fixed).apply f = .ok g ∧ RunAlike f g) ∧
      ∀ g, Form.Reachable g → g.kind = .shared → KeyFilter.geometry g = ⟨4, 6, 3⟩ →
        g.contents = (data, 7) → g = f := by
  intro data b f
  have hsize : data.size = 192 := (size_markBits _ _).trans (size_zeros 192)
  clear_value data
  have hwell : b.WellFormed 4 := PagedBits.wellFormed_three_pages data hsize 7
  have hb : PagedBits.Reachable 4 b := PagedBits.reachable_iff.mpr hwell
  have hf : Form.Reachable f := Form.reachable_iff.mpr ⟨hwell, rfl⟩
  obtain ⟨hbits, hsame, hform, hsameForm⟩ := rebuilding_lossless
  refine ⟨hb, hbits 4 b hb, ?_, hf, (hform f hf).1, (hform f hf).2 .fixed, ?_⟩
  · exact fun a ha => (hsame 4 4 a b ha hb).mpr
  · intro g hg hkind hgeometry hcontents
    refine (hsameForm g f hg hf hkind).mpr ?_
    rw [hgeometry, hcontents]
    exact ⟨rfl, rfl, rfl⟩

end PagedFilter
