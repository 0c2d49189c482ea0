import PagedFilter.Proofs.Format.Frame
import PagedFilter.Proofs.Format.Snapshot
import PagedFilter.Session
/-! Changing the form of a filter, and saving and restoring it, keeps the way and the bits. -/
namespace PagedFilter

open PagedView (WellFormed)

namespace Form

def way : Form → Nat
  | @fixed way _ => way
  | any g => g.way
  | shared g => g.inner.way

def bits : Form → PagedBits
  | fixed g => g.bits
  | any g => g.bits
  | shared g => g.inner.bits

def withBits (f : Form) (b : PagedBits) : Form :=
  match f with
  | @fixed way _ => fixed (⟨b⟩ : FixedFilter way)
  | any g => any (g.withBits b)
  | shared g => shared { g with inner := g.inner.withBits b }

private theorem set_eq (f : Form) (key : ByteArray) :
    KeyFilter.set f key = (f.bits.set f.way key).map (Prod.map id f.withBits) := by
  cases f with
  | fixed g => exact map_wrap (PagedView.set_eq g key) fixed
  | any g => exact map_wrap (PagedView.set_eq g key) any
  | shared g => exact map_wrap (PagedView.set_eq g key) shared

private theorem setBatch_eq (f : Form) (keys : List ByteArray) :
    KeyFilter.setBatch f keys =
      (countNew (PagedBits.set · f.way) f.bits keys).map (Prod.map id f.withBits) := by
  cases f with
  | fixed g => exact map_wrap (PagedView.setBatch_eq g keys) fixed
  | any g => exact map_wrap (PagedView.setBatch_eq g keys) any
  | shared g => exact map_wrap (PagedView.setBatch_eq g keys) shared

instance : PagedView Form where
  way := way
  bits := bits
  withBits := withBits
  way_withBits f b := by
    cases f with
    | fixed g => rfl
    | any g => exact g.way_withBits b
    | shared g => exact g.inner.way_withBits b
  bits_withBits f b := by
    cases f with
    | fixed g => rfl
    | any g => exact g.bits_withBits b
    | shared g => exact g.inner.bits_withBits b
  withBits_bits f := by
    cases f with
    | fixed g => rfl
    | any g => exact congrArg any g.withBits_bits
    | shared g => exact congrArg shared (PagedView.withBits_bits g)
  withBits_withBits f b c := by
    cases f with
    | fixed g => rfl
    | any g => exact congrArg any (g.withBits_withBits b c)
    | shared g => exact congrArg shared (PagedView.withBits_withBits g b c)
  set_eq := set_eq
  setBatch_eq := setBatch_eq
  test_eq f key := by
    cases f with
    | fixed g => exact PagedView.test_eq g key
    | any g => exact PagedView.test_eq g key
    | shared g => exact PagedView.test_eq g key
  testBatch_eq f keys := by
    cases f with
    | fixed g => exact PagedView.testBatch_eq g keys
    | any g => exact PagedView.testBatch_eq g keys
    | shared g => exact PagedView.testBatch_eq g keys
  clear_eq f := by
    cases f with
    | fixed g => exact congrArg fixed (PagedView.clear_eq g)
    | any g => exact congrArg any (PagedView.clear_eq g)
    | shared g => exact congrArg shared (PagedView.clear_eq g)
  uniqueCount_eq f := by
    cases f with
    | fixed g => exact PagedView.uniqueCount_eq g
    | any g => exact PagedView.uniqueCount_eq g
    | shared g => exact PagedView.uniqueCount_eq g
  geometry_withBits f b h := by
    cases f with
    | fixed g => exact PagedView.geometry_withBits g b h
    | any g => exact PagedView.geometry_withBits g b h
    | shared g => exact PagedView.geometry_withBits g b h

structure Carries (way : Nat) (b : PagedBits) (f : Form) : Prop where
  wellFormed : WellFormed f
  way_eq : f.way = way
  bits_eq : f.bits = b

theorem carries_any {way : Nat} {b : PagedBits} {g : AnyFilter}
    (h : WellFormed g ∧ g.way = way ∧ g.bits = b) : Carries way b (any g) :=
  ⟨⟨h.1.bits_wellFormed, h.1.geometry_eq⟩, h.2.1, h.2.2⟩

theorem carries_shared {way : Nat} {b : PagedBits} {g : AnyFilter}
    (h : WellFormed g ∧ g.way = way ∧ g.bits = b) : Carries way b (shared (.ofAny g)) :=
  ⟨⟨h.1.bits_wellFormed, h.1.geometry_eq⟩, h.2.1, h.2.2⟩

theorem carries_fixed {way : Nat} {b : PagedBits} (h : b.WellFormed way) :
    Carries way b (fixed (⟨b⟩ : FixedFilter way)) :=
  ⟨⟨h, rfl⟩, rfl, rfl⟩

def ofBits (way : Nat) (kind : FormKind) (b : PagedBits) : Except Failure Form :=
  match kind with
  | .fixed => .ok (fixed (⟨b⟩ : FixedFilter way))
  | .any => return any (← AnyFilter.ofBits way b)
  | .shared => return shared (.ofAny (← AnyFilter.ofBits way b))

theorem ofBits_total {way : Nat} {b : PagedBits} (h : b.WellFormed way) (kind : FormKind) :
    ∃ f, ofBits way kind b = .ok f ∧ Carries way b f := by
  obtain ⟨f, hplace, hf⟩ := AnyFilter.ofBits_total h
  cases kind with
  | fixed => exact ⟨_, rfl, carries_fixed h⟩
  | any =>
    refine ⟨_, ?_, carries_any hf⟩
    rw [ofBits, hplace]
    rfl
  | shared =>
    refine ⟨_, ?_, carries_shared hf⟩
    rw [ofBits, hplace]
    rfl

theorem create_eq (g : Geometry) (kind : FormKind) :
    create g kind = PagedBits.create g.way g.pageLevel g.pageNum >>= ofBits g.way kind := by
  cases kind with
  | fixed =>
    rw [create, FixedFilter.create]
    cases PagedBits.create g.way g.pageLevel g.pageNum <;> rfl
  | any =>
    rw [create, AnyFilter.create_eq]
    cases PagedBits.create g.way g.pageLevel g.pageNum <;> rfl
  | shared =>
    rw [create, AnyFilter.create_eq]
    cases PagedBits.create g.way g.pageLevel g.pageNum <;> rfl

theorem ofBytes_eq (way level : Nat) (data : ByteArray) (uniqueCount : UInt64) (kind : FormKind) :
    ofBytes way level data uniqueCount kind =
      PagedBits.ofBytes way level data uniqueCount >>= ofBits way kind := by
  cases kind with
  | fixed =>
    rw [ofBytes, FixedFilter.ofBytes]
    cases PagedBits.ofBytes way level data uniqueCount <;> rfl
  | any =>
    rw [ofBytes, AnyFilter.ofBytes_eq]
    cases PagedBits.ofBytes way level data uniqueCount <;> rfl
  | shared =>
    rw [ofBytes, SharedFilter.ofBytes, AnyFilter.ofBytes_eq]
    cases PagedBits.ofBytes way level data uniqueCount with
    | error e => rfl
    | ok b =>
      rw [ok_bind, ok_bind, ofBits]
      cases AnyFilter.ofBits way b <;> rfl

private theorem carries_of_bind {x : Except Failure PagedBits} {way : Nat} {kind : FormKind}
    {f : Form} (hx : Delivers (PagedBits.WellFormed way) x)
    (h : x >>= ofBits way kind = .ok f) : ∃ b, x = .ok b ∧ Carries way b f := by
  obtain ⟨b, rfl, hplace⟩ := bind_eq_ok.mp h
  obtain ⟨made, hmade, hcarries⟩ := ofBits_total hx kind
  rw [hmade] at hplace
  cases hplace
  exact ⟨b, rfl, hcarries⟩

theorem carries_of_create {g : Geometry} {kind : FormKind} {f : Form}
    (h : create g kind = .ok f) :
    ∃ b, PagedBits.create g.way g.pageLevel g.pageNum = .ok b ∧ Carries g.way b f := by
  rw [create_eq] at h
  exact carries_of_bind ((PagedBits.delivers_create _ _ _).mono fun _ hb => hb.1) h

theorem carries_of_ofBytes {way level : Nat} {data : ByteArray} {uniqueCount : UInt64}
    {kind : FormKind} {f : Form} (h : ofBytes way level data uniqueCount kind = .ok f) :
    ∃ b, PagedBits.ofBytes way level data uniqueCount = .ok b ∧ Carries way b f := by
  rw [ofBytes_eq] at h
  exact carries_of_bind ((PagedBits.delivers_ofBytes _ _ _ _).mono fun _ hb => hb.1) h

theorem convert_total {f : Form} (h : WellFormed f) :
    ∃ g, f.convert = .ok g ∧ Carries f.way f.bits g := by
  cases f with
  | @fixed way g =>
    obtain ⟨f, hplace, hf⟩ := AnyFilter.ofFixed?_total (g.wellFormed_iff.mpr h.bits_wellFormed)
    refine ⟨_, ?_, carries_any hf⟩
    rw [convert, hplace]
    rfl
  | any g => exact ⟨_, rfl, carries_shared ⟨g.wellFormed_iff.mpr h.bits_wellFormed, rfl, rfl⟩⟩
  | shared g =>
    exact ⟨_, rfl, carries_any ⟨g.inner.wellFormed_iff.mpr h.bits_wellFormed, rfl, rfl⟩⟩

theorem contents_eq (f : Form) : f.contents = (f.bits.data, f.bits.uniqueCount) := by
  cases f with
  | fixed g => rfl
  | any g => exact Prod.ext (StoredView.data_eq g) (PagedView.uniqueCount_eq g)
  | shared g => exact Prod.ext (StoredView.data_eq g.inner) (PagedView.uniqueCount_eq g.inner)

theorem frame_eq {f : Form} (h : WellFormed f) :
    ∃ g : AnyFilter, f.frame = Frame.encode g ∧ WellFormed g ∧ g.way = f.way ∧ g.bits = f.bits := by
  cases f with
  | @fixed way g =>
    have hg : WellFormed g := g.wellFormed_iff.mpr h.bits_wellFormed
    obtain ⟨f, hplace, hf⟩ := AnyFilter.ofFixed?_total hg
    exact ⟨f, (Frame.encode_ofFixed? hg hf.1 hplace).symm, hf⟩
  | any g => exact ⟨g, rfl, g.wellFormed_iff.mpr h.bits_wellFormed, rfl, rfl⟩
  | shared g => exact ⟨g.inner, rfl, g.inner.wellFormed_iff.mpr h.bits_wellFormed, rfl, rfl⟩

theorem snapshot_eq {f : Form} (h : WellFormed f) : f.snapshot = .ofBits f.way f.bits := by
  cases f with
  | fixed g => exact Snapshot.ofFilter_eq (g.wellFormed_iff.mpr h.bits_wellFormed)
  | any g => exact Snapshot.ofFilter_eq (g.wellFormed_iff.mpr h.bits_wellFormed)
  | shared g => exact Snapshot.ofShared_eq ⟨h.bits_wellFormed, h.geometry_eq⟩

end Form

namespace SessionStep
variable {f : Form}

/-- Every step but an operation succeeds and carries the same way and bits on. -/
theorem apply_carries (h : WellFormed f) {step : SessionStep}
    (hstep : ∀ op, step ≠ operate op) :
    ∃ g, step.apply f = .ok g ∧ Form.Carries f.way f.bits g := by
  have hbits : f.bits.WellFormed f.way := h.bits_wellFormed
  cases step with
  | operate op => exact absurd rfl (hstep op)
  | convert => exact Form.convert_total h
  | rebuild kind =>
    have hgeometry : KeyFilter.geometry f = ⟨f.way, f.bits.pageLevel, f.bits.pageNum⟩ :=
      h.geometry_eq
    obtain ⟨g, hplace, hg⟩ := Form.ofBits_total hbits kind
    refine ⟨g, ?_, hg⟩
    rw [apply, hgeometry, f.contents_eq]
    dsimp only
    rw [Form.ofBytes_eq, hbits.ofBytes_eq, ok_bind, hplace]
  | reframe =>
    obtain ⟨g, hframe, hg⟩ := Form.frame_eq h
    refine ⟨_, ?_, Form.carries_any hg⟩
    rw [apply, hframe, Frame.decode_encode hg.1]
    rfl
  | resnapshot =>
    obtain ⟨g, hplace, hg⟩ := AnyFilter.ofBits_total hbits
    refine ⟨_, ?_, Form.carries_any hg⟩
    rw [apply, Form.snapshot_eq h, Snapshot.toAny_ofBits hbits, AnyFilter.ofBytes_eq,
      hbits.ofBytes_eq, ok_bind, hplace]
    rfl

end SessionStep
end PagedFilter
