import PagedFilter.Proofs.Filter.AcceptanceRule
import PagedFilter.Proofs.Geometry.Overriding
/-! Planned geometries are valid, and a request makes the filter of its geometry in every form. -/
namespace PagedFilter

open PagedView (WellFormed)

def Geometry.Makes (g : Geometry) (f : AnyFilter) : Prop :=
  AnyFilter.create g = .ok f ∧ WellFormed f ∧ g.ShownEmpty (shown f)

theorem Geometry.Valid.makes {g : Geometry} (h : g.Valid) : ∃ f, g.Makes f := by
  have hrule : refusalOfGeometry g.way g.pageLevel g.pageNum = none :=
    (g.answers_check.mono fun _ _ => rfl).eq_ok_iff.mp h.check
  obtain ⟨f, hmade, hshown⟩ := g.createsAlike.any.made hrule
  exact ⟨f, hmade, (AnyFilter.wellFormed_create g).of_eq_ok hmade, hshown⟩

theorem AnyFilter.answers_withRate (items : Nat) (rate : Float) :
    Answers (fun f => ∃ g, plan items rate = .ok g ∧ g.Makes f) (refusalOfPlan items rate)
      (withRate items rate) := by
  have hplan := answers_plan items rate
  refine ⟨?_, ?_⟩
  · intro cause hcause
    rw [withRate, hplan.refused cause hcause]
    rfl
  · intro hnone
    obtain ⟨g, hg, hsizes⟩ := hplan.made hnone
    obtain ⟨f, hf⟩ := hsizes.valid.makes
    refine ⟨f, ?_, g, hg, hf⟩
    rw [withRate, hg]
    exact hf.1

/-- A plan is refused just where the bytes need more pages of the last level than may be planned.
Else it has the fewest pages that hold them, of the first level that is fit for both. -/
theorem plans_size_budgets :
    (∀ (budget : Budget) (items : Nat), 4 ≤ budget.way → budget.way ≤ 8 →
      Answers (fun g => budget.Sizes g ∧ ∃ f, g.Makes f) (budget.refusal items)
        (budget.geometry items)) ∧
    ∀ (items : Nat) (rate : Float), rate.isNaN = false →
      let budget := Budget.estimate (max items 1) rate
      (4 ≤ budget.way ∧ budget.way ≤ 8) ∧ budget.bytes < 2 ^ 64 ∧
      Answers (fun g => budget.Sizes g ∧ ∃ f, g.Makes f) (budget.refusal (max items 1))
        (plan items rate) ∧
      Answers (fun f => ∃ g, plan items rate = .ok g ∧ g.Makes f) (budget.refusal (max items 1))
        (AnyFilter.withRate items rate) := by
  constructor
  · intro budget items hge hle
    exact (Budget.answers_geometry ⟨hge, hle⟩ items).mono fun g hg => ⟨hg, hg.valid.makes⟩
  · intro items rate hnan
    have hrule : refusalOfPlan items rate =
        (Budget.estimate (max items 1) rate).refusal (max items 1) := by
      rw [refusalOfPlan, hnan]
      rfl
    have hplan := answers_plan items rate
    have hmade := AnyFilter.answers_withRate items rate
    rw [hrule] at hplan hmade
    exact ⟨Budget.way_estimate _ _, Budget.bytes_estimate_lt _ _,
      hplan.mono fun g hg => ⟨hg, hg.valid.makes⟩, hmade⟩

theorem plans_size_budgets_of_640_bytes :
    (∃ g, Budget.geometry ⟨7, 640⟩ 500 = .ok g ∧ Budget.Sizes ⟨7, 640⟩ g) ∧
    (∃ g, Budget.geometry ⟨4, 0⟩ 1 = .ok g ∧ Budget.Sizes ⟨4, 0⟩ g) ∧
    Budget.geometry ⟨8, 4096 * (2 ^ 31 - 1) + 1⟩ 9 = refuse (.tooManyItems 9 (2 ^ 31)) ∧
    (0.01 : Float).isNaN = false ∧
    4 ≤ (Budget.estimate 500 0.01).way ∧ (Budget.estimate 500 0.01).bytes < 2 ^ 64 := by
  have hnan : (0.01 : Float).isNaN = false := by decide +kernel
  have hseven := (plans_size_budgets.1 ⟨7, 640⟩ 500 (by decide) (by decide)).made (by decide)
  have hzero := (plans_size_budgets.1 ⟨4, 0⟩ 1 (by decide) (by decide)).made (by decide)
  have hmany := (plans_size_budgets.1 ⟨8, 4096 * (2 ^ 31 - 1) + 1⟩ 9 (by decide)
    (by decide)).refused (.tooManyItems 9 (2 ^ 31)) rfl
  obtain ⟨hway, hbytes, -⟩ := plans_size_budgets.2 500 0.01 hnan
  exact ⟨hseven.imp fun _ h => ⟨h.1, h.2.1⟩, hzero.imp fun _ h => ⟨h.1, h.2.1⟩, hmany, hnan,
    hway.1, hbytes⟩

theorem SharedFilter.shown_ofAny {f : AnyFilter} (h : WellFormed f) :
    shown (ofAny f) = shown f := by
  rw [(wellFormed_ofAny h).shown_eq, h.shown_eq]
  rfl

structure Sizing.Describes (sizing : Sizing) (f : AnyFilter) : Prop where
  geometry_eq : sizing.geometry = KeyFilter.geometry f
  capacity_eq : KeyFilter.capacity f = .ok sizing.capacity
  memoryBytes_eq : sizing.memoryBytes = (StoredFilter.data f).size

namespace FilterRequest

/-- What the final steps of a request answer: the refusal of its geometry, or one empty filter of
the geometry, alone, shared, and with a sizing that describes it. -/
structure BuildsAlike (request : FilterRequest) : Prop where
  refused : ∀ failure, request.geometry = .error failure →
    request.build = .error failure ∧ request.buildShared = .error failure ∧
      request.buildSized = .error failure
  made : ∀ g, request.geometry = .ok g → ∃ f sizing,
    request.build = .ok f ∧ g.ShownEmpty (shown f) ∧
    request.buildShared = .ok (.ofAny f) ∧ g.ShownEmpty (shown (SharedFilter.ofAny f)) ∧
    request.buildSized = .ok (f, sizing) ∧ sizing.Describes f

theorem buildSized_of_makes {request : FilterRequest} {g : Geometry} {f : AnyFilter}
    (hg : request.geometry = .ok g) (hvalid : g.Valid) (hf : g.Makes f) :
    ∃ sizing, request.buildSized = .ok (f, sizing) ∧ sizing.Describes f := by
  obtain ⟨hmade, -, hshown⟩ := hf
  have hgeometry : KeyFilter.geometry f = g := congrArg Shown.geometry hshown
  have hsize : KeyFilter.dataLen f = g.dataLen := by
    rw [hvalid.dataLen, ← size_zeros (g.pageNum.toNat * 2 ^ g.pageLevel)]
    exact congrArg Shown.dataLen hshown
  have hbuffer : (StoredFilter.data f).size = g.dataLen := by
    have hzeros : StoredFilter.data f = zeros (g.pageNum.toNat * 2 ^ g.pageLevel) :=
      congrArg Shown.buffer hshown
    rw [hzeros, size_zeros, hvalid.dataLen]
  obtain ⟨capacity, hcapacity⟩ := capacity_total hvalid
  rw [buildSized, hg, ok_bind, hmade, ok_bind]
  dsimp only
  rw [hcapacity, lift_ok, ok_bind]
  refine ⟨_, rfl, hgeometry.symm, ?_, hbuffer.symm⟩
  rw [KeyFilter.capacity, hsize, hgeometry]
  exact hcapacity

theorem buildsAlike (request : FilterRequest) : request.BuildsAlike := by
  constructor
  · intro failure hfailure
    rw [buildShared, build, buildSized, hfailure]
    exact ⟨rfl, rfl, rfl⟩
  · intro g hg
    have hvalid : g.Valid := request.delivers_geometry.of_eq_ok hg
    obtain ⟨f, hf⟩ := hvalid.makes
    obtain ⟨sizing, hsized, hdescribes⟩ := buildSized_of_makes hg hvalid hf
    obtain ⟨hmade, hwell, hshown⟩ := hf
    have hbuild : request.build = .ok f := by
      rw [build, hg]
      exact hmade
    have hshared : request.buildShared = .ok (.ofAny f) := by
      rw [buildShared, hbuild]
      rfl
    refine ⟨f, sizing, hbuild, hshown, hshared, ?_, hsized, hdescribes⟩
    rw [SharedFilter.shown_ofAny hwell]
    exact hshown

end FilterRequest

/-- A request is given the plan itself or, for the last way it asks for, the planned bytes in pages
that are large enough, and all its final steps make the same filter of that. -/
theorem requests_keep_plans :
    (∀ items rate, (FilterRequest.ofRate items rate).geometry = plan items rate) ∧
    (∀ items rate ways way, Overrides way (plan items rate)
      (FilterRequest.ofWays items rate (ways ++ [way])).geometry) ∧
    ∀ request : FilterRequest, request.BuildsAlike := by
  refine ⟨FilterRequest.geometry_ofRate, ?_, FilterRequest.buildsAlike⟩
  intro items rate ways way
  rw [FilterRequest.ofWays_concat]
  exact FilterRequest.overrides_plan items rate way

end PagedFilter
