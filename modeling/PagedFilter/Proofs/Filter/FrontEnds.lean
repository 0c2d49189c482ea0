import PagedFilter.Proofs.Filter.EntryPoints
import PagedFilter.Proofs.Storage.Steps
/-! Every front end is one machine: its operations are steps of its bits on single keys. -/
namespace PagedFilter

open PagedView (WellFormed way bits withBits)

namespace FilterHandle

theorem set_eq (f : FilterHandle) (key : ByteArray) :
    KeyFilter.set f key = (KeyFilter.set f.target key).map (Prod.map id FilterHandle.mk) := by
  change KeyFilter.set f.target key >>= (fun r => .ok (r.1, FilterHandle.mk r.2)) = _
  cases KeyFilter.set f.target key <;> rfl

instance : PagedView FilterHandle where
  way f := way f.target
  bits f := bits f.target
  withBits f b := ⟨withBits f.target b⟩
  way_withBits f b := PagedView.way_withBits f.target b
  bits_withBits f b := PagedView.bits_withBits f.target b
  withBits_bits f := by rw [PagedView.withBits_bits]
  withBits_withBits f b c := by rw [PagedView.withBits_withBits]
  set_eq f key := by
    rw [set_eq, PagedView.set_eq]
    cases (bits f.target).set (way f.target) key <;> rfl
  setBatch_eq f keys := by
    change countNew KeyFilter.set (FilterHandle.mk f.target) keys = _
    rw [countNew_wrap FilterHandle.mk (fun target key => set_eq ⟨target⟩ key),
      PagedView.countNew_eq]
    cases countNew (PagedBits.set · (way f.target)) (bits f.target) keys <;> rfl
  test_eq f key := PagedView.test_eq f.target key
  testBatch_eq _ _ := rfl
  clear_eq f := congrArg FilterHandle.mk (PagedView.clear_eq f.target)
  uniqueCount_eq f := PagedView.uniqueCount_eq f.target
  geometry_withBits f b h := PagedView.geometry_withBits f.target b h

end FilterHandle

class FrontEnd (F : Type) [KeyFilter F] [PagedView F] where
  buffer : F → ByteArray
  buffer_eq (f : F) : buffer f = (bits f).data
  dataLen_eq (f : F) : WellFormed f → KeyFilter.dataLen f = (bits f).data.size

theorem PagedView.WellFormed.dataLen_geometry {F : Type} [KeyFilter F] [PagedView F] {f : F}
    (h : WellFormed f) : (KeyFilter.geometry f).dataLen = (bits f).data.size := by
  rw [h.geometry_eq, h.whole.size_data]
  exact bytesOfPages_eq _ _ (bits f).pageNum.toNat_lt h.whole.level_le

instance {way : Nat} : FrontEnd (FixedFilter way) where
  buffer := StoredFilter.data
  buffer_eq := StoredView.data_eq
  dataLen_eq _ _ := rfl

instance : FrontEnd AnyFilter where
  buffer := StoredFilter.data
  buffer_eq := StoredView.data_eq
  dataLen_eq f _ := by cases f <;> rfl

instance : FrontEnd SharedFilter where
  buffer f := f.contents.1
  buffer_eq f := StoredView.data_eq f.inner
  dataLen_eq _ h := h.dataLen_geometry

instance : FrontEnd FilterHandle where
  buffer f := f.target.contents.1
  buffer_eq f := StoredView.data_eq f.target.inner
  dataLen_eq _ h := h.dataLen_geometry

structure Shown where
  buffer : ByteArray
  uniqueCount : UInt64
  geometry : Geometry
  dataLen : Nat
  capacity : Except Fault Nat

def shown {F : Type} [KeyFilter F] [PagedView F] [FrontEnd F] (f : F) : Shown where
  buffer := FrontEnd.buffer f
  uniqueCount := KeyFilter.uniqueCount f
  geometry := KeyFilter.geometry f
  dataLen := KeyFilter.dataLen f
  capacity := KeyFilter.capacity f

def PagedBits.shown (way : Nat) (bits : PagedBits) : Shown where
  buffer := bits.data
  uniqueCount := bits.uniqueCount
  geometry := ⟨way, bits.pageLevel, bits.pageNum⟩
  dataLen := bits.data.size
  capacity := .ok (bits.data.size * 8 / way)

theorem PagedView.WellFormed.shown_eq {F : Type} [KeyFilter F] [PagedView F] [FrontEnd F] {f : F}
    (h : WellFormed f) : shown f = (bits f).shown (way f) := by
  have hsize := h.whole.size_lt
  have hway : 4 ≤ way f := h.bits_wellFormed.fits.1.1
  have hfits : ¬2 ^ 64 ≤ (bits f).data.size * 8 := by omega
  have hne : way f ≠ 0 := by omega
  have hcapacity : KeyFilter.capacity f = .ok ((bits f).data.size * 8 / way f) := by
    rw [KeyFilter.capacity, FrontEnd.dataLen_eq f h, h.geometry_eq, Estimate.capacity,
      if_neg hfits, if_neg hne]
  rw [shown, FrontEnd.buffer_eq, PagedView.uniqueCount_eq, FrontEnd.dataLen_eq f h, h.geometry_eq,
    hcapacity]
  rfl

namespace Operation

def steps : Operation → List KeyStep
  | set key => [.set key]
  | test key => [.test key]
  | setItem item => [.set item.key]
  | testItem item => [.test item.key]
  | setBatch keys => keys.map .set
  | testBatch keys => keys.map .test
  | testAll keys => keys.map .test
  | testAny keys => keys.map .test
  | clear => [.clear]

/-- The answer of an operation, from those of its steps. -/
def summary (answers : List Answer) : Operation → Answer
  | setBatch _ => .count (answers.count (.flag true))
  | testBatch _ => .flags (answers.map (· = .flag true))
  | testAll _ => .flag (answers.all (· = .flag true))
  | testAny _ => .flag (answers.any (· = .flag true))
  | _ => answers.headD .done

end Operation

namespace PagedBits

def apply (way : Nat) (bits : PagedBits) (op : Operation) : Except Fault (Answer × PagedBits) :=
  (bits.run way op.steps).map (Prod.map op.summary id)

def applyAll (way : Nat) (bits : PagedBits) :
    List Operation → Except Fault (List Answer × PagedBits)
  | [] => return ([], bits)
  | op :: ops => do
    let (answer, bits) ← bits.apply way op
    let (answers, bits) ← bits.applyAll way ops
    return (answer :: answers, bits)

variable {bits : PagedBits} {way : Nat}

theorem Whole.samePages_of_apply (h : bits.Whole) (hway : way ≤ 8) {op : Operation}
    {answer : Answer} {after : PagedBits} (happly : bits.apply way op = .ok (answer, after)) :
    SamePages bits after := by
  obtain ⟨⟨answers, last⟩, hrun, heq⟩ := map_eq_ok.mp happly
  cases heq
  exact h.samePages_of_run hway hrun

theorem Whole.samePages_of_applyAll (h : bits.Whole) (hway : way ≤ 8) {ops : List Operation}
    {answers : List Answer} {after : PagedBits}
    (hrun : bits.applyAll way ops = .ok (answers, after)) : SamePages bits after := by
  induction ops generalizing bits answers with
  | nil =>
    cases hrun
    exact .refl after
  | cons op ops ih =>
    obtain ⟨⟨answer, next⟩, happly, hrest⟩ := bind_eq_ok.mp hrun
    obtain ⟨⟨answers, last⟩, hlast, heq⟩ := bind_eq_ok.mp hrest
    cases heq
    have hnext := h.samePages_of_apply hway happly
    exact hnext.trans (ih (hnext.whole h) hlast)

theorem run_map_set (bits : PagedBits) (way : Nat) (keys : List ByteArray) :
    (bits.run way (keys.map .set)).map (Prod.map (List.count (.flag true)) id) =
      countNew (set · way) bits keys := by
  induction keys generalizing bits with
  | nil => rfl
  | cons key keys ih =>
    rw [countNew_cons, List.map_cons, run, step]
    cases bits.set way key with
    | error e => rfl
    | ok r =>
      obtain ⟨new, next⟩ := r
      change (next.run way (keys.map .set) >>= _).map _ = (countNew (set · way) next keys).map _
      rw [← ih next]
      cases next.run way (keys.map .set) with
      | error e => rfl
      | ok r =>
        obtain ⟨answers, after⟩ := r
        cases new
        · simp [Except.map, pure, Except.pure, Prod.map]
        · simp [Except.map, pure, Except.pure, Prod.map, Nat.add_comm]

theorem Whole.run_map_test (h : bits.Whole) (hway : way ≤ 8) (keys : List ByteArray) :
    bits.run way (keys.map .test) =
      .ok (keys.map fun key => .flag (bits.covers way key), bits) := by
  induction keys with
  | nil => rfl
  | cons key keys ih =>
    rw [List.map_cons, run, h.step_test hway, ok_bind]
    dsimp only
    rw [ih]
    rfl

/-- Only the steps that set keys change the bits, and the summary of the others is the answer. -/
theorem Whole.apply_eq (h : bits.Whole) (hway : way ≤ 8) {op : Operation} (hop : op ≠ .clear) :
    bits.apply way op = (countNew (set · way) bits op.keys).map fun (n, after) =>
      (op.answer (bits.covers way) n, after) := by
  have hset (key : ByteArray) : (bits.run way [.set key]).map (Prod.map (List.headD · .done) id) =
      (countNew (set · way) bits [key]).map fun (n, after) => (.flag (n = 1), after) := by
    rw [← run_map_set, List.map_singleton, run, step]
    cases bits.set way key with
    | error e => rfl
    | ok r =>
      obtain ⟨new, next⟩ := r
      cases new <;> rfl
  have htest {op : Operation} (keys : List ByteArray) (hsteps : op.steps = keys.map .test)
      (hkeys : op.keys = []) (hsummary : op.summary (keys.map fun key =>
        .flag (bits.covers way key)) = op.answer (bits.covers way) 0) :
      bits.apply way op = (countNew (set · way) bits op.keys).map fun (n, after) =>
        (op.answer (bits.covers way) n, after) := by
    rw [apply, hsteps, h.run_map_test hway, hkeys]
    change Except.ok (op.summary _, bits) = .ok (op.answer _ 0, bits)
    rw [hsummary]
  cases op with
  | set key => exact hset key
  | setItem item => exact hset item.key
  | setBatch keys =>
    rw [Operation.keys, ← run_map_set]
    change (bits.run way (keys.map .set)).map _ = _
    cases bits.run way (keys.map .set) <;> rfl
  | test key => exact htest [key] rfl rfl (by simp [Operation.summary, Operation.answer])
  | testItem item => exact htest [item.key] rfl rfl (by simp [Operation.summary, Operation.answer])
  | testBatch keys => exact htest keys rfl rfl (by simp [Operation.summary, Operation.answer])
  | testAll keys =>
    exact htest keys rfl rfl (by simp [Operation.summary, Operation.answer, Function.comp_def])
  | testAny keys =>
    exact htest keys rfl rfl (by simp [Operation.summary, Operation.answer, Function.comp_def])
  | clear => exact absurd rfl hop

private theorem applyAll_cons {op : Operation} {ops : List Operation} {own answers : List Answer}
    {next after : PagedBits} (hrun : bits.run way op.steps = .ok (own, next))
    (hrest : next.applyAll way ops = .ok (answers, after)) :
    bits.applyAll way (op :: ops) = .ok (op.summary own :: answers, after) := by
  rw [applyAll, apply, hrun]
  change next.applyAll way ops >>= _ = _
  rw [hrest]
  rfl

theorem Whole.applyAll_of_counted (h : bits.Whole) (hway : way ≤ 8) (hcounted : bits.Counted)
    (ops : List Operation) : ∃ answers after, bits.applyAll way ops = .ok (answers, after) := by
  induction ops generalizing bits with
  | nil => exact ⟨[], bits, rfl⟩
  | cons op ops ih =>
    obtain ⟨own, next, hrun, hnext⟩ := h.run_of_counted hway hcounted op.steps
    obtain ⟨answers, after, hrest⟩ := ih ((h.samePages_of_run hway hrun).whole h) hnext
    exact ⟨_, after, applyAll_cons hrun hrest⟩

theorem Whole.applyAll_of_lt (h : bits.Whole) (hway : way ≤ 8) (ops : List Operation)
    (hcount : bits.uniqueCount.toNat + (ops.flatMap Operation.steps).length < 2 ^ 64) :
    ∃ answers after, bits.applyAll way ops = .ok (answers, after) := by
  induction ops generalizing bits with
  | nil => exact ⟨[], bits, rfl⟩
  | cons op ops ih =>
    rw [List.flatMap_cons, List.length_append] at hcount
    obtain ⟨own, next, hrun, hnext⟩ := h.run_of_lt hway op.steps _ hcount
    obtain ⟨answers, after, hrest⟩ := ih ((h.samePages_of_run hway hrun).whole h) hnext
    exact ⟨_, after, applyAll_cons hrun hrest⟩

end PagedBits

section
variable {F : Type} [KeyFilter F] [PagedView F] {f : F}

theorem PagedView.WellFormed.apply_eq_steps (h : WellFormed f) (op : Operation) :
    KeyFilter.apply f op = ((bits f).apply (way f) op).map (Prod.map id (withBits f)) := by
  by_cases hop : op = .clear
  · subst hop
    exact PagedView.apply_clear f
  · rw [h.apply_eq hop, h.whole.apply_eq h.way_le hop]
    cases countNew (PagedBits.set · (way f)) (bits f) op.keys <;> rfl

theorem PagedView.WellFormed.run_eq (h : WellFormed f) (ops : List Operation) :
    KeyFilter.run f ops =
      ((bits f).applyAll (way f) ops).map (Prod.map id (withBits f)) := by
  induction ops generalizing f with
  | nil =>
    change Except.ok ([], f) = .ok ([], withBits f (bits f))
    rw [PagedView.withBits_bits]
  | cons op ops ih =>
    rw [KeyFilter.run, PagedBits.applyAll, h.apply_eq_steps]
    cases happly : (bits f).apply (way f) op with
    | error e => rfl
    | ok r =>
      obtain ⟨answer, next⟩ := r
      have hnext := h.of_samePages (h.whole.samePages_of_apply h.way_le happly)
      have hwith : withBits (withBits f next) = withBits f :=
        funext (PagedView.withBits_withBits f next)
      change KeyFilter.run (withBits f next) ops >>= _ = ((next.applyAll _ ops) >>= _).map _
      rw [ih hnext, PagedView.way_withBits, PagedView.bits_withBits, hwith]
      cases next.applyAll (way f) ops <;> rfl

theorem PagedView.WellFormed.wellFormed_of_run {g : F} (h : WellFormed f) {ops : List Operation}
    {answers : List Answer} (hrun : KeyFilter.run f ops = .ok (answers, g)) : WellFormed g := by
  rw [h.run_eq] at hrun
  obtain ⟨⟨answers, after⟩, hbits, heq⟩ := map_eq_ok.mp hrun
  cases heq
  exact h.of_samePages (h.whole.samePages_of_applyAll h.way_le hbits)

variable [FrontEnd F]

/-- On every run of operations the filter gives the answers that the bits give at the way, fails
where they fail, and shows of the state reached what they show. -/
def RunsAs (way : Nat) (b : PagedBits) (f : F) : Prop :=
  ∀ ops, (KeyFilter.run f ops).map (Prod.map id shown) =
    (b.applyAll way ops).map (Prod.map id (PagedBits.shown way))

theorem PagedView.WellFormed.runsAs (h : WellFormed f) : RunsAs (way f) (bits f) f := by
  intro ops
  rw [h.run_eq]
  cases hrun : (bits f).applyAll (way f) ops with
  | error e => rfl
  | ok r =>
    obtain ⟨answers, after⟩ := r
    have hafter := h.of_samePages (h.whole.samePages_of_applyAll h.way_le hrun)
    change Except.ok (answers, shown (withBits f after)) = .ok (answers, after.shown (way f))
    rw [hafter.shown_eq, PagedView.way_withBits, PagedView.bits_withBits]

end

/-- Bits and the front ends around them run as one, and the shared filter keeps a true geometry. -/
structure InStep {way : Nat} (b : PagedBits) (fixed : FixedFilter way) (any : AnyFilter)
    (shared : SharedFilter) : Prop where
  fixed_runs : RunsAs way b fixed
  any_runs : RunsAs way b any
  shared_runs : RunsAs way b shared
  handle_runs : RunsAs way b (FilterHandle.mk shared)
  reached (ops : List Operation) (answers : List Answer) (g : SharedFilter) :
    KeyFilter.run shared ops = .ok (answers, g) →
      g.cached = KeyFilter.geometry g.inner ∧ ∀ keys,
        KeyFilter.testBatch g keys = keys.mapM (KeyFilter.test g) ∧
        KeyFilter.testBatch (FilterHandle.mk g) keys =
          keys.mapM (KeyFilter.test (FilterHandle.mk g))

theorem AnyFilter.inStep {f : AnyFilter} (h : WellFormed f) :
    InStep f.bits (⟨f.bits⟩ : FixedFilter f.way) f (.ofAny f) := by
  have hbits : f.bits.WellFormed f.way := h.bits_wellFormed
  have hfixed : WellFormed (⟨f.bits⟩ : FixedFilter f.way) :=
    (FixedFilter.wellFormed_iff _).mpr hbits
  have hshared : WellFormed (SharedFilter.ofAny f) := SharedFilter.wellFormed_ofAny h
  have hhandle : WellFormed (FilterHandle.mk (.ofAny f)) := ⟨hbits, hshared.geometry_eq⟩
  refine ⟨hfixed.runsAs, h.runsAs, hshared.runsAs, hhandle.runsAs, ?_⟩
  intro ops answers g hrun
  have hg : WellFormed g := hshared.wellFormed_of_run hrun
  refine ⟨?_, fun keys => ⟨rfl, rfl⟩⟩
  rw [g.inner.geometry_eq]
  exact hg.geometry_eq

/-- Made of any accepted geometry, new or with the same buffer and count, all front ends give the
answers of the bits on every run of operations and show the same in every state. -/
theorem front_ends_agree (g : Geometry) (h : g.Valid) :
    (∃ b fixed any, PagedBits.create g.way g.pageLevel g.pageNum = .ok b ∧
      FixedFilter.create g.way g.pageLevel g.pageNum = .ok fixed ∧ AnyFilter.create g = .ok any ∧
      InStep b fixed any (.ofAny any) ∧
      ∀ ops, ∃ answers after, b.applyAll g.way ops = .ok (answers, after)) ∧
    (∀ data uniqueCount, data.size = g.dataLen →
      ∃ b fixed any shared, PagedBits.ofBytes g.way g.pageLevel data uniqueCount = .ok b ∧
        FixedFilter.ofBytes g.way g.pageLevel data uniqueCount = .ok fixed ∧
        AnyFilter.ofBytes g.way g.pageLevel data uniqueCount = .ok any ∧
        SharedFilter.ofBytes g.way g.pageLevel data uniqueCount = .ok shared ∧
        InStep b fixed any shared ∧
        ∀ ops, uniqueCount.toNat + (ops.flatMap Operation.steps).length < 2 ^ 64 →
          ∃ answers after, b.applyAll g.way ops = .ok (answers, after)) := by
  constructor
  · obtain ⟨b, hb⟩ := PagedBits.create_of_valid h
    obtain ⟨hwell, -, -, -, hcount⟩ := (PagedBits.delivers_create _ _ _).of_eq_ok hb
    obtain ⟨any, hplace, hany, hway, rfl⟩ := AnyFilter.ofBits_total hwell
    have hcounted : any.bits.Counted := PagedBits.counted_of_eq_zero hcount
    refine ⟨any.bits, ⟨any.bits⟩, any, hb, ?_, ?_, ?_, ?_⟩
    · rw [FixedFilter.create, hb]
      rfl
    · rw [AnyFilter.create_eq, hb, ok_bind, hplace]
    · rw [← hway]
      exact AnyFilter.inStep hany
    · exact hwell.toWhole.applyAll_of_counted hwell.way_le hcounted
  · intro data uniqueCount hsize
    obtain ⟨b, hb, -⟩ := PagedBits.ofBytes_of_valid h hsize uniqueCount
    obtain ⟨hwell, -, -, hcount⟩ := (PagedBits.delivers_ofBytes _ _ _ _).of_eq_ok hb
    obtain ⟨any, hplace, hany, hway, rfl⟩ := AnyFilter.ofBits_total hwell
    have hmade : AnyFilter.ofBytes g.way g.pageLevel data uniqueCount = .ok any := by
      rw [AnyFilter.ofBytes_eq, hb, ok_bind, hplace]
    refine ⟨any.bits, ⟨any.bits⟩, any, .ofAny any, hb, ?_, hmade, ?_, ?_, ?_⟩
    · rw [FixedFilter.ofBytes, hb]
      rfl
    · rw [SharedFilter.ofBytes, hmade]
      rfl
    · rw [← hway]
      exact AnyFilter.inStep hany
    · intro ops hroom
      rw [← hcount] at hroom
      exact hwell.toWhole.applyAll_of_lt hwell.way_le ops hroom

theorem front_ends_agree_three_pages :
    let data := markBits (zeros 192) [5, 700]
    let ops : List Operation := [.set ⟨#[1]⟩, .setBatch [⟨#[2]⟩, ⟨#[3]⟩, ⟨#[2]⟩], .clear,
      .setItem (.text "a"), .testAll [⟨#[1]⟩, ⟨#[2]⟩]]
    (⟨4, 6, 3⟩ : Geometry).Valid ∧ data.size = (⟨4, 6, 3⟩ : Geometry).dataLen ∧
      ∃ b fixed any shared, PagedBits.ofBytes 4 6 data 7 = .ok b ∧
        FixedFilter.ofBytes 4 6 data 7 = .ok fixed ∧ AnyFilter.ofBytes 4 6 data 7 = .ok any ∧
        SharedFilter.ofBytes 4 6 data 7 = .ok shared ∧ InStep b fixed any shared ∧
        ∃ answers after, b.applyAll 4 ops = .ok (answers, after) := by
  intro data ops
  have hvalid : (⟨4, 6, 3⟩ : Geometry).Valid := ⟨by decide, by decide⟩
  have hsize : data.size = (⟨4, 6, 3⟩ : Geometry).dataLen := by
    rw [size_markBits, size_zeros]
    rfl
  obtain ⟨b, fixed, any, shared, hb, hfixed, hany, hshared, hstep, hruns⟩ :=
    (front_ends_agree ⟨4, 6, 3⟩ hvalid).2 data 7 hsize
  exact ⟨hvalid, hsize, b, fixed, any, shared, hb, hfixed, hany, hshared, hstep,
    hruns ops (by decide)⟩

end PagedFilter
