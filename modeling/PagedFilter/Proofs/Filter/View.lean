import PagedFilter.Filter.FrontEnds
import PagedFilter.Filter.Operation
import PagedFilter.Proofs.Storage.Runs
/-! Every kind of filter is a way and paged bits in a wrapping that operations leave as it is. -/
namespace PagedFilter

/-- A key filter that acts as its bits do at its way. -/
class PagedView (F : Type) [KeyFilter F] where
  way : F → Nat
  bits : F → PagedBits
  withBits : F → PagedBits → F
  way_withBits (f : F) (b : PagedBits) : way (withBits f b) = way f
  bits_withBits (f : F) (b : PagedBits) : bits (withBits f b) = b
  withBits_bits (f : F) : withBits f (bits f) = f
  withBits_withBits (f : F) (b c : PagedBits) : withBits (withBits f b) c = withBits f c
  set_eq (f : F) (key : ByteArray) : KeyFilter.set f key =
    ((bits f).set (way f) key).map (Prod.map id (withBits f))
  setBatch_eq (f : F) (keys : List ByteArray) : KeyFilter.setBatch f keys =
    (countNew (PagedBits.set · (way f)) (bits f) keys).map (Prod.map id (withBits f))
  test_eq (f : F) (key : ByteArray) : KeyFilter.test f key = (bits f).test (way f) key
  testBatch_eq (f : F) (keys : List ByteArray) :
    KeyFilter.testBatch f keys = keys.mapM (KeyFilter.test f)
  clear_eq (f : F) : KeyFilter.clear f = withBits f (bits f).clear
  uniqueCount_eq (f : F) : KeyFilter.uniqueCount f = (bits f).uniqueCount
  geometry_withBits (f : F) (b : PagedBits) : (bits f).SamePages b →
    KeyFilter.geometry (withBits f b) = KeyFilter.geometry f

class StoredView (F : Type) [StoredFilter F] extends PagedView F where
  data_eq (f : F) : StoredFilter.data f = (bits f).data

attribute [simp] PagedView.way_withBits PagedView.bits_withBits PagedView.withBits_bits
  PagedView.withBits_withBits

theorem countNew_wrap {F G : Type} {set : F → ByteArray → Except Fault (Bool × F)}
    {set' : G → ByteArray → Except Fault (Bool × G)} (wrap : F → G)
    (h : ∀ f key, set' (wrap f) key = (set f key).map (Prod.map id wrap))
    (f : F) (keys : List ByteArray) :
    countNew set' (wrap f) keys = (countNew set f keys).map (Prod.map id wrap) := by
  induction keys generalizing f with
  | nil => rfl
  | cons key keys ih =>
    rw [countNew_cons, countNew_cons, h]
    cases set f key with
    | error e => rfl
    | ok r =>
      obtain ⟨new, g⟩ := r
      change (countNew set' (wrap g) keys).map _ = ((countNew set g keys).map _).map _
      rw [ih]
      cases countNew set g keys <;> rfl

theorem map_wrap {α F G : Type} {wrap : PagedBits → F} {x : Except Fault (α × F)}
    {y : Except Fault (α × PagedBits)} (h : x = y.map (Prod.map id wrap)) (outer : F → G) :
    (do return (← x).map id outer) = y.map (Prod.map id fun b => outer (wrap b)) := by
  rw [h]
  cases y <;> rfl

namespace PagedView
variable {F : Type} [KeyFilter F] [PagedView F]

theorem set_withBits (f : F) (b : PagedBits) (key : ByteArray) :
    KeyFilter.set (withBits f b) key =
      (b.set (way f) key).map (Prod.map id (withBits f)) := by
  have hwith : withBits (withBits f b) = withBits f := funext (withBits_withBits f b)
  rw [set_eq, bits_withBits, way_withBits, hwith]

theorem countNew_eq (f : F) (keys : List ByteArray) :
    countNew KeyFilter.set f keys =
      (countNew (PagedBits.set · (way f)) (bits f) keys).map (Prod.map id (withBits f)) := by
  have hrun := countNew_wrap (withBits f) (set_withBits f) (bits f) keys
  rwa [withBits_bits] at hrun

end PagedView

namespace FixedFilter
variable {way : Nat}

theorem set_eq (f : FixedFilter way) (key : ByteArray) :
    KeyFilter.set f key = (f.bits.set way key).map (Prod.map id FixedFilter.mk) := by
  change f.bits.set way key >>= (fun r => .ok (r.1, FixedFilter.mk r.2)) = _
  cases f.bits.set way key <;> rfl

instance : PagedView (FixedFilter way) where
  way _ := way
  bits f := f.bits
  withBits _ b := ⟨b⟩
  way_withBits _ _ := rfl
  bits_withBits _ _ := rfl
  withBits_bits _ := rfl
  withBits_withBits _ _ _ := rfl
  set_eq := set_eq
  setBatch_eq f keys := countNew_wrap FixedFilter.mk (fun b key => set_eq ⟨b⟩ key) f.bits keys
  test_eq _ _ := rfl
  testBatch_eq _ _ := rfl
  clear_eq _ := rfl
  uniqueCount_eq _ := rfl
  geometry_withBits f b h := by
    change (⟨way, b.pageLevel, b.pageNum⟩ : Geometry) = ⟨way, f.bits.pageLevel, f.bits.pageNum⟩
    rw [h.level_eq, h.pageNum_eq]

instance : StoredView (FixedFilter way) where
  data_eq _ := rfl

end FixedFilter

namespace AnyFilter

def way (f : AnyFilter) : Nat := f.view fun {way} _ => way

def bits (f : AnyFilter) : PagedBits := f.view FixedFilter.bits

def withBits (f : AnyFilter) (b : PagedBits) : AnyFilter :=
  match f with
  | way4 _ => way4 ⟨b⟩
  | way5 _ => way5 ⟨b⟩
  | way6 _ => way6 ⟨b⟩
  | way7 _ => way7 ⟨b⟩
  | way8 _ => way8 ⟨b⟩

theorem bits_withBits (f : AnyFilter) (b : PagedBits) : (f.withBits b).bits = b := by
  cases f <;> rfl

theorem withBits_withBits (f : AnyFilter) (b c : PagedBits) :
    (f.withBits b).withBits c = f.withBits c := by
  cases f <;> rfl

theorem withBits_bits (f : AnyFilter) : f.withBits f.bits = f := by
  cases f <;> rfl

theorem way_withBits (f : AnyFilter) (b : PagedBits) : (f.withBits b).way = f.way := by
  cases f <;> rfl

theorem geometry_eq (f : AnyFilter) :
    KeyFilter.geometry f = ⟨f.way, f.bits.pageLevel, f.bits.pageNum⟩ := by
  cases f <;> rfl

theorem update_eq {α : Type} (f : AnyFilter)
    (step : {way : Nat} → FixedFilter way → Except Fault (α × FixedFilter way))
    (onBits : Nat → PagedBits → Except Fault (α × PagedBits))
    (h : ∀ {way : Nat} (g : FixedFilter way),
      step g = (onBits way g.bits).map (Prod.map id FixedFilter.mk)) :
    f.update step = (onBits f.way f.bits).map (Prod.map id f.withBits) := by
  cases f with
  | way4 g => exact map_wrap (h g) way4
  | way5 g => exact map_wrap (h g) way5
  | way6 g => exact map_wrap (h g) way6
  | way7 g => exact map_wrap (h g) way7
  | way8 g => exact map_wrap (h g) way8

theorem set_eq (f : AnyFilter) (key : ByteArray) :
    KeyFilter.set f key = (f.bits.set f.way key).map (Prod.map id f.withBits) :=
  f.update_eq (KeyFilter.set · key) (fun way b => b.set way key) fun g => g.set_eq key

instance : PagedView AnyFilter where
  way := way
  bits := bits
  withBits := withBits
  way_withBits := way_withBits
  bits_withBits := bits_withBits
  withBits_bits := withBits_bits
  withBits_withBits := withBits_withBits
  set_eq := set_eq
  setBatch_eq f keys := by
    have hwrap (b : PagedBits) (key : ByteArray) : KeyFilter.set (f.withBits b) key =
        (b.set f.way key).map (Prod.map id f.withBits) := by
      have hwith : (f.withBits b).withBits = f.withBits := funext (f.withBits_withBits b)
      rw [set_eq, bits_withBits, way_withBits, hwith]
    have hbatch := countNew_wrap f.withBits hwrap f.bits keys
    rwa [withBits_bits] at hbatch
  test_eq f key := by cases f <;> rfl
  testBatch_eq _ _ := rfl
  clear_eq f := by cases f <;> rfl
  uniqueCount_eq f := by cases f <;> rfl
  geometry_withBits f b h := by
    rw [geometry_eq, geometry_eq, way_withBits, bits_withBits, h.level_eq, h.pageNum_eq]

instance : StoredView AnyFilter where
  data_eq f := by cases f <;> rfl

end AnyFilter

namespace SharedFilter

theorem onInner_eq {α : Type} (f : SharedFilter)
    (step : AnyFilter → Except Fault (α × AnyFilter)) (x : Except Fault (α × PagedBits))
    (h : step f.inner = x.map (Prod.map id f.inner.withBits)) :
    f.onInner step = x.map (Prod.map id fun b => { f with inner := f.inner.withBits b }) := by
  obtain ⟨inner, cached⟩ := f
  rw [onInner, h]
  cases x <;> rfl

instance : PagedView SharedFilter where
  way f := f.inner.way
  bits f := f.inner.bits
  withBits f b := { f with inner := f.inner.withBits b }
  way_withBits f b := f.inner.way_withBits b
  bits_withBits f b := f.inner.bits_withBits b
  withBits_bits f := by rw [AnyFilter.withBits_bits]
  withBits_withBits f b c := by rw [AnyFilter.withBits_withBits]
  set_eq f key := f.onInner_eq _ _ (f.inner.set_eq key)
  setBatch_eq f keys := f.onInner_eq _ _ (PagedView.setBatch_eq f.inner keys)
  test_eq f key := PagedView.test_eq f.inner key
  testBatch_eq _ _ := rfl
  clear_eq f := by
    change ({ f with inner := KeyFilter.clear f.inner } : SharedFilter) = _
    rw [PagedView.clear_eq]
    rfl
  uniqueCount_eq f := PagedView.uniqueCount_eq f.inner
  geometry_withBits _ _ _ := rfl

end SharedFilter
end PagedFilter
