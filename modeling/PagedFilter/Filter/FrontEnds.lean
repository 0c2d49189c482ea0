import PagedFilter.Filter.Basic
import PagedFilter.Geometry.Plan
/-! Filters of a fixed way, filters whose way is chosen when they are made, and shared filters,
which keep the geometry beside the filter that they wrap. -/
namespace PagedFilter

structure FixedFilter (way : Nat) where
  bits : PagedBits
deriving DecidableEq

namespace FixedFilter
variable {way : Nat}

def create (way level : Nat) (pageNum : UInt32) : Except Failure (FixedFilter way) := do
  return ⟨← PagedBits.create way level pageNum⟩

def ofBytes (way level : Nat) (data : ByteArray) (uniqueCount : UInt64) :
    Except Failure (FixedFilter way) := do
  return ⟨← PagedBits.ofBytes way level data uniqueCount⟩

instance : StoredFilter (FixedFilter way) where
  set f key := do
    let (new, bits) ← f.bits.set way key
    return (new, ⟨bits⟩)
  test f key := f.bits.test way key
  clear f := ⟨f.bits.clear⟩
  geometry f := ⟨way, f.bits.pageLevel, f.bits.pageNum⟩
  uniqueCount f := f.bits.uniqueCount
  dataLen f := f.bits.data.size
  data f := f.bits.data

end FixedFilter

inductive AnyFilter
  | way4 (filter : FixedFilter 4)
  | way5 (filter : FixedFilter 5)
  | way6 (filter : FixedFilter 6)
  | way7 (filter : FixedFilter 7)
  | way8 (filter : FixedFilter 8)
deriving DecidableEq

namespace AnyFilter

def view {α : Type} (f : AnyFilter) (look : {way : Nat} → FixedFilter way → α) : α :=
  match f with
  | way4 filter => look filter
  | way5 filter => look filter
  | way6 filter => look filter
  | way7 filter => look filter
  | way8 filter => look filter

def update {α : Type} (f : AnyFilter)
    (step : {way : Nat} → FixedFilter way → Except Fault (α × FixedFilter way)) :
    Except Fault (α × AnyFilter) :=
  match f with
  | way4 filter => return (← step filter).map id way4
  | way5 filter => return (← step filter).map id way5
  | way6 filter => return (← step filter).map id way6
  | way7 filter => return (← step filter).map id way7
  | way8 filter => return (← step filter).map id way8

def clear : AnyFilter → AnyFilter
  | way4 filter => way4 (KeyFilter.clear filter)
  | way5 filter => way5 (KeyFilter.clear filter)
  | way6 filter => way6 (KeyFilter.clear filter)
  | way7 filter => way7 (KeyFilter.clear filter)
  | way8 filter => way8 (KeyFilter.clear filter)

instance : StoredFilter AnyFilter where
  set f key := f.update (KeyFilter.set · key)
  test f key := f.view (KeyFilter.test · key)
  clear := clear
  geometry f := f.view KeyFilter.geometry
  uniqueCount f := f.view KeyFilter.uniqueCount
  dataLen f := f.view KeyFilter.dataLen
  data f := f.view StoredFilter.data

/-- A fixed-way filter among those of any way; only the supported ways have a place there. -/
def ofFixed? {way : Nat} (f : FixedFilter way) : Option AnyFilter :=
  match way with
  | 4 => some (way4 f)
  | 5 => some (way5 f)
  | 6 => some (way6 f)
  | 7 => some (way7 f)
  | 8 => some (way8 f)
  | _ => none

def create (g : Geometry) : Except Failure AnyFilter := do
  g.check
  match g.way with
  | 4 => return way4 (← FixedFilter.create 4 g.pageLevel g.pageNum)
  | 5 => return way5 (← FixedFilter.create 5 g.pageLevel g.pageNum)
  | 6 => return way6 (← FixedFilter.create 6 g.pageLevel g.pageNum)
  | 7 => return way7 (← FixedFilter.create 7 g.pageLevel g.pageNum)
  | 8 => return way8 (← FixedFilter.create 8 g.pageLevel g.pageNum)
  | way => refuse (.invalidWay way)

def withRate (items : Nat) (rate : Float) : Except Failure AnyFilter := do
  create (← plan items rate)

def ofBytes (way level : Nat) (data : ByteArray) (uniqueCount : UInt64) :
    Except Failure AnyFilter := do
  match way with
  | 4 => return way4 (← FixedFilter.ofBytes 4 level data uniqueCount)
  | 5 => return way5 (← FixedFilter.ofBytes 5 level data uniqueCount)
  | 6 => return way6 (← FixedFilter.ofBytes 6 level data uniqueCount)
  | 7 => return way7 (← FixedFilter.ofBytes 7 level data uniqueCount)
  | 8 => return way8 (← FixedFilter.ofBytes 8 level data uniqueCount)
  | way => refuse (.invalidWay way)

end AnyFilter

structure SharedFilter where
  inner : AnyFilter
  cached : Geometry
deriving DecidableEq

namespace SharedFilter

def ofAny (inner : AnyFilter) : SharedFilter :=
  ⟨inner, KeyFilter.geometry inner⟩

def withRate (items : Nat) (rate : Float) : Except Failure SharedFilter := do
  return ofAny (← AnyFilter.withRate items rate)

def ofBytes (way level : Nat) (data : ByteArray) (uniqueCount : UInt64) :
    Except Failure SharedFilter := do
  return ofAny (← AnyFilter.ofBytes way level data uniqueCount)

def onInner {α : Type} (f : SharedFilter)
    (step : AnyFilter → Except Fault (α × AnyFilter)) : Except Fault (α × SharedFilter) := do
  let ⟨inner, cached⟩ := f
  let (answer, inner) ← step inner
  return (answer, ⟨inner, cached⟩)

def contents (f : SharedFilter) : ByteArray × UInt64 :=
  (StoredFilter.data f.inner, KeyFilter.uniqueCount f.inner)

instance : KeyFilter SharedFilter where
  set f key := f.onInner (KeyFilter.set · key)
  test f key := KeyFilter.test f.inner key
  clear f := { f with inner := KeyFilter.clear f.inner }
  geometry f := f.cached
  uniqueCount f := KeyFilter.uniqueCount f.inner
  setBatch f keys := f.onInner (countNew KeyFilter.set · keys)
  testBatch f keys := keys.mapM (KeyFilter.test f.inner)

end SharedFilter

/-- A stand-in for a shared filter that knows only the required operations. -/
structure FilterHandle where
  target : SharedFilter
deriving DecidableEq

instance : KeyFilter FilterHandle where
  set f key := do
    let (new, target) ← KeyFilter.set f.target key
    return (new, ⟨target⟩)
  test f key := KeyFilter.test f.target key
  clear f := ⟨KeyFilter.clear f.target⟩
  geometry f := KeyFilter.geometry f.target
  uniqueCount f := KeyFilter.uniqueCount f.target

end PagedFilter
