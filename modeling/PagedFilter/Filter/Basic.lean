import PagedFilter.Geometry.Estimate
import PagedFilter.Hash.Item
import PagedFilter.Storage.PagedBits
/-! Key filters: five required operations, and the rest with defaults that follow from them. -/
namespace PagedFilter

def countNew {F : Type} (set : F → ByteArray → Except Fault (Bool × F)) (f : F)
    (keys : List ByteArray) : Except Fault (Nat × F) :=
  keys.foldlM (fun (count, f) key => do
    let (new, f) ← set f key
    return (count + new.toNat, f)) (0, f)

class KeyFilter (F : Type) where
  /-- Record a key; whether any of its bits was clear. -/
  set : F → ByteArray → Except Fault (Bool × F)
  test : F → ByteArray → Except Fault Bool
  clear : F → F
  geometry : F → Geometry
  uniqueCount : F → UInt64
  dataLen : F → Nat := fun f => (geometry f).dataLen
  setBatch : F → List ByteArray → Except Fault (Nat × F) := countNew set
  testBatch : F → List ByteArray → Except Fault (List Bool) := fun f keys => keys.mapM (test f)

class StoredFilter (F : Type) extends KeyFilter F where
  data : F → ByteArray

namespace KeyFilter
variable {F : Type} [KeyFilter F]

def testAll (f : F) (keys : List ByteArray) : Except Fault Bool := keys.allM (test f)

def testAny (f : F) (keys : List ByteArray) : Except Fault Bool := keys.anyM (test f)

def setItem (f : F) (item : Item) : Except Fault (Bool × F) := set f item.key

def testItem (f : F) (item : Item) : Except Fault Bool := test f item.key

def isEmpty (f : F) : Bool := uniqueCount f == 0

def capacity (f : F) : Except Fault Nat := Estimate.capacity (dataLen f) (geometry f).way

def virtualCapacity (f : F) (rate : Float) : Nat :=
  Estimate.virtualCapacity (dataLen f) (geometry f).way rate

def currentRate (f : F) : Float :=
  Estimate.rate (dataLen f * 8) (uniqueCount f).toNat (geometry f).way

end KeyFilter

def StoredFilter.countOnes {F : Type} [StoredFilter F] (f : F) : Nat :=
  PagedFilter.countOnes (data f)

end PagedFilter
