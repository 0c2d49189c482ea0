import PagedFilter.Filter.FrontEnds
/-! Requests for a filter by items, rate and, if wanted, a way in place of the planned one. -/
namespace PagedFilter

structure FilterRequest where
  items : Nat
  rate : Float
  way : Option Nat

structure Sizing where
  expectedItems : Nat
  rate : Float
  geometry : Geometry
  capacity : Nat
  virtualCapacity : Nat
  bytesPerItem : Float

namespace FilterRequest

def ofRate (items : Nat) (rate : Float) : FilterRequest := ⟨items, rate, none⟩

/-- Ask for a way; the last one asked for counts. -/
def withWay (request : FilterRequest) (way : Nat) : FilterRequest :=
  { request with way := some way }

/-- Give a geometry another way, and larger pages where that way needs them. -/
def overrideWay (g : Geometry) (way : Nat) : Except Failure Geometry := do
  checkWay way
  let least ← minPageLevel way
  if g.pageLevel < least then
    return ⟨way, least, UInt32.ofNat (pagesCovering g.dataLen least)⟩
  else return ⟨way, g.pageLevel, g.pageNum⟩

def geometry (request : FilterRequest) : Except Failure Geometry := do
  let planned ← plan request.items request.rate
  let g ← match request.way with
    | none => pure planned
    | some way => overrideWay planned way
  g.check
  return g

def build (request : FilterRequest) : Except Failure AnyFilter := do
  AnyFilter.create (← request.geometry)

def buildShared (request : FilterRequest) : Except Failure SharedFilter := do
  return SharedFilter.ofAny (← request.build)

def buildSized (request : FilterRequest) : Except Failure (AnyFilter × Sizing) := do
  let g ← request.geometry
  let filter ← AnyFilter.create g
  let items := max request.items 1
  let rate := clampRate request.rate
  let capacity ← Estimate.capacity g.dataLen g.way
  return (filter,
    { expectedItems := items
      rate := rate
      geometry := g
      capacity := capacity
      virtualCapacity := Estimate.virtualCapacity g.dataLen g.way rate
      bytesPerItem := Estimate.ofCount g.dataLen / Estimate.ofCount items })

end FilterRequest

namespace Sizing

def memoryBytes (sizing : Sizing) : Nat := sizing.geometry.dataLen

def memoryKilobytes (sizing : Sizing) : Float := Estimate.ofCount sizing.memoryBytes / 1024.0

end Sizing
end PagedFilter
