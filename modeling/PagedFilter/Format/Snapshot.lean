import PagedFilter.Filter.FrontEnds
/-! The stored image of a filter. Restoring runs every check of construction, the version first. -/
namespace PagedFilter

structure Snapshot where
  version : UInt16
  way : UInt64
  pageLevel : UInt32
  uniqueCount : UInt64
  data : ByteArray
deriving DecidableEq

namespace Snapshot

def ofFilter {F : Type} [StoredFilter F] (f : F) : Snapshot :=
  let g := KeyFilter.geometry f
  { version := formatVersion
    way := UInt64.ofNat g.way
    pageLevel := UInt32.ofNat g.pageLevel
    uniqueCount := KeyFilter.uniqueCount f
    data := StoredFilter.data f }

def ofShared (f : SharedFilter) : Snapshot :=
  let (data, uniqueCount) := f.contents
  { version := formatVersion
    way := UInt64.ofNat f.cached.way
    pageLevel := UInt32.ofNat f.cached.pageLevel
    uniqueCount := uniqueCount
    data := data }

def checkVersion (s : Snapshot) : Except Refusal Unit :=
  if s.version = formatVersion then .ok ()
  else .error (.serialization (.snapshotVersion s.version))

def toAny (s : Snapshot) : Except Failure AnyFilter := do
  s.checkVersion
  AnyFilter.ofBytes s.way.toNat s.pageLevel.toNat s.data s.uniqueCount

/-- Restore a filter of a fixed way, which must be the stored one. -/
def toFixed (way : Nat) (s : Snapshot) : Except Failure (FixedFilter way) := do
  s.checkVersion
  if s.way.toNat ≠ way then refuse (.invalidWay s.way.toNat)
  FixedFilter.ofBytes way s.pageLevel.toNat s.data s.uniqueCount

end Snapshot
end PagedFilter
