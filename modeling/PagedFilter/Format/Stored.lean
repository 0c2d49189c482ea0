import PagedFilter.Format.Json.Record
import PagedFilter.Format.Snapshot
/-! Filters as JSON text and as packed bytes. A text or bytes may hold no snapshot at all, and a
snapshot may hold no filter. -/
namespace PagedFilter

open Json

namespace Geometry

def schema : Schema :=
  [("way", .number (2 ^ 64 - 1)), ("page_level", .number (2 ^ 32 - 1)),
    ("page_num", .number (2 ^ 32 - 1))]

def toText (g : Geometry) : String :=
  String.ofList <| writeRecord
    [("way", .number g.way), ("page_level", .number g.pageLevel),
      ("page_num", .number g.pageNum.toNat)]

/-- The geometry that a text holds; it is not checked. -/
def ofText? (text : String) : Option Geometry :=
  match readRecord schema text.toList with
  | some [.number way, .number level, .number pageNum] =>
    some ⟨way, level, UInt32.ofNat pageNum⟩
  | _ => none

end Geometry

inductive ReadFailure
  | malformed
  | rejected (cause : Failure)
deriving DecidableEq

instance : MonadLift (Except Failure) (Except ReadFailure) := ⟨Except.mapError .rejected⟩

namespace Snapshot

def schema : Schema :=
  [("version", .number (2 ^ 16 - 1)), ("way", .number (2 ^ 64 - 1)),
    ("page_level", .number (2 ^ 32 - 1)), ("unique_cnt", .number (2 ^ 64 - 1)), ("data", .bytes)]

def toText (s : Snapshot) : String :=
  String.ofList <| writeRecord
    [("version", .number s.version.toNat), ("way", .number s.way.toNat),
      ("page_level", .number s.pageLevel.toNat), ("unique_cnt", .number s.uniqueCount.toNat),
      ("data", .bytes s.data)]

def ofText? (text : String) : Option Snapshot :=
  match readRecord schema text.toList with
  | some [.number version, .number way, .number level, .number count, .bytes data] =>
    some ⟨UInt16.ofNat version, UInt64.ofNat way, UInt32.ofNat level, UInt64.ofNat count, data⟩
  | _ => none

open LittleEndian

def packedHeaderSize : Nat := 30

def pack (s : Snapshot) : ByteArray :=
  encode 2 s.version.toNat ++ encode 8 s.way.toNat ++ encode 4 s.pageLevel.toNat ++
    encode 8 s.uniqueCount.toNat ++ encode 8 s.data.size ++ s.data

/-- Bytes that end too early hold no snapshot, and bytes behind the buffer are ignored. -/
def unpack? (bytes : ByteArray) : Option Snapshot :=
  if bytes.size < packedHeaderSize then none
  else
    let size := (read bytes 22 8).toNat
    if bytes.size < packedHeaderSize + size then none
    else some {
      version := (read bytes 0 2).toUInt16
      way := read bytes 2 8
      pageLevel := (read bytes 10 4).toUInt32
      uniqueCount := read bytes 14 8
      data := bytes.extract packedHeaderSize (packedHeaderSize + size) }

def readText (text : String) : Except ReadFailure Snapshot :=
  match ofText? text with
  | some s => .ok s
  | none => .error .malformed

def readPacked (bytes : ByteArray) : Except ReadFailure Snapshot :=
  match unpack? bytes with
  | some s => .ok s
  | none => .error .malformed

end Snapshot

namespace FixedFilter
variable {way : Nat}

def toText (f : FixedFilter way) : String := (Snapshot.ofFilter f).toText

def pack (f : FixedFilter way) : ByteArray := (Snapshot.ofFilter f).pack

def ofText (way : Nat) (text : String) : Except ReadFailure (FixedFilter way) := do
  (← Snapshot.readText text).toFixed way

def unpack (way : Nat) (bytes : ByteArray) : Except ReadFailure (FixedFilter way) := do
  (← Snapshot.readPacked bytes).toFixed way

end FixedFilter

namespace AnyFilter

def toText (f : AnyFilter) : String := (Snapshot.ofFilter f).toText

def pack (f : AnyFilter) : ByteArray := (Snapshot.ofFilter f).pack

def ofText (text : String) : Except ReadFailure AnyFilter := do
  (← Snapshot.readText text).toAny

def unpack (bytes : ByteArray) : Except ReadFailure AnyFilter := do
  (← Snapshot.readPacked bytes).toAny

end AnyFilter

namespace SharedFilter

def toText (f : SharedFilter) : String := (Snapshot.ofShared f).toText

def pack (f : SharedFilter) : ByteArray := (Snapshot.ofShared f).pack

def ofText (text : String) : Except ReadFailure SharedFilter := do
  return ofAny (← AnyFilter.ofText text)

def unpack (bytes : ByteArray) : Except ReadFailure SharedFilter := do
  return ofAny (← AnyFilter.unpack bytes)

end SharedFilter

end PagedFilter
