import PagedFilter.Filter.FrontEnds
/-! A frame is the magic bytes, the version in two bytes, the way and the page level in one each,
the count and the length of the buffer in eight each, and the buffer, all little-endian. -/
namespace PagedFilter.Frame

open LittleEndian

def magic : ByteArray := "PBF1".toUTF8

def headerSize : Nat := 24

structure Header where
  version : UInt16
  way : Nat
  pageLevel : Nat
  uniqueCount : UInt64
  dataLen : UInt64
deriving DecidableEq, Repr

variable {F : Type} [StoredFilter F]

def encodeHeader (f : F) : ByteArray :=
  let g := KeyFilter.geometry f
  magic ++ encode 2 formatVersion.toNat ++ encode 1 g.way ++ encode 1 g.pageLevel ++
    encode 8 (KeyFilter.uniqueCount f).toNat ++ encode 8 (StoredFilter.data f).size

def encode (f : F) : ByteArray :=
  encodeHeader f ++ StoredFilter.data f

def encodedSize (f : F) : Nat := headerSize + (StoredFilter.data f).size

def readHeader (bytes : ByteArray) : Except FrameError Header := do
  if bytes.size < headerSize then .error (.bufferTooSmall headerSize bytes.size)
  if bytes.extract 0 4 ≠ magic then .error .invalidMagic
  let version := (read bytes 4 2).toUInt16
  if version ≠ formatVersion then .error (.unsupportedVersion version)
  return {
    version := version
    way := (read bytes 6 1).toNat
    pageLevel := (read bytes 7 1).toNat
    uniqueCount := read bytes 8 8
    dataLen := read bytes 16 8 }

/-- The header and the data, which must be as long as the header declares. -/
def split (bytes : ByteArray) : Except FrameError (Header × ByteArray) := do
  let header ← readHeader bytes
  let data := bytes.extract headerSize bytes.size
  let declared := header.dataLen.toNat
  if data.size < declared then
    .error (.bufferTooSmall (min (headerSize + declared) (2 ^ 64 - 1)) bytes.size)
  if declared < data.size then .error (.trailingBytes declared data.size)
  return (header, data)

/-- Check a frame without making a filter. -/
def validate (bytes : ByteArray) : Except Failure Unit := do
  let (header, data) ← split bytes
  checkPageLevel header.way header.pageLevel
  checkShift header.pageLevel 64
  let pageSize := 2 ^ header.pageLevel
  if data.isEmpty ∨ data.size % pageSize ≠ 0 ∨ 2 ^ 32 - 1 < data.size >>> header.pageLevel then
    refuse (.invalidDataSize data.size pageSize)

def decode (bytes : ByteArray) : Except Failure AnyFilter := do
  let (header, data) ← split bytes
  AnyFilter.ofBytes header.way header.pageLevel data header.uniqueCount

end PagedFilter.Frame
