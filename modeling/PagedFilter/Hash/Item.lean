import PagedFilter.Geometry.Basic
import PagedFilter.Hash.Digest
/-! Typed items are flattened to bytes, and the digest of the bytes is the key of the item. -/
namespace PagedFilter

structure HashBuffer where
  bytes : ByteArray
deriving DecidableEq

namespace HashBuffer

def empty : HashBuffer := ⟨ByteArray.empty⟩

def write (buffer : HashBuffer) (bytes : ByteArray) : HashBuffer :=
  ⟨buffer.bytes ++ bytes⟩

def writeInt (buffer : HashBuffer) (width : Nat) (value : Int) : HashBuffer :=
  buffer.write (LittleEndian.encodeInt width value)

def digest (buffer : HashBuffer) : Digest := Digest.ofBytes buffer.bytes

end HashBuffer

inductive Item
  | bool (value : Bool)
  | char (value : Char)
  | text (value : String)
  | bytes (value : ByteArray)
  | unit
  | int (width : Nat) (value : Int)
  | absent
  | present (value : Item)
  | list (values : List Item)
  | tuple (values : List Item)
  | digest (value : Digest)
  | geometry (value : Geometry)

def encodeSize (n : Nat) : ByteArray := LittleEndian.encode 8 n

mutual

def Item.encode : Item → ByteArray
  | .bool value => LittleEndian.encode 1 value.toNat
  | .char value => LittleEndian.encode 4 value.toNat
  | .text value => value.toUTF8.push 0xff
  | .bytes value => encodeSize value.size ++ value
  | .unit => ByteArray.empty
  | .int width value => LittleEndian.encodeInt width value
  | .absent => encodeSize 0
  | .present value => encodeSize 1 ++ value.encode
  | .list values => encodeSize values.length ++ Item.encodeAll values
  | .tuple values => Item.encodeAll values
  | .digest value => value.toBytes
  | .geometry value =>
    LittleEndian.encode 8 value.way ++ LittleEndian.encode 4 value.pageLevel ++
      LittleEndian.encode 4 value.pageNum.toNat

def Item.encodeAll : List Item → ByteArray
  | [] => ByteArray.empty
  | value :: values => value.encode ++ Item.encodeAll values

end

namespace HashBuffer

def writeItem (buffer : HashBuffer) (item : Item) : HashBuffer :=
  buffer.write item.encode

end HashBuffer

namespace Item

def hashed (item : Item) : HashBuffer := HashBuffer.empty.writeItem item

def key (item : Item) : ByteArray := item.hashed.digest.toBytes

end Item

end PagedFilter
