import PagedFilter.Format.Json.Scan
/-! A record is written as a compact object. It is read from an object with the fields in any order
and unknown ones between them, or from an array of exactly the fields. -/
namespace PagedFilter.Json

inductive FieldShape
  | number (greatest : Nat)
  | bytes
deriving DecidableEq

inductive FieldValue
  | number (value : Nat)
  | bytes (value : ByteArray)
deriving DecidableEq

abbrev Schema := List (String × FieldShape)

def readBounded (greatest : Nat) : Reader Nat := fun cs =>
  match readNat cs with
  | none => none
  | some (n, cs) => if n ≤ greatest then some (n, cs) else none

/-- The rest of a list of bytes, before an element; every step takes a character. -/
def readElements : Nat → ByteArray → Reader ByteArray
  | 0, _, _ => none
  | fuel + 1, read, cs =>
    match readBounded 255 cs with
    | none => none
    | some (n, cs) =>
      let read := read.push (UInt8.ofNat n)
      match skipBlanks cs with
      | ',' :: cs => readElements fuel read cs
      | ']' :: cs => some (read, cs)
      | _ => none

def readBytes : Reader ByteArray := fun cs =>
  match skipMark '[' cs with
  | none => none
  | some cs =>
    match skipBlanks cs with
    | ']' :: cs => some (ByteArray.empty, cs)
    | cs => readElements cs.length ByteArray.empty cs

def FieldShape.read : FieldShape → Reader FieldValue
  | number greatest, cs => (readBounded greatest cs).map fun (n, cs) => (.number n, cs)
  | bytes, cs => (readBytes cs).map fun (b, cs) => (.bytes b, cs)

/-- One member of an object, added to the fields read so far; a known field must be new. -/
def readMember (schema : Schema) (found : List (String × FieldValue)) :
    Reader (List (String × FieldValue)) := fun cs => do
  let (name, cs) ← readString cs
  let cs ← skipMark ':' cs
  match schema.lookup name with
  | none => return (found, ← skipValue cs)
  | some shape =>
    if (found.lookup name).isSome then none
    else
      let (value, cs) ← shape.read cs
      return ((name, value) :: found, cs)

def readMembers (schema : Schema) :
    Nat → List (String × FieldValue) → Reader (List (String × FieldValue))
  | 0, _, _ => none
  | fuel + 1, found, cs =>
    match readMember schema found cs with
    | none => none
    | some (found, cs) =>
      match skipBlanks cs with
      | ',' :: cs => readMembers schema fuel found cs
      | '}' :: cs => some (found, cs)
      | _ => none

def readObject (schema : Schema) : Reader (List FieldValue) := fun cs => do
  let (found, cs) ←
    match skipBlanks cs with
    | '}' :: cs => some ([], cs)
    | cs => readMembers schema cs.length [] cs
  return (← schema.mapM fun field => found.lookup field.1, cs)

def readOrdered : Schema → Reader (List FieldValue)
  | [], cs => (skipMark ']' cs).map fun cs => ([], cs)
  | [field], cs => do
    let (value, cs) ← field.2.read cs
    return ([value], ← skipMark ']' cs)
  | field :: schema, cs => do
    let (value, cs) ← field.2.read cs
    let (values, cs) ← readOrdered schema (← skipMark ',' cs)
    return (value :: values, cs)

def readRecord (schema : Schema) (text : List Char) : Option (List FieldValue) := do
  let (values, rest) ←
    match skipBlanks text with
    | '{' :: cs => readObject schema cs
    | '[' :: cs => readOrdered schema cs
    | _ => none
  if skipBlanks rest = [] then some values else none

def writeNat (n : Nat) : List Char := Nat.toDigits 10 n

def FieldValue.write : FieldValue → List Char
  | number n => writeNat n
  | bytes b => '[' :: List.intercalate [','] (b.data.toList.map fun o => writeNat o.toNat) ++ [']']

def writeField (field : String × FieldValue) : List Char :=
  '"' :: field.1.toList ++ '"' :: ':' :: field.2.write

def writeRecord (fields : List (String × FieldValue)) : List Char :=
  '{' :: List.intercalate [','] (fields.map writeField) ++ ['}']

end PagedFilter.Json
