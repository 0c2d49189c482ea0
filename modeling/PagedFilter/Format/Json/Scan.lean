import PagedFilter.Bytes
/-! Readers take characters from the front of a text and leave the rest. Strings that are skipped
need well-formed escapes but not paired surrogates, which strings that are read do need. -/
namespace PagedFilter.Json

abbrev Reader (α : Type) := List Char → Option (α × List Char)

def isBlank (c : Char) : Bool :=
  c = ' ' ∨ c = '\n' ∨ c = '\t' ∨ c = '\r'

def skipBlanks (cs : List Char) : List Char := cs.dropWhile isBlank

def skipMark (c : Char) (cs : List Char) : Option (List Char) :=
  match skipBlanks cs with
  | d :: cs => if d = c then some cs else none
  | [] => none

/-- A number in plain digits, after blanks, without a leading zero. -/
def readNat : Reader Nat := fun cs =>
  let cs := skipBlanks cs
  match cs.takeWhile Char.isDigit with
  | [] => none
  | '0' :: _ :: _ => none
  | digits =>
    some (Nat.ofDigitChars 10 digits 0, cs.dropWhile Char.isDigit)

def unit? (a b c d : Char) : Option Nat := do
  return ((← hexValue? a) * 16 + (← hexValue? b)) * 256 + ((← hexValue? c) * 16 + (← hexValue? d))

def isHighSurrogate (u : Nat) : Bool := 0xd800 ≤ u ∧ u < 0xdc00

def isLowSurrogate (u : Nat) : Bool := 0xdc00 ≤ u ∧ u < 0xe000

def escaped? : Char → Option Char
  | '"' => some '"'
  | '\\' => some '\\'
  | '/' => some '/'
  | 'b' => some '\x08'
  | 'f' => some '\x0c'
  | 'n' => some '\n'
  | 'r' => some '\r'
  | 't' => some '\t'
  | _ => none

def readStringTail (read : List Char) : List Char → Option (String × List Char)
  | '"' :: cs => some (String.ofList read.reverse, cs)
  | '\\' :: 'u' :: a :: b :: c :: d :: cs =>
    match unit? a b c d with
    | none => none
    | some u =>
      if isLowSurrogate u then none
      else if isHighSurrogate u then
        match cs with
        | '\\' :: 'u' :: a :: b :: c :: d :: cs =>
          match unit? a b c d with
          | none => none
          | some v =>
            if isLowSurrogate v then
              readStringTail (Char.ofNat (0x10000 + (u - 0xd800) * 0x400 + (v - 0xdc00)) :: read) cs
            else none
        | _ => none
      else readStringTail (Char.ofNat u :: read) cs
  | '\\' :: c :: cs =>
    match escaped? c with
    | none => none
    | some e => readStringTail (e :: read) cs
  | c :: cs => if c.toNat < 0x20 then none else readStringTail (c :: read) cs
  | [] => none

def readString : Reader String := fun cs =>
  match skipMark '"' cs with
  | none => none
  | some cs => readStringTail [] cs

def skipStringTail : List Char → Option (List Char)
  | '"' :: cs => some cs
  | '\\' :: 'u' :: a :: b :: c :: d :: cs =>
    if (unit? a b c d).isSome then skipStringTail cs else none
  | '\\' :: c :: cs => if (escaped? c).isSome then skipStringTail cs else none
  | c :: cs => if c.toNat < 0x20 then none else skipStringTail cs
  | [] => none

def skipDigits : List Char → Option (List Char)
  | c :: cs => if c.isDigit then some (cs.dropWhile Char.isDigit) else none
  | [] => none

/-- Skip a whole part: a lone zero, or digits that do not start with one. -/
def skipWhole : List Char → Option (List Char)
  | '0' :: c :: cs => if c.isDigit then none else some (c :: cs)
  | cs => skipDigits cs

def skipFraction : List Char → Option (List Char)
  | '.' :: cs => skipDigits cs
  | cs => some cs

def skipExponent : List Char → Option (List Char)
  | c :: cs =>
    if c = 'e' ∨ c = 'E' then
      match cs with
      | '+' :: cs => skipDigits cs
      | '-' :: cs => skipDigits cs
      | cs => skipDigits cs
    else some (c :: cs)
  | [] => some []

def skipNumber (cs : List Char) : Option (List Char) := do
  let cs := match cs with
    | '-' :: cs => cs
    | cs => cs
  skipExponent (← skipFraction (← skipWhole cs))

inductive Enclosure
  | array
  | object

inductive Expected
  | value
  | key
  | next

/-- Skip to the end of the outermost value. Every step but the last takes a character, so the
length of the text is fuel enough. -/
def skipWith : Nat → Expected → List Enclosure → List Char → Option (List Char)
  | 0, _, _, _ => none
  | fuel + 1, .value, outer, cs =>
    match skipBlanks cs with
    | '[' :: cs =>
      match skipBlanks cs with
      | ']' :: cs => skipWith fuel .next outer cs
      | cs => skipWith fuel .value (.array :: outer) cs
    | '{' :: cs =>
      match skipBlanks cs with
      | '}' :: cs => skipWith fuel .next outer cs
      | cs => skipWith fuel .key (.object :: outer) cs
    | '"' :: cs =>
      match skipStringTail cs with
      | none => none
      | some cs => skipWith fuel .next outer cs
    | 'n' :: 'u' :: 'l' :: 'l' :: cs => skipWith fuel .next outer cs
    | 't' :: 'r' :: 'u' :: 'e' :: cs => skipWith fuel .next outer cs
    | 'f' :: 'a' :: 'l' :: 's' :: 'e' :: cs => skipWith fuel .next outer cs
    | cs =>
      match skipNumber cs with
      | none => none
      | some cs => skipWith fuel .next outer cs
  | fuel + 1, .key, outer, cs =>
    match skipMark '"' cs with
    | none => none
    | some cs =>
      match skipStringTail cs with
      | none => none
      | some cs =>
        match skipMark ':' cs with
        | none => none
        | some cs => skipWith fuel .value outer cs
  | _ + 1, .next, [], cs => some cs
  | fuel + 1, .next, .array :: outer, cs =>
    match skipBlanks cs with
    | ',' :: cs => skipWith fuel .value (.array :: outer) cs
    | ']' :: cs => skipWith fuel .next outer cs
    | _ => none
  | fuel + 1, .next, .object :: outer, cs =>
    match skipBlanks cs with
    | ',' :: cs => skipWith fuel .key (.object :: outer) cs
    | '}' :: cs => skipWith fuel .next outer cs
    | _ => none

def skipValue (cs : List Char) : Option (List Char) :=
  skipWith (cs.length + 1) .value [] cs

end PagedFilter.Json
