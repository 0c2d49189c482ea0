import PagedFilter.Decimal.Shortest
/-! A refusal is an answer to bad input, and a fault is a step that has no meaning. -/
namespace PagedFilter

inductive Fault
  | divisionByZero
  | shiftOverflow
  | productOverflow
  | tooManyProbes
  | pageOutsideBuffer
  | probeOutsidePage
  | counterOverflow
deriving DecidableEq, Repr

inductive FrameError
  | invalidMagic
  | unsupportedVersion (found : UInt16)
  | bufferTooSmall (expected actual : Nat)
  | trailingBytes (declared actual : Nat)
deriving DecidableEq, Repr

/-- What is wrong with stored bytes or text, before the geometry is looked at. -/
inductive StorageError
  | frame (cause : FrameError)
  | snapshotVersion (found : UInt16)
  | described (text : String)
deriving DecidableEq, Repr

inductive Refusal
  | invalidWay (way : Nat)
  | invalidPageLevel (level least greatest : Nat)
  | invalidDataSize (size pageSize : Nat)
  | tooManyItems (items pages : Nat)
  | rateOutOfBounds (rate : Float)
  | serialization (cause : StorageError)
deriving DecidableEq

inductive Failure
  | refused (cause : Refusal)
  | fault (cause : Fault)
deriving DecidableEq

instance : Coe FrameError Refusal := ⟨fun cause => .serialization (.frame cause)⟩

instance : MonadLift (Except Fault) (Except Failure) := ⟨Except.mapError .fault⟩

instance : MonadLift (Except Refusal) (Except Failure) := ⟨Except.mapError .refused⟩

instance : MonadLift (Except FrameError) (Except Failure) :=
  ⟨Except.mapError fun cause => .refused cause⟩

def refuse {α : Type} (cause : Refusal) : Except Failure α :=
  .error (.refused cause)

def formatVersion : UInt16 := 1

def maxPlannedPages : Nat := 2 ^ 31 - 1

def FrameError.message : FrameError → String
  | invalidMagic => "Invalid magic bytes (expected 'PBF1')"
  | unsupportedVersion found =>
    s!"Unsupported frame version: {found.toNat} (expected {formatVersion.toNat})"
  | bufferTooSmall expected actual =>
    s!"Buffer too small: expected at least {expected} bytes, got {actual}"
  | trailingBytes declared actual =>
    s!"Trailing bytes: frame declares {declared} data bytes, {actual} present"

def StorageError.message : StorageError → String
  | frame cause => cause.message
  | snapshotVersion found =>
    s!"incompatible snapshot version: expected {formatVersion.toNat}, got {found.toNat}"
  | described text => text

def Refusal.message : Refusal → String
  | invalidWay way => s!"Invalid way: {way}. Must be in range [4, 8]."
  | invalidPageLevel level least greatest =>
    s!"Invalid page level: {level}. Must be in range [{least}, {greatest}]."
  | invalidDataSize size pageSize =>
    s!"Invalid data size: {size} bytes. " ++
      s!"Must be a positive multiple of the {pageSize}-byte page size."
  | tooManyItems items pages =>
    s!"Too many items: {items} items would need {pages} pages (limit {maxPlannedPages})."
  | rateOutOfBounds rate =>
    s!"False positive rate {floatText rate} is out of bounds. Must be in range (0, 1)."
  | serialization cause => s!"Serialization error: {cause.message}."

end PagedFilter
