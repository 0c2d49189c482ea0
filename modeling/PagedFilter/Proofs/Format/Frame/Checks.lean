import PagedFilter.Proofs.Filter.AcceptanceRule
/-! The eight checks of a frame, five of its outer form and three of its geometry. -/
namespace PagedFilter

structure Check where
  fails : Bool
  cause : Refusal

def firstRefusal (checks : List Check) : Option Refusal :=
  (checks.find? Check.fails).map Check.cause

@[simp] theorem firstRefusal_nil : firstRefusal [] = none := rfl

@[simp] theorem firstRefusal_cons (fails : Bool) (cause : Refusal) (checks : List Check) :
    firstRefusal (⟨fails, cause⟩ :: checks) = if fails then some cause else firstRefusal checks := by
  cases fails <;> rfl

theorem firstRefusal_append (first second : List Check) :
    firstRefusal (first ++ second) = (firstRefusal first).or (firstRefusal second) := by
  simp only [firstRefusal, List.find?_append, Option.map_or]

namespace Frame

open PagedView (WellFormed)

/-- The checks of the outer form: the header is there, it has the magic bytes and the present
version, and as many bytes follow it as it declares. -/
def formChecks (bytes : ByteArray) : List Check :=
  let header := fieldsOf bytes
  let declared := header.dataLen.toNat
  let present := bytes.size - 24
  [⟨bytes.size < 24, FrameError.bufferTooSmall 24 bytes.size⟩,
    ⟨bytes.extract 0 4 ≠ magic, FrameError.invalidMagic⟩,
    ⟨header.version ≠ 1, FrameError.unsupportedVersion header.version⟩,
    ⟨present < declared, FrameError.bufferTooSmall (min (24 + declared) (2 ^ 64 - 1)) bytes.size⟩,
    ⟨declared < present, FrameError.trailingBytes declared present⟩]

def geometryChecks (way level size : Nat) : List Check :=
  [⟨¬(4 ≤ way ∧ way ≤ 8), .invalidWay way⟩,
    ⟨¬(8 - 8 / way ≤ level ∧ level ≤ 13), .invalidPageLevel level (8 - 8 / way) 13⟩,
    ⟨size = 0 ∨ size % 2 ^ level ≠ 0 ∨ 2 ^ 32 ≤ size / 2 ^ level,
      .invalidDataSize size (2 ^ level)⟩]

def checks (bytes : ByteArray) : List Check :=
  formChecks bytes ++
    geometryChecks (fieldsOf bytes).way (fieldsOf bytes).pageLevel (bytes.size - 24)

theorem firstRefusal_geometryChecks (way level size : Nat) :
    firstRefusal (geometryChecks way level size) = refusalOfBuffer way level size := by
  simp only [geometryChecks, firstRefusal_cons, firstRefusal_nil, decide_eq_true_eq,
    refusalOfBuffer, refusalOfLevel, refusalOfSize]
  by_cases hway : ¬(4 ≤ way ∧ way ≤ 8)
  · rw [if_pos hway, if_pos hway]
    rfl
  rw [if_neg hway, if_neg hway]
  by_cases hlevel : ¬(8 - 8 / way ≤ level ∧ level ≤ 13)
  · rw [if_pos hlevel, if_pos hlevel]
    rfl
  rw [if_neg hlevel, if_neg hlevel]
  rfl

theorem firstRefusal_checks (bytes : ByteArray) :
    firstRefusal (checks bytes) = (firstRefusal (formChecks bytes)).or
      (refusalOfBuffer (fieldsOf bytes).way (fieldsOf bytes).pageLevel (bytes.size - 24)) := by
  rw [checks, firstRefusal_append, firstRefusal_geometryChecks]

theorem size_extract_data (bytes : ByteArray) :
    (bytes.extract headerSize bytes.size).size = bytes.size - 24 := by
  rw [ByteArray.size_extract, Nat.min_self]
  rfl

/-- Splitting reports the first check of the outer form that fails. -/
theorem answers_split (bytes : ByteArray) :
    Answers (· = (fieldsOf bytes, bytes.extract headerSize bytes.size))
      (firstRefusal (formChecks bytes))
      (liftM (split bytes) : Except Failure (Header × ByteArray)) := by
  have hdata := size_extract_data bytes
  simp only [formChecks, firstRefusal_cons, firstRefusal_nil, decide_eq_true_eq]
  rw [split, readHeader_eq]
  by_cases hsize : bytes.size < 24
  · rw [if_pos hsize, if_pos (show bytes.size < headerSize from hsize)]
    exact .refuse _
  rw [if_neg hsize, if_neg (show ¬bytes.size < headerSize from hsize)]
  by_cases hmagic : bytes.extract 0 4 ≠ magic
  · rw [if_pos hmagic, if_pos hmagic]
    exact .refuse _
  rw [if_neg hmagic, if_neg hmagic]
  by_cases hversion : (fieldsOf bytes).version ≠ 1
  · rw [if_pos hversion, if_pos (show (fieldsOf bytes).version ≠ formatVersion from hversion)]
    exact .refuse _
  rw [if_neg hversion, if_neg (show ¬(fieldsOf bytes).version ≠ formatVersion from hversion),
    ok_bind]
  dsimp only
  rw [hdata]
  by_cases hshort : bytes.size - 24 < (fieldsOf bytes).dataLen.toNat
  · rw [if_pos hshort, if_pos hshort]
    exact .refuse _
  rw [if_neg hshort, if_neg hshort]
  by_cases hlong : (fieldsOf bytes).dataLen.toNat < bytes.size - 24
  · rw [if_pos hlong, if_pos hlong]
    exact .refuse _
  rw [if_neg hlong, if_neg hlong]
  exact .ok rfl

theorem answers_dataSize (data : ByteArray) (level : Nat) (hlevel : level ≤ maxPageLevel) :
    Answers (fun _ => True) (refusalOfSize data.size level)
      (do
        checkShift level 64
        let pageSize := 2 ^ level
        if data.isEmpty ∨ data.size % pageSize ≠ 0 ∨ 2 ^ 32 - 1 < data.size >>> level then
          refuse (.invalidDataSize data.size pageSize)) := by
  have hle : level ≤ 13 := hlevel
  have hempty : (data.isEmpty = true) = (data.size = 0) := by
    rw [ByteArray.isEmpty, beq_iff_eq]
  have hlast : (2 ^ 32 - 1 < data.size >>> level) = (2 ^ 32 ≤ data.size / 2 ^ level) := by
    rw [Nat.shiftRight_eq_div_pow]
    exact propext Nat.lt_iff_add_one_le
  rw [checkShift_of_lt (by omega), lift_ok, ok_bind, refusalOfSize]
  dsimp only
  simp only [hempty, hlast]
  by_cases hbad : data.size = 0 ∨ data.size % 2 ^ level ≠ 0 ∨ 2 ^ 32 ≤ data.size / 2 ^ level
  · rw [if_pos hbad, if_pos hbad]
    exact .refuse _
  · rw [if_neg hbad, if_neg hbad]
    exact .ok trivial

theorem answers_validate (bytes : ByteArray) :
    Answers (fun _ => True) (firstRefusal (checks bytes)) (validate bytes) := by
  rw [validate, firstRefusal_checks, ← size_extract_data]
  refine (answers_split bytes).bind ?_
  rintro _ rfl
  refine (answers_checkPageLevel _ _).bind ?_
  intro _ hfits
  exact answers_dataSize _ _ hfits.2.2

theorem answers_decode (bytes : ByteArray) :
    Answers WellFormed (firstRefusal (checks bytes)) (decode bytes) := by
  rw [decode, firstRefusal_checks, ← size_extract_data]
  refine (answers_split bytes).bind ?_
  rintro _ rfl
  dsimp only
  rw [AnyFilter.ofBytes_eq]
  exact (AnyFilter.answers_of_bits (PagedBits.answers_with _ _ _ _)).mono fun _ h => h.1

/-- Validation agrees with decoding, for all bytes. The first check that fails is what both refuse;
where none fails the bytes are valid, and they are the frame of the filter that they restore. -/
theorem validation_agrees (bytes : ByteArray) :
    Answers (fun _ => True) (firstRefusal (checks bytes)) (validate bytes) ∧
    Answers (fun f => WellFormed f ∧ encode f = bytes) (firstRefusal (checks bytes))
      (decode bytes) ∧
    (validate bytes = .ok () ↔ ∃ f, decode bytes = .ok f) ∧
    ∀ failure, validate bytes = .error failure ↔ decode bytes = .error failure := by
  have hvalidate := answers_validate bytes
  have hdecode := answers_decode bytes
  refine ⟨hvalidate, ⟨hdecode.refused, ?_⟩, ?_, hvalidate.error_iff hdecode⟩
  · intro hnone
    obtain ⟨f, hf, -⟩ := hdecode.made hnone
    exact ⟨f, hf, encode_of_decode hf⟩
  · rw [← hvalidate.ok_iff hdecode]
    exact ⟨fun h => ⟨(), h⟩, fun ⟨_, h⟩ => h⟩

end Frame
end PagedFilter
