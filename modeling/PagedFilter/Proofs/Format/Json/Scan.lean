import PagedFilter.Format.Json.Record
namespace PagedFilter.Json

theorem isBlank_of_isDigit {c : Char} (h : c.isDigit = true) : isBlank c = false := by
  have hne (d : Char) (hd : d.isDigit = false) : c ≠ d := by
    rintro rfl
    rw [h] at hd
    contradiction
  simp [isBlank, hne]

theorem skipBlanks_cons {c : Char} (h : isBlank c = false) (cs : List Char) :
    skipBlanks (c :: cs) = c :: cs :=
  List.dropWhile_cons_of_neg (by rw [h]; exact Bool.false_ne_true)

theorem skipMark_cons {c : Char} (h : isBlank c = false) (cs : List Char) :
    skipMark c (c :: cs) = some cs := by
  rw [skipMark, skipBlanks_cons h]
  exact if_pos rfl

def DigitsEnd (rest : List Char) : Prop := ∀ c ∈ rest.head?, c.isDigit = false

theorem digitsEnd_cons {c : Char} (h : c.isDigit = false) (cs : List Char) :
    DigitsEnd (c :: cs) := by
  intro d hd
  cases hd
  exact h

theorem isDigit_of_mem_writeNat {n : Nat} {c : Char} (h : c ∈ writeNat n) : c.isDigit = true :=
  Nat.isDigit_of_mem_toDigits (by decide) (by decide) h

theorem writeNat_ne_nil (n : Nat) : writeNat n ≠ [] := Nat.toDigits_ne_nil

theorem writeNat_cons (n : Nat) : ∃ c cs, writeNat n = c :: cs ∧ c.isDigit = true := by
  obtain ⟨c, cs, h⟩ := List.exists_cons_of_ne_nil (writeNat_ne_nil n)
  refine ⟨c, cs, h, isDigit_of_mem_writeNat (n := n) ?_⟩
  rw [h]
  exact List.mem_cons_self

theorem head?_writeNat_ne {n : Nat} (h : n ≠ 0) : (writeNat n).head? ≠ some '0' := by
  induction n using Nat.strongRecOn with
  | ind n ih =>
    rw [writeNat, Nat.toDigits_eq_if (by decide)]
    split
    case isTrue hlt => simp [h]
    case isFalse hge =>
      have hrest := ih (n / 10) (by omega) (by omega)
      rw [writeNat] at hrest
      cases hdigits : Nat.toDigits 10 (n / 10) with
      | nil => exact absurd hdigits Nat.toDigits_ne_nil
      | cons c cs => rwa [hdigits] at hrest

theorem writeNat_ne_zero_cons (n : Nat) (c : Char) (cs : List Char) :
    writeNat n ≠ '0' :: c :: cs := by
  intro heq
  by_cases hn : n = 0
  · subst hn
    cases heq
  · refine head?_writeNat_ne hn ?_
    rw [heq]
    rfl

theorem readNat_writeNat (n : Nat) {rest : List Char} (hend : DigitsEnd rest) :
    readNat (writeNat n ++ rest) = some (n, rest) := by
  have hdigits : ∀ c ∈ writeNat n, c.isDigit = true := fun c hc => isDigit_of_mem_writeNat hc
  have hskip : skipBlanks (writeNat n ++ rest) = writeNat n ++ rest := by
    obtain ⟨c, cs, h, hdigit⟩ := writeNat_cons n
    rw [h]
    exact skipBlanks_cons (isBlank_of_isDigit hdigit) _
  have htake : rest.takeWhile Char.isDigit = [] := by
    cases rest with
    | nil => rfl
    | cons c cs => exact List.takeWhile_cons_of_neg (by simp [hend c rfl])
  have hdrop : rest.dropWhile Char.isDigit = rest := by
    cases rest with
    | nil => rfl
    | cons c cs => exact List.dropWhile_cons_of_neg (by simp [hend c rfl])
  rw [readNat, hskip, List.takeWhile_append_of_pos hdigits, htake, List.append_nil,
    List.dropWhile_append_of_pos hdigits, hdrop]
  split
  case h_1 h => exact absurd h (writeNat_ne_nil n)
  case h_2 h => exact absurd h (writeNat_ne_zero_cons n _ _)
  case h_3 => rw [writeNat, Nat.ofDigitChars_ten_toDigits]

def IsPlain (c : Char) : Prop := c ≠ '"' ∧ c ≠ '\\' ∧ 0x20 ≤ c.toNat

theorem readStringTail_plain (cs : List Char) (hplain : ∀ c ∈ cs, IsPlain c)
    (read rest : List Char) :
    readStringTail read (cs ++ '"' :: rest) = some (String.ofList (read.reverse ++ cs), rest) := by
  induction cs generalizing read with
  | nil => rw [List.nil_append, readStringTail, List.append_nil]
  | cons c cs ih =>
    obtain ⟨hquote, hslash, hcontrol⟩ := hplain c List.mem_cons_self
    have hrest := ih (fun d hd => hplain d (List.mem_cons_of_mem c hd)) (c :: read)
    rw [List.reverse_cons, List.append_assoc] at hrest
    rw [List.cons_append, readStringTail, if_neg (Nat.not_lt.mpr hcontrol), hrest]
    · rfl
    · exact hquote
    · exact fun _ _ _ _ _ h _ => hslash h
    · exact fun _ _ h _ => hslash h

theorem readString_plain {name : String} (hplain : ∀ c ∈ name.toList, IsPlain c)
    (rest : List Char) :
    readString ('"' :: (name.toList ++ '"' :: rest)) = some (name, rest) := by
  rw [readString, skipMark_cons (by decide)]
  change readStringTail [] (name.toList ++ '"' :: rest) = _
  rw [readStringTail_plain _ hplain, List.reverse_nil, List.nil_append, String.ofList_toList]

end PagedFilter.Json
