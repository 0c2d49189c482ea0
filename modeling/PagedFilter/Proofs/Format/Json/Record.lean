import Mathlib.Data.List.Nodup
import PagedFilter.Proofs.Format.Json.Scan
namespace PagedFilter.Json

def FieldShape.Admits : FieldShape → FieldValue → Prop
  | number greatest, .number n => n ≤ greatest
  | bytes, .bytes _ => True
  | _, _ => False

theorem readBounded_writeNat {n greatest : Nat} (h : n ≤ greatest) {rest : List Char}
    (hend : DigitsEnd rest) : readBounded greatest (writeNat n ++ rest) = some (n, rest) := by
  rw [readBounded, readNat_writeNat n hend]
  exact if_pos h

def writeBytes (os : List UInt8) : List Char :=
  List.intercalate [','] (os.map fun o => writeNat o.toNat)

theorem writeBytes_cons_cons (o p : UInt8) (os : List UInt8) :
    writeBytes (o :: p :: os) = writeNat o.toNat ++ ',' :: writeBytes (p :: os) := by
  rw [writeBytes, writeBytes, List.map_cons, List.map_cons, List.intercalate_cons_cons,
    List.append_assoc]
  rfl

theorem writeBytes_singleton (o : UInt8) : writeBytes [o] = writeNat o.toNat :=
  List.intercalate_singleton

/-- The text of a list of bytes starts with a digit, and takes a character for each byte. -/
theorem writeBytes_cons (o : UInt8) (os : List UInt8) :
    ∃ c cs, writeBytes (o :: os) = c :: cs ∧ c.isDigit = true ∧ os.length ≤ cs.length := by
  obtain ⟨c, cs, hfirst, hdigit⟩ := writeNat_cons o.toNat
  cases os with
  | nil => exact ⟨c, cs, by rw [writeBytes_singleton, hfirst], hdigit, Nat.zero_le _⟩
  | cons p os =>
    obtain ⟨d, ds, hrest, -, hlength⟩ := writeBytes_cons p os
    refine ⟨c, cs ++ ',' :: d :: ds, ?_, hdigit, ?_⟩
    · rw [writeBytes_cons_cons, hfirst, hrest]
      rfl
    · rw [List.length_append, List.length_cons, List.length_cons, List.length_cons]
      omega

theorem readElements_writeBytes (o : UInt8) (os : List UInt8) (read : ByteArray)
    (rest : List Char) {fuel : Nat} (hfuel : os.length < fuel) :
    readElements fuel read (writeBytes (o :: os) ++ ']' :: rest) =
      some ((o :: os).foldl ByteArray.push read, rest) := by
  have hle (o : UInt8) : o.toNat ≤ 255 := Nat.le_of_lt_succ o.toNat_lt
  induction os generalizing o read fuel with
  | nil =>
    obtain ⟨fuel, rfl⟩ := Nat.exists_eq_succ_of_ne_zero (Nat.ne_zero_of_lt hfuel)
    rw [writeBytes_singleton, readElements,
      readBounded_writeNat (hle o) (digitsEnd_cons (by decide) rest)]
    dsimp only
    rw [skipBlanks_cons (by decide), UInt8.ofNat_toNat]
    rfl
  | cons p os ih =>
    obtain ⟨fuel, rfl⟩ := Nat.exists_eq_succ_of_ne_zero (Nat.ne_zero_of_lt hfuel)
    rw [writeBytes_cons_cons, List.append_assoc, List.cons_append, readElements,
      readBounded_writeNat (hle o) (digitsEnd_cons (by decide) _)]
    dsimp only
    rw [skipBlanks_cons (by decide), UInt8.ofNat_toNat]
    exact ih p (read.push o) (Nat.lt_of_succ_lt_succ hfuel)

theorem foldl_push (os : List UInt8) (read : ByteArray) :
    os.foldl ByteArray.push read = ⟨read.data ++ os.toArray⟩ := by
  induction os generalizing read with
  | nil => simp
  | cons o os ih =>
    rw [List.foldl_cons, ih]
    simp

theorem readBytes_write (b : ByteArray) (rest : List Char) :
    readBytes ((FieldValue.bytes b).write ++ rest) = some (b, rest) := by
  have hwrite : (FieldValue.bytes b).write ++ rest =
      '[' :: (writeBytes b.data.toList ++ ']' :: rest) := by
    simp [FieldValue.write, writeBytes]
  have hall : b.data.toList.foldl ByteArray.push ByteArray.empty = b := by
    rw [foldl_push]
    simp
  rw [hwrite, readBytes, skipMark_cons (by decide)]
  dsimp only
  cases hbytes : b.data.toList with
  | nil =>
    rw [hbytes] at hall
    rw [← hall]
    rfl
  | cons o os =>
    rw [hbytes] at hall
    obtain ⟨c, cs, htext, hdigit, hlength⟩ := writeBytes_cons o os
    have hfuel : os.length < (writeBytes (o :: os) ++ ']' :: rest).length := by
      rw [htext, List.cons_append, List.length_cons, List.length_append]
      omega
    have hread := readElements_writeBytes o os ByteArray.empty rest hfuel
    rw [htext, List.cons_append] at hread ⊢
    rw [skipBlanks_cons (isBlank_of_isDigit hdigit)]
    split
    case h_1 heq =>
      cases heq
      contradiction
    case h_2 => rw [hread, hall]

theorem FieldShape.read_write {shape : FieldShape} {value : FieldValue} (h : shape.Admits value)
    {rest : List Char} (hend : DigitsEnd rest) :
    shape.read (value.write ++ rest) = some (value, rest) := by
  cases shape with
  | number greatest =>
    cases value with
    | number n =>
      rw [FieldShape.read, FieldValue.write, readBounded_writeNat h hend]
      rfl
    | bytes b => exact absurd h id
  | bytes =>
    cases value with
    | number n => exact absurd h id
    | bytes b =>
      rw [FieldShape.read, readBytes_write]
      rfl

structure Writable (schema : Schema) (field : String × FieldValue) : Prop where
  plain : ∀ c ∈ field.1.toList, IsPlain c
  admits : ∃ shape, schema.lookup field.1 = some shape ∧ shape.Admits field.2

variable {schema : Schema}

theorem lookup_eq_none {found : List (String × FieldValue)} {name : String}
    (h : name ∉ found.map Prod.fst) : found.lookup name = none := by
  rw [List.lookup_eq_none_iff]
  intro field hfield
  rw [bne_iff_ne]
  rintro rfl
  exact h (List.mem_map_of_mem hfield)

theorem lookup_of_mem {fields : List (String × FieldValue)} (hnodup : (fields.map Prod.fst).Nodup)
    {field : String × FieldValue} (hmem : field ∈ fields) :
    fields.lookup field.1 = some field.2 := by
  induction fields with
  | nil => exact absurd hmem List.not_mem_nil
  | cons first fields ih =>
    obtain ⟨hfirst, hrest⟩ := List.nodup_cons.mp hnodup
    rw [List.lookup_cons]
    rcases List.mem_cons.mp hmem with rfl | hmem
    · rw [BEq.rfl]
    · have hne : (field.1 == first.1) = false := by
        rw [beq_eq_false_iff_ne]
        exact fun heq => hfirst (heq ▸ List.mem_map_of_mem hmem)
      rw [hne]
      exact ih hrest hmem

theorem readMember_writeField {found : List (String × FieldValue)} {field : String × FieldValue}
    (h : Writable schema field) (hnew : field.1 ∉ found.map Prod.fst) {rest : List Char}
    (hend : DigitsEnd rest) :
    readMember schema found (writeField field ++ rest) = some (field :: found, rest) := by
  obtain ⟨shape, hshape, hadmits⟩ := h.admits
  have hwrite : writeField field ++ rest =
      '"' :: (field.1.toList ++ '"' :: ':' :: (field.2.write ++ rest)) := by
    simp [writeField]
  rw [hwrite, readMember, readString_plain h.plain]
  simp only [Option.bind_eq_bind, Option.bind_some]
  rw [skipMark_cons (by decide)]
  simp only [Option.bind_some, hshape, lookup_eq_none hnew, shape.read_write hadmits hend]
  rfl

def writeFields (fields : List (String × FieldValue)) : List Char :=
  List.intercalate [','] (fields.map writeField)

theorem writeFields_cons_cons (first second : String × FieldValue)
    (fields : List (String × FieldValue)) :
    writeFields (first :: second :: fields) =
      writeField first ++ ',' :: writeFields (second :: fields) := by
  rw [writeFields, writeFields, List.map_cons, List.map_cons, List.intercalate_cons_cons,
    List.append_assoc]
  rfl

theorem writeFields_singleton (field : String × FieldValue) :
    writeFields [field] = writeField field :=
  List.intercalate_singleton

/-- The members start with a quote, and take a character for each field. -/
theorem writeFields_cons (field : String × FieldValue) (fields : List (String × FieldValue)) :
    ∃ cs, writeFields (field :: fields) = '"' :: cs ∧ fields.length ≤ cs.length := by
  induction fields generalizing field with
  | nil => exact ⟨_, writeFields_singleton field, Nat.zero_le _⟩
  | cons next fields ih =>
    obtain ⟨cs, hrest, hlength⟩ := ih next
    refine ⟨field.1.toList ++ '"' :: ':' :: field.2.write ++ ',' :: '"' :: cs, ?_, ?_⟩
    · rw [writeFields_cons_cons, hrest]
      rfl
    · rw [List.length_append, List.length_cons, List.length_cons, List.length_cons]
      omega

theorem readMembers_writeFields {field : String × FieldValue}
    {fields found : List (String × FieldValue)}
    (hwritable : ∀ f ∈ field :: fields, Writable schema f)
    (hnodup : ((field :: fields ++ found).map Prod.fst).Nodup) (rest : List Char) {fuel : Nat}
    (hfuel : fields.length < fuel) :
    readMembers schema fuel found (writeFields (field :: fields) ++ '}' :: rest) =
      some ((field :: fields).reverse ++ found, rest) := by
  induction fields generalizing field found fuel with
  | nil =>
    obtain ⟨fuel, rfl⟩ := Nat.exists_eq_succ_of_ne_zero (Nat.ne_zero_of_lt hfuel)
    have hnew : field.1 ∉ found.map Prod.fst := (List.nodup_cons.mp hnodup).1
    rw [writeFields_singleton, readMembers,
      readMember_writeField (hwritable field List.mem_cons_self) hnew
        (digitsEnd_cons (by decide) rest)]
    dsimp only
    rw [skipBlanks_cons (by decide)]
    rfl
  | cons next fields ih =>
    obtain ⟨fuel, rfl⟩ := Nat.exists_eq_succ_of_ne_zero (Nat.ne_zero_of_lt hfuel)
    have hnew : field.1 ∉ found.map Prod.fst := by
      intro hmem
      refine (List.nodup_cons.mp hnodup).1 ?_
      exact List.map_subset _ (List.subset_append_right _ _) hmem
    -- The field goes over to those found, and all names together stay different.
    have hmoved : ((next :: fields ++ field :: found).map Prod.fst).Nodup :=
      (List.perm_middle.map Prod.fst).nodup_iff.mpr hnodup
    rw [writeFields_cons_cons, List.append_assoc, List.cons_append, readMembers,
      readMember_writeField (hwritable field List.mem_cons_self) hnew
        (digitsEnd_cons (by decide) _)]
    dsimp only
    rw [skipBlanks_cons (by decide)]
    change readMembers schema fuel (field :: found) _ = _
    rw [ih (fun f hf => hwritable f (List.mem_cons_of_mem field hf)) hmoved
      (Nat.lt_of_succ_lt_succ hfuel), List.reverse_cons (a := field), List.append_assoc]
    rfl

structure Writes (schema : Schema) (fields : List (String × FieldValue)) : Prop where
  names_eq : schema.map Prod.fst = fields.map Prod.fst
  nodup : (fields.map Prod.fst).Nodup
  writable : ∀ field ∈ fields, Writable schema field

theorem mapM_of_some {α β : Type} {g : α → Option β} {h : α → β} {as : List α}
    (hsome : ∀ a ∈ as, g a = some (h a)) : as.mapM g = some (as.map h) := by
  induction as with
  | nil => rfl
  | cons a as ih =>
    rw [List.mapM_cons, hsome a List.mem_cons_self,
      ih fun b hb => hsome b (List.mem_cons_of_mem a hb)]
    rfl

theorem readObject_writeFields {fields : List (String × FieldValue)} (h : Writes schema fields)
    (rest : List Char) :
    readObject schema (writeFields fields ++ '}' :: rest) = some (fields.map Prod.snd, rest) := by
  have hnodup : (fields.reverse.map Prod.fst).Nodup := by
    rw [List.map_reverse]
    exact List.nodup_reverse.mpr h.nodup
  have hnames {α : Type} (l : List (String × α)) :
      (l.map Prod.fst).mapM (fields.reverse.lookup ·) =
        l.mapM fun f => fields.reverse.lookup f.1 := by
    rw [List.mapM_map]
    rfl
  -- The fields are found in reverse, and looked up by the names of the schema.
  have hvalues : (schema.mapM fun f => fields.reverse.lookup f.1) =
      some (fields.map Prod.snd) := by
    rw [← hnames, h.names_eq, hnames]
    exact mapM_of_some fun f hf => lookup_of_mem hnodup (List.mem_reverse.mpr hf)
  cases fields with
  | nil =>
    obtain rfl := List.map_eq_nil_iff.mp h.names_eq
    rfl
  | cons field fields =>
    obtain ⟨cs, htext, hlength⟩ := writeFields_cons field fields
    have hfuel : fields.length < (writeFields (field :: fields) ++ '}' :: rest).length := by
      rw [htext, List.cons_append, List.length_cons, List.length_append]
      omega
    have hnew : ((field :: fields ++ []).map Prod.fst).Nodup := by
      rw [List.append_nil]
      exact h.nodup
    have hread := readMembers_writeFields h.writable hnew rest hfuel
    rw [htext, List.cons_append] at hread ⊢
    rw [readObject, skipBlanks_cons (by decide)]
    change (readMembers schema ('"' :: (cs ++ '}' :: rest)).length [] _ >>= fun found =>
      (schema.mapM fun f => found.1.lookup f.1) >>= fun values => some (values, found.2)) = _
    rw [hread, List.append_nil]
    change ((schema.mapM fun f => (field :: fields).reverse.lookup f.1) >>= fun values =>
      some (values, rest)) = _
    rw [hvalues]
    rfl

theorem readRecord_writeRecord {fields : List (String × FieldValue)} (h : Writes schema fields) :
    readRecord schema (writeRecord fields) = some (fields.map Prod.snd) := by
  have hwrite : writeRecord fields = '{' :: (writeFields fields ++ ['}']) := rfl
  rw [hwrite, readRecord, skipBlanks_cons (by decide)]
  change (readObject schema (writeFields fields ++ ['}']) >>= fun r =>
    if skipBlanks r.2 = [] then some r.1 else none) = _
  rw [readObject_writeFields h]
  rfl

end PagedFilter.Json
