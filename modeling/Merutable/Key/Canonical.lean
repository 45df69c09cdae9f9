import Merutable.Key.Order

/-! Decoding against encoding: which keys come back from their bytes, and which bytes come back from
the key they decode to. -/

namespace Merutable

open Wal

/-- The decoder restores the values of every type but the two float types. -/
def ColumnType.restored : ColumnType → Bool
  | .float => false
  | .double => false
  | _ => true

/-- No key column is a float. -/
def TableSchema.FloatFree (schema : TableSchema) (columns : List Nat) : Prop :=
  ∀ idx ∈ columns, ∀ col, schema.columns[idx]? = some col → col.colType.restored = true

section Decoding

variable {schema : TableSchema} {values : List FieldValue} {columns : List Nat} {bytes : Bytes}

theorem xor_not_ne {width : Nat} (bits sign : BitVec (width + 2)) (low : sign[0] = false) :
    ~~~ bits ^^^ sign ≠ bits := by
  intro same
  have bit := congrArg (fun word => word[0]) same
  simp [low] at bit

theorem reread_eq_self_iff {value : FieldValue} {colType : ColumnType}
    (code : FieldCode value colType bytes) : value.reread = value ↔ colType.restored = true := by
  cases code with
  | boolean | int32 | int64 | fixedLen | byteArray => exact ⟨fun _ => rfl, fun _ => rfl⟩
  | float bits | double bits =>
    constructor
    · intro same
      injection same with same
      exact absurd same (xor_not_ne bits _ (by decide))
    · intro restored
      cases restored

theorem map_reread_eq_self_iff (sized : values.length = columns.length)
    (encoded : encodeFields schema values columns = .ok bytes) :
    values.map FieldValue.reread = values ↔ schema.FloatFree columns := by
  induction columns generalizing values bytes with
  | nil =>
    cases List.length_eq_zero_iff.mp sized
    simp [TableSchema.FloatFree]
  | cons idx columns ih =>
    cases values with
    | nil => cases sized
    | cons value values =>
      obtain ⟨col, front, later, found, encodedFront, encodedLater, rfl⟩ :=
        encodeFields_cons.mp encoded
      have first := reread_eq_self_iff (encodeField_eq_ok.mp encodedFront)
      have others := ih (Nat.succ.inj sized) encodedLater
      rw [List.map_cons, List.cons.injEq, first, others]
      simp [TableSchema.FloatFree, found]

/-- Encoding then decoding gives the key back exactly when no key column is a float. -/
theorem decoded_key_is_encoded_iff {seq : Nat} {op : OpType} {key : InternalKey}
    (encoded : InternalKey.encode values seq op schema = .ok key) :
    (∃ decoded, InternalKey.decode key.encoded schema = .ok decoded ∧ decoded.pkValues = values ∧
      decoded.seq = seq ∧ decoded.opType = op ∧
      InternalKey.encodeUserKey values schema = .ok decoded.userKeyBytes) ↔
      schema.FloatFree schema.primaryKey := by
  have decodes := InternalKey.decode_encode encoded
  obtain ⟨fields, encodedFields, bounded, rfl⟩ := InternalKey.encode_eq_ok.mp encoded
  obtain ⟨sized, written⟩ := encodePkFields_eq_ok.mp encodedFields
  rw [← map_reread_eq_self_iff sized written]
  constructor
  · rintro ⟨decoded, returned, same, _⟩
    rw [decodes] at returned
    cases returned
    exact same
  · intro same
    refine ⟨_, decodes, same, rfl, rfl, ?_⟩
    have cut : InternalKey.userKeyBytes
        ⟨fields ++ keyTag seq op, seq, op, values.map .reread⟩ = fields := by
      simp [InternalKey.userKeyBytes, keyTag_length]
    rw [cut]
    exact encodedFields

theorem decoded_key_is_encoded_numbered :
    ∃ decoded, InternalKey.decode
        [127, 255, 255, 255, 255, 255, 255, 255, 0, 255, 0, 0, 255, 255, 255, 255, 255, 255, 248, 1]
        .numbered = .ok decoded ∧ decoded.pkValues = [.int64 (-1), .bytes [0]] ∧
      decoded.seq = 7 ∧ decoded.opType = .put ∧
      InternalKey.encodeUserKey [.int64 (-1), .bytes [0]] .numbered = .ok decoded.userKeyBytes :=
  (decoded_key_is_encoded_iff (by decide :
    InternalKey.encode [.int64 (-1), .bytes [0]] 7 .put .numbered = .ok
      ⟨[127, 255, 255, 255, 255, 255, 255, 255, 0, 255, 0, 0, 255, 255, 255, 255, 255, 255, 248, 1],
        7, .put, [.int64 (-1), .bytes [0]]⟩)).mpr
    (by unfold TableSchema.FloatFree; decide)

/-- One key column, a float. -/
def TableSchema.measured : TableSchema where
  tableName := "measured"
  columns := [⟨"value", .float, false, some 1, none, none⟩]
  primaryKey := [0]
  schemaId := 0
  lastColumnId := 1

/-- The key `1.0` comes back as the float just below four. -/
theorem decoded_float_key_differs :
    InternalKey.encode [.float 0x3f800000#32] 7 .put .measured =
      .ok ⟨[0xbf, 0x80, 0, 0, 255, 255, 255, 255, 255, 255, 248, 1], 7, .put,
        [.float 0x3f800000#32]⟩ ∧
    InternalKey.decode [0xbf, 0x80, 0, 0, 255, 255, 255, 255, 255, 255, 248, 1] .measured =
      .ok ⟨[0xbf, 0x80, 0, 0, 255, 255, 255, 255, 255, 255, 248, 1], 7, .put,
        [.float 0x407fffff#32]⟩ := by
  decide

end Decoding

/-- How far an escaped byte string reaches, with its end mark. -/
def escapedLength : Bytes → Nat
  | [] => 0
  | [_] => 1
  | byte :: next :: rest =>
    if byte = 0 then if next = 0 then 2 else escapedLength rest + 2
    else escapedLength (next :: rest) + 1

/-- How many of the bytes the field at their front takes. -/
def ColumnType.codeLength (bytes : Bytes) : ColumnType → Nat
  | .boolean => 1
  | .int32 => 4
  | .int64 => 8
  | .float => 4
  | .double => 8
  | .byteArray => escapedLength bytes
  | .fixedLenByteArray width => usizeOfI32 width

/-- Every boolean among the key columns is stored as one of the two bytes that are written for
it. -/
def TableSchema.BooleansWritten (schema : TableSchema) : List Nat → Bytes → Prop
  | [], _ => True
  | idx :: rest, bytes =>
    match schema.columns[idx]? with
    | none => True
    | some col =>
      (col.colType = .boolean → bytes.head? = some 0 ∨ bytes.head? = some 1) ∧
        BooleansWritten schema rest (bytes.drop (col.colType.codeLength bytes))

section Encoding

variable {schema : TableSchema} {values : List FieldValue} {columns : List Nat} {bytes left : Bytes}
  {count : Nat} {colType : ColumnType} {value : FieldValue}

theorem escape_unescape {value : Bytes} (decoded : unescapeByteArray bytes = .ok (value, count)) :
    bytes.take count = escapeByteArray value ∧ count = escapedLength bytes ∧
      count ≤ bytes.length := by
  fun_induction unescapeByteArray bytes generalizing value count with
  | case1 => cases decoded
  | case2 => cases decoded
  | case3 => cases decoded
  | case4 rest ih =>
    obtain ⟨⟨inner, used⟩, unescaped, decoded⟩ := Except.bind_eq_ok.mp decoded
    cases decoded
    obtain ⟨front, reach, bound⟩ := ih unescaped
    have value : escapeByteArray (0 :: inner) = 0 :: 255 :: escapeByteArray inner := rfl
    rw [value, ← front]
    refine ⟨rfl, ?_, ?_⟩
    · rw [reach]
      rfl
    · simp only [List.length_cons]
      omega
  | case5 rest =>
    cases decoded
    exact ⟨rfl, rfl, by simp⟩
  | case6 => cases decoded
  | case7 byte next rest positive ih =>
    obtain ⟨⟨inner, used⟩, unescaped, decoded⟩ := Except.bind_eq_ok.mp decoded
    cases decoded
    obtain ⟨front, reach, bound⟩ := ih unescaped
    rw [escapeByteArray, if_neg positive, ← front, escapedLength, if_neg positive, ← reach]
    exact ⟨rfl, rfl, Nat.succ_le_succ bound⟩

theorem toBe_word {bytes : Bytes} (sized : bytes.length = 4) :
    toBe 4 (BitVec.ofNat 32 (ofBe bytes)).toNat = bytes := by
  have bound : ofBe bytes < 2 ^ 32 := ofBe_lt sized
  rw [BitVec.toNat_ofNat, Nat.mod_eq_of_lt bound, toBe_ofBe sized]

theorem toBe_word64 {bytes : Bytes} (sized : bytes.length = 8) :
    toBe 8 (BitVec.ofNat 64 (ofBe bytes)).toNat = bytes := by
  have bound : ofBe bytes < 2 ^ 64 := ofBe_lt sized
  rw [BitVec.toNat_ofNat, Nat.mod_eq_of_lt bound, toBe_ofBe sized]

theorem FieldCode.length {code : Bytes} (written : FieldCode value colType code)
    (fixed : colType ≠ .byteArray) (bytes : Bytes) :
    code.length = colType.codeLength bytes := by
  cases written with
  | boolean value => rfl
  | int32 | int64 | float | double => exact toBe_length _ _
  | fixedLen value width sized => exact sized
  | byteArray value => exact absurd rfl fixed

theorem restored_of_encoded (decoded : decodeField bytes colType = .ok (value, count))
    (encoded : encodeField value colType = .ok (bytes.take count)) : colType.restored = true := by
  have again := decodeField_encodeField encoded (bytes.drop count)
  rw [List.take_append_drop, decoded] at again
  injection again with same
  exact (reread_eq_self_iff (encodeField_eq_ok.mp encoded)).mp (Prod.mk.inj same).1.symm

theorem ensureLen_return {width count : Nat} {field : String} {value result : FieldValue}
    (decoded : (do ensureLen bytes width field; return (result, width)) = .ok (value, count)) :
    (bytes.take width).length = width ∧ width ≤ bytes.length ∧ value = result ∧ count = width := by
  obtain ⟨long, decoded⟩ := Except.seq_eq_ok.mp decoded
  have bound := okIf_eq_ok.mp long
  cases decoded
  exact ⟨List.length_take_of_le bound, bound, rfl, rfl⟩

/-- A decoded field was at the front of the bytes. Encoding it again gives the same bytes back for
every type but the floats, unless a boolean was stored as some other byte. -/
theorem encodeField_decodeField (decoded : decodeField bytes colType = .ok (value, count)) :
    count = colType.codeLength bytes ∧ count ≤ bytes.length ∧
      (∀ code, encodeField value colType = .ok code → code.length = count) ∧
      (encodeField value colType = .ok (bytes.take count) ↔ colType.restored = true ∧
        (colType = .boolean → bytes.head? = some 0 ∨ bytes.head? = some 1)) := by
  cases colType with
  | boolean =>
    obtain ⟨_, bound, rfl, rfl⟩ := ensureLen_return decoded
    refine ⟨rfl, bound, fun code encoded =>
      (encodeField_eq_ok.mp encoded).length (by decide) [], ?_⟩
    cases bytes with
    | nil => cases bound
    | cons byte rest =>
      by_cases zero : byte = 0
      · simp [encodeField, ColumnType.restored, zero]
      · simp [encodeField, ColumnType.restored, zero, eq_comm]
  | int32 =>
    obtain ⟨sized, bound, rfl, rfl⟩ := ensureLen_return decoded
    refine ⟨rfl, bound, fun code encoded =>
      (encodeField_eq_ok.mp encoded).length (by decide) [], ?_⟩
    rw [encodeField, BitVec.xor_assoc, BitVec.xor_self, BitVec.xor_zero, toBe_word sized]
    simp [ColumnType.restored]
  | int64 =>
    obtain ⟨sized, bound, rfl, rfl⟩ := ensureLen_return decoded
    refine ⟨rfl, bound, fun code encoded =>
      (encodeField_eq_ok.mp encoded).length (by decide) [], ?_⟩
    rw [encodeField, BitVec.xor_assoc, BitVec.xor_self, BitVec.xor_zero, toBe_word64 sized]
    simp [ColumnType.restored]
  | float | double =>
    obtain ⟨_, bound, rfl, rfl⟩ := ensureLen_return decoded
    refine ⟨rfl, bound, fun code encoded =>
      (encodeField_eq_ok.mp encoded).length (by decide) [], ?_⟩
    constructor
    · intro encoded
      exact absurd (restored_of_encoded decoded encoded) (by decide)
    · rintro ⟨⟨⟩, _⟩
  | byteArray =>
    obtain ⟨⟨inner, used⟩, unescaped, decoded⟩ := Except.bind_eq_ok.mp decoded
    cases decoded
    obtain ⟨front, reach, bound⟩ := escape_unescape unescaped
    refine ⟨reach, bound, ?_, ?_⟩
    · intro code encoded
      cases encoded
      rw [← front, List.length_take_of_le bound]
    · simp [encodeField, ColumnType.restored, front]
  | fixedLenByteArray width =>
    obtain ⟨sized, bound, rfl, rfl⟩ := ensureLen_return decoded
    refine ⟨rfl, bound, fun code encoded =>
      (encodeField_eq_ok.mp encoded).length (by simp) [], ?_⟩
    simp [encodeField, ColumnType.restored, sized]

theorem decodeFields_cons {idx : Nat} {decoded : List FieldValue} :
    decodeFields schema (idx :: columns) bytes = .ok (decoded, left) ↔
      ∃ col value count values, schema.columns[idx]? = some col ∧
        decodeField bytes col.colType = .ok (value, count) ∧
        decodeFields schema columns (bytes.drop count) = .ok (values, left) ∧
        decoded = value :: values := by
  rw [decodeFields]
  cases found : schema.columns[idx]? with
  | none => simp
  | some col =>
    constructor
    · intro returned
      obtain ⟨⟨value, count⟩, decodedFront, returned⟩ := Except.bind_eq_ok.mp returned
      obtain ⟨⟨values, rest⟩, decodedLater, returned⟩ := Except.bind_eq_ok.mp returned
      cases returned
      exact ⟨col, value, count, values, rfl, decodedFront, decodedLater, rfl⟩
    · rintro ⟨_, value, count, values, ⟨⟩, decodedFront, decodedLater, rfl⟩
      exact Except.bind_eq_ok.mpr ⟨_, decodedFront,
        Except.bind_eq_ok.mpr ⟨_, decodedLater, rfl⟩⟩

theorem encodeFields_decodeFields (decoded : decodeFields schema columns bytes = .ok
    (values, left)) :
    values.length = columns.length ∧
      ((∃ code, encodeFields schema values columns = .ok code ∧ code ++ left = bytes) ↔
        schema.FloatFree columns ∧ schema.BooleansWritten columns bytes) := by
  induction columns generalizing values bytes with
  | nil =>
    cases decoded
    simp [encodeFields, TableSchema.FloatFree, TableSchema.BooleansWritten]
  | cons idx columns ih =>
    obtain ⟨col, value, count, others, found, decodedFront, decodedLater, rfl⟩ :=
      decodeFields_cons.mp decoded
    obtain ⟨sized, later⟩ := ih decodedLater
    obtain ⟨reach, bound, length, front⟩ := encodeField_decodeField decodedFront
    have free : schema.FloatFree (idx :: columns) ↔
        col.colType.restored = true ∧ schema.FloatFree columns := by
      simp [TableSchema.FloatFree, found]
    have written : schema.BooleansWritten (idx :: columns) bytes ↔
        (col.colType = .boolean → bytes.head? = some 0 ∨ bytes.head? = some 1) ∧
          schema.BooleansWritten columns (bytes.drop count) := by
      simp only [TableSchema.BooleansWritten, found, reach]
    refine ⟨congrArg Nat.succ sized, ?_⟩
    rw [free, written]
    constructor
    · rintro ⟨code, encoded, whole⟩
      obtain ⟨_, first, rest, found', encodedFirst, encodedRest, rfl⟩ :=
        encodeFields_cons.mp encoded
      cases found.symm.trans found'
      rw [List.append_assoc] at whole
      have prefixed := length first encodedFirst
      have start : bytes.take count = first := by
        rw [← whole, ← prefixed, List.take_left]
      have remaining : bytes.drop count = rest ++ left := by
        rw [← whole, ← prefixed, List.drop_left]
      have restored := front.mp (start ▸ encodedFirst)
      have others := later.mp ⟨rest, encodedRest, remaining.symm⟩
      exact ⟨⟨restored.1, others.1⟩, restored.2, others.2⟩
    · rintro ⟨⟨restored, freeLater⟩, boolean, writtenLater⟩
      obtain ⟨rest, encodedRest, remaining⟩ := later.mpr ⟨freeLater, writtenLater⟩
      have encodedFront := front.mpr ⟨restored, boolean⟩
      refine ⟨bytes.take count ++ rest,
        encodeFields_cons.mpr ⟨col, _, _, found, encodedFront, encodedRest, rfl⟩, ?_⟩
      rw [List.append_assoc, remaining, List.take_append_drop]

theorem opTypeOf_eq_ok {byte : Nat} {op : OpType} (known : InternalKey.opTypeOf byte = .ok op) :
    byte = op.byte := by
  unfold InternalKey.opTypeOf at known
  split at known
  · rename_i zero
    cases known
    exact zero
  · split at known <;> cases known
    rename_i one
    exact one

theorem InternalKey.decode_parts {raw : Bytes} {key : InternalKey}
    (decoded : InternalKey.decode raw schema = .ok key) : ∃ fields seq op values,
      seq ≤ seqnumMax ∧ raw = fields ++ keyTag seq op ∧
        decodeFields schema schema.primaryKey fields = .ok (values, []) ∧
        key = ⟨raw, seq, op, values⟩ := by
  obtain ⟨long, decoded⟩ := Except.seq_eq_ok.mp decoded
  obtain ⟨bounded, decoded⟩ := Except.seq_eq_ok.mp decoded
  obtain ⟨op, known, decoded⟩ := Except.bind_eq_ok.mp decoded
  obtain ⟨values, decodedFields, decoded⟩ := Except.bind_eq_ok.mp decoded
  obtain ⟨⟨_, rest⟩, decodedFields, ended⟩ := Except.bind_eq_ok.mp decodedFields
  obtain ⟨empty, ended⟩ := Except.seq_eq_ok.mp ended
  cases okIf_eq_ok.mp empty
  cases ended
  cases decoded
  have enough := okIf_eq_ok.mp long
  have bound := okIf_eq_ok.mp bounded
  have width : (raw.drop (raw.length - 8)).length = 8 := by
    rw [List.length_drop]
    omega
  have tag : keyTag (seqnumMax - ofBe (raw.drop (raw.length - 8)) / 2 ^ 8) op =
      raw.drop (raw.length - 8) := by
    rw [keyTag, ← opTypeOf_eq_ok known, Nat.sub_sub_self bound, Nat.mul_comm, Nat.div_add_mod,
      toBe_ofBe width]
  refine ⟨raw.take (raw.length - 8), _, op, values, Nat.sub_le _ _, ?_, decodedFields, rfl⟩
  rw [tag, List.take_append_drop]

/-- A key is encoded as the bytes it was decoded from exactly when no key column is a float and
every boolean was stored as one of the bytes written for it. -/
theorem encoded_key_is_decoded_iff {raw : Bytes} {key : InternalKey}
    (decoded : InternalKey.decode raw schema = .ok key) :
    (∃ again, InternalKey.encode key.pkValues key.seq key.opType schema = .ok again ∧
      again.encoded = raw) ↔
      schema.FloatFree schema.primaryKey ∧
        schema.BooleansWritten schema.primaryKey (raw.take (raw.length - 8)) := by
  obtain ⟨fields, seq, op, values, bound, rfl, decodedFields, rfl⟩ :=
    InternalKey.decode_parts decoded
  obtain ⟨sized, canonical⟩ := encodeFields_decodeFields decodedFields
  have front : (fields ++ keyTag seq op).take ((fields ++ keyTag seq op).length - 8) = fields := by
    rw [List.length_append, keyTag_length, Nat.add_sub_cancel, List.take_left]
  rw [front, ← canonical]
  constructor
  · rintro ⟨again, encoded, same⟩
    obtain ⟨code, encodedCode, _, rfl⟩ := InternalKey.encode_eq_ok.mp encoded
    refine ⟨code, (encodePkFields_eq_ok.mp encodedCode).2, ?_⟩
    rw [List.append_nil]
    exact List.append_cancel_right same
  · rintro ⟨code, encodedCode, same⟩
    rw [List.append_nil] at same
    subst same
    exact ⟨_, InternalKey.encode_eq_ok.mpr
      ⟨code, encodePkFields_eq_ok.mpr ⟨sized, encodedCode⟩, bound, rfl⟩, rfl⟩

/-- One key column, a boolean. -/
def TableSchema.flagged : TableSchema where
  tableName := "flagged"
  columns := [⟨"flag", .boolean, false, some 1, none, none⟩]
  primaryKey := [0]
  schemaId := 0
  lastColumnId := 1

theorem encoded_key_is_decoded_flagged :
    ∃ again, InternalKey.encode [.boolean true] 7 .put .flagged = .ok again ∧
      again.encoded = [1, 255, 255, 255, 255, 255, 255, 248, 1] :=
  (encoded_key_is_decoded_iff (by decide :
    InternalKey.decode [1, 255, 255, 255, 255, 255, 255, 248, 1] .flagged =
      .ok ⟨[1, 255, 255, 255, 255, 255, 255, 248, 1], 7, .put, [.boolean true]⟩)).mpr
    ⟨by unfold TableSchema.FloatFree; decide, fun _ => .inr rfl, trivial⟩

/-- A boolean stored as 2 is read as `true` and written as 1. -/
theorem decoded_boolean_key_not_canonical :
    InternalKey.decode [2, 255, 255, 255, 255, 255, 255, 248, 1] .flagged =
      .ok ⟨[2, 255, 255, 255, 255, 255, 255, 248, 1], 7, .put, [.boolean true]⟩ ∧
    InternalKey.encode [.boolean true] 7 .put .flagged =
      .ok ⟨[1, 255, 255, 255, 255, 255, 255, 248, 1], 7, .put, [.boolean true]⟩ := by
  decide

end Encoding

end Merutable
