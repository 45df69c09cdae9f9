import Merutable.Schema
import Merutable.Wal.Batch

/-! Internal keys as bytes: `types::key`. The fields of the primary key are written so that bytes
compare as the values do, and the tag with the inverted sequence number follows them. -/

namespace Merutable

open Wal

/-- The low `width` bytes of the number, the highest first. -/
def toBe (width value : Nat) : Bytes := (toLe width value).reverse

def ofBe (bytes : Bytes) : Nat := ofLe bytes.reverse

@[simp] theorem toBe_length (width value : Nat) : (toBe width value).length = width := by
  simp [toBe, toLe_length]

theorem ofBe_toBe {width value : Nat} (fits : value < 256 ^ width) :
    ofBe (toBe width value) = value := by
  rw [ofBe, toBe, List.reverse_reverse, ofLe_toLe fits]

variable {bytes : Bytes} {width : Nat} {value : FieldValue} {colType : ColumnType}
  {values : List FieldValue} {schema : TableSchema} {columns : List Nat} {key : InternalKey}
  {seq : Nat} {op : OpType}

theorem toBe_ofBe (sized : bytes.length = width) : toBe width (ofBe bytes) = bytes := by
  subst sized
  have same := toLe_ofLe bytes.reverse
  rw [List.length_reverse] at same
  rw [toBe, ofBe, same, List.reverse_reverse]

theorem ofBe_lt (sized : bytes.length = width) : ofBe bytes < 256 ^ width := by
  subst sized
  have bound := ofLe_lt bytes.reverse
  rwa [List.length_reverse] at bound

/-- A zero byte is followed by 255, the end is marked by two zero bytes. -/
def escapeByteArray : Bytes → Bytes
  | [] => [0, 0]
  | byte :: rest =>
    if byte = 0 then 0 :: 255 :: escapeByteArray rest else byte :: escapeByteArray rest

def hexByte (byte : UInt8) : String :=
  String.ofList [Nat.digitChar (byte.toNat / 16), Nat.digitChar (byte.toNat % 16)] |>.toUpper

/-- The decoded bytes, and how many were read with the end mark. -/
def unescapeByteArray : Bytes → Except MeruError (Bytes × Nat)
  | [] => .error (.corruption "unterminated escaped byte array")
  | [byte] =>
    if byte = 0 then .error (.corruption "truncated escape/terminator sequence")
    else .error (.corruption "unterminated escaped byte array")
  | byte :: next :: rest =>
    if byte = 0 then
      if next = 255 then do
        let (decoded, consumed) ← unescapeByteArray rest
        return (0 :: decoded, consumed + 2)
      else if next = 0 then .ok ([], 2)
      else
        let digits := hexByte next
        .error (.corruption (s!"invalid byte sequence 0x00 followed by 0x{digits} " ++
          "(expected 0xFF for escape or 0x00 for terminator)"))
    else do
      let (decoded, consumed) ← unescapeByteArray (next :: rest)
      return (byte :: decoded, consumed + 1)

def isNan32 (bits : BitVec 32) : Bool := 0x7f800000#32 < bits &&& 0x7fffffff#32

def isNan64 (bits : BitVec 64) : Bool := 0x7ff0000000000000#64 < bits &&& 0x7fffffffffffffff#64

/-- Negative numbers have all bits flipped, the others the sign bit. -/
def orderPreservingF32 (bits : BitVec 32) : BitVec 32 :=
  if bits.msb then ~~~ bits else bits ^^^ 0x80000000#32

def orderPreservingF64 (bits : BitVec 64) : BitVec 64 :=
  if bits.msb then ~~~ bits else bits ^^^ 0x8000000000000000#64

def nanMessage (type : String) : String :=
  s!"NaN is not allowed in primary key columns ({type}): " ++
    "IEEE 754 NaN has multiple bit representations, producing non-deterministic key encoding"

def encodeField : FieldValue → ColumnType → Except MeruError Bytes
  | .boolean value, .boolean => .ok [if value then 1 else 0]
  | .int32 value, .int32 => .ok (toBe 4 (value ^^^ 0x80000000#32).toNat)
  | .int64 value, .int64 => .ok (toBe 8 (value ^^^ 0x8000000000000000#64).toNat)
  | .float bits, .float =>
    if isNan32 bits then .error (.invalidArgument (nanMessage "Float"))
    else .ok (toBe 4 (orderPreservingF32 bits).toNat)
  | .double bits, .double =>
    if isNan64 bits then .error (.invalidArgument (nanMessage "Double"))
    else .ok (toBe 8 (orderPreservingF64 bits).toNat)
  | .bytes value, .fixedLenByteArray width =>
    let count := value.length
    if count = usizeOfI32 width then .ok value
    else .error (.schemaMismatch s!"FixedLenByteArray({width.toInt}): got {count} bytes")
  | .bytes value, .byteArray => .ok (escapeByteArray value)
  | _, colType =>
    let type := colType.debug
    .error (.schemaMismatch s!"field value type mismatch with column type {type}")

def ensureLen (bytes : Bytes) (required : Nat) (field : String) : Except MeruError Unit :=
  let count := bytes.length
  okIf (required ≤ count)
    (.corruption s!"truncated {field} field: need {required}, have {count}")

/-- The value at the front of the bytes, and how many of them it takes. -/
def decodeField (bytes : Bytes) : ColumnType → Except MeruError (FieldValue × Nat)
  | .boolean => do
      ensureLen bytes 1 "boolean"
      return (.boolean (bytes.head? ≠ some 0), 1)
  | .int32 => do
      ensureLen bytes 4 "int32"
      return (.int32 (BitVec.ofNat 32 (ofBe (bytes.take 4)) ^^^ 0x80000000#32), 4)
  | .int64 => do
      ensureLen bytes 8 "int64"
      return (.int64 (BitVec.ofNat 64 (ofBe (bytes.take 8)) ^^^ 0x8000000000000000#64), 8)
  | .float => do
      ensureLen bytes 4 "float"
      let bits := BitVec.ofNat 32 (ofBe (bytes.take 4))
      return (.float (if bits.msb then ~~~ bits else bits ^^^ 0x80000000#32), 4)
  | .double => do
      ensureLen bytes 8 "double"
      let bits := BitVec.ofNat 64 (ofBe (bytes.take 8))
      return (.double (if bits.msb then ~~~ bits else bits ^^^ 0x8000000000000000#64), 8)
  | .fixedLenByteArray width => do
      ensureLen bytes (usizeOfI32 width) "fixed-len byte array"
      return (.bytes (bytes.take (usizeOfI32 width)), usizeOfI32 width)
  | .byteArray => do
      let (decoded, consumed) ← unescapeByteArray bytes
      return (.bytes decoded, consumed)

def encodeFields (schema : TableSchema) : List FieldValue → List Nat → Except MeruError Bytes
  | value :: values, idx :: rest =>
    match schema.columns[idx]? with
    | none => .error .panicked
    | some col => do
        let bytes ← encodeField value col.colType
        let later ← encodeFields schema values rest
        return bytes ++ later
  | _, _ => .ok []

def encodePkFields (values : List FieldValue) (schema : TableSchema) : Except MeruError Bytes := do
  let expected := schema.primaryKey.length
  let got := values.length
  okIf (got = expected) (.invalidArgument s!"expected {expected} PK values, got {got}")
  encodeFields schema values schema.primaryKey

/-- The values of the columns in order, and the bytes behind them. -/
def decodeFields (schema : TableSchema) :
    List Nat → Bytes → Except MeruError (List FieldValue × Bytes)
  | [], bytes => .ok ([], bytes)
  | idx :: rest, bytes =>
    match schema.columns[idx]? with
    | none => .error .panicked
    | some col => do
        let (value, consumed) ← decodeField bytes col.colType
        let (values, left) ← decodeFields schema rest (bytes.drop consumed)
        return (value :: values, left)

def decodePkFields (bytes : Bytes) (schema : TableSchema) : Except MeruError (List FieldValue) := do
  let (values, left) ← decodeFields schema schema.primaryKey bytes
  let count := left.length
  okIf (left = []) (.corruption s!"{count} leftover bytes after decoding all PK fields")
  return values

/-- The inverted sequence number in the upper seven bytes, the operation in the lowest. -/
def keyTag (seq : Nat) (op : OpType) : Bytes := toBe 8 ((seqnumMax - seq) * 2 ^ 8 + op.byte)

def encodeTag (seq : Nat) (op : OpType) : Except MeruError Bytes := do
  okIf (seq ≤ seqnumMax) (.invalidArgument
    s!"sequence number {seq} exceeds SEQNUM_MAX ({seqnumMax})")
  return keyTag seq op

structure InternalKey where
  encoded : Bytes
  seq : Nat
  opType : OpType
  pkValues : List FieldValue
  deriving DecidableEq

namespace InternalKey

def encodeUserKey (values : List FieldValue) (schema : TableSchema) : Except MeruError Bytes :=
  encodePkFields values schema

def encode (values : List FieldValue) (seq : Nat) (op : OpType) (schema : TableSchema) :
    Except MeruError InternalKey := do
  let fields ← encodePkFields values schema
  let tag ← encodeTag seq op
  return ⟨fields ++ tag, seq, op, values⟩

def opTypeOf (byte : Nat) : Except MeruError OpType :=
  if byte = 0 then .ok .delete
  else if byte = 1 then .ok .put
  else
    let digits := String.ofList (Nat.toDigits 16 byte)
    .error (.corruption s!"unknown op_type 0x{digits}")

def decode (raw : Bytes) (schema : TableSchema) : Except MeruError InternalKey := do
  okIf (8 ≤ raw.length) (.corruption "internal key too short")
  let tag := ofBe (raw.drop (raw.length - 8))
  let invertedSeq := tag / 2 ^ 8
  okIf (invertedSeq ≤ seqnumMax) (.corruption
    s!"inverted_seq {invertedSeq} exceeds SEQNUM_MAX ({seqnumMax})")
  let op ← opTypeOf (tag % 2 ^ 8)
  let values ← decodePkFields (raw.take (raw.length - 8)) schema
  return ⟨raw, seqnumMax - invertedSeq, op, values⟩

def userKeyBytes (key : InternalKey) : Bytes := key.encoded.take (key.encoded.length - 8)

end InternalKey

theorem unescape_escape (bytes rest : Bytes) :
    unescapeByteArray (escapeByteArray bytes ++ rest) =
      .ok (bytes, (escapeByteArray bytes).length) := by
  induction bytes with
  | nil => simp [escapeByteArray, unescapeByteArray]
  | cons byte bytes ih =>
    by_cases zero : byte = 0
    · subst zero
      simp [escapeByteArray, unescapeByteArray, ih, bind, Except.bind, pure, Except.pure]
    · obtain ⟨first, others, split⟩ : ∃ first others,
          escapeByteArray bytes ++ rest = first :: others := by
        cases bytes with
        | nil => exact ⟨_, _, rfl⟩
        | cons next bytes =>
          rw [escapeByteArray]
          split
          · exact ⟨_, _, rfl⟩
          · exact ⟨_, _, rfl⟩
      rw [escapeByteArray, if_neg zero, List.cons_append, split, unescapeByteArray, if_neg zero,
        ← split, ih]
      simp [bind, Except.bind, pure, Except.pure]

theorem Except.bind_ok {E A B : Type} {middle : A} {next : A → Except E B} :
    ((Except.ok middle : Except E A) >>= next) = next middle := rfl

/-- The codes that `encodeField` writes, one form for each type of column. -/
inductive FieldCode : FieldValue → ColumnType → Bytes → Prop where
  | boolean (value : Bool) : FieldCode (.boolean value) .boolean [if value then 1 else 0]
  | int32 (value : BitVec 32) :
      FieldCode (.int32 value) .int32 (toBe 4 (value ^^^ 0x80000000#32).toNat)
  | int64 (value : BitVec 64) :
      FieldCode (.int64 value) .int64 (toBe 8 (value ^^^ 0x8000000000000000#64).toNat)
  | float (bits : BitVec 32) (number : isNan32 bits = false) :
      FieldCode (.float bits) .float (toBe 4 (orderPreservingF32 bits).toNat)
  | double (bits : BitVec 64) (number : isNan64 bits = false) :
      FieldCode (.double bits) .double (toBe 8 (orderPreservingF64 bits).toNat)
  | fixedLen (value : Bytes) (width : BitVec 32) (sized : value.length = usizeOfI32 width) :
      FieldCode (.bytes value) (.fixedLenByteArray width) value
  | byteArray (value : Bytes) : FieldCode (.bytes value) .byteArray (escapeByteArray value)

theorem encodeField_eq_ok :
    encodeField value colType = .ok bytes ↔ FieldCode value colType bytes := by
  constructor
  · intro encoded
    unfold encodeField at encoded
    split at encoded
    case h_1 =>
        cases encoded
        exact .boolean _
    case h_2 =>
        cases encoded
        exact .int32 _
    case h_3 =>
        cases encoded
        exact .int64 _
    case h_4 =>
        split at encoded <;> cases encoded
        rename_i number
        exact .float _ (by simpa using number)
    case h_5 =>
        split at encoded <;> cases encoded
        rename_i number
        exact .double _ (by simpa using number)
    case h_6 =>
        simp only at encoded
        split at encoded <;> cases encoded
        rename_i sized
        exact .fixedLen _ _ sized
    case h_7 =>
        cases encoded
        exact .byteArray _
    case h_8 => cases encoded
  · intro code
    cases code with
    | boolean | int32 | int64 | byteArray => rfl
    | float _ number | double _ number => simp [encodeField, number]
    | fixedLen value width sized => simp [encodeField, sized]

theorem ensureLen_append {front rest : Bytes} {field : String} :
    ensureLen (front ++ rest) front.length field = .ok () :=
  okIf_eq_ok.mpr (by simp)

theorem ensureLen_toBe (width number : Nat) (rest : Bytes) (field : String) :
    ensureLen (toBe width number ++ rest) width field = .ok () := by
  have long := @ensureLen_append (toBe width number) rest field
  rwa [toBe_length] at long

/-- What comes back for a value from its code. The decoder flips the bits of a float the other way
round, so they come back with all bits but the sign inverted. -/
def FieldValue.reread : FieldValue → FieldValue
  | .float bits => .float (~~~ bits ^^^ 0x80000000#32)
  | .double bits => .double (~~~ bits ^^^ 0x8000000000000000#64)
  | value => value

theorem take_toBe (width number : Nat) (rest : Bytes) :
    (toBe width number ++ rest).take width = toBe width number :=
  List.take_left' (toBe_length width number)

theorem ofNat_ofBe_toBe (bits : BitVec 32) : BitVec.ofNat 32 (ofBe (toBe 4 bits.toNat)) = bits := by
  rw [ofBe_toBe bits.isLt, BitVec.ofNat_toNat, BitVec.setWidth_eq]

theorem ofNat_ofBe_toBe64 (bits : BitVec 64) :
    BitVec.ofNat 64 (ofBe (toBe 8 bits.toNat)) = bits := by
  rw [ofBe_toBe bits.isLt, BitVec.ofNat_toNat, BitVec.setWidth_eq]

theorem flip_flip (bits sign : BitVec (width + 1)) (top : sign.msb = true) :
    (if (if bits.msb then ~~~ bits else bits ^^^ sign).msb then
        ~~~ (if bits.msb then ~~~ bits else bits ^^^ sign)
      else (if bits.msb then ~~~ bits else bits ^^^ sign) ^^^ sign) = ~~~ bits ^^^ sign := by
  cases negative : bits.msb with
  | false => simp [BitVec.msb_xor, negative, top, BitVec.not_xor_left]
  | true => simp [BitVec.msb_not, negative]

theorem decodeField_encodeField (encoded : encodeField value colType = .ok bytes) (rest : Bytes) :
    decodeField (bytes ++ rest) colType = .ok (value.reread, bytes.length) := by
  cases encodeField_eq_ok.mp encoded with
  | boolean value => cases value <;> rfl
  | int32 value =>
    rw [decodeField, Except.seq_eq_ok, take_toBe, ofNat_ofBe_toBe, BitVec.xor_assoc,
      BitVec.xor_self, BitVec.xor_zero, toBe_length]
    exact ⟨ensureLen_toBe 4 _ _ _, rfl⟩
  | int64 value =>
    rw [decodeField, Except.seq_eq_ok, take_toBe, ofNat_ofBe_toBe64, BitVec.xor_assoc,
      BitVec.xor_self, BitVec.xor_zero, toBe_length]
    exact ⟨ensureLen_toBe 8 _ _ _, rfl⟩
  | float bits number =>
    rw [decodeField, Except.seq_eq_ok, take_toBe, ofNat_ofBe_toBe, toBe_length]
    have flipped : (if (orderPreservingF32 bits).msb then ~~~ orderPreservingF32 bits
        else orderPreservingF32 bits ^^^ 0x80000000#32) = ~~~ bits ^^^ 0x80000000#32 :=
      flip_flip bits 0x80000000#32 rfl
    dsimp only
    rw [flipped]
    exact ⟨ensureLen_toBe 4 _ _ _, rfl⟩
  | double bits number =>
    rw [decodeField, Except.seq_eq_ok, take_toBe, ofNat_ofBe_toBe64, toBe_length]
    have flipped : (if (orderPreservingF64 bits).msb then ~~~ orderPreservingF64 bits
        else orderPreservingF64 bits ^^^ 0x8000000000000000#64) = ~~~ bits ^^^
          0x8000000000000000#64 :=
      flip_flip bits 0x8000000000000000#64 rfl
    dsimp only
    rw [flipped]
    exact ⟨ensureLen_toBe 8 _ _ _, rfl⟩
  | fixedLen value width sized =>
    rw [decodeField, ← sized, Except.seq_eq_ok, List.take_left]
    exact ⟨ensureLen_append, rfl⟩
  | byteArray value =>
    rw [decodeField, unescape_escape]
    rfl

theorem encodeFields_cons {idx : Nat} :
    encodeFields schema (value :: values) (idx :: columns) = .ok bytes ↔
      ∃ col front later, schema.columns[idx]? = some col ∧
        encodeField value col.colType = .ok front ∧
        encodeFields schema values columns = .ok later ∧ bytes = front ++ later := by
  rw [encodeFields]
  cases found : schema.columns[idx]? with
  | none => simp
  | some col =>
    constructor
    · intro encoded
      obtain ⟨front, encodedFront, encoded⟩ := Except.bind_eq_ok.mp encoded
      obtain ⟨later, encodedLater, encoded⟩ := Except.bind_eq_ok.mp encoded
      cases encoded
      exact ⟨col, front, later, rfl, encodedFront, encodedLater, rfl⟩
    · rintro ⟨_, front, later, ⟨⟩, encodedFront, encodedLater, rfl⟩
      exact Except.bind_eq_ok.mpr ⟨front, encodedFront,
        Except.bind_eq_ok.mpr ⟨later, encodedLater, rfl⟩⟩

theorem encodePkFields_eq_ok :
    encodePkFields values schema = .ok bytes ↔ values.length = schema.primaryKey.length ∧
      encodeFields schema values schema.primaryKey = .ok bytes := by
  rw [encodePkFields, Except.seq_eq_ok, okIf_eq_ok]

theorem InternalKey.encode_eq_ok :
    InternalKey.encode values seq op schema = .ok key ↔ ∃ fields,
      encodePkFields values schema = .ok fields ∧ seq ≤ seqnumMax ∧
        key = ⟨fields ++ keyTag seq op, seq, op, values⟩ := by
  constructor
  · intro encoded
    obtain ⟨fields, encodedFields, encoded⟩ := Except.bind_eq_ok.mp encoded
    obtain ⟨tag, encodedTag, encoded⟩ := Except.bind_eq_ok.mp encoded
    obtain ⟨bounded, encodedTag⟩ := Except.seq_eq_ok.mp encodedTag
    cases encodedTag
    cases encoded
    exact ⟨fields, encodedFields, okIf_eq_ok.mp bounded, rfl⟩
  · rintro ⟨fields, encodedFields, bounded, rfl⟩
    have encodedTag : encodeTag seq op = .ok (keyTag seq op) :=
      Except.seq_eq_ok.mpr ⟨okIf_eq_ok.mpr bounded, rfl⟩
    exact Except.bind_eq_ok.mpr ⟨fields, encodedFields,
      Except.bind_eq_ok.mpr ⟨_, encodedTag, rfl⟩⟩

theorem decodeFields_encodeFields (sized : values.length = columns.length)
    (encoded : encodeFields schema values columns = .ok bytes) (rest : Bytes) :
    decodeFields schema columns (bytes ++ rest) = .ok (values.map FieldValue.reread, rest) := by
  induction columns generalizing values bytes with
  | nil =>
    cases List.length_eq_zero_iff.mp sized
    cases encoded
    rfl
  | cons idx columns ih =>
    cases values with
    | nil => cases sized
    | cons value values =>
      obtain ⟨col, front, later, found, encodedFront, encodedLater, rfl⟩ :=
        encodeFields_cons.mp encoded
      simp only [decodeFields, found, List.append_assoc, List.drop_left, Except.bind_ok,
        decodeField_encodeField encodedFront, ih (Nat.succ.inj sized) encodedLater]
      rfl

theorem keyTag_length (seq : Nat) (op : OpType) : (keyTag seq op).length = 8 := toBe_length _ _

theorem ofBe_keyTag (op : OpType) :
    ofBe (keyTag seq op) = (seqnumMax - seq) * 2 ^ 8 + op.byte := by
  refine ofBe_toBe ?_
  have small : op.byte < 2 ^ 8 := by cases op <;> decide
  have bound : seqnumMax - seq < 2 ^ 56 := by
    rw [seqnumMax]
    omega
  omega

theorem InternalKey.decode_encode (encoded : InternalKey.encode values seq op schema = .ok key) :
    InternalKey.decode key.encoded schema =
      .ok ⟨key.encoded, seq, op, values.map FieldValue.reread⟩ := by
  obtain ⟨fields, encodedFields, bound, rfl⟩ := InternalKey.encode_eq_ok.mp encoded
  obtain ⟨sized, encodedFields⟩ := encodePkFields_eq_ok.mp encodedFields
  have decodedFields := decodeFields_encodeFields sized encodedFields []
  have cut : (fields ++ keyTag seq op).length - 8 = fields.length := by
    rw [List.length_append, keyTag_length, Nat.add_sub_cancel]
  have small : op.byte < 2 ^ 8 := by cases op <;> decide
  have upper : ((seqnumMax - seq) * 2 ^ 8 + op.byte) / 2 ^ 8 = seqnumMax - seq := by omega
  have lower : ((seqnumMax - seq) * 2 ^ 8 + op.byte) % 2 ^ 8 = op.byte := by omega
  have known : InternalKey.opTypeOf op.byte = .ok op := by cases op <;> rfl
  have whole : decodePkFields fields schema = .ok (values.map FieldValue.reread) := by
    rw [List.append_nil] at decodedFields
    simp [decodePkFields, decodedFields, Except.bind_ok, okIf, pure, Except.pure]
  simp only [InternalKey.decode, cut, List.drop_left, List.take_left, ofBe_keyTag, upper, lower,
    known, whole, Except.bind_ok]
  rw [Except.seq_eq_ok, Except.seq_eq_ok, okIf_eq_ok, okIf_eq_ok]
  refine ⟨by simp [keyTag_length], Nat.sub_le _ _, ?_⟩
  have back : seqnumMax - (seqnumMax - seq) = seq := by omega
  rw [back]
  rfl

end Merutable
