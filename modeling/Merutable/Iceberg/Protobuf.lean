import Merutable.Iceberg.Manifest

/-! The manifest as protobuf: `Manifest::to_protobuf`, `Manifest::from_protobuf` and
`iceberg::manifest_pb`. -/

namespace Merutable.Iceberg

open Wal

structure DataFileRef where
  path : FilePath
  fileSize : Int
  numRows : Int
  level : Int
  seqMin : Int
  seqMax : Int
  keyMin : Bytes
  keyMax : Bytes
  dvPath : Option FilePath
  dvOffset : Option Int
  dvLength : Option Int
  status : Int
  format : Option Int
  firstRowId : Option Int
  deriving DecidableEq

structure DeleteFileRef where
  path : FilePath
  fileSize : Int
  content : Int
  deriving DecidableEq

/-- The generated message. -/
structure PbManifest where
  snapshotId : Int
  sequenceNumber : Int
  schemaId : Int
  partitionSpecId : Int
  dataFiles : List DataFileRef
  deleteFiles : List DeleteFileRef
  previousSnapshotId : Option Int
  tableUuid : String
  lastUpdatedMs : Int
  properties : Properties
  lastColumnId : Int
  nextRowId : Int
  firstRowId : Int
  deriving DecidableEq

/-- The libraries: the bytes of the message, and the JSON text of a schema. An error is the text it
is reported with. -/
structure WireLib where
  encodeMessage : PbManifest → Bytes
  decodeMessage : Bytes → Except String PbManifest
  printSchema : TableSchema → Except String String
  parseSchema : String → Except String TableSchema

/-- `as u64` of an `i64`. -/
def asU64 (n : Int) : UInt64 := UInt64.ofBitVec (BitVec.ofInt 64 n)

/-- `as u8` of an `i32`. -/
def asU8 (n : Int) : UInt8 := UInt8.ofBitVec (BitVec.ofInt 8 n)

/-- `as i32` of a `u32`. -/
def asI32 (n : Nat) : Int := (n : Int).bmod (2 ^ 32)

theorem asU64_asI64 (n : UInt64) : asU64 (asI64 n) = n := by
  rw [asU64, asI64, BitVec.ofInt_toInt]

theorem asU8_toNat (n : UInt8) : asU8 n.toNat = n := by
  rw [asU8, BitVec.ofInt_natCast, ← UInt8.toNat_toBitVec, BitVec.ofNat_toNat, BitVec.setWidth_eq]

section Decimal

/-- The digits of a number without sign. -/
def parseDigits (digits : List Char) : Option Nat :=
  if digits ≠ [] ∧ digits.all Char.isDigit then some (Nat.ofDigitChars 10 digits 0) else none

/-- The number with the sign in front of its digits. -/
def parseSigned : List Char → Option Int
  | '-' :: digits => (parseDigits digits).map fun n => -(n : Int)
  | '+' :: digits => (parseDigits digits).map Int.ofNat
  | digits => (parseDigits digits).map Int.ofNat

/-- `parse::<i32>`. -/
def parseI32 (text : String) : Option Int32 :=
  (parseSigned text.toList).bind fun n =>
    if -2 ^ 31 ≤ n ∧ n < 2 ^ 31 then some (Int32.ofInt n) else none

theorem parseDigits_toDigits (n : Nat) : parseDigits (Nat.toDigits 10 n) = some n := by
  have digits : (Nat.toDigits 10 n).all Char.isDigit = true :=
    List.all_eq_true.mpr fun c member => Nat.isDigit_of_mem_toDigits (by decide) (by decide) member
  rw [parseDigits, if_pos ⟨Nat.toDigits_ne_nil, digits⟩, Nat.ofDigitChars_ten_toDigits]

theorem parseSigned_digits {digits : List Char} (all : ∀ c ∈ digits, c.isDigit = true) :
    parseSigned digits = (parseDigits digits).map Int.ofNat := by
  unfold parseSigned
  split
  · exact absurd (all '-' List.mem_cons_self) (by decide)
  · exact absurd (all '+' List.mem_cons_self) (by decide)
  · rfl

theorem parseSigned_repr (n : Int) : parseSigned n.repr.toList = some n := by
  cases n with
  | ofNat n =>
    have digits : ∀ c ∈ n.repr.toList, c.isDigit = true := fun c member =>
      Nat.isDigit_of_mem_toDigits (by decide) (by decide) (Nat.toList_repr ▸ member)
    rw [Int.repr, parseSigned_digits digits, Nat.toList_repr, parseDigits_toDigits]
    rfl
  | negSucc n =>
    rw [Int.repr, String.toList_append, Nat.toList_repr, show "-".toList = ['-'] from rfl,
      List.singleton_append, parseSigned, parseDigits_toDigits]
    rfl

theorem parseI32_repr (n : Int32) : parseI32 n.toInt.repr = some n := by
  have low := Int32.le_toInt n
  have high := Int32.toInt_lt n
  rw [parseI32, parseSigned_repr, Option.bind_some, if_pos ⟨low, high⟩, Int32.ofInt_toInt]

end Decimal

section Encode

def formatCode : FileFormat → Int
  | .columnar => 0
  | .dual => 1

/-- Every status but two is written as that of an existing file. -/
def statusCode (status : String) : Int :=
  if status = "added" then 1 else if status = "deleted" then 2 else 0

def schemaKey : String := "merutable.schema.json"

def versionKey : String := "merutable.format_version"

def ManifestEntry.toPb (entry : ManifestEntry) : DataFileRef where
  path := entry.path
  fileSize := asI64 entry.fileMeta.fileSize
  numRows := asI64 entry.fileMeta.numRows
  level := entry.fileMeta.level.toNat
  seqMin := asI64 entry.fileMeta.seqMin
  seqMax := asI64 entry.fileMeta.seqMax
  keyMin := entry.fileMeta.keyMin
  keyMax := entry.fileMeta.keyMax
  dvPath := entry.dvPath
  dvOffset := entry.dvOffset
  dvLength := entry.dvLength
  status := statusCode entry.status
  format := entry.fileMeta.format.map formatCode
  firstRowId := entry.firstRowId

/-- The message of a manifest whose schema is printed as `schemaJson`. -/
def Manifest.message (manifest : Manifest) (schemaJson : String) : PbManifest where
  snapshotId := manifest.snapshotId
  sequenceNumber := manifest.sequenceNumber
  schemaId := asI32 manifest.schema.schemaId
  partitionSpecId := 0
  dataFiles := manifest.entries.map ManifestEntry.toPb
  deleteFiles := []
  previousSnapshotId := manifest.parentSnapshotId
  tableUuid := manifest.tableUuid
  lastUpdatedMs := manifest.lastUpdatedMs
  properties := (manifest.properties.insert schemaKey schemaJson).insert versionKey
    manifest.formatVersion.toInt.repr
  lastColumnId := asI32 manifest.schema.lastColumnId
  nextRowId := manifest.nextRowId
  firstRowId := manifest.firstRowId

def Manifest.toPb (manifest : Manifest) (lib : WireLib) : Except MeruError PbManifest := do
  let schemaJson ← (lib.printSchema manifest.schema).mapError fun text =>
    .iceberg s!"manifest.schema json: {text}"
  return manifest.message schemaJson

def frameMagic : Bytes := [0x4D, 0x52, 0x55, 0x42]

def frameVersion : UInt8 := 1

def headerLen : Nat := 4 + 1 + 4

def encodeFrame (body : Bytes) : Bytes :=
  frameMagic ++ (frameVersion :: (toLe 4 (body.length % 2 ^ 32) ++ body))

def Manifest.toProtobuf (manifest : Manifest) (lib : WireLib) : Except MeruError Bytes := do
  let pb ← manifest.toPb lib
  return encodeFrame (lib.encodeMessage pb)

end Encode

section Decode

/-- A byte list as `{:02X?}` prints it. -/
def hexList (bytes : Bytes) : String := "[" ++ ", ".intercalate (bytes.map Puffin.hexByte2) ++ "]"

def decodeFrame (bytes : Bytes) : Except MeruError Bytes := do
  let size := bytes.length
  okIf (headerLen ≤ size) (.corruption
    (s!"manifest wire frame too short: {size} bytes (need at least {headerLen})"))
  let magic := bytes.take 4
  let expected := hexList frameMagic
  let got := hexList magic
  okIf (magic = frameMagic) (.corruption
    (s!"manifest magic mismatch: expected {expected}, got {got}"))
  let version := (bytes.drop 4).headD 0
  okIf (version = frameVersion) (.corruption
    (s!"manifest format version {version} not supported by this binary " ++
      s!"(supported: {frameVersion})"))
  let length := ofLe ((bytes.drop 5).take 4)
  let rest := size - headerLen
  okIf (headerLen + length ≤ size) (.corruption
    (s!"manifest frame truncated: header claims {length} bytes of payload, have {rest}"))
  return (bytes.drop headerLen).take length

def formatOfCode (code : Int) : FileFormat := if code = 1 then .dual else .columnar

def statusText (code : Int) : String :=
  if code = 1 then "added" else if code = 2 then "deleted" else "existing"

/-- The coordinates of the vector go to the metadata too; the statistics are not carried. -/
def DataFileRef.toEntry (file : DataFileRef) : ManifestEntry where
  path := file.path
  fileMeta := {
    level := asU8 file.level
    seqMin := asU64 file.seqMin
    seqMax := asU64 file.seqMax
    keyMin := file.keyMin
    keyMax := file.keyMax
    numRows := asU64 file.numRows
    fileSize := asU64 file.fileSize
    dvPath := file.dvPath
    dvOffset := file.dvOffset
    dvLength := file.dvLength
    format := file.format.map formatOfCode
    columnStats := none }
  dvPath := file.dvPath
  dvOffset := file.dvOffset
  dvLength := file.dvLength
  status := statusText file.status
  firstRowId := file.firstRowId

def defaultFormatVersion : Int32 := 3

def Manifest.fromPb (pb : PbManifest) (lib : WireLib) : Except MeruError Manifest := do
  match pb.properties.lookup schemaKey with
  | none => throw (.iceberg ("protobuf manifest missing 'merutable.schema.json' property — " ++
      "cannot reconstruct TableSchema"))
  | some schemaJson =>
    let schema ← (lib.parseSchema schemaJson).mapError fun text =>
      .iceberg s!"schema.json parse: {text}"
    let properties := pb.properties.erase schemaKey
    return {
      formatVersion := ((properties.lookup versionKey).bind parseI32).getD defaultFormatVersion
      tableUuid := pb.tableUuid
      lastUpdatedMs := pb.lastUpdatedMs
      snapshotId := pb.snapshotId
      parentSnapshotId := pb.previousSnapshotId
      sequenceNumber := pb.sequenceNumber
      nextRowId := pb.nextRowId
      firstRowId := pb.firstRowId
      schema := schema
      entries := pb.dataFiles.map DataFileRef.toEntry
      properties := properties.erase versionKey }

def Manifest.fromProtobuf (bytes : Bytes) (lib : WireLib) : Except MeruError Manifest := do
  let payload ← decodeFrame bytes
  let pb ← (lib.decodeMessage payload).mapError fun text =>
    .corruption s!"manifest protobuf decode failed: {text}"
  Manifest.fromPb pb lib

end Decode

section ReadBack

theorem decodeFrame_encodeFrame {body : Bytes} (fits : body.length < 2 ^ 32) :
    decodeFrame (encodeFrame body) = .ok body := by
  have length : ofLe (((encodeFrame body).drop 5).take 4) = body.length := by
    change ofLe ((toLe 4 (body.length % 2 ^ 32) ++ body).take 4) = _
    rw [List.take_left' (toLe_length _ _), Nat.mod_eq_of_lt fits,
      ofLe_toLe (lt_of_lt_of_eq fits (by decide))]
  have rest : (encodeFrame body).drop headerLen = body := by
    change (toLe 4 (body.length % 2 ^ 32) ++ body).drop 4 = _
    exact List.drop_left' (toLe_length _ _)
  have size : (encodeFrame body).length = headerLen + body.length := by
    rw [encodeFrame, List.length_append, List.length_cons, List.length_append, toLe_length]
    change 4 + (4 + body.length + 1) = 9 + body.length
    omega
  simp only [decodeFrame, length, rest, size, Except.seq_eq_ok, okIf_eq_ok, List.take_length]
  exact ⟨Nat.le_add_right _ _, rfl, rfl, le_rfl, rfl⟩

/-- The entries that the message holds completely. -/
structure ManifestEntry.Held (entry : ManifestEntry) : Prop where
  columnStats : entry.fileMeta.columnStats = none
  dvPath : entry.fileMeta.dvPath = entry.dvPath
  dvOffset : entry.fileMeta.dvOffset = entry.dvOffset
  dvLength : entry.fileMeta.dvLength = entry.dvLength
  status : entry.status ∈ ["added", "deleted", "existing"]

theorem formatOfCode_formatCode (format : FileFormat) :
    formatOfCode (formatCode format) = format := by
  cases format <;> rfl

theorem statusText_statusCode (status : String) :
    statusText (statusCode status) = status ↔ status ∈ ["added", "deleted", "existing"] := by
  by_cases added : status = "added"
  · subst added
    decide
  · by_cases deleted : status = "deleted"
    · subst deleted
      decide
    · simp only [statusCode, List.mem_cons, added, deleted, if_false, false_or, List.not_mem_nil,
        or_false]
      exact eq_comm

theorem toEntry_toPb (entry : ManifestEntry) : entry.toPb.toEntry = entry ↔ entry.Held := by
  obtain ⟨path, fileMeta, dvPath, dvOffset, dvLength, status, firstRowId⟩ := entry
  have format : (fileMeta.format.map formatCode).map formatOfCode = fileMeta.format := by
    rw [Option.map_map, show formatOfCode ∘ formatCode = id from funext formatOfCode_formatCode,
      Option.map_id, id]
  simp only [ManifestEntry.toPb, DataFileRef.toEntry, asU64_asI64, asU8_toNat, format,
    ManifestEntry.mk.injEq, statusText_statusCode, true_and, and_true]
  constructor
  · rintro ⟨same, known⟩
    rw [← same]
    exact ⟨rfl, rfl, rfl, rfl, known⟩
  · intro held
    have stats : fileMeta.columnStats = none := held.columnStats
    have coordinates := And.intro held.dvPath (And.intro held.dvOffset held.dvLength)
    dsimp only at coordinates
    obtain ⟨rfl, rfl, rfl⟩ := coordinates
    exact ⟨by rw [← stats], held.status⟩

theorem erase_insert (properties : Properties) (json version : String) :
    (((properties.insert schemaKey json).insert versionKey version).erase schemaKey).erase
        versionKey = properties ↔ schemaKey ∉ properties ∧ versionKey ∉ properties := by
  constructor
  · intro same
    rw [← same, Finmap.mem_erase, Finmap.mem_erase, Finmap.mem_erase]
    tauto
  · rintro ⟨noSchema, noVersion⟩
    refine Finmap.ext_lookup fun key => ?_
    by_cases isVersion : key = versionKey
    · subst isVersion
      rw [Finmap.lookup_erase, Finmap.lookup_eq_none.mpr noVersion]
    · rw [Finmap.lookup_erase_ne isVersion]
      by_cases isSchema : key = schemaKey
      · subst isSchema
        rw [Finmap.lookup_erase, Finmap.lookup_eq_none.mpr noSchema]
      · rw [Finmap.lookup_erase_ne isSchema, Finmap.lookup_insert_of_ne _ isVersion,
          Finmap.lookup_insert_of_ne _ isSchema]

/-- What the protobuf form of a manifest holds completely. -/
structure Manifest.Held (manifest : Manifest) (lib : WireLib) : Prop where
  schema : ∃ json, lib.printSchema manifest.schema = .ok json ∧
    lib.parseSchema json = .ok manifest.schema
  entries : ∀ entry ∈ manifest.entries, entry.Held
  properties : schemaKey ∉ manifest.properties ∧ versionKey ∉ manifest.properties

theorem map_toEntry_toPb (entries : List ManifestEntry) :
    (entries.map ManifestEntry.toPb).map DataFileRef.toEntry = entries ↔
      ∀ entry ∈ entries, entry.Held := by
  calc (entries.map ManifestEntry.toPb).map DataFileRef.toEntry = entries
      ↔ entries.map (DataFileRef.toEntry ∘ ManifestEntry.toPb) = entries.map id := by
        rw [List.map_map, List.map_id]
    _ ↔ ∀ entry ∈ entries, entry.toPb.toEntry = entry := List.map_inj_left
    _ ↔ ∀ entry ∈ entries, entry.Held := forall₂_congr fun entry _ => toEntry_toPb entry

variable {lib : WireLib} {manifest : Manifest} {json : String}

theorem fromPb_message :
    Manifest.fromPb (manifest.message json) lib =
      ((lib.parseSchema json).mapError fun text => .iceberg s!"schema.json parse: {text}") >>=
        fun schema => .ok { manifest with
          schema := schema
          entries := (manifest.entries.map ManifestEntry.toPb).map DataFileRef.toEntry
          properties := (((manifest.properties.insert schemaKey json).insert versionKey
            manifest.formatVersion.toInt.repr).erase schemaKey).erase versionKey } := by
  have different : schemaKey ≠ versionKey := by decide
  have found : (manifest.message json).properties.lookup schemaKey = some json := by
    rw [Manifest.message, Finmap.lookup_insert_of_ne _ different, Finmap.lookup_insert]
  have version : ((manifest.message json).properties.erase schemaKey).lookup versionKey =
      some manifest.formatVersion.toInt.repr := by
    rw [Finmap.lookup_erase_ne different.symm, Manifest.message, Finmap.lookup_insert]
  simp only [Manifest.fromPb, found, version, Option.bind_some, parseI32_repr, Option.getD_some]
  rfl

theorem fromPb_message_iff (printed : lib.printSchema manifest.schema = .ok json) :
    Manifest.fromPb (manifest.message json) lib = .ok manifest ↔ manifest.Held lib := by
  rw [fromPb_message, Except.bind_eq_ok]
  constructor
  · rintro ⟨schema, parsed, same⟩
    have fields := Except.ok.inj same
    have sameSchema : schema = manifest.schema := congrArg Manifest.schema fields
    rw [Except.mapError_eq_ok, sameSchema] at parsed
    exact ⟨⟨json, printed, parsed⟩, (map_toEntry_toPb _).mp (congrArg Manifest.entries fields),
      (erase_insert _ _ _).mp (congrArg Manifest.properties fields)⟩
  · rintro ⟨⟨text, shown, parsed⟩, entries, properties⟩
    rw [printed] at shown
    cases shown
    refine ⟨manifest.schema, Except.mapError_eq_ok.mpr parsed, ?_⟩
    rw [(map_toEntry_toPb _).mpr entries, (erase_insert _ _ _).mpr properties]

theorem fromProtobuf_encodeFrame {pb : PbManifest}
    (lossless : lib.decodeMessage (lib.encodeMessage pb) = .ok pb)
    (fits : (lib.encodeMessage pb).length < 2 ^ 32) :
    Manifest.fromProtobuf (encodeFrame (lib.encodeMessage pb)) lib = Manifest.fromPb pb lib := by
  rw [Manifest.fromProtobuf, decodeFrame_encodeFrame fits]
  change ((lib.decodeMessage (lib.encodeMessage pb)).mapError _ >>= _) = _
  rw [lossless]
  rfl

/-- Reading the bytes of a manifest gives it back exactly if they hold all of it. -/
theorem protobuf_read_back_iff (manifest : Manifest) (lib : WireLib) (bytes : Bytes)
    (written : manifest.toProtobuf lib = .ok bytes)
    (lossless : ∀ pb, manifest.toPb lib = .ok pb →
      lib.decodeMessage (lib.encodeMessage pb) = .ok pb)
    (fits : ∀ pb, manifest.toPb lib = .ok pb → (lib.encodeMessage pb).length < 2 ^ 32) :
    Manifest.fromProtobuf bytes lib = .ok manifest ↔ manifest.Held lib := by
  obtain ⟨pb, message, frame⟩ := Except.bind_eq_ok.mp written
  obtain ⟨json, printed, same⟩ := Except.bind_eq_ok.mp message
  cases frame
  cases same
  rw [fromProtobuf_encodeFrame (lossless _ message) (fits _ message),
    fromPb_message_iff (Except.mapError_eq_ok.mp printed)]

end ReadBack

namespace Sample

def schemaJson : String :=
  "\x7b\"table_name\":\"t\",\"columns\":[\x7b\"name\":\"k\",\"col_type\":\"Int64\"," ++
    "\"nullable\":false,\"field_id\":null,\"initial_default\":null,\"write_default\":null\x7d]," ++
    "\"primary_key\":[0],\"schema_id\":0,\"last_column_id\":1\x7d"

theorem schemaJson_length : schemaJson.length = 190 := by decide +kernel

def ascii (text : String) : Bytes := text.toList.map fun c => UInt8.ofNat c.toNat

theorem ascii_length (text : String) : (ascii text).length = text.length := by
  rw [ascii, List.length_map, String.length_toList]

/-- A field that holds bytes. -/
def field (tag : UInt8) (payload : Bytes) : Bytes := tag :: (putVarint 10 payload.length ++ payload)

def property (key value : String) : Bytes :=
  field 0x52 (field 0x0A (ascii key) ++ field 0x12 (ascii value))

/-- The message of a snapshot with the given files, and what follows them. -/
def body (snapshot : UInt8) (files tail : Bytes) : Bytes :=
  [0x08, snapshot, 0x10, snapshot] ++ files ++ field 0x42 (ascii "u") ++ [0x48, 7] ++
    property schemaKey schemaJson ++ property versionKey "3" ++ [0x58, 1] ++ tail

theorem putVarint_length_le (width value : Nat) : (putVarint width value).length ≤ width := by
  induction width generalizing value with
  | zero => exact le_rfl
  | succ width ih =>
    unfold putVarint
    split
    · exact Nat.le_add_left 1 width
    · exact Nat.succ_le_succ (ih _)

theorem field_length_le (tag : UInt8) (payload : Bytes) :
    (field tag payload).length ≤ 11 + payload.length := by
  have varint := putVarint_length_le 10 payload.length
  rw [field, List.length_cons, List.length_append]
  omega

theorem property_length_le (key value : String) :
    (property key value).length ≤ 33 + key.length + value.length := by
  have whole := field_length_le 0x52 (field 0x0A (ascii key) ++ field 0x12 (ascii value))
  have first := field_length_le 0x0A (ascii key)
  have second := field_length_le 0x12 (ascii value)
  rw [List.length_append] at whole
  rw [ascii_length] at first second
  rw [property]
  omega

theorem body_length_le (snapshot : UInt8) (files tail : Bytes) :
    (body snapshot files tail).length ≤ 400 + files.length + tail.length := by
  have uuid := field_length_le 0x42 (ascii "u")
  have json := property_length_le schemaKey schemaJson
  have version := property_length_le versionKey "3"
  have schemaKeyLength : schemaKey.length = 21 := String.length_ofList
  have schemaJsonLength := schemaJson_length
  have versionKeyLength : versionKey.length = 24 := String.length_ofList
  have versionLength : "3".length = 1 := String.length_ofList
  have uuidLength : (ascii "u").length = 1 := (ascii_length _).trans String.length_ofList
  simp only [body, List.length_append, List.length_cons, List.length_nil]
  omega

/-- The libraries on one message. -/
def wireLib (pb : PbManifest) (bytes : Bytes) : WireLib where
  encodeMessage _ := bytes
  decodeMessage given := if given = bytes then .ok pb else .error "invalid"
  printSchema _ := .ok schemaJson
  parseSchema text := if text = schemaJson then .ok schema else .error "invalid"

def first (txn : SnapshotTransaction) : Except MeruError Manifest :=
  (Manifest.empty schema stamp).apply false stamp txn 1 []

/-- The second snapshot of a table: its file gets a deletion vector. -/
def masked : Manifest :=
  let dv : SnapshotTransaction := ⟨[], [], [(file "a.parquet", {0})], ∅, List.nodup_singleton _⟩
  let location : DvLocation := ⟨file "a.dv-2.puffin", 4, 44⟩
  ((first ⟨[add "a.parquet" 2], [], [], ∅, List.nodup_nil⟩ >>= fun manifest =>
    manifest.apply false stamp dv 2 [(file "a.parquet", location)]).toOption).getD
      (Manifest.empty schema stamp)

def maskedBytes : Bytes :=
  field 0x2A (field 0x0A (ascii "data/L0/a.parquet") ++ [0x10, 64, 0x18, 2, 0x28, 1, 0x30, 1] ++
    field 0x3A [1] ++ field 0x42 [1] ++ field 0x4A (ascii "data/L0/a.dv-2.puffin") ++
    [0x50, 4, 0x58, 44, 0x60, 1, 0x70, 0]) ++ [0x38, 1]

def stats : ColumnStats := ⟨1, 40, 2, 0, some [1], some [1]⟩

/-- A flushed file, with the statistics the writer takes from its footer. -/
def flushed : IcebergDataFile :=
  ⟨file "a.parquet", 64, 2, { fileMeta 2 with columnStats := some [stats] }⟩

def flush : Manifest :=
  ((first ⟨[flushed], [], [], ∅, List.nodup_nil⟩).toOption).getD (Manifest.empty schema stamp)

def flushedBytes : Bytes :=
  field 0x2A (field 0x0A (ascii "data/L0/a.parquet") ++ [0x10, 64, 0x18, 2, 0x28, 1, 0x30, 1] ++
    field 0x3A [1] ++ field 0x42 [1] ++ [0x60, 1, 0x70, 0])

theorem flushedBytes_length : flushedBytes.length = 39 := by
  simp [flushedBytes, field, ascii, putVarint]

theorem maskedBytes_length : maskedBytes.length = 68 := by
  simp [maskedBytes, field, ascii, putVarint]

theorem toProtobuf_wireLib (manifest : Manifest) (pb : PbManifest) (bytes : Bytes) :
    manifest.toProtobuf (wireLib pb bytes) = .ok (encodeFrame bytes) := rfl

theorem wireLib_lossless (pb other : PbManifest) (bytes : Bytes) :
    (wireLib pb bytes).decodeMessage ((wireLib pb bytes).encodeMessage other) = .ok pb :=
  if_pos rfl

theorem wireLib_parses (pb : PbManifest) (bytes : Bytes) :
    (wireLib pb bytes).parseSchema schemaJson = .ok schema := by
  simp only [wireLib, if_true]

end Sample

open Sample in
theorem protobuf_read_back_masked :
    masked.entries.map (fun entry => (entry.path, entry.dvPath)) =
        [(file "a.parquet", some (file "a.dv-2.puffin"))] ∧
      Manifest.fromProtobuf (encodeFrame (body 2 maskedBytes [0x60, 2, 0x68, 2]))
        (wireLib (masked.message schemaJson) (body 2 maskedBytes [0x60, 2, 0x68, 2])) =
          .ok masked := by
  refine ⟨by decide +kernel, (protobuf_read_back_iff masked _ _ (toProtobuf_wireLib _ _ _) ?_
    ?_).mpr ⟨⟨schemaJson, rfl, wireLib_parses _ _⟩, ?_, by decide⟩⟩
  · intro pb written
    cases written
    exact wireLib_lossless _ _ _
  · intro pb _
    change (body 2 maskedBytes [0x60, 2, 0x68, 2]).length < 2 ^ 32
    have whole := body_length_le 2 maskedBytes [0x60, 2, 0x68, 2]
    have file := maskedBytes_length
    simp only [List.length_cons, List.length_nil] at whole
    omega
  · intro entry member
    cases List.mem_singleton.mp member
    exact ⟨rfl, rfl, rfl, rfl, by decide⟩

open Sample in
/-- The first flush of a table: the statistics of its file do not come back. -/
theorem protobuf_drops_statistics :
    first ⟨[flushed], [], [], ∅, List.nodup_nil⟩ = .ok flush ∧
      flush.toProtobuf (wireLib (flush.message schemaJson) (body 1 flushedBytes [0x60, 2])) =
        .ok (encodeFrame (body 1 flushedBytes [0x60, 2])) ∧
      Manifest.fromProtobuf (encodeFrame (body 1 flushedBytes [0x60, 2]))
          (wireLib (flush.message schemaJson) (body 1 flushedBytes [0x60, 2])) ≠ .ok flush := by
  refine ⟨rfl, toProtobuf_wireLib _ _ _, fun same => ?_⟩
  have short : (body 1 flushedBytes [0x60, 2]).length < 2 ^ 32 := by
    have whole := body_length_le 1 flushedBytes [0x60, 2]
    have file := flushedBytes_length
    rw [List.length_cons, List.length_singleton] at whole
    omega
  have decoded := fromProtobuf_encodeFrame (wireLib_lossless (flush.message schemaJson)
    (flush.message schemaJson) (body 1 flushedBytes [0x60, 2])) short
  have held := (fromPb_message_iff rfl).mp (decoded.symm.trans same)
  have dropped := (held.entries _ List.mem_cons_self).columnStats
  cases dropped

end Merutable.Iceberg
