import Merutable.Foundation.Traversal
import Merutable.Key

/-! Rows as Arrow columns and back: `parquet::codec`, and the projection with which
`parquet::reader` reads a file. Arrow arrays and the Parquet file are lossless containers; the
code addresses their columns by name. -/

namespace Merutable

open Foundation

/-- The postcard form of a row, and the JSON form that is only read. -/
structure RowCodec where
  encode : Row → Bytes
  decode : Bytes → Option Row
  decode_encode : ∀ row, decode (encode row) = some row
  decodeJson : Bytes → Option Row

def postcardMarker : UInt8 := 1

/-- The value of a put in the log and in a memtable: `encode_row` of `engine::codec`. -/
def encodeRow (postcard : RowCodec) (row : Row) : Bytes := postcardMarker :: postcard.encode row

def decodeRow (postcard : RowCodec) : Bytes → Except MeruError Row
  | [] => .ok ⟨[]⟩
  | marker :: rest =>
    let count := rest.length
    if marker = postcardMarker then
      match postcard.decode rest with
      | some row => .ok row
      | none => .error (.corruption s!"row postcard decode failed ({count} bytes after marker)")
    else
      let count := count + 1
      match postcard.decodeJson (marker :: rest) with
      | some row => .ok row
      | none => .error (.corruption s!"row legacy-JSON decode failed ({count} bytes)")

theorem decodeRow_encodeRow (postcard : RowCodec) (row : Row) :
    decodeRow postcard (encodeRow postcard row) = .ok row := by
  simp [encodeRow, decodeRow, postcard.decode_encode]

inductive FileFormat where
  | columnar
  | dual
  deriving DecidableEq

def FileFormat.hasValueBlob : FileFormat → Bool
  | .columnar => false
  | .dual => true

def ikeyColumnName : String := "_merutable_ikey"

def seqColumnName : String := "_merutable_seq"

def opColumnName : String := "_merutable_op"

def valueBlobColumnName : String := "_merutable_value"

inductive DataType where
  | boolean
  | int32
  | int64
  | float32
  | float64
  | binary
  | fixedSizeBinary (width : BitVec 32)
  deriving DecidableEq

def ColumnType.toArrow : ColumnType → DataType
  | .boolean => .boolean
  | .int32 => .int32
  | .int64 => .int64
  | .float => .float32
  | .double => .float64
  | .byteArray => .binary
  | .fixedLenByteArray width => .fixedSizeBinary width

/-- A named column of a batch. The array class of a column is that of its data type. -/
structure ArrowColumn where
  name : String
  dataType : DataType
  cells : List (Option FieldValue)
  deriving DecidableEq

structure RecordBatch where
  numRows : Nat
  columns : List ArrowColumn
  deriving DecidableEq

/-- `index_of` with `column`: the first column of the name. -/
def RecordBatch.column (batch : RecordBatch) (name : String) : Option ArrowColumn :=
  batch.columns.find? fun column => column.name = name

/-- Column names that each lead to one column: distinct, and none of the hidden ones. -/
structure TableSchema.PlainNames (schema : TableSchema) : Prop where
  distinct : (schema.columns.map ColumnDef.name).Nodup
  visible : ∀ name ∈ schema.columns.map ColumnDef.name,
    name ≠ ikeyColumnName ∧ name ≠ seqColumnName ∧ name ≠ opColumnName ∧ name ≠ valueBlobColumnName

/-- What a missing field of a NOT NULL column is written as. -/
def ColumnType.zero : ColumnType → FieldValue
  | .boolean => .boolean false
  | .int32 => .int32 0
  | .int64 => .int64 0
  | .float => .float 0
  | .double => .double 0
  | .byteArray => .bytes []
  | .fixedLenByteArray width => .bytes (List.replicate (usizeOfI32 width) 0)

def ColumnType.expected : ColumnType → String
  | .boolean => "Boolean"
  | .int32 => "Int32"
  | .int64 => "Int64"
  | .float => "Float"
  | .double => "Double"
  | .byteArray | .fixedLenByteArray _ => "Bytes"

def ColumnType.fixedLength : ColumnType → Nat
  | .fixedLenByteArray width => usizeOfI32 width
  | _ => 0

/-- One cell of `build_column`. -/
def buildCell (colIdx : Nat) (colType : ColumnType) (nullable : Bool) (rowIdx : Nat) (row : Row) :
    Except MeruError (Option FieldValue) :=
  match row.get colIdx with
  | none => .ok (if nullable then none else some colType.zero)
  | some value => do
      let expected := colType.expected
      let got := value.kind
      okIf (value.compatible colType = true) (.parquet
        (s!"codec::build_column: type mismatch at column {colIdx} row {rowIdx}: " ++
          s!"expected {expected}, got {got}"))
      let length := colType.fixedLength
      let count := value.byteCount
      okIf (value.sized colType = true) (.parquet
        (s!"codec::build_column: FixedLenByteArray({length}) at column {colIdx} row {rowIdx} " ++
          s!"has wrong length {count} (expected {length})"))
      return some value

def buildCells (colIdx : Nat) (colType : ColumnType) (nullable : Bool) :
    Nat → List (InternalKey × Row) → Except MeruError (List (Option FieldValue))
  | _, [] => .ok []
  | rowIdx, (_, row) :: rest => do
      let cell ← buildCell colIdx colType nullable rowIdx row
      let cells ← buildCells colIdx colType nullable (rowIdx + 1) rest
      return cell :: cells

def buildColumns (rows : List (InternalKey × Row)) :
    Nat → List ColumnDef → Except MeruError (List ArrowColumn)
  | _, [] => .ok []
  | colIdx, col :: rest => do
      let cells ← buildCells colIdx col.colType col.nullable 0 rows
      let columns ← buildColumns rows (colIdx + 1) rest
      return ⟨col.name, col.colType.toArrow, cells⟩ :: columns

/-- The columns in front of the user's. -/
def hiddenColumns (postcard : RowCodec) (rows : List (InternalKey × Row)) (format : FileFormat) :
    List ArrowColumn :=
  [⟨ikeyColumnName, .binary, rows.map fun row => some (.bytes row.1.encoded)⟩,
    ⟨seqColumnName, .int64, rows.map fun row => some (.int64 (BitVec.ofNat 64 row.1.seq))⟩,
    ⟨opColumnName, .int32, rows.map fun row =>
      some (.int32 (BitVec.ofNat 32 row.1.opType.byte))⟩] ++
  if format.hasValueBlob then
    [⟨valueBlobColumnName, .binary, rows.map fun row => some (.bytes (postcard.encode row.2))⟩]
  else []

def rowsToRecordBatch (postcard : RowCodec) (rows : List (InternalKey × Row))
    (schema : TableSchema) (format : FileFormat) : Except MeruError RecordBatch := do
  let columns ← buildColumns rows 0 schema.columns
  return ⟨rows.length, hiddenColumns postcard rows format ++ columns⟩

/-- The data types whose arrays are of one class. -/
def DataType.sameArray : DataType → DataType → Bool
  | .boolean, .boolean | .int32, .int32 | .int64, .int64 | .float32, .float32
  | .float64, .float64 | .binary, .binary => true
  | .fixedSizeBinary _, .fixedSizeBinary _ => true
  | _, _ => false

def DataType.arrayName : DataType → String
  | .boolean => "BooleanArray"
  | .int32 => "Int32Array"
  | .int64 => "Int64Array"
  | .float32 => "Float32Array"
  | .float64 => "Float64Array"
  | .binary => "BinaryArray"
  | .fixedSizeBinary _ => "FixedSizeBinaryArray"

def DataType.debug : DataType → String
  | .boolean => "Boolean"
  | .int32 => "Int32"
  | .int64 => "Int64"
  | .float32 => "Float32"
  | .float64 => "Float64"
  | .binary => "Binary"
  | .fixedSizeBinary width => s!"FixedSizeBinary({width.toInt})"

/-- `value` of a binary array: a null cell has no bytes. -/
def ArrowColumn.binaryValue (column : ArrowColumn) (rowIdx : Nat) : Bytes :=
  match column.cells[rowIdx]?.join with
  | some (.bytes bytes) => bytes
  | _ => []

def extractField (column : ArrowColumn) (rowIdx : Nat) (colType : ColumnType) :
    Except MeruError (Option FieldValue) :=
  match column.cells[rowIdx]?.join with
  | none => .ok none
  | some value => do
      let expected := colType.toArrow.arrayName
      let actual := column.dataType.debug
      okIf (column.dataType.sameArray colType.toArrow = true) (.parquet
        ("codec::extract_field: Arrow array type mismatch — " ++
          s!"expected {expected}, got {actual}"))
      return some value

/-- A blob written under an older schema is padded with the defaults for reading. -/
def padInitial (row : Row) (schema : TableSchema) : Row :=
  ⟨row.fields ++ (schema.columns.drop row.fields.length).map ColumnDef.initialDefault⟩

def decodeBlob (postcard : RowCodec) (blob : ArrowColumn) (schema : TableSchema) (rowIdx : Nat) :
    Except MeruError Row :=
  match postcard.decode (blob.binaryValue rowIdx) with
  | none => .error (.parquet "postcard decode row")
  | some row => .ok (padInitial row schema)

/-- A column that the file does not have reads as its default for reading. -/
def decodeCell (batch : RecordBatch) (rowIdx : Nat) (col : ColumnDef) :
    Except MeruError (Option FieldValue) :=
  match batch.column col.name with
  | some column => extractField column rowIdx col.colType
  | none => .ok col.initialDefault

def decodeCells (batch : RecordBatch) (rowIdx : Nat) :
    List ColumnDef → Except MeruError (List (Option FieldValue))
  | [] => .ok []
  | col :: rest => do
      let field ← decodeCell batch rowIdx col
      let fields ← decodeCells batch rowIdx rest
      return field :: fields

def decodeRows (ikeys : ArrowColumn) (schema : TableSchema) (decode : Nat → Except MeruError Row) :
    Nat → Nat → Except MeruError (List (InternalKey × Row))
  | _, 0 => .ok []
  | rowIdx, count + 1 => do
      let key ← InternalKey.decode (ikeys.binaryValue rowIdx) schema
      let row ← decode rowIdx
      let rows ← decodeRows ikeys schema decode (rowIdx + 1) count
      return (key, row) :: rows

def recordBatchToRows (postcard : RowCodec) (batch : RecordBatch) (schema : TableSchema) :
    Except MeruError (List (InternalKey × Row)) :=
  if batch.numRows = 0 then .ok []
  else
    match batch.column ikeyColumnName with
    | none => .error (.parquet s!"missing {ikeyColumnName} column")
    | some ikeys => do
        okIf (ikeys.dataType = .binary) (.parquet s!"{ikeyColumnName} not BinaryArray")
        match batch.column valueBlobColumnName with
        | some blob => do
            okIf (blob.dataType = .binary) (.parquet s!"{valueBlobColumnName} not BinaryArray")
            decodeRows ikeys schema (decodeBlob postcard blob schema) 0 batch.numRows
        | none =>
          let decode := fun rowIdx => do
            let fields ← decodeCells batch rowIdx schema.columns
            return ⟨fields⟩
          decodeRows ikeys schema decode 0 batch.numRows

/-- `find_leaf_opt`, counted from `first`. -/
def findLeafOpt (name : String) : Nat → List ArrowColumn → Option Nat
  | _, [] => none
  | first, column :: rest =>
    if column.name = name then some first else findLeafOpt name (first + 1) rest

def findLeaf (columns : List ArrowColumn) (name : String) : Except MeruError Nat :=
  match findLeafOpt name 0 columns with
  | some leaf => .ok leaf
  | none => .error (.corruption s!"column '{name}' not found in Parquet schema")

/-- The leaves read from a file: the key with the blob, or with the columns of the schema that the
file has. -/
def projectionMask (columns : List ArrowColumn) (schema : TableSchema) (format : FileFormat) :
    Except MeruError (List Nat) := do
  let ikey ← findLeaf columns ikeyColumnName
  if format.hasValueBlob then
    let value ← findLeaf columns valueBlobColumnName
    return [ikey, value]
  else return ikey :: schema.columns.filterMap fun col => findLeafOpt col.name 0 columns

/-- The columns whose number, counted from `first`, is in the mask. -/
def projectColumns (leaves : List Nat) : Nat → List ArrowColumn → List ArrowColumn
  | _, [] => []
  | first, column :: rest =>
    if first ∈ leaves then column :: projectColumns leaves (first + 1) rest
    else projectColumns leaves (first + 1) rest

/-- `read_all_rows` of a file with the given columns and format. -/
def readAllRows (postcard : RowCodec) (file : RecordBatch) (schema : TableSchema)
    (format : FileFormat) : Except MeruError (List (InternalKey × Row)) := do
  let leaves ← projectionMask file.columns schema format
  recordBatchToRows postcard ⟨file.numRows, projectColumns leaves 0 file.columns⟩ schema

section Writing

variable {postcard : RowCodec} {rows : List (InternalKey × Row)} {schema : TableSchema}
  {format : FileFormat} {col : ColumnDef} {colIdx rowIdx : Nat} {row : Row}

/-- The cell a field is written as. -/
def ColumnDef.cellOf (col : ColumnDef) (field : Option FieldValue) : Option FieldValue :=
  match field with
  | none => if col.nullable then none else some col.colType.zero
  | some value => some value

theorem buildCell_eq_ok {cell : Option FieldValue} :
    buildCell colIdx col.colType col.nullable rowIdx row = .ok cell ↔
      cell = col.cellOf (row.get colIdx) ∧
        ∀ value, row.get colIdx = some value → col.Admits (some value) := by
  unfold buildCell ColumnDef.cellOf
  cases row.get colIdx with
  | none =>
    constructor
    · rintro ⟨⟩
      exact ⟨rfl, nofun⟩
    · rintro ⟨rfl, _⟩
      rfl
  | some value =>
    simp only [Except.seq_eq_ok, okIf_eq_ok]
    constructor
    · rintro ⟨compatible, sized, ⟨⟩⟩
      refine ⟨rfl, ?_⟩
      rintro _ ⟨⟩
      exact ⟨compatible, sized⟩
    · rintro ⟨rfl, fits⟩
      obtain ⟨compatible, sized⟩ := fits value rfl
      exact ⟨compatible, sized, rfl⟩

theorem buildCells_eq_ok {cells : List (Option FieldValue)} :
    buildCells colIdx col.colType col.nullable rowIdx rows = .ok cells ↔
      cells = rows.map (fun row => col.cellOf (row.2.get colIdx)) ∧
        ∀ row ∈ rows, ∀ value, row.2.get colIdx = some value → col.Admits (some value) := by
  induction rows generalizing rowIdx cells with
  | nil => simp [buildCells, eq_comm]
  | cons row rest ih =>
    simp only [buildCells, Except.bind_eq_ok, buildCell_eq_ok, ih, List.map_cons,
      List.forall_mem_cons, pure, Except.pure, Except.ok.injEq]
    constructor
    · rintro ⟨cell, ⟨rfl, fits⟩, others, ⟨rfl, rest⟩, rfl⟩
      exact ⟨rfl, fits, rest⟩
    · rintro ⟨rfl, fits, rest⟩
      exact ⟨_, ⟨rfl, fits⟩, _, ⟨rfl, rest⟩, rfl⟩

/-- The user's columns, the first of them numbered `first`. -/
def userColumns (rows : List (InternalKey × Row)) : Nat → List ColumnDef → List ArrowColumn
  | _, [] => []
  | first, col :: rest =>
    ⟨col.name, col.colType.toArrow, rows.map fun row => col.cellOf (row.2.get first)⟩ ::
      userColumns rows (first + 1) rest

theorem buildColumns_eq_ok {first : Nat} {cols : List ColumnDef} {columns : List ArrowColumn} :
    buildColumns rows first cols = .ok columns ↔
      columns = userColumns rows first cols ∧
        ∀ idx col, cols[idx]? = some col → ∀ row ∈ rows, ∀ value,
          row.2.get (first + idx) = some value → col.Admits (some value) := by
  induction cols generalizing first columns with
  | nil => simp [buildColumns, userColumns, eq_comm]
  | cons col rest ih =>
    simp only [buildColumns, Except.bind_eq_ok, buildCells_eq_ok, ih, userColumns, pure,
      Except.pure, Except.ok.injEq]
    constructor
    · rintro ⟨cells, ⟨rfl, fits⟩, others, ⟨rfl, later⟩, rfl⟩
      refine ⟨rfl, fun idx other found => ?_⟩
      cases idx with
      | zero =>
        cases found
        exact fits
      | succ idx =>
        have next := later idx other (by simpa using found)
        rwa [Nat.add_right_comm, Nat.add_assoc] at next
    · rintro ⟨rfl, fits⟩
      refine ⟨_, ⟨rfl, fits 0 col rfl⟩, _, ⟨rfl, fun idx other found => ?_⟩, rfl⟩
      have next := fits (idx + 1) other (by simpa using found)
      rwa [← Nat.add_assoc, Nat.add_right_comm] at next

/-- Every field that is present fits its column. -/
def Row.Fits (row : Row) (schema : TableSchema) : Prop :=
  ∀ idx col, schema.columns[idx]? = some col →
    ∀ value, row.get idx = some value → col.Admits (some value)

theorem rowsToRecordBatch_eq_ok {batch : RecordBatch} :
    rowsToRecordBatch postcard rows schema format = .ok batch ↔
      batch = ⟨rows.length, hiddenColumns postcard rows format ++
        userColumns rows 0 schema.columns⟩ ∧
        ∀ row ∈ rows, row.2.Fits schema := by
  simp only [rowsToRecordBatch, Except.bind_eq_ok, buildColumns_eq_ok, Nat.zero_add, pure,
    Except.pure, Except.ok.injEq, Row.Fits]
  constructor
  · rintro ⟨_, ⟨rfl, fits⟩, rfl⟩
    exact ⟨rfl, fun row member idx col found => fits idx col found row member⟩
  · rintro ⟨rfl, fits⟩
    exact ⟨_, ⟨rfl, fun idx col found row member => fits row member idx col found⟩, rfl⟩

theorem Row.cellOf_get (valid : row.validate schema = .ok ()) {idx : Nat}
    (found : schema.columns[idx]? = some col) :
    col.cellOf (row.get idx) = row.get idx ∧ col.Admits (row.get idx) := by
  have fits := Row.validate_eq_ok.mp valid
  have inside := (List.getElem?_eq_some_iff.mp found).1
  have inside' : idx < row.fields.length := fits.length_eq ▸ inside
  have admits := fits.get inside' inside
  have value : row.get idx = row.fields[idx] := by
    rw [Row.get, List.getElem?_eq_getElem inside']
    rfl
  have column : schema.columns[idx] = col := (List.getElem?_eq_some_iff.mp found).2
  simp only [List.get_eq_getElem, column, ← value] at admits
  refine ⟨?_, admits⟩
  cases present : row.get idx with
  | none =>
    rw [present] at admits
    exact if_pos admits
  | some value => rfl

theorem Row.fits_of_validate (valid : row.validate schema = .ok ()) : row.Fits schema := by
  intro idx col found value present
  have admits := (Row.cellOf_get valid found).2
  rwa [present] at admits

end Writing

/-- One row of a named column. -/
structure FileCell where
  name : String
  dataType : DataType
  value : Option FieldValue
  deriving DecidableEq

def ArrowColumn.cell (rowIdx : Nat) (column : ArrowColumn) : FileCell :=
  ⟨column.name, column.dataType, column.cells[rowIdx]?.join⟩

def FileCell.bytes (cell : FileCell) : Bytes :=
  match cell.value with
  | some (.bytes bytes) => bytes
  | _ => []

def userCells (row : Row) : Nat → List ColumnDef → List FileCell
  | _, [] => []
  | first, col :: rest =>
    ⟨col.name, col.colType.toArrow, col.cellOf (row.get first)⟩ :: userCells row (first + 1) rest

/-- A row as a columnar file written under the schema holds it. -/
def columnarCells (schema : TableSchema) (pair : InternalKey × Row) : List FileCell :=
  [⟨ikeyColumnName, .binary, some (.bytes pair.1.encoded)⟩,
    ⟨seqColumnName, .int64, some (.int64 (BitVec.ofNat 64 pair.1.seq))⟩,
    ⟨opColumnName, .int32, some (.int32 (BitVec.ofNat 32 pair.1.opType.byte))⟩] ++
  userCells pair.2 0 schema.columns

/-- The cell a name leads to: the first one of that name. -/
def cellNamed (schema : TableSchema) (pair : InternalKey × Row) (name : String) : Option FileCell :=
  (columnarCells schema pair).find? fun cell => cell.name = name

/-- A column reads the cell of its name if it is of its own array class, or its default for
reading if there is none. -/
def ColumnDef.Reads (cell : Option FileCell) (col : ColumnDef) (field : Option FieldValue) : Prop :=
  match cell with
  | none => field = col.initialDefault
  | some cell => field = cell.value ∧
      (cell.value.isSome = true → cell.dataType.sameArray col.colType.toArrow = true)

/-- The cell that is taken for the blob of a columnar file, if the schema has a column with the
name of the blob. -/
def blobCell (written reading : TableSchema) (pair : InternalKey × Row) : Option FileCell :=
  if valueBlobColumnName ∈ reading.columns.map ColumnDef.name then
    cellNamed written pair valueBlobColumnName
  else none

/-- What a row written under one schema is read as under another. -/
def ReadsBack (postcard : RowCodec) (written reading : TableSchema) (format : FileFormat)
    (pair : InternalKey × Row) (row : Row) : Prop :=
  match format with
  | .dual => row = padInitial pair.2 reading
  | .columnar =>
    match blobCell written reading pair with
    | some cell => cell.dataType = .binary ∧
        ∃ stored, postcard.decode cell.bytes = some stored ∧ row = padInitial stored reading
    | none =>
      List.Forall₂ (fun field col => ColumnDef.Reads (cellNamed written pair col.name) col field)
        row.fields reading.columns

section Reading

variable {postcard : RowCodec} {rows : List (InternalKey × Row)} {written reading : TableSchema}
  {columns : List ArrowColumn} {pair : InternalKey × Row} {cols : List ColumnDef} {rowIdx : Nat}
  {batch : RecordBatch} {reads : InternalKey × Row → Row → Prop} {first : Nat} {name : String}
  {leaves : List Nat}

theorem userColumns_cell {rowIdx first : Nat} (found : rows[rowIdx]? = some pair) :
    (userColumns rows first cols).map (ArrowColumn.cell rowIdx) = userCells pair.2 first cols := by
  induction cols generalizing first with
  | nil => rfl
  | cons col rest ih => simp [userColumns, userCells, ih, ArrowColumn.cell, found]

theorem columnar_cell (found : rows[rowIdx]? = some pair) :
    (hiddenColumns postcard rows .columnar ++ userColumns rows 0 written.columns).map
      (ArrowColumn.cell rowIdx) = columnarCells written pair := by
  rw [List.map_append, userColumns_cell found]
  simp [hiddenColumns, FileFormat.hasValueBlob, columnarCells, ArrowColumn.cell, found]

theorem find_cell (rowIdx : Nat) (name : String) :
    (columns.find? fun column => column.name = name).map (ArrowColumn.cell rowIdx) =
      (columns.map (ArrowColumn.cell rowIdx)).find? fun cell => cell.name = name := by
  rw [List.find?_map]
  rfl

theorem extractField_eq_ok {column : ArrowColumn} {col : ColumnDef} {field : Option FieldValue} :
    extractField column rowIdx col.colType = .ok field ↔
      col.Reads (some (column.cell rowIdx)) field := by
  unfold extractField ColumnDef.Reads ArrowColumn.cell
  cases column.cells[rowIdx]?.join with
  | none =>
    constructor
    · rintro ⟨⟩
      exact ⟨rfl, nofun⟩
    · rintro ⟨rfl, _⟩
      rfl
  | some value =>
    simp only [Except.seq_eq_ok, okIf_eq_ok, Option.isSome_some, forall_const]
    constructor
    · rintro ⟨same, ⟨⟩⟩
      exact ⟨rfl, same⟩
    · rintro ⟨rfl, same⟩
      exact ⟨same, rfl⟩

theorem decodeCells_eq_ok {fields : List (Option FieldValue)} :
    decodeCells batch rowIdx cols = .ok fields ↔
      List.Forall₂ (fun field col =>
        ColumnDef.Reads ((batch.column col.name).map (ArrowColumn.cell rowIdx)) col field)
        fields cols := by
  induction cols generalizing fields with
  | nil => simp [decodeCells, eq_comm]
  | cons col rest ih =>
    have first : ∀ field, decodeCell batch rowIdx col = .ok field ↔
        ColumnDef.Reads ((batch.column col.name).map (ArrowColumn.cell rowIdx)) col field := by
      intro field
      unfold decodeCell
      cases batch.column col.name with
      | none => exact ⟨by rintro ⟨⟩; rfl, by rintro rfl; rfl⟩
      | some column => exact extractField_eq_ok
    simp only [decodeCells, Except.bind_eq_ok, first, ih, pure, Except.pure, Except.ok.injEq]
    constructor
    · rintro ⟨field, reads, others, rest, rfl⟩
      exact .cons reads rest
    · intro all
      cases all with
      | cons reads rest => exact ⟨_, reads, _, rest, rfl⟩

theorem decodeRows_eq_ok {ikeys : ArrowColumn} {decode : Nat → Except MeruError Row}
    {out : List (InternalKey × Row)}
    (pointwise : ∀ idx pair, rows[idx]? = some pair →
      ikeys.binaryValue (first + idx) = pair.1.encoded ∧ ∀ row, decode (first + idx) = .ok row ↔
      reads pair row) :
    decodeRows ikeys reading decode first rows.length = .ok out ↔
      List.Forall₂ (fun pair result =>
        InternalKey.decode pair.1.encoded reading = .ok result.1 ∧ reads pair result.2)
          rows out := by
  induction rows generalizing first out with
  | nil => simp [decodeRows, eq_comm]
  | cons pair rest ih =>
    obtain ⟨key, row⟩ := pointwise 0 pair rfl
    rw [Nat.add_zero] at key row
    have later := fun others => @ih (first + 1) others (by
      intro idx other found
      have next := pointwise (idx + 1) other (by simpa using found)
      rwa [← Nat.add_assoc, Nat.add_right_comm] at next)
    simp only [List.length_cons, decodeRows, Except.bind_eq_ok, key, row, later, pure,
      Except.pure, Except.ok.injEq]
    constructor
    · rintro ⟨decodedKey, decodes, decodedRow, readsRow, others, rest, rfl⟩
      exact .cons ⟨decodes, readsRow⟩ rest
    · intro all
      cases all with
      | cons head rest => exact ⟨_, head.1, _, head.2, _, rest, rfl⟩

theorem findLeafOpt_name {first leaf : Nat} (found : findLeafOpt name first columns = some leaf) :
    first ≤ leaf ∧ ∃ column, columns[leaf - first]? = some column ∧ column.name = name := by
  induction columns generalizing first with
  | nil => cases found
  | cons column rest ih =>
    simp only [findLeafOpt] at found
    split at found
    · rename_i named
      cases found
      exact ⟨le_rfl, column, by simp, named⟩
    · obtain ⟨above, other, present, named⟩ := ih found
      refine ⟨by omega, other, ?_, named⟩
      have index : leaf - first = leaf - (first + 1) + 1 := by omega
      rw [index, List.getElem?_cons_succ]
      exact present

theorem project_find (kept : ∀ leaf, findLeafOpt name first columns = some leaf → leaf ∈ leaves) :
    (projectColumns leaves first columns).find? (fun column => column.name = name) =
      columns.find? fun column => column.name = name := by
  induction columns generalizing first with
  | nil => rfl
  | cons column rest ih =>
    simp only [projectColumns]
    by_cases named : column.name = name
    · have inside := kept first (by simp [findLeafOpt, named])
      simp [inside, named]
    · have later := ih fun leaf found => kept leaf (by simpa [findLeafOpt, named] using found)
      split
      · simp [named, later]
      · simpa [named] using later

theorem mem_projectColumns {column : ArrowColumn}
    (present : column ∈ projectColumns leaves first columns) :
    ∃ leaf ∈ leaves, first ≤ leaf ∧ columns[leaf - first]? = some column := by
  induction columns generalizing first with
  | nil => cases present
  | cons head rest ih =>
    have step : column ∈ projectColumns leaves (first + 1) rest →
        ∃ leaf ∈ leaves, first ≤ leaf ∧ (head :: rest)[leaf - first]? = some column := by
      intro later
      obtain ⟨leaf, member, above, found⟩ := ih later
      refine ⟨leaf, member, by omega, ?_⟩
      have index : leaf - first = leaf - (first + 1) + 1 := by omega
      rw [index, List.getElem?_cons_succ]
      exact found
    simp only [projectColumns] at present
    split at present
    · rename_i inside
      rcases List.mem_cons.mp present with rfl | later
      · exact ⟨first, inside, le_rfl, by simp⟩
      · exact step later
    · exact step present

theorem binaryValue_cell (column : ArrowColumn) (rowIdx : Nat) :
    column.binaryValue rowIdx = (column.cell rowIdx).bytes := rfl

def ikeyColumn (rows : List (InternalKey × Row)) : ArrowColumn :=
  ⟨ikeyColumnName, .binary, rows.map fun row => some (.bytes row.1.encoded)⟩

theorem ikeyColumn_value (found : rows[rowIdx]? = some pair) :
    (ikeyColumn rows).binaryValue rowIdx = pair.1.encoded := by
  simp [ArrowColumn.binaryValue, ikeyColumn, found]

theorem recordBatchToRows_eq_ok {out : List (InternalKey × Row)}
    (count : batch.numRows = rows.length)
    (ikeys : batch.column ikeyColumnName = some (ikeyColumn rows))
    (blobs : ∀ blob, batch.column valueBlobColumnName = some blob →
      ∀ idx pair, rows[idx]? = some pair → ∀ row, blob.dataType = .binary ∧
      decodeBlob postcard blob reading idx = .ok row ↔ reads pair row)
    (typed : batch.column valueBlobColumnName = none → ∀ idx pair, rows[idx]? = some pair →
      ∀ row : Row, decodeCells batch idx reading.columns = .ok row.fields ↔ reads pair row) :
    recordBatchToRows postcard batch reading = .ok out ↔
      List.Forall₂ (fun pair result =>
        InternalKey.decode pair.1.encoded reading = .ok result.1 ∧ reads pair result.2)
          rows out := by
  unfold recordBatchToRows
  rw [count]
  cases rows with
  | nil => simp [eq_comm]
  | cons first rest =>
    rw [if_neg (by simp), ikeys]
    simp only
    rw [Except.seq_eq_ok, okIf_eq_ok,
      and_iff_right (show (ikeyColumn (first :: rest)).dataType = .binary from rfl)]
    cases found : batch.column valueBlobColumnName with
    | some blob =>
      simp only
      rw [Except.seq_eq_ok, okIf_eq_ok]
      by_cases binary : blob.dataType = .binary
      · rw [and_iff_right binary]
        refine decodeRows_eq_ok fun idx pair present => ?_
        rw [Nat.zero_add]
        refine ⟨ikeyColumn_value present, fun row => ?_⟩
        rw [← blobs blob found idx pair present row, and_iff_right binary]
      · constructor
        · exact fun claimed => absurd claimed.1 binary
        · intro all
          cases all with
          | cons head _ => exact absurd ((blobs blob found 0 first rfl _).mpr head.2).1 binary
    | none =>
      refine decodeRows_eq_ok fun idx pair present => ?_
      rw [Nat.zero_add]
      refine ⟨ikeyColumn_value present, fun row => ?_⟩
      rw [← typed found idx pair present row, Except.bind_eq_ok]
      constructor
      · rintro ⟨fields, decoded, ⟨⟩⟩
        exact decoded
      · intro decoded
        exact ⟨row.fields, decoded, rfl⟩

/-- The columns of a file of rows written under the schema. -/
def fileColumns (postcard : RowCodec) (rows : List (InternalKey × Row)) (schema : TableSchema)
    (format : FileFormat) : List ArrowColumn :=
  hiddenColumns postcard rows format ++ userColumns rows 0 schema.columns

theorem decodeBlob_eq_ok {blob : ArrowColumn} {row : Row} :
    decodeBlob postcard blob reading rowIdx = .ok row ↔
      ∃ stored, postcard.decode (blob.cell rowIdx).bytes = some stored ∧
        row = padInitial stored reading := by
  unfold decodeBlob
  rw [binaryValue_cell]
  cases postcard.decode (blob.cell rowIdx).bytes with
  | none => simp
  | some stored => simp [eq_comm]

theorem project_dual : projectColumns [0, 3] 0 (fileColumns postcard rows written .dual) =
    [ikeyColumn rows,
      ⟨valueBlobColumnName, .binary, rows.map fun row =>
        some (.bytes (postcard.encode row.2))⟩] := by
  have none : ∀ columns first, 3 < first → projectColumns [0, 3] first columns = [] := by
    intro columns
    induction columns with
    | nil => intro first _; rfl
    | cons column rest ih =>
      intro first large
      have outside : first ∉ [0, 3] := by simp; omega
      rw [projectColumns, if_neg outside, ih (first + 1) (by omega)]
  simp [fileColumns, hiddenColumns, FileFormat.hasValueBlob, projectColumns, none, ikeyColumn]

theorem columnar_column (found : rows[rowIdx]? = some pair) (name : String) :
    ((fileColumns postcard rows written .columnar).find? fun column => column.name = name).map
        (ArrowColumn.cell rowIdx) = cellNamed written pair name := by
  rw [find_cell]
  exact congrArg (List.find? _) (columnar_cell found)

theorem columnarRows_eq_ok {out : List (InternalKey × Row)}
    (ikeys : columns.find? (fun column => column.name = ikeyColumnName) = some (ikeyColumn rows))
    (blob : ∀ idx pair, rows[idx]? = some pair →
      (columns.find? fun column => column.name = valueBlobColumnName).map (ArrowColumn.cell idx) =
        blobCell written reading pair)
    (wanted : ∀ idx pair, rows[idx]? = some pair → ∀ col ∈ reading.columns,
      (columns.find? fun column => column.name = col.name).map (ArrowColumn.cell idx) =
        cellNamed written pair col.name) :
    recordBatchToRows postcard ⟨rows.length, columns⟩ reading = .ok out ↔
      List.Forall₂ (fun pair result => InternalKey.decode pair.1.encoded reading = .ok result.1 ∧
        ReadsBack postcard written reading .columnar pair result.2) rows out := by
  refine recordBatchToRows_eq_ok rfl ikeys ?_ ?_
  · intro column found idx pair present row
    have cell := blob idx pair present
    change columns.find? _ = some column at found
    rw [found, Option.map_some] at cell
    simp only [ReadsBack, ← cell]
    rw [decodeBlob_eq_ok]
    rfl
  · intro found idx pair present row
    have cell := blob idx pair present
    change columns.find? _ = none at found
    rw [found, Option.map_none] at cell
    simp only [ReadsBack, ← cell]
    rw [decodeCells_eq_ok]
    refine forall₂_congr_right fun col member field => ?_
    rw [← wanted idx pair present col member]
    rfl

theorem readAllRows_eq_ok {format : FileFormat} {out : List (InternalKey × Row)} :
    readAllRows postcard ⟨rows.length, fileColumns postcard rows written format⟩ reading format =
        .ok out ↔
      List.Forall₂ (fun pair result => InternalKey.decode pair.1.encoded reading = .ok result.1 ∧
        ReadsBack postcard written reading format pair result.2) rows out := by
  cases format with
  | dual =>
    have mask : projectionMask (fileColumns postcard rows written .dual) reading .dual =
        .ok [0, 3] := rfl
    rw [readAllRows, mask, Except.bind_ok, project_dual]
    refine recordBatchToRows_eq_ok rfl rfl ?_ nofun
    rintro blob ⟨⟩ idx pair present row
    rw [decodeBlob_eq_ok]
    simp [ArrowColumn.cell, present, FileCell.bytes, postcard.decode_encode, ReadsBack]
  | columnar =>
    let columns := fileColumns postcard rows written .columnar
    let leaves := 0 :: reading.columns.filterMap fun col => findLeafOpt col.name 0 columns
    have mask : projectionMask columns reading .columnar = .ok leaves := rfl
    have wanted : ∀ col ∈ reading.columns,
        (projectColumns leaves 0 columns).find? (fun column => column.name = col.name) =
          columns.find? fun column => column.name = col.name := by
      intro col present
      refine project_find fun leaf found => List.mem_cons_of_mem _ ?_
      exact List.mem_filterMap.mpr ⟨col, present, found⟩
    rw [readAllRows, mask, Except.bind_ok]
    refine columnarRows_eq_ok ?_ ?_ ?_
    · refine (project_find fun leaf found => ?_).trans rfl
      cases found
      exact List.mem_cons_self
    · intro idx pair present
      unfold blobCell
      split
      · rename_i member
        obtain ⟨col, member, named⟩ := List.mem_map.mp member
        rw [← named, wanted col member, columnar_column present]
      · rename_i absent
        rw [List.find?_eq_none.mpr, Option.map_none]
        intro column member
        obtain ⟨leaf, inMask, _, found⟩ := mem_projectColumns member
        rw [Nat.sub_zero] at found
        rcases List.mem_cons.mp inMask with rfl | user
        · cases found
          exact (by decide : ¬ decide (ikeyColumnName = valueBlobColumnName) = true)
        · obtain ⟨col, present', leafOf⟩ := List.mem_filterMap.mp user
          obtain ⟨_, other, found', named⟩ := findLeafOpt_name leafOf
          rw [Nat.sub_zero, found] at found'
          cases found'
          simp only [decide_eq_true_eq]
          rintro same
          exact absent (List.mem_map.mpr ⟨col, present', named.symm.trans same⟩)
    · intro idx pair present col member
      rw [wanted col member, columnar_column present]

end Reading

section Tagged

open Wal

/-- A form of rows that can be read back: each field after a tag for its type. -/
def taggedField : Option FieldValue → Bytes
  | none => [0]
  | some (.boolean value) => [1, if value then 1 else 0]
  | some (.int32 value) => 2 :: toLe 4 value.toNat
  | some (.int64 value) => 3 :: toLe 8 value.toNat
  | some (.float bits) => 4 :: toLe 4 bits.toNat
  | some (.double bits) => 5 :: toLe 8 bits.toNat
  | some (.bytes data) => 6 :: escapeByteArray data

def readTaggedField (tag : UInt8) (rest : Bytes) : Option (Option FieldValue × Bytes) :=
  if tag = 0 then some (none, rest)
  else if tag = 1 then some (some (.boolean (rest.head? = some 1)), rest.drop 1)
  else if tag = 2 then some (some (.int32 (BitVec.ofNat 32 (ofLe (rest.take 4)))), rest.drop 4)
  else if tag = 3 then some (some (.int64 (BitVec.ofNat 64 (ofLe (rest.take 8)))), rest.drop 8)
  else if tag = 4 then some (some (.float (BitVec.ofNat 32 (ofLe (rest.take 4)))), rest.drop 4)
  else if tag = 5 then some (some (.double (BitVec.ofNat 64 (ofLe (rest.take 8)))), rest.drop 8)
  else
    match unescapeByteArray rest with
    | .ok (data, consumed) => some (some (.bytes data), rest.drop consumed)
    | .error _ => none

def readTaggedFields : Nat → Bytes → Option (List (Option FieldValue))
  | _, [] => some []
  | 0, _ :: _ => none
  | fuel + 1, tag :: rest => do
      let (field, rest) ← readTaggedField tag rest
      let fields ← readTaggedFields fuel rest
      return field :: fields

theorem readTaggedField_append (field : Option FieldValue) (rest : Bytes) :
    ∃ tag bytes, taggedField field = tag :: bytes ∧
      readTaggedField tag (bytes ++ rest) = some (field, rest) := by
  have word : ∀ width value, (toLe width value ++ rest).take width = toLe width value ∧
      (toLe width value ++ rest).drop width = rest := by
    intro width value
    have length := toLe_length width value
    exact ⟨List.take_left' length, List.drop_left' length⟩
  cases field with
  | none => exact ⟨0, [], rfl, rfl⟩
  | some value =>
    cases value with
    | boolean value =>
      refine ⟨1, _, rfl, ?_⟩
      cases value <;> simp [readTaggedField]
    | int32 value =>
      refine ⟨2, _, rfl, ?_⟩
      simp [readTaggedField, word, ofLe_toLe (show value.toNat < 256 ^ 4 from value.isLt)]
    | int64 value =>
      refine ⟨3, _, rfl, ?_⟩
      simp [readTaggedField, word, ofLe_toLe (show value.toNat < 256 ^ 8 from value.isLt)]
    | float bits =>
      refine ⟨4, _, rfl, ?_⟩
      simp [readTaggedField, word, ofLe_toLe (show bits.toNat < 256 ^ 4 from bits.isLt)]
    | double bits =>
      refine ⟨5, _, rfl, ?_⟩
      simp [readTaggedField, word, ofLe_toLe (show bits.toNat < 256 ^ 8 from bits.isLt)]
    | bytes data =>
      refine ⟨6, _, rfl, ?_⟩
      simp [readTaggedField, unescape_escape]

theorem readTaggedFields_flatMap (fields : List (Option FieldValue)) {fuel : Nat}
    (enough : fields.length ≤ fuel) :
    readTaggedFields fuel (fields.flatMap taggedField) = some fields := by
  induction fields generalizing fuel with
  | nil => cases fuel <;> rfl
  | cons field rest ih =>
    obtain ⟨fuel, rfl⟩ := Nat.exists_eq_succ_of_ne_zero (show fuel ≠ 0 by simp at enough; omega)
    obtain ⟨tag, bytes, tagged, read⟩ :=
      readTaggedField_append field (rest.flatMap taggedField)
    have later := ih (show rest.length ≤ fuel by simpa using enough)
    simp [List.flatMap_cons, tagged, readTaggedFields, read, later]

theorem length_le_flatMap (fields : List (Option FieldValue)) :
    fields.length ≤ (fields.flatMap taggedField).length := by
  induction fields with
  | nil => simp
  | cons field rest ih =>
    obtain ⟨tag, bytes, tagged, _⟩ := readTaggedField_append field []
    simp only [List.length_cons, List.flatMap_cons, List.length_append, tagged]
    omega

def RowCodec.tagged : RowCodec where
  encode row := row.fields.flatMap taggedField
  decode bytes := (readTaggedFields bytes.length bytes).map Row.mk
  decode_encode row := by
    rw [readTaggedFields_flatMap row.fields (length_le_flatMap row.fields)]
    rfl
  decodeJson _ := none

end Tagged

end Merutable
