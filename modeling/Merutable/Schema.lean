import Merutable.Types

/-! Table schemas and the checks made against them: `types::schema`, the row functions of
`types::value`, and the compatibility check of a reopen in `iceberg::catalog`. -/

namespace Merutable

inductive MeruError where
  | io (message : String)
  | invalidArgument (message : String)
  | schemaMismatch (message : String)
  | corruption (message : String)
  | parquet (message : String)
  | iceberg (message : String)
  | objectStore (message : String)
  | changeFeedBelowRetention (requested lowWater : Nat)
  | panicked
  deriving DecidableEq

/-- The value of a fallible call that has nothing to return. -/
def okIf (condition : Prop) [Decidable condition] (error : MeruError) : Except MeruError Unit :=
  if condition then .ok () else .error error

theorem okIf_eq_ok {condition : Prop} [Decidable condition] {error : MeruError} {done : Unit} :
    okIf condition error = .ok done ↔ condition := by
  unfold okIf
  split <;> simp_all

theorem Except.bind_eq_ok {E A B : Type} {first : Except E A} {next : A → Except E B} {value : B} :
    (first >>= next) = .ok value ↔ ∃ middle, first = .ok middle ∧ next middle = .ok value := by
  cases first with
  | error error => simp [bind, Except.bind]
  | ok middle => simp [bind, Except.bind]

theorem Except.mapError_eq_ok {E F A : Type} {f : E → F} {result : Except E A} {value : A} :
    result.mapError f = .ok value ↔ result = .ok value := by
  cases result <;> simp [Except.mapError]

theorem Except.seq_eq_ok {E B : Type} {first : Except E Unit} {next : Except E B} {value : B} :
    (do first; next) = .ok value ↔ first = .ok () ∧ next = .ok value := by
  rw [Except.bind_eq_ok]
  constructor
  · rintro ⟨⟨⟩, done, rest⟩
    exact ⟨done, rest⟩
  · rintro ⟨done, rest⟩
    exact ⟨(), done, rest⟩

inductive ColumnType where
  | boolean
  | int32
  | int64
  | float
  | double
  | byteArray
  | fixedLenByteArray (width : BitVec 32)
  deriving DecidableEq

/-- The cast from `i32` to `usize`, which extends the sign. -/
def usizeOfI32 (width : BitVec 32) : Nat := (width.signExtend 64).toNat

def ColumnType.debug : ColumnType → String
  | .boolean => "Boolean"
  | .int32 => "Int32"
  | .int64 => "Int64"
  | .float => "Float"
  | .double => "Double"
  | .byteArray => "ByteArray"
  | .fixedLenByteArray width => s!"FixedLenByteArray({width.toInt})"

structure ColumnDef where
  name : String
  colType : ColumnType
  nullable : Bool
  fieldId : Option Nat
  initialDefault : Option FieldValue
  writeDefault : Option FieldValue
  deriving DecidableEq

structure TableSchema where
  tableName : String
  columns : List ColumnDef
  primaryKey : List Nat
  schemaId : Nat
  lastColumnId : Nat
  deriving DecidableEq

namespace TableSchema

def u32Max : Nat := 2 ^ 32 - 1

/-- Columns without a field id take the next one; the counter saturates. -/
def assignFieldIds : Nat → List ColumnDef → List ColumnDef × Nat
  | nextId, [] => ([], nextId)
  | nextId, col :: rest =>
    if col.fieldId.isNone then
      let assigned := assignFieldIds (min (nextId + 1) u32Max) rest
      ({ col with fieldId := some nextId } :: assigned.1, assigned.2)
    else
      let assigned := assignFieldIds nextId rest
      (col :: assigned.1, assigned.2)

def normalizeFieldIds (schema : TableSchema) : TableSchema :=
  if schema.columns.all fun col => col.fieldId.isSome then schema
  else
    let assigned := assignFieldIds (min (schema.lastColumnId + 1) u32Max) schema.columns
    { schema with columns := assigned.1, lastColumnId := assigned.2 - 1 }

def checkPrimaryKey (schema : TableSchema) : List Nat → List Nat → Except MeruError Unit
  | _, [] => .ok ()
  | seen, idx :: rest => do
      let count := schema.columns.length
      match schema.columns[idx]? with
      | none => .error (.invalidArgument
          s!"primary_key index {idx} out of bounds (columns len={count})")
      | some col =>
        okIf (idx ∉ seen) (.invalidArgument s!"duplicate primary_key column index {idx}")
        okIf (col.nullable = false)
          (.invalidArgument s!"primary key column '{col.name}' must be non-nullable")
        checkPrimaryKey schema (idx :: seen) rest

def checkFieldIds (lastColumnId : Nat) : List Nat → List ColumnDef → Except MeruError Unit
  | _, [] => .ok ()
  | seen, col :: rest =>
    match col.fieldId with
    | none => checkFieldIds lastColumnId seen rest
    | some id => do
        okIf (id ∉ seen) (.invalidArgument s!"duplicate field_id {id} on column '{col.name}'")
        okIf (id ≤ lastColumnId) (.invalidArgument
          s!"field_id {id} on column '{col.name}' exceeds last_column_id {lastColumnId}")
        checkFieldIds lastColumnId (id :: seen) rest

def validateReadonly (schema : TableSchema) : Except MeruError Unit := do
  okIf (schema.columns ≠ []) (.invalidArgument "schema must have at least one column")
  okIf (schema.primaryKey ≠ []) (.invalidArgument "primary key must have at least one column")
  schema.checkPrimaryKey [] schema.primaryKey
  checkFieldIds schema.lastColumnId [] schema.columns

/-- The schema is changed also when the check fails. -/
def validate (schema : TableSchema) : TableSchema × Except MeruError Unit :=
  (schema.normalizeFieldIds, schema.normalizeFieldIds.validateReadonly)

end TableSchema

def FieldValue.kind : FieldValue → String
  | .boolean _ => "Boolean"
  | .int32 _ => "Int32"
  | .int64 _ => "Int64"
  | .float _ => "Float"
  | .double _ => "Double"
  | .bytes _ => "Bytes"

/-- The variant of the value matches the type of the column. -/
def FieldValue.compatible : FieldValue → ColumnType → Bool
  | .boolean _, .boolean => true
  | .int32 _, .int32 => true
  | .int64 _, .int64 => true
  | .float _, .float => true
  | .double _, .double => true
  | .bytes _, .byteArray => true
  | .bytes _, .fixedLenByteArray _ => true
  | _, _ => false

/-- A value of a fixed-length column has exactly that length. -/
def FieldValue.sized : FieldValue → ColumnType → Bool
  | .bytes data, .fixedLenByteArray width => data.length = usizeOfI32 width
  | _, _ => true

def FieldValue.byteCount : FieldValue → Nat
  | .bytes data => data.length
  | _ => 0

namespace Row

def get (row : Row) (idx : Nat) : Option FieldValue := row.fields[idx]?.join

def pkValues (row : Row) : List Nat → Except MeruError (List FieldValue)
  | [] => .ok []
  | idx :: rest =>
    match row.get idx with
    | none => .error (.invalidArgument s!"PK column at index {idx} is NULL")
    | some value => do
        let values ← row.pkValues rest
        return value :: values

def padColumns : Nat → List ColumnDef → Except MeruError (List (Option FieldValue))
  | _, [] => .ok []
  | idx, col :: rest => do
      let fill := col.writeDefault.or col.initialDefault
      okIf (fill.isSome ∨ col.nullable = true) (.schemaMismatch
        (s!"row omits column {idx} '{col.name}' which is NOT NULL and has no write_default — " ++
          "caller must provide a value"))
      let fills ← padColumns (idx + 1) rest
      return fill :: fills

def padWithDefaults (row : Row) (schema : TableSchema) : Except MeruError Row := do
  let fills ← padColumns row.fields.length (schema.columns.drop row.fields.length)
  return ⟨row.fields ++ fills⟩

def checkField (idx : Nat) (field : Option FieldValue) (col : ColumnDef) : Except MeruError Unit :=
  match field with
  | none => okIf (col.nullable = true)
      (.schemaMismatch s!"column {idx} '{col.name}' is NOT NULL but row field is None")
  | some value => do
      let kind := value.kind
      let type := col.colType.debug
      okIf (value.compatible col.colType = true) (.schemaMismatch
        s!"column {idx} '{col.name}': field value type {kind} incompatible with column type {type}")
      let count := value.byteCount
      okIf (value.sized col.colType = true)
        (.schemaMismatch s!"column {idx} '{col.name}': {type} got {count} bytes")

def checkFields : Nat → List (Option FieldValue) → List ColumnDef → Except MeruError Unit
  | idx, field :: fields, col :: cols => do
      checkField idx field col
      checkFields (idx + 1) fields cols
  | _, _, _ => .ok ()

def validate (row : Row) (schema : TableSchema) : Except MeruError Unit := do
  let got := row.fields.length
  let expected := schema.columns.length
  okIf (got = expected) (.schemaMismatch
    (s!"row arity mismatch: got {got} fields, schema has {expected} columns " ++
      s!"({schema.tableName})"))
  checkFields 0 row.fields schema.columns

end Row

/-- What a column takes: a value of its type and width, or NULL if it is nullable. -/
def ColumnDef.Admits (col : ColumnDef) : Option FieldValue → Prop
  | none => col.nullable = true
  | some value => value.compatible col.colType = true ∧ value.sized col.colType = true

theorem Row.checkField_eq_ok {idx : Nat} {field : Option FieldValue} {col : ColumnDef} :
    Row.checkField idx field col = .ok () ↔ col.Admits field := by
  cases field with
  | none => exact okIf_eq_ok
  | some value => simp only [Row.checkField, Except.seq_eq_ok, okIf_eq_ok, ColumnDef.Admits]

instance (col : ColumnDef) : DecidablePred col.Admits := fun _ =>
  decidable_of_iff _ (@Row.checkField_eq_ok 0 _ col)

theorem Row.validate_eq_ok {row : Row} {schema : TableSchema} :
    row.validate schema = .ok () ↔
      List.Forall₂ (fun field col => ColumnDef.Admits col field) row.fields schema.columns := by
  have fields : ∀ (idx : Nat) (fields : List (Option FieldValue)) (cols : List ColumnDef),
      (fields.length = cols.length ∧ Row.checkFields idx fields cols = .ok ()) ↔
        List.Forall₂ (fun field col => ColumnDef.Admits col field) fields cols := by
    intro idx fields cols
    induction fields generalizing idx cols with
    | nil =>
      cases cols with
      | nil => simp [Row.checkFields]
      | cons col cols => simp
    | cons field fields ih =>
      cases cols with
      | nil => simp
      | cons col cols =>
        rw [List.forall₂_cons, ← ih (idx + 1) cols, Row.checkFields, Except.seq_eq_ok,
          Row.checkField_eq_ok]
        simp only [List.length_cons, Nat.add_right_cancel_iff]
        tauto
  rw [Row.validate, Except.seq_eq_ok, okIf_eq_ok, fields]

/-- A new column of a reopened table needs a value for the rows that exist. -/
def ColumnDef.Backfillable (col : ColumnDef) : Prop :=
  col.nullable = true ∨ col.writeDefault.isSome = true ∨ col.initialDefault.isSome = true

instance : DecidablePred ColumnDef.Backfillable := fun _ => inferInstanceAs (Decidable (_ ∨ _))

/-- What two openings have to agree on; defaults and field ids of a column may differ. -/
def ColumnDef.shape (col : ColumnDef) : String × ColumnType × Bool :=
  (col.name, col.colType, col.nullable)

def checkKeptColumns (table : String) :
    Nat → List ColumnDef → List ColumnDef → Except MeruError Unit
  | idx, persisted :: olds, provided :: news => do
      okIf (persisted.name = provided.name) (.schemaMismatch
        (s!"schema mismatch on reopen of table `{table}`: column {idx} is named " ++
          s!"`{persisted.name}` in the persisted schema, but `{provided.name}` in the provided " ++
          "schema. Columns are positional and cannot be renamed or reordered."))
      let old := persisted.colType.debug
      let new := provided.colType.debug
      okIf (persisted.colType = provided.colType) (.schemaMismatch
        (s!"schema mismatch on reopen of table `{table}`: column `{persisted.name}` has " ++
          s!"type {old} persisted, but {new} provided."))
      okIf (persisted.nullable = provided.nullable) (.schemaMismatch
        (s!"schema mismatch on reopen of table `{table}`: column `{persisted.name}` has " ++
          s!"nullable={persisted.nullable} persisted, but {provided.nullable} provided."))
      checkKeptColumns table (idx + 1) olds news
  | _, _, _ => .ok ()

def checkAddedColumns (table : String) : List ColumnDef → Except MeruError Unit
  | [] => .ok ()
  | col :: rest => do
      okIf col.Backfillable (.schemaMismatch
        (s!"schema evolution on reopen of table `{table}`: new column `{col.name}` " ++
          "is non-nullable and has no write_default / initial_default. " ++
          "Cannot back-fill existing rows — additive evolution requires " ++
          "nullable OR a default (#44)."))
      checkAddedColumns table rest

def checkSchemaCompatible (persisted provided : TableSchema) : Except MeruError Unit := do
  let table := persisted.tableName
  okIf (table = provided.tableName) (.schemaMismatch
    (s!"catalog at this path was created for table `{table}`; reopen provided " ++
      s!"`{provided.tableName}`. A merutable catalog is single-table — refusing to reopen " ++
      "under a conflicting name."))
  let had := persisted.columns.length
  let has := provided.columns.length
  okIf (had ≤ has) (.schemaMismatch
    (s!"schema mismatch on reopen of table `{table}`: persisted has {had} " ++
      s!"columns, provided has {has}. Column removal is not supported " ++
      "(additive-only evolution — #44)."))
  checkKeptColumns table 0 persisted.columns provided.columns
  checkAddedColumns table (provided.columns.drop had)
  okIf (persisted.primaryKey = provided.primaryKey) (.schemaMismatch
    (s!"schema mismatch on reopen of table `{table}`: primary key was {persisted.primaryKey} " ++
      s!"persisted, provided as {provided.primaryKey}. PK cannot change post-creation."))

/-- What the check accepts: the old columns unchanged in front, the new ones with a value for the
rows that exist, and the same key. -/
structure TableSchema.Extends (provided persisted : TableSchema) : Prop where
  tableName : persisted.tableName = provided.tableName
  kept : persisted.columns.map ColumnDef.shape <+: provided.columns.map ColumnDef.shape
  added : ∀ col ∈ provided.columns.drop persisted.columns.length, col.Backfillable
  primaryKey : persisted.primaryKey = provided.primaryKey

variable {table : String}

theorem checkKeptColumns_eq_ok {idx : Nat} {olds news : List ColumnDef} :
    (olds.length ≤ news.length ∧ checkKeptColumns table idx olds news = .ok ()) ↔
      olds.map ColumnDef.shape <+: news.map ColumnDef.shape := by
  induction olds generalizing idx news with
  | nil => simp [checkKeptColumns]
  | cons old olds ih =>
    cases news with
    | nil => simp
    | cons new news =>
      rw [List.map_cons, List.map_cons, List.cons_prefix_cons, ← @ih (idx + 1) news]
      simp only [checkKeptColumns, Except.seq_eq_ok, okIf_eq_ok, ColumnDef.shape,
        Prod.mk.injEq, List.length_cons, Nat.add_le_add_iff_right]
      tauto

theorem checkAddedColumns_eq_ok {cols : List ColumnDef} :
    checkAddedColumns table cols = .ok () ↔ ∀ col ∈ cols, col.Backfillable := by
  induction cols with
  | nil => simp [checkAddedColumns]
  | cons col rest ih =>
    rw [checkAddedColumns, Except.seq_eq_ok, okIf_eq_ok, ih, List.forall_mem_cons]

theorem checkSchemaCompatible_eq_ok {persisted provided : TableSchema} :
    checkSchemaCompatible persisted provided = .ok () ↔ provided.Extends persisted := by
  simp only [checkSchemaCompatible, Except.seq_eq_ok, okIf_eq_ok]
  constructor
  · rintro ⟨name, longer, kept, added, key⟩
    exact ⟨name, checkKeptColumns_eq_ok.mp ⟨longer, kept⟩, checkAddedColumns_eq_ok.mp added, key⟩
  · rintro ⟨name, kept, added, key⟩
    obtain ⟨longer, kept⟩ := checkKeptColumns_eq_ok.mpr kept
    exact ⟨name, longer, kept, checkAddedColumns_eq_ok.mpr added, key⟩

end Merutable
