import Merutable.Evolution
import Merutable.Foundation.Runs

/-! The schema that the catalog persists, from the first open through `MeruDB::add_column`, the
commits of flushes and compactions, and reopens. -/

namespace Merutable

/-- A manifest with the schema it embeds, as it is decoded from the metadata file. -/
structure StoredManifest where
  manifest : Manifest
  schema : TableSchema
  deriving DecidableEq

/-- `Manifest::apply`: the next manifest has the schema of this one. -/
def StoredManifest.apply (stored : StoredManifest) (txn : SnapshotTransaction) (newSnapshotId : Nat)
    (dvLocations : List (Nat × DeletionVector)) : Except IcebergError StoredManifest := do
  let manifest ← stored.manifest.apply txn newSnapshotId dvLocations
  return ⟨manifest, stored.schema⟩

/-- `IcebergCatalog` and the manifest that `version-hint.text` leads to, if there is a hint. -/
structure TableCatalog where
  base : Option StoredManifest
  current : StoredManifest
  nextVersion : Nat
  deriving DecidableEq

def loadPersistedSchema (base : Option StoredManifest) : Option TableSchema :=
  base.map StoredManifest.schema

/-- How the file operations of a commit end. A failure after the rename of the hint leaves the new
manifest as the one the hint leads to. -/
inductive CommitIo where
  | done
  | failed (renamed : Bool)
  deriving DecidableEq

inductive TableError where
  | schema (error : MeruError)
  | iceberg (error : IcebergError)
  | io
  deriving DecidableEq

namespace TableCatalog

/-- The catalog without schemas. -/
def catalog (table : TableCatalog) : Catalog := ⟨table.current.manifest, table.nextVersion⟩

def «open» (base : Option StoredManifest) (schema : TableSchema) : Except MeruError TableCatalog :=
  match base with
  | some stored => do
      checkSchemaCompatible stored.schema schema
      return ⟨base, stored, stored.manifest.snapshotId + 1⟩
  | none => .ok ⟨none, ⟨.empty, schema⟩, 1⟩

/-- The schema the caller provides goes into the version that is returned. -/
def commit (table : TableCatalog) (txn : SnapshotTransaction) (schema : TableSchema)
    (io : CommitIo) : TableCatalog × Except TableError (Version × TableSchema) :=
  match table.current.apply txn table.nextVersion
      (Catalog.dvLocations table.current.manifest table.nextVersion txn.dvs) with
  | .error error => (table, .error (.iceberg error))
  | .ok next =>
    match io with
    | .done => (⟨some next, next, table.nextVersion + 1⟩, .ok (next.manifest.toVersion, schema))
    | .failed true => ({ table with base := some next }, .error .io)
    | .failed false => (table, .error .io)

theorem commit_catalog {table next : TableCatalog} {txn : SnapshotTransaction}
    {schema : TableSchema} {io : CommitIo} {version : Version × TableSchema}
    (committed : table.commit txn schema io = (next, .ok version)) :
    table.catalog.commit txn = .ok (next.catalog, version.1) := by
  unfold commit StoredManifest.apply at committed
  unfold Catalog.commit catalog
  cases applied : table.current.manifest.apply txn table.nextVersion
      (Catalog.dvLocations table.current.manifest table.nextVersion txn.dvs) with
  | error error =>
    rw [applied] at committed
    cases committed
  | ok manifest =>
    rw [applied] at committed
    cases io with
    | done =>
      cases committed
      rfl
    | failed renamed =>
      cases renamed with
      | true => cases committed
      | false => cases committed

end TableCatalog

/-- An open `MeruDB`: its catalog, and the schema that its engine was opened with. -/
structure OpenTable where
  catalog : TableCatalog
  schema : TableSchema
  deriving DecidableEq

namespace OpenTable

def «open» (base : Option StoredManifest) (schema : TableSchema) : Except MeruError OpenTable := do
  schema.validate.2
  let catalog ← TableCatalog.open base schema.validate.1
  return ⟨catalog, schema.validate.1⟩

def addColumn (table : OpenTable) (col : ColumnDef) (io : CommitIo) :
    OpenTable × Except TableError TableSchema :=
  let current := table.schema
  if col.name ∈ current.columns.map ColumnDef.name then
    (table, .error (.schema (.schemaMismatch
      s!"add_column: column '{col.name}' already exists in table '{current.tableName}'")))
  else if ¬col.Backfillable then
    (table, .error (.schema (.schemaMismatch
      (s!"add_column: new column '{col.name}' is NOT NULL and has no " ++
        "write_default / initial_default — cannot back-fill existing rows"))))
  else
    let evolved := { current with columns := current.columns ++ [col] }
    match evolved.validate with
    | (_, .error error) => (table, .error (.schema error))
    | (evolved, .ok ()) =>
      match table.catalog.commit ⟨[], [], []⟩ evolved io with
      | (catalog, .ok _) => ({ table with catalog := catalog }, .ok evolved)
      | (catalog, .error error) => ({ table with catalog := catalog }, .error error)

end OpenTable

/-- Flushes and compactions commit transactions of their own under the engine's schema. An open
that is rejected changes nothing. -/
inductive OpenTableAction where
  | commit (txn : SnapshotTransaction) (io : CommitIo)
  | addColumn (col : ColumnDef) (io : CommitIo)
  | reopen (schema : TableSchema)

def OpenTable.step (table : OpenTable) : OpenTableAction → Option OpenTable
  | .commit txn io => some { table with catalog := (table.catalog.commit txn table.schema io).1 }
  | .addColumn col io => some (table.addColumn col io).1
  | .reopen schema => (OpenTable.open table.catalog.base schema).toOption

/-- The engine's schema extends the one in the catalog, which is the one persisted. -/
structure OpenTable.Persisting (table : OpenTable) : Prop where
  extended : table.schema.Extends table.catalog.current.schema
  persisted : ∀ stored ∈ table.catalog.base, stored.schema = table.catalog.current.schema

section Persisted

variable {table next before after later : OpenTable} {schema evolved : TableSchema}
  {col : ColumnDef} {io : CommitIo} {txn : SnapshotTransaction}

theorem TableSchema.Extends.refl (schema : TableSchema) : schema.Extends schema where
  tableName := rfl
  kept := List.prefix_rfl
  added := by simp
  primaryKey := rfl

theorem OpenTable.open_persisting {base : Option StoredManifest}
    (opened : OpenTable.open base schema = .ok table) : table.Persisting := by
  obtain ⟨_, rest⟩ := Except.seq_eq_ok.mp opened
  obtain ⟨catalog, found, made⟩ := Except.bind_eq_ok.mp rest
  cases made
  cases base with
  | none =>
    cases found
    exact ⟨.refl _, fun _ member => by cases member⟩
  | some stored =>
    obtain ⟨accepted, made⟩ := Except.seq_eq_ok.mp found
    cases made
    refine ⟨checkSchemaCompatible_eq_ok.mp accepted, fun other member => ?_⟩
    cases member
    rfl

theorem TableCatalog.commit_schema {catalog : TableCatalog} {txn : SnapshotTransaction} :
    (catalog.commit txn schema io).1.current.schema = catalog.current.schema ∧
      ((∀ stored ∈ catalog.base, stored.schema = catalog.current.schema) →
        ∀ stored ∈ (catalog.commit txn schema io).1.base,
          stored.schema = catalog.current.schema) := by
  unfold commit StoredManifest.apply
  cases catalog.current.manifest.apply txn catalog.nextVersion
      (Catalog.dvLocations catalog.current.manifest catalog.nextVersion txn.dvs) with
  | error error => exact ⟨rfl, id⟩
  | ok manifest =>
    cases io with
    | done =>
      refine ⟨rfl, fun _ stored member => ?_⟩
      cases member
      rfl
    | failed renamed =>
      cases renamed with
      | true =>
        refine ⟨rfl, fun _ stored member => ?_⟩
        cases member
        rfl
      | false => exact ⟨rfl, id⟩

theorem OpenTable.Persisting.commit (persisting : table.Persisting) {provided : TableSchema} :
    OpenTable.Persisting { table with catalog := (table.catalog.commit txn provided io).1 } := by
  obtain ⟨same, persisted⟩ := @TableCatalog.commit_schema provided io table.catalog txn
  refine ⟨?_, ?_⟩
  · rw [same]
    exact persisting.extended
  · rw [same]
    exact persisted persisting.persisted

theorem OpenTable.addColumn_table (table : OpenTable) (col : ColumnDef) (io : CommitIo) :
    (table.addColumn col io).1 = table ∨ ∃ evolved, (table.addColumn col io).1 =
      { table with catalog := (table.catalog.commit ⟨[], [], []⟩ evolved io).1 } := by
  unfold addColumn
  dsimp only
  split
  · exact .inl rfl
  · split
    · exact .inl rfl
    · split
      · exact .inl rfl
      · rename_i evolved _
        refine .inr ⟨evolved, ?_⟩
        split <;> rename_i committed <;> rw [committed]

theorem OpenTable.Persisting.step (persisting : table.Persisting) {action : OpenTableAction}
    (fired : table.step action = some next) : next.Persisting := by
  cases action with
  | commit txn io =>
    cases fired
    exact persisting.commit
  | addColumn col io =>
    cases fired
    rcases table.addColumn_table col io with same | ⟨evolved, committed⟩
    · rw [same]
      exact persisting
    · rw [committed]
      exact persisting.commit
  | reopen schema =>
    rw [OpenTable.step] at fired
    cases opened : OpenTable.open table.catalog.base schema with
    | error error =>
      rw [opened] at fired
      cases fired
    | ok reopened =>
      rw [opened] at fired
      cases fired
      exact OpenTable.open_persisting opened

theorem TableSchema.assignFieldIds_length (nextId : Nat) (cols : List ColumnDef) :
    (TableSchema.assignFieldIds nextId cols).1.length = cols.length := by
  induction cols generalizing nextId with
  | nil => rfl
  | cons col rest ih =>
    simp only [assignFieldIds]
    split <;> simp [ih]

theorem TableSchema.validate_length (schema : TableSchema) :
    schema.validate.1.columns.length = schema.columns.length := by
  simp only [validate, normalizeFieldIds]
  split
  · rfl
  · exact assignFieldIds_length _ _

/-- An accepted column makes the returned schema longer than the engine's, and the commit leaves a
hint. -/
theorem OpenTable.addColumn_eq_ok (added : table.addColumn col io = (next, .ok evolved)) :
    col.name ∉ table.schema.columns.map ColumnDef.name ∧
      evolved.columns.length = table.schema.columns.length + 1 ∧
      next.schema = table.schema ∧ next.catalog.base = some next.catalog.current := by
  unfold addColumn at added
  dsimp only at added
  split at added
  · cases added
  · rename_i fresh
    split at added
    · cases added
    · split at added
      · cases added
      · rename_i grown valid
        split at added <;> cases added
        rename_i catalog version committed
        refine ⟨fresh, ?_, rfl, ?_⟩
        · have longer := TableSchema.validate_length
            { table.schema with columns := table.schema.columns ++ [col] }
          rw [valid] at longer
          simpa using longer
        · unfold TableCatalog.commit at committed
          split at committed
          · cases committed
          · split at committed <;> cases committed
            rfl

theorem TableCatalog.commit_hint {catalog : TableCatalog} (hinted : catalog.base.isSome = true) :
    (catalog.commit txn schema io).1.base.isSome = true := by
  unfold commit
  split
  · exact hinted
  · split
    · rfl
    · rfl
    · exact hinted

theorem OpenTable.step_schema (persisting : table.Persisting) {action : OpenTableAction}
    (fired : table.step action = some next) (hinted : table.catalog.base.isSome = true) :
    next.catalog.base.isSome = true ∧
      next.catalog.current.schema = table.catalog.current.schema := by
  cases action with
  | commit txn io =>
    cases fired
    exact ⟨TableCatalog.commit_hint hinted, TableCatalog.commit_schema.1⟩
  | addColumn col io =>
    cases fired
    rcases table.addColumn_table col io with same | ⟨evolved, committed⟩
    · rw [same]
      exact ⟨hinted, rfl⟩
    · rw [committed]
      exact ⟨TableCatalog.commit_hint hinted, TableCatalog.commit_schema.1⟩
  | reopen schema =>
    obtain ⟨stored, found⟩ := Option.isSome_iff_exists.mp hinted
    rw [OpenTable.step, found] at fired
    cases opened : OpenTable.open (some stored) schema with
    | error error =>
      rw [opened] at fired
      cases fired
    | ok reopened =>
      rw [opened] at fired
      cases fired
      obtain ⟨_, rest⟩ := Except.seq_eq_ok.mp opened
      obtain ⟨catalog, opened', made⟩ := Except.bind_eq_ok.mp rest
      cases made
      obtain ⟨_, made⟩ := Except.seq_eq_ok.mp opened'
      cases made
      exact ⟨rfl, persisting.persisted stored found⟩

/-- After every accepted `add_column` the catalog goes on with the schema it had: it never persists
the one that was returned, and an open with the engine's schema, which lacks the column, passes the
check. -/
theorem add_column_never_persisted {past future : List OpenTableAction}
    (opened : OpenTable.open none schema = .ok table)
    (reached : Foundation.Run OpenTable.step (fun _ _ => True) table past before)
    (added : before.addColumn col io = (after, .ok evolved))
    (ran : Foundation.Run OpenTable.step (fun _ _ => True) after future later) :
    ∃ persisted, loadPersistedSchema later.catalog.base = some persisted ∧ persisted ≠ evolved ∧
      col.name ∉ before.schema.columns.map ColumnDef.name ∧
      checkSchemaCompatible persisted before.schema = .ok () := by
  have persisting : before.Persisting :=
    reached.invariant OpenTable.Persisting (fun _ _ _ kept _ fired => kept.step fired)
      (OpenTable.open_persisting opened)
  have fired : before.step (.addColumn col io) = some after := by rw [OpenTable.step, added]
  have persisting' := persisting.step fired
  obtain ⟨fresh, longer, sameEngine, hinted⟩ := OpenTable.addColumn_eq_ok added
  have kept := ran.invariant
    (fun later => later.Persisting ∧ later.catalog.base.isSome = true ∧
      later.catalog.current.schema = after.catalog.current.schema)
    (by
      rintro state action next ⟨persisting, hinted, same⟩ _ fired
      obtain ⟨hinted, same'⟩ := OpenTable.step_schema persisting fired hinted
      exact ⟨persisting.step fired, hinted, same'.trans same⟩)
    ⟨persisting', by rw [hinted]; rfl, rfl⟩
  obtain ⟨persistingLater, hinted, same⟩ := kept
  obtain ⟨stored, found⟩ := Option.isSome_iff_exists.mp hinted
  have schemas : stored.schema = after.catalog.current.schema :=
    (persistingLater.persisted stored found).trans same
  have extended : before.schema.Extends stored.schema := by
    rw [schemas, ← sameEngine]
    exact persisting'.extended
  refine ⟨stored.schema, by rw [loadPersistedSchema, found]; rfl, ?_, fresh, ?_⟩
  · intro equal
    have shorter := extended.continues.length_le
    rw [equal] at shorter
    omega
  · exact checkSchemaCompatible_eq_ok.mpr extended

end Persisted

namespace Evolution.Sample

def noteColumn : ColumnDef := ⟨"note", .int64, true, none, none, none⟩

def created : OpenTable := ⟨⟨none, ⟨.empty, older⟩, 1⟩, older⟩

def extended : OpenTable := (created.addColumn noteColumn .done).1

def evolved : TableSchema :=
  ⟨"t", [idColumn, ⟨"note", .int64, true, some 2, none, none⟩], [0], 0, 2⟩

/-- After one more commit under the engine's schema. -/
def committedAgain : OpenTable :=
  { extended with catalog := (extended.catalog.commit ⟨[], [], []⟩ older .done).1 }

end Evolution.Sample

open Evolution.Sample in
theorem add_column_never_persisted_once :
    ∃ persisted, loadPersistedSchema committedAgain.catalog.base = some persisted ∧
      persisted ≠ evolved ∧ noteColumn.name ∉ created.schema.columns.map ColumnDef.name ∧
      checkSchemaCompatible persisted created.schema = .ok () := by
  have opened : OpenTable.open none older = .ok created := by decide +kernel
  have added : created.addColumn noteColumn .done = (extended, .ok evolved) := by decide +kernel
  have fired : extended.step (.commit ⟨[], [], []⟩ .done) = some committedAgain := rfl
  exact add_column_never_persisted opened (.nil created) added (.cons trivial fired (.nil _))

open Evolution.Sample in
/-- The call returns the schema with the column, the catalog persists the one without, and a reopen
without the column passes. -/
theorem add_column_lost :
    OpenTable.open none older = .ok created ∧
    created.addColumn noteColumn .done = (extended, .ok evolved) ∧
    loadPersistedSchema extended.catalog.base = some older ∧ older ≠ evolved ∧
    checkSchemaCompatible older older = .ok () := by
  decide +kernel

end Merutable
