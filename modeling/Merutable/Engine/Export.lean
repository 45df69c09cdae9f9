import Merutable.Codec
import Merutable.Engine.System

/-! `IcebergCatalog::export_to_iceberg`: the data files of the current manifest are copied without
their internal columns, and the table metadata lists the copies. -/

namespace Merutable

open Foundation
open Compaction (storedRow)

/-- The columns with which a data file is written, from its encoded keys and its rows. -/
def DataFile.toBatch (postcard : RowCodec) (schema : TableSchema) (format : FileFormat)
    (file : DataFile) : Except MeruError RecordBatch := do
  let rows ← file.rows.mapM fun entry => do
    let ikey ← InternalKey.decode (entry.key.bytes ++ keyTag entry.seq entry.value.opType) schema
    return (ikey, storedRow entry.value)
  rowsToRecordBatch postcard rows schema format

/-- A data file of the exported table. -/
structure ExportedFile where
  path : Nat
  batch : RecordBatch
  deriving DecidableEq

/-- The exported table: its snapshot and the data files of its manifest. -/
structure ExportedTable where
  snapshotId : Nat
  files : List ExportedFile
  deriving DecidableEq

def RecordBatch.rows (batch : RecordBatch) : List Row :=
  (List.range batch.numRows).map fun rowIdx =>
    ⟨batch.columns.map fun column => (column.cell rowIdx).value⟩

def ExportedTable.rows (table : ExportedTable) : List Row :=
  table.files.flatMap fun file => file.batch.rows

/-- The row as the columns of its file hold it. -/
def Row.inColumns (schema : TableSchema) (row : Row) : Row :=
  ⟨(userCells row 0 schema.columns).map FileCell.value⟩

theorem userCells_getElem? (row : Row) (first : Nat) (cols : List ColumnDef) (idx : Nat) :
    (userCells row first cols)[idx]? = cols[idx]?.map fun col =>
      ⟨col.name, col.colType.toArrow, col.cellOf (row.get (first + idx))⟩ := by
  induction cols generalizing first idx with
  | nil => rfl
  | cons col rest ih =>
    cases idx with
    | zero => rfl
    | succ idx => simp [userCells, ih, Nat.add_right_comm, Nat.add_assoc]

theorem Row.inColumns_of_validate {schema : TableSchema} {row : Row}
    (valid : row.validate schema = .ok ()) : row.inColumns schema = row := by
  have sized := (Row.validate_eq_ok.mp valid).length_eq
  suffices same : (userCells row 0 schema.columns).map FileCell.value = row.fields by
    rw [Row.inColumns, same]
  refine List.ext_getElem? fun idx => ?_
  rw [List.getElem?_map, userCells_getElem?, Nat.zero_add]
  cases found : schema.columns[idx]? with
  | none =>
    have outside := List.getElem?_eq_none_iff.mp found
    rw [List.getElem?_eq_none (by omega)]
    rfl
  | some col =>
    have inside : idx < row.fields.length := sized ▸ (List.getElem?_eq_some_iff.mp found).1
    rw [Option.map_some, Option.map_some, (Row.cellOf_get valid found).1, Row.get,
      List.getElem?_eq_getElem inside]
    rfl

namespace IcebergCatalog

/-- Each user column is the first column of its name. The projection reads the columns it finds in
the order of the file, and the writer pairs them with the fields by position. The rows are copied as
they are: operation and sequence number are internal columns, and the deletion vector is not in the
file. -/
def rewriteParquetUserColumnsOnly (file : RecordBatch) (userColNames : List String) :
    Except MeruError RecordBatch := do
  let indices := userColNames.filterMap fun name => findLeafOpt name 0 file.columns
  let fields := indices.filterMap fun idx => file.columns[idx]?
  let columns := projectColumns indices 0 file.columns
  okIf (fields.map ArrowColumn.dataType = columns.map ArrowColumn.dataType) (.iceberg "write batch")
  return ⟨file.numRows, List.zipWith (fun field column => { column with name := field.name })
    fields columns⟩

def copyDataFilesForExport (read : Nat → Option RecordBatch) (userColNames : List String) :
    List ManifestEntry → Except MeruError (List ExportedFile)
  | [] => .ok []
  | entry :: rest =>
    if entry.status = .deleted then copyDataFilesForExport read userColNames rest
    else
      match read entry.file.path with
      | none => .error (.io "No such file or directory (os error 2)")
      | some file => do
          let batch ← rewriteParquetUserColumnsOnly file userColNames
          let copied ← copyDataFilesForExport read userColNames rest
          return ⟨entry.file.path, batch⟩ :: copied

def exportToIceberg (read : Nat → Option RecordBatch) (schema : TableSchema) (manifest : Manifest) :
    Except MeruError ExportedTable := do
  let files ← copyDataFilesForExport read (schema.columns.map ColumnDef.name) manifest.entries
  return ⟨manifest.snapshotId, files⟩

section Rewrite

variable {front user : List ArrowColumn}

theorem findLeafOpt_self {columns : List ArrowColumn} {column : ArrowColumn}
    (fresh : column.name ∉ columns.map ArrowColumn.name) (first : Nat) (rest : List ArrowColumn) :
    findLeafOpt column.name first (columns ++ column :: rest) = some (first + columns.length) := by
  induction columns generalizing first with
  | nil => simp [findLeafOpt]
  | cons head tail ih =>
    rw [List.map_cons, List.mem_cons, not_or] at fresh
    rw [List.cons_append, findLeafOpt, if_neg (Ne.symm fresh.1), ih fresh.2, List.length_cons]
    congr 1
    omega

/-- With distinct names the columns behind the internal ones are found one after the other. -/
theorem userIndices (distinct : ((front ++ user).map ArrowColumn.name).Nodup) :
    (user.map ArrowColumn.name).filterMap (fun name => findLeafOpt name 0 (front ++ user)) =
      List.range' front.length user.length := by
  induction user generalizing front with
  | nil => rfl
  | cons column rest ih =>
    have fresh : column.name ∉ front.map ArrowColumn.name := by
      intro member
      rw [List.map_append] at distinct
      exact (List.nodup_append.mp distinct).2.2 _ member _ List.mem_cons_self rfl
    have later := @ih (front ++ [column]) (by simpa using distinct)
    rw [List.append_assoc, List.singleton_append, List.length_append,
      List.length_singleton] at later
    rw [List.map_cons, List.filterMap_cons, findLeafOpt_self fresh, Nat.zero_add, later]
    rfl

theorem columns_at (front user : List ArrowColumn) :
    (List.range' front.length user.length).filterMap (fun idx => (front ++ user)[idx]?) = user := by
  induction user generalizing front with
  | nil => rfl
  | cons column rest ih =>
    have later := ih (front ++ [column])
    rw [List.append_assoc, List.singleton_append, List.length_append,
      List.length_singleton] at later
    simp [List.range'_succ, later]

theorem projectColumns_behind (first : Nat) (leaves : List Nat) (front user : List ArrowColumn)
    (skipped : ∀ idx < front.length, first + idx ∉ leaves)
    (kept : ∀ idx < user.length, first + front.length + idx ∈ leaves) :
    projectColumns leaves first (front ++ user) = user := by
  induction front generalizing first with
  | nil =>
    induction user generalizing first with
    | nil => rfl
    | cons column rest ih =>
      have here := kept 0 (Nat.succ_pos _)
      rw [List.nil_append] at ih ⊢
      rw [projectColumns, if_pos (by simpa using here), ih (first + 1) (by simp)]
      intro idx inside
      have next := kept (idx + 1) (Nat.succ_lt_succ inside)
      rw [List.length_nil, Nat.add_zero] at next ⊢
      rwa [Nat.add_right_comm, Nat.add_assoc]
  | cons column rest ih =>
    have here := skipped 0 (Nat.succ_pos _)
    rw [List.cons_append, projectColumns, if_neg (by simpa using here)]
    refine ih (first + 1) (fun idx inside => ?_) fun idx inside => ?_
    · have next := skipped (idx + 1) (Nat.succ_lt_succ inside)
      rwa [Nat.add_right_comm, Nat.add_assoc]
    · have next := kept idx inside
      rw [List.length_cons] at next
      rwa [Nat.add_right_comm first 1, Nat.add_assoc first]

/-- A file whose column names are distinct is copied without the columns in front. -/
theorem rewrite_eq_ok (numRows : Nat) (distinct : ((front ++ user).map ArrowColumn.name).Nodup) :
    rewriteParquetUserColumnsOnly ⟨numRows, front ++ user⟩ (user.map ArrowColumn.name) =
      .ok ⟨numRows, user⟩ := by
  have projected : projectColumns (List.range' front.length user.length) 0 (front ++ user) =
      user := by
    refine projectColumns_behind 0 _ front user (fun idx inside => ?_) fun idx inside => ?_
    · rw [List.mem_range'_1]
      omega
    · rw [List.mem_range'_1]
      omega
  simp only [rewriteParquetUserColumnsOnly, userIndices distinct, columns_at, projected,
    List.zipWith_self, List.map_id', okIf, if_true]
  rfl

end Rewrite

section Copy

variable {postcard : RowCodec} {schema : TableSchema} {format : FileFormat} {file : DataFile}
  {batch : RecordBatch}

theorem userColumns_names (rows : List (InternalKey × Row)) (first : Nat) (cols : List ColumnDef) :
    (userColumns rows first cols).map ArrowColumn.name = cols.map ColumnDef.name := by
  induction cols generalizing first with
  | nil => rfl
  | cons col rest ih => simp [userColumns, ih]

theorem fileNames_nodup (plain : schema.PlainNames) (rows : List (InternalKey × Row)) :
    ((hiddenColumns postcard rows format ++ userColumns rows 0 schema.columns).map
      ArrowColumn.name).Nodup := by
  have hidden : (hiddenColumns postcard rows format).map ArrowColumn.name ⊆
      [ikeyColumnName, seqColumnName, opColumnName, valueBlobColumnName] := by
    cases format <;> simp [hiddenColumns, FileFormat.hasValueBlob]
  have distinct : ((hiddenColumns postcard rows format).map ArrowColumn.name).Nodup := by
    cases format <;> simp [hiddenColumns, FileFormat.hasValueBlob, ikeyColumnName, seqColumnName,
      opColumnName, valueBlobColumnName]
  rw [List.map_append, userColumns_names, List.nodup_append]
  refine ⟨distinct, plain.distinct, fun name inHidden other user => ?_⟩
  rintro rfl
  have visible := plain.visible name user
  have := hidden inHidden
  simp only [List.mem_cons, List.not_mem_nil, or_false] at this
  tauto

theorem userColumns_rows (rows : List (InternalKey × Row)) (schema : TableSchema) :
    RecordBatch.rows ⟨rows.length, userColumns rows 0 schema.columns⟩ =
      rows.map fun pair => pair.2.inColumns schema := by
  refine List.ext_getElem (by simp [RecordBatch.rows]) fun rowIdx _ inRows => ?_
  have inside : rowIdx < rows.length := by simpa using inRows
  have cells := @userColumns_cell rows _ schema.columns rowIdx 0 (List.getElem?_eq_getElem inside)
  simp only [RecordBatch.rows, List.getElem_map, List.getElem_range, Row.inColumns, ← cells,
    List.map_map]
  rfl

/-- The copy of a data file has every row of it, masked or not, and of tombstones too. -/
theorem rewrite_rows (plain : schema.PlainNames)
    (written : file.toBatch postcard schema format = .ok batch) :
    ∃ copy, rewriteParquetUserColumnsOnly batch (schema.columns.map ColumnDef.name) = .ok copy ∧
      copy.rows = file.rows.map fun entry => (storedRow entry.value).inColumns schema := by
  obtain ⟨rows, keyed, laid⟩ := Except.bind_eq_ok.mp written
  obtain ⟨rfl, _⟩ := rowsToRecordBatch_eq_ok.mp laid
  have copied := rewrite_eq_ok rows.length (@fileNames_nodup postcard schema format plain rows)
  rw [userColumns_names] at copied
  refine ⟨_, copied, ?_⟩
  rw [userColumns_rows]
  refine (map_eq_of_forall₂ (mapM_eq_ok.mp keyed) fun entry pair made => ?_).symm
  obtain ⟨_, _, same⟩ := Except.bind_eq_ok.mp made
  cases same
  rfl

theorem exportToIceberg_eq_ok {read : Nat → Option RecordBatch} {manifest : Manifest}
    {stored : DataFileMeta → List Row}
    (readable : ∀ ref ∈ manifest.live, ∃ file copy, read ref.path = some file ∧
      rewriteParquetUserColumnsOnly file (schema.columns.map ColumnDef.name) = .ok copy ∧
      copy.rows = stored ref) :
    ∃ table, exportToIceberg read schema manifest = .ok table ∧
      table.snapshotId = manifest.snapshotId ∧ table.rows = manifest.live.flatMap stored := by
  have copied : ∀ entries : List ManifestEntry,
      (∀ ref ∈ (entries.filter ManifestEntry.live).map ManifestEntry.toMeta, ∃ file copy,
        read ref.path = some file ∧
        rewriteParquetUserColumnsOnly file (schema.columns.map ColumnDef.name) = .ok copy ∧
        copy.rows = stored ref) →
      ∃ files, copyDataFilesForExport read (schema.columns.map ColumnDef.name) entries =
          .ok files ∧ (files.flatMap fun file => file.batch.rows) =
        ((entries.filter ManifestEntry.live).map ManifestEntry.toMeta).flatMap stored := by
    intro entries
    induction entries with
    | nil => intro _; exact ⟨[], rfl, rfl⟩
    | cons entry rest ih =>
      intro each
      by_cases deleted : entry.status = .deleted
      · have skipped : ¬ entry.live = true := by simp [ManifestEntry.live, deleted]
        rw [List.filter_cons_of_neg skipped] at each ⊢
        rw [copyDataFilesForExport, if_pos deleted]
        exact ih each
      · have kept : entry.live = true := by simp [ManifestEntry.live, deleted]
        rw [List.filter_cons_of_pos kept] at each ⊢
        obtain ⟨file, copy, found, rewritten, rows⟩ := each entry.toMeta List.mem_cons_self
        obtain ⟨files, others, same⟩ := ih fun ref member =>
          each ref (List.mem_cons_of_mem _ member)
        refine ⟨⟨entry.file.path, copy⟩ :: files, ?_, ?_⟩
        · have found : read entry.file.path = some file := found
          simp only [copyDataFilesForExport, if_neg deleted, found, rewritten, others]
          rfl
        · rw [List.flatMap_cons, same, rows, List.map_cons, List.flatMap_cons]
  obtain ⟨files, done, rows⟩ := copied manifest.entries readable
  refine ⟨⟨manifest.snapshotId, files⟩, ?_, rfl, rows⟩
  rw [exportToIceberg, done]
  rfl

end Copy

end IcebergCatalog

/-- The data file on disk under a path: written and not unlinked. -/
def System.dataFile? (s : System) (path : Nat) : Option DataFile :=
  if FilePath.data path ∈ s.deleted then none else s.store.find? fun file => file.path = path

/-- The columns of the data file on disk, in the format it was written in. -/
def System.fileBatch? (s : System) (postcard : RowCodec) (schema : TableSchema)
    (format : Nat → FileFormat) (path : Nat) : Option RecordBatch :=
  (s.dataFile? path).bind fun file => (file.toBatch postcard schema (format path)).toOption

end Merutable
