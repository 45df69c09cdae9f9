import Merutable.Engine.Export
import Merutable.Lsm.Exact
import Merutable.Lsm.Lineage
import Merutable.Lsm.Map

/-! The rows of an exported table against the rows of the snapshot it was made from. -/

namespace Merutable

open Foundation Compaction IcebergCatalog

/-- The records whose flush has committed. -/
def System.committed (s : System) : List WriteBatch := s.dropped ++ s.flush.covered

/-- The rows of a snapshot: of every key that is live after the records its row. -/
def snapshotRows (records : List (UserKey × EntryValue)) : List Row :=
  (records.map Prod.fst).dedup.filterMap (mapAfter records)

structure System.Exports (config : Config) (s : System) : Prop where
  base : s.Base config
  sequential : s.Sequential config
  tree : s.Tree config
  single : s.Single config

section Rows

variable {config : Config} {s t : System} {manifest : Manifest}

theorem initial_exports (config : Config) : (System.initial config).Exports config where
  base := initial_base config
  sequential := initial_sequential config
  tree := initial_tree config
  single := initial_single config

theorem System.Sequential.marksLatest (inv : s.Sequential config) (base : s.Base config)
    {action : Action} (fired : Merutable.step config s action = some t) : MarksLatest s action := by
  cases action with
  | flush action =>
    cases action with
    | resolve =>
      change flushStep config s .resolve = some t at fired
      cases flush_effect fired with
      | resolve _ _ picked => exact inv.flush_latest picked
    | _ => trivial
  | job id action =>
    cases action with
    | commit =>
      intro plan readSeq firstPath phase ref source
      have working : (s.jobs id).uncommitted? = some plan := by
        rw [phase]
        rfl
      have planned := (base.locked.planned id plan (JobPhase.plan?_of_uncommitted? working)).1
      have present := (mem_sources planned source).1
      rwa [inv.planned id plan working] at present
    | _ => trivial
  | _ => trivial

theorem System.Exports.step {action : Action} (inv : s.Exports config)
    (enabled : config.enableFlushDvEmission = true) (alone : Alone s action)
    (fired : Merutable.step config s action = some t) : t.Exports config where
  base := inv.base.step fired
  sequential := inv.sequential.step alone fired
  tree := inv.tree.step inv.base (inv.sequential.lined.dropsOwn inv.base.queued)
    (inv.sequential.installs action) fired
  single := inv.single.step enabled inv.base (inv.sequential.marksLatest inv.base fired) fired

/-- The rows an external reader is shown if it applies the deletion vectors and the tombstones. -/
def Manifest.shownPuts (manifest : Manifest) : List Entry :=
  manifest.live.flatMap fun ref => ref.liveRows.filter fun row => row.value.opType = .put

theorem mem_shownPuts {row : Entry} : row ∈ manifest.shownPuts ↔
    manifest.toVersion.Live row ∧ row.value.opType = .put := by
  simp only [Manifest.shownPuts, List.mem_flatMap, List.mem_filter, decide_eq_true_eq,
    Version.Live, Manifest.toVersion]
  constructor
  · intro found
    obtain ⟨ref, present, live, put⟩ := found
    exact ⟨⟨ref, present, live⟩, put⟩
  · intro found
    obtain ⟨⟨ref, present, live⟩, put⟩ := found
    exact ⟨ref, present, live, put⟩

theorem Version.Exact.rows_perm {batches : List WriteBatch}
    (exact : manifest.toVersion.Exact config (entriesOf batches)) :
    (manifest.shownPuts.map fun row => storedRow row.value).Perm
      (snapshotRows (batches.flatMap WriteBatch.records)) := by
  have valued : ∀ row ∈ manifest.shownPuts,
      mapAfter (batches.flatMap WriteBatch.records) row.key = some (storedRow row.value) := by
    intro row member
    obtain ⟨live, put⟩ := mem_shownPuts.mp member
    obtain ⟨entry, found, rfl⟩ := exact.sound row live
    rw [Entry.persist_opType] at put
    rw [Entry.persist_put put, mapAfter_batches, found, Option.bind_some]
    cases value : entry.value with
    | put stored => rfl
    | delete preimage =>
      rw [value] at put
      cases put
  have mapped : (manifest.shownPuts.map fun row => storedRow row.value) =
      (manifest.shownPuts.map Entry.key).filterMap
        (mapAfter (batches.flatMap WriteBatch.records)) := by
    rw [List.filterMap_map, ← List.filterMap_eq_map]
    apply List.filterMap_congr
    intro row member
    exact (valued row member).symm
  rw [mapped, snapshotRows]
  have listed : (manifest.shownPuts.map Entry.key).Nodup := by
    have shown : ((manifest.live.map DataFileMeta.liveRows).flatten.map Entry.key).Nodup :=
      exact.single.keys_nodup (fun _ present => present) exact.paths
    rw [← List.flatMap_def] at shown
    refine shown.sublist (List.Sublist.map _ ?_)
    exact List.Sublist.flatMap_right _ fun ref _ => List.filter_sublist
  refine filterMap_perm listed (List.nodup_dedup _) ?_
  intro key defined
  rw [mapAfter_batches] at defined
  obtain ⟨row, value⟩ := Option.isSome_iff_exists.mp defined
  obtain ⟨entry, found, stored⟩ := Option.bind_eq_some_iff.mp value
  obtain ⟨inRecords, keyed⟩ := newest_mem found
  have put : entry.value.opType = .put := by
    cases shape : entry.value with
    | put own => rfl
    | delete preimage =>
      rw [shape] at stored
      cases stored
  constructor
  · intro _
    obtain ⟨batch, inBatches, inBatch⟩ := mem_entriesOf.mp inRecords
    obtain ⟨record, inBatchRecords, same⟩ := List.mem_map.mp (WriteBatch.entriesFrom_key inBatch)
    rw [List.mem_dedup, ← keyed, ← same]
    exact List.mem_map_of_mem (List.mem_flatMap.mpr ⟨batch, inBatches, inBatchRecords⟩)
  · intro _
    have live := exact.complete entry (keyed ▸ found) put
    refine List.mem_map.mpr ⟨entry.persist config, mem_shownPuts.mpr ⟨live, ?_⟩, ?_⟩
    · rw [Entry.persist_opType, put]
    · rw [Entry.persist_key, keyed]

/-- No row of the data files is masked, and none is a tombstone. -/
def Manifest.Plain (manifest : Manifest) : Prop :=
  ∀ ref ∈ manifest.live, ∀ (position : Nat) (row : Entry), ref.file.rows[position]? = some row →
    position ∉ ref.deletedRows ∧ row.value.opType = .put

theorem Manifest.plain_iff (manifest : Manifest) : manifest.Plain ↔ ∀ ref ∈ manifest.live,
    (ref.liveRows.filter fun row => row.value.opType = .put) = ref.file.rows := by
  constructor
  · intro plain ref present
    have whole : ref.liveRows = ref.file.rows := by
      refine liveFrom_self ?_
      intro index inside
      rw [Nat.zero_add]
      exact (plain ref present index _ (List.getElem?_eq_getElem inside)).1
    rw [whole]
    apply List.filter_eq_self.mpr
    intro row member
    obtain ⟨position, inside, rfl⟩ := List.mem_iff_getElem.mp member
    exact decide_eq_true (plain ref present position _ (List.getElem?_eq_getElem inside)).2
  · intro whole ref present position row found
    have same := whole ref present
    have kept : ref.liveRows = ref.file.rows := by
      refine ref.liveRows_sublist.eq_of_length (Nat.le_antisymm ref.liveRows_sublist.length_le ?_)
      calc ref.file.rows.length
          = (ref.liveRows.filter fun row => row.value.opType = .put).length := by rw [same]
        _ ≤ ref.liveRows.length := List.length_filter_le _ _
    obtain ⟨inside, _⟩ := List.getElem?_eq_some_iff.mp found
    constructor
    · have unmasked := liveFrom_eq_self kept position inside
      rwa [Nat.zero_add] at unmasked
    · have member := List.mem_of_getElem? found
      rw [← same] at member
      exact of_decide_eq_true (List.mem_filter.mp member).2

theorem System.Traced.dataFile (inv : s.Traced config) {ref : DataFileMeta}
    (present : ref ∈ s.catalog.current.live) : s.dataFile? ref.path = some ref.file := by
  have kept : ¬ FilePath.data ref.path ∈ s.deleted := by
    intro deleted
    exact (inv.gone _ (.inr (.inr deleted))).removed (List.mem_map_of_mem present)
  have tracked := inv.base.stored.tracked ref present
  rw [System.dataFile?, if_neg kept]
  cases found : s.store.find? fun file => file.path = ref.path with
  | none =>
    have absent := List.find?_eq_none.mp found ref.file tracked
    exact absurd (decide_eq_true (rfl : ref.file.path = ref.path)) absent
  | some file =>
    have same : file.path = ref.path := by simpa using List.find?_some found
    rw [inv.base.stored.eq_of_path (List.mem_of_find?_eq_some found) tracked same]

theorem System.Traced.export_rows {postcard : RowCodec} {schema : TableSchema}
    {format : Nat → FileFormat} (inv : s.Traced config) (names : schema.PlainNames)
    (written : ∀ file ∈ s.store, (file.toBatch postcard schema (format file.path)).isOk = true) :
    ∃ table, exportToIceberg (s.fileBatch? postcard schema format) schema s.catalog.current =
        .ok table ∧ table.snapshotId = s.catalog.current.snapshotId ∧
      table.rows = (s.catalog.current.live.flatMap fun ref => ref.file.rows).map fun entry =>
        (storedRow entry.value).inColumns schema := by
  rw [List.map_flatMap]
  apply exportToIceberg_eq_ok
  intro ref present
  have laid := written ref.file (inv.base.stored.tracked ref present)
  cases made : ref.file.toBatch postcard schema (format ref.path) with
  | error error =>
    change (ref.file.toBatch postcard schema (format ref.path)).isOk = true at laid
    rw [made] at laid
    cases laid
  | ok batch =>
    obtain ⟨copy, rewritten, rows⟩ := rewrite_rows names made
    refine ⟨batch, copy, ?_, rewritten, rows⟩
    rw [System.fileBatch?, inv.dataFile present, Option.bind_some, made]
    rfl

/-- A row that is shown holds the row of a committed put. -/
theorem Version.Exact.row_valid {schema : TableSchema} {batches : List WriteBatch}
    (exact : manifest.toVersion.Exact config (entriesOf batches))
    (valid : ∀ entry ∈ entriesOf batches, ∀ row, entry.value = .put row →
      row.validate schema = .ok ())
    {row : Entry} (shown : row ∈ manifest.shownPuts) :
    (storedRow row.value).inColumns schema = storedRow row.value := by
  obtain ⟨live, put⟩ := mem_shownPuts.mp shown
  obtain ⟨entry, found, rfl⟩ := exact.sound row live
  rw [Entry.persist_opType] at put
  rw [Entry.persist_put put]
  cases value : entry.value with
  | put stored => exact Row.inColumns_of_validate (valid entry (newest_mem found).1 stored value)
  | delete preimage =>
    rw [value] at put
    cases put

end Rows

/-- The export of a table whose operations were executed one at a time lists the rows of the
exported snapshot exactly when no row of its data files is masked or a tombstone. The names of the
columns are plain, the rows are valid, and every data file could be written. -/
theorem exported_rows_exact_iff (config : Config) (enabled : config.enableFlushDvEmission = true)
    (postcard : RowCodec) (schema : TableSchema) (names : schema.PlainNames)
    (format : Nat → FileFormat) (actions : List Action) (s : System)
    (run : Run (step config) Alone (.initial config) actions s)
    (written : ∀ file ∈ s.store, (file.toBatch postcard schema (format file.path)).isOk = true)
    (valid : ∀ entry ∈ entriesOf s.committed, ∀ row, entry.value = .put row →
      row.validate schema = .ok ()) :
    ∃ table, exportToIceberg (s.fileBatch? postcard schema format) schema s.catalog.current =
        .ok table ∧ table.snapshotId = s.catalog.current.snapshotId ∧
      (table.rows.Perm (snapshotRows (s.committed.flatMap WriteBatch.records)) ↔
        s.catalog.current.Plain) := by
  have inv := run.invariant (fun s => s.Exports config)
    (fun s action t inv met fired => inv.step enabled met fired) (initial_exports config)
  have exact := inv.tree.current.exact inv.single.live
  have perm : (s.catalog.current.shownPuts.map fun row => storedRow row.value).Perm
      (snapshotRows (s.committed.flatMap WriteBatch.records)) := exact.rows_perm
  obtain ⟨table, exported, snapshot, rows⟩ := (traced_of_run run).export_rows names written
  refine ⟨table, exported, snapshot, ?_⟩
  rw [rows, Manifest.plain_iff]
  constructor
  · intro exported
    refine eq_of_flatMap_length (fun ref _ => List.filter_sublist.trans ref.liveRows_sublist) ?_
    have sized := (exported.trans perm.symm).length_eq
    rw [List.length_map, List.length_map] at sized
    exact sized.symm
  · intro whole
    have same : s.catalog.current.shownPuts =
        s.catalog.current.live.flatMap fun ref => ref.file.rows := List.flatMap_congr whole
    rw [← same, List.map_congr_left fun row shown => exact.row_valid valid shown]
    exact perm

namespace Export.Sample

/-- A key column of one byte and a value column. -/
def schema : TableSchema where
  tableName := "t"
  columns := [⟨"id", .fixedLenByteArray 1, false, some 1, none, none⟩,
    ⟨"value", .byteArray, true, some 2, none, none⟩]
  primaryKey := [0]
  schemaId := 0
  lastColumnId := 2

def row (id value : UInt8) : Row := ⟨[some (.bytes [id]), some (.bytes [value])]⟩

def put (id value : UInt8) : UserKey × EntryValue := (.ofByte id, .put (row id value))

def format (_ : Nat) : FileFormat := .columnar

/-- Two keys are put and flushed in one file. -/
def flushedOnce : List Action :=
  Calls.write [put 1 1, put 2 2] ++ Calls.invalidate 2 ++ Calls.rotate ++ Calls.runFlush

/-- A key is put and flushed, overwritten and flushed again. -/
def flushedTwice : List Action :=
  Calls.write [put 1 1] ++ Calls.invalidate 1 ++ Calls.rotate ++ Calls.runFlush ++
    Calls.write [put 1 2] ++ Calls.invalidate 1 ++ Calls.rotate ++ Calls.runFlush

end Export.Sample

open Export.Sample in
theorem exported_rows_exact_flushed :
    let s := finalPlain flushedOnce
    ∃ table, exportToIceberg (s.fileBatch? .tagged schema format) schema s.catalog.current =
        .ok table ∧ table.rows.Perm [row 1 1, row 2 2] := by
  intro s
  obtain ⟨run, _⟩ := @inTurn_of_check .plain flushedOnce (by decide +kernel)
  have valid : ∀ entry ∈ entriesOf s.committed, ∀ row, entry.value = .put row →
      row.validate schema = .ok () := by
    have all : ∀ entry ∈ entriesOf s.committed,
        (storedRow entry.value).validate schema = .ok () := by decide +kernel
    intro entry member row put
    have own := all entry member
    rwa [put] at own
  obtain ⟨table, exported, _, same⟩ := exported_rows_exact_iff .plain rfl .tagged schema
    ⟨by decide, by decide⟩ format flushedOnce s (run.mono fun _ _ _ met => met.1)
    (by decide +kernel) valid
  have plain : s.catalog.current.Plain := (Manifest.plain_iff _).mpr (by decide +kernel)
  have rows : snapshotRows (s.committed.flatMap WriteBatch.records) = [row 1 1, row 2 2] := by
    decide +kernel
  exact ⟨table, exported, rows ▸ same.mpr plain⟩

open Export.Sample in
/-- The export has the superseded row beside the newest one. -/
theorem exported_rows_superseded : ∃ s table, runFrom .plain flushedTwice = some s ∧
    exportToIceberg (s.fileBatch? .tagged schema format) schema s.catalog.current = .ok table ∧
    table.rows = [row 1 1, row 1 2] ∧
    snapshotRows (s.committed.flatMap WriteBatch.records) = [row 1 2] ∧
    ¬ table.rows.Perm (snapshotRows (s.committed.flatMap WriteBatch.records)) := by
  let column (name : String) (type : ColumnType) (value : UInt8) : ArrowColumn :=
    ⟨name, type.toArrow, [some (.bytes [value])]⟩
  let copy (value : UInt8) : RecordBatch :=
    ⟨1, [column "id" (.fixedLenByteArray 1) 1, column "value" .byteArray value]⟩
  refine ⟨finalPlain flushedTwice, ⟨2, [⟨0, copy 1⟩, ⟨1, copy 2⟩]⟩,
    execute_final (by decide +kernel), by decide +kernel, rfl, by decide +kernel, by decide +kernel⟩

-- A column named like an internal one: the export has the sequence number in its place.
example : rewriteParquetUserColumnsOnly ⟨1, [⟨seqColumnName, .int64, [some (.int64 7)]⟩,
      ⟨seqColumnName, .int64, [some (.int64 1)]⟩]⟩ [seqColumnName] =
    .ok ⟨1, [⟨seqColumnName, .int64, [some (.int64 7)]⟩]⟩ := by decide

end Merutable
