import Mathlib.Data.Finmap
import Merutable.Codec
import Merutable.Iceberg.Puffin

/-! The native manifest with all it stores, and the transaction that makes the next one:
`iceberg::manifest`, `iceberg::snapshot` and `types::level`. -/

namespace Merutable.Iceberg

/-- A path of the store by its components. -/
structure FilePath where
  parent : List String
  name : String
  deriving DecidableEq

def FilePath.text (path : FilePath) : String := "/".intercalate (path.parent ++ [path.name])

abbrev Properties := Finmap fun _ : String => String

structure ColumnStats where
  fieldId : Int
  compressedBytes : UInt64
  valueCount : UInt64
  nullCount : UInt64
  lowerBound : Option Bytes
  upperBound : Option Bytes
  deriving DecidableEq

structure ParquetFileMeta where
  level : UInt8
  seqMin : UInt64
  seqMax : UInt64
  keyMin : Bytes
  keyMax : Bytes
  numRows : UInt64
  fileSize : UInt64
  dvPath : Option FilePath
  dvOffset : Option Int
  dvLength : Option Int
  format : Option FileFormat
  columnStats : Option (List ColumnStats)
  deriving DecidableEq

structure DvLocation where
  dvPath : FilePath
  dvOffset : Int
  dvLength : Int
  deriving DecidableEq

structure ManifestEntry where
  path : FilePath
  fileMeta : ParquetFileMeta
  dvPath : Option FilePath
  dvOffset : Option Int
  dvLength : Option Int
  status : String
  firstRowId : Option Int
  deriving DecidableEq

structure Manifest where
  formatVersion : Int32
  tableUuid : String
  lastUpdatedMs : Int
  snapshotId : Int
  parentSnapshotId : Option Int
  sequenceNumber : Int
  nextRowId : Int
  firstRowId : Int
  schema : TableSchema
  entries : List ManifestEntry
  properties : Properties
  deriving DecidableEq

structure IcebergDataFile where
  path : FilePath
  fileSize : UInt64
  numRows : UInt64
  fileMeta : ParquetFileMeta

/-- One atomic change of the table. The vectors are listed in the order the map is iterated in. -/
structure SnapshotTransaction where
  adds : List IcebergDataFile
  removes : List FilePath
  dvs : List (FilePath × Finset UInt32)
  props : Properties
  keyed : (dvs.map Prod.fst).Nodup

/-- What a new manifest takes from outside: the clock, and an identifier for a table without one. -/
structure Stamp where
  nowMs : Int
  newUuid : String

/-- `as i64` of a `u64`. -/
def asI64 (n : UInt64) : Int := n.toBitVec.toInt

theorem asI64_of_lt {n : UInt64} (small : n.toNat < 2 ^ 63) : asI64 n = n.toNat := by
  unfold asI64
  rw [BitVec.toInt_eq_toNat_of_lt (by rw [UInt64.toNat_toBitVec]; omega), UInt64.toNat_toBitVec]

/-- An `i64` addition; a build without overflow checks wraps around. -/
def addI64 (checked : Bool) (a b : Int) : Except MeruError Int := do
  okIf (checked = true → -2 ^ 63 ≤ a + b ∧ a + b < 2 ^ 63) .panicked
  return (a + b).bmod (2 ^ 64)

variable {a b sum : Int}

theorem addI64_checked (added : addI64 true a b = .ok sum) : sum = a + b := by
  simp only [addI64, Except.seq_eq_ok, okIf_eq_ok] at added
  obtain ⟨inside, value⟩ := added
  have bounds := inside trivial
  rw [← Except.ok.inj value]
  exact Int.bmod_eq_of_le (by omega) (by omega)

theorem addI64_unchecked {checked : Bool} (added : addI64 true a b = .ok sum) :
    addI64 checked a b = .ok sum := by
  simp only [addI64, Except.seq_eq_ok, okIf_eq_ok] at added ⊢
  exact ⟨fun _ => added.1 trivial, added.2⟩

def SnapshotTransaction.paths (txn : SnapshotTransaction) : List FilePath := txn.dvs.map Prod.fst

namespace ManifestEntry

def live (entry : ManifestEntry) : Bool := entry.status ≠ "deleted"

/-- The entry pointing at a new vector, in its own fields and in the file's metadata. -/
def setVector (entry : ManifestEntry) (location : DvLocation) : ManifestEntry :=
  { entry with
    dvPath := some location.dvPath
    dvOffset := some location.dvOffset
    dvLength := some location.dvLength
    fileMeta := { entry.fileMeta with
      dvPath := some location.dvPath
      dvOffset := some location.dvOffset
      dvLength := some location.dvLength } }

end ManifestEntry

namespace Manifest

def empty (schema : TableSchema) (stamp : Stamp) : Manifest where
  formatVersion := 3
  tableUuid := stamp.newUuid
  lastUpdatedMs := stamp.nowMs
  snapshotId := 0
  parentSnapshotId := none
  sequenceNumber := 0
  nextRowId := 0
  firstRowId := 0
  schema := schema
  entries := []
  properties := ∅

/-- The entries that the transaction does not drop. -/
def kept (manifest : Manifest) (txn : SnapshotTransaction) : List ManifestEntry :=
  manifest.entries.filter fun entry => entry.live ∧ entry.path ∉ txn.removes

/-- The lookup of a file with a vector in the transaction always succeeds: `apply` has checked
it. -/
def stampVector (txn : SnapshotTransaction) (locations : List (FilePath × DvLocation))
    (entry : ManifestEntry) : ManifestEntry :=
  if entry.path ∈ txn.paths then
    match locations.lookup entry.path with
    | some location => entry.setVector location
    | none => entry
  else entry

/-- Row lineage for carried entries that predate it. -/
def inheritRowIds (checked : Bool) :
    Int → List ManifestEntry → Except MeruError (List ManifestEntry × Int)
  | cursor, [] => .ok ([], cursor)
  | cursor, entry :: rest => do
      match entry.firstRowId with
      | some _ =>
        let (entries, last) ← inheritRowIds checked cursor rest
        return (entry :: entries, last)
      | none =>
        let next ← addI64 checked cursor (asI64 entry.fileMeta.numRows)
        let (entries, last) ← inheritRowIds checked next rest
        return ({ entry with firstRowId := some cursor } :: entries, last)

def addedEntry (cursor : Int) (add : IcebergDataFile) : ManifestEntry where
  path := add.path
  fileMeta := add.fileMeta
  dvPath := none
  dvOffset := none
  dvLength := none
  status := "added"
  firstRowId := some cursor

def addFiles (checked : Bool) :
    Int → List IcebergDataFile → Except MeruError (List ManifestEntry × Int)
  | cursor, [] => .ok ([], cursor)
  | cursor, add :: rest => do
      let next ← addI64 checked cursor (asI64 add.numRows)
      let (entries, last) ← addFiles checked next rest
      return (addedEntry cursor add :: entries, last)

/-- The first file with a vector that fails a test decides the error. -/
def checkVectors (txn : SnapshotTransaction) (bad : FilePath → Bool) (message : FilePath → String) :
    Except MeruError Unit :=
  match txn.paths.find? bad with
  | some path => .error (.iceberg (message path))
  | none => .ok ()

def missingLocation (path : FilePath) : String :=
  s!"apply: DV for '{path.text}' missing from dv_locations — commit path must upload the puffin " ++
    "file and record its blob_offset/blob_length before applying"

def removedWithVector (path : FilePath) : String :=
  s!"apply: transaction both adds DV and removes file '{path.text}' — this is a conflict; retry " ++
    "against the current manifest"

def apply (manifest : Manifest) (checked : Bool) (stamp : Stamp) (txn : SnapshotTransaction)
    (newSnapshotId : Int) (locations : List (FilePath × DvLocation)) :
    Except MeruError Manifest := do
  checkVectors txn (fun path => (locations.lookup path).isNone) missingLocation
  checkVectors txn (fun path => path ∈ txn.removes) removedWithVector
  let carried := (manifest.kept txn).map (stampVector txn locations)
  let (inherited, cursor) ← inheritRowIds checked manifest.nextRowId carried
  let (added, last) ← addFiles checked cursor txn.adds
  let sequenceNumber ← addI64 checked manifest.sequenceNumber 1
  return {
    formatVersion := manifest.formatVersion
    tableUuid := if manifest.tableUuid = "" then stamp.newUuid else manifest.tableUuid
    lastUpdatedMs := stamp.nowMs
    snapshotId := newSnapshotId
    parentSnapshotId := if manifest.snapshotId = 0 then none else some manifest.snapshotId
    sequenceNumber := sequenceNumber
    nextRowId := last
    firstRowId := manifest.nextRowId
    schema := manifest.schema
    entries := inherited ++ added
    properties := txn.props ∪ manifest.properties }

/-- A carried entry keeps everything and gets row ids if it had none. -/
structure Inherits (old new : ManifestEntry) : Prop where
  same : new = { old with firstRowId := new.firstRowId }
  kept : ∀ id, old.firstRowId = some id → new.firstRowId = some id
  numbered : new.firstRowId.isSome

variable {cursor last : Int} {result : List ManifestEntry × Int} {adds : List IcebergDataFile}

theorem inheritRowIds_inherits {checked : Bool} {olds news : List ManifestEntry}
    (inherited : inheritRowIds checked cursor olds = .ok (news, last)) :
    List.Forall₂ Inherits olds news := by
  induction olds generalizing cursor news with
  | nil =>
    cases inherited
    exact .nil
  | cons old olds ih =>
    cases known : old.firstRowId with
    | some id =>
      simp only [inheritRowIds, known, Except.bind_eq_ok] at inherited
      obtain ⟨⟨rest, _⟩, later, value⟩ := inherited
      cases value
      exact .cons ⟨rfl, fun _ same => same, by simp [known]⟩ (ih later)
    | none =>
      simp only [inheritRowIds, known, Except.bind_eq_ok] at inherited
      obtain ⟨_, _, ⟨rest, _⟩, later, value⟩ := inherited
      cases value
      exact .cons ⟨rfl, fun id assigned => by simp [known] at assigned, rfl⟩ (ih later)

theorem inheritRowIds_unchecked {checked : Bool} {cursor : Int} {olds : List ManifestEntry}
    (inherited : inheritRowIds true cursor olds = .ok result) :
    inheritRowIds checked cursor olds = .ok result := by
  induction olds generalizing cursor result with
  | nil => exact inherited
  | cons old olds ih =>
    cases known : old.firstRowId with
    | some id =>
      simp only [inheritRowIds, known, Except.bind_eq_ok] at inherited ⊢
      obtain ⟨rest, later, value⟩ := inherited
      exact ⟨rest, ih later, value⟩
    | none =>
      simp only [inheritRowIds, known, Except.bind_eq_ok] at inherited ⊢
      obtain ⟨next, added, rest, later, value⟩ := inherited
      exact ⟨next, addI64_unchecked added, rest, ih later, value⟩

theorem addFiles_unchecked {checked : Bool} {cursor : Int}
    (added : addFiles true cursor adds = .ok result) :
    addFiles checked cursor adds = .ok result := by
  induction adds generalizing cursor result with
  | nil => exact added
  | cons add adds ih =>
    simp only [addFiles, Except.bind_eq_ok] at added ⊢
    obtain ⟨next, here, rest, later, value⟩ := added
    exact ⟨next, addI64_unchecked here, rest, ih later, value⟩

theorem addFiles_entries {checked : Bool} {added : List ManifestEntry}
    (done : addFiles checked cursor adds = .ok (added, last)) :
    List.Forall₂ (fun add entry => ∃ id, entry = addedEntry id add) adds added := by
  induction adds generalizing cursor added with
  | nil =>
    cases done
    exact .nil
  | cons add adds ih =>
    simp only [addFiles, Except.bind_eq_ok] at done
    obtain ⟨_, _, ⟨rest, _⟩, later, value⟩ := done
    cases value
    exact .cons ⟨cursor, rfl⟩ (ih later)

theorem checkVectors_eq_ok {txn : SnapshotTransaction} {bad : FilePath → Bool}
    {message : FilePath → String} :
    checkVectors txn bad message = .ok () ↔ ∀ path ∈ txn.paths, bad path = false := by
  unfold checkVectors
  split
  · rename_i path found
    simp only [reduceCtorEq, false_iff, not_forall]
    exact ⟨path, List.mem_of_find?_eq_some found, by simp [List.find?_some found]⟩
  · rename_i absent
    simpa using absent

/-- What a successful `apply` has checked and done. -/
structure Applied (manifest : Manifest) (checked : Bool) (txn : SnapshotTransaction)
    (locations : List (FilePath × DvLocation)) (next : Manifest) : Prop where
  located : ∀ path ∈ txn.paths, (locations.lookup path).isSome
  unremoved : ∀ path ∈ txn.paths, path ∉ txn.removes
  entries : ∃ inherited cursor added,
    inheritRowIds checked manifest.nextRowId ((manifest.kept txn).map (stampVector txn locations)) =
      .ok (inherited, cursor) ∧
    addFiles checked cursor txn.adds = .ok (added, next.nextRowId) ∧
    next.entries = inherited ++ added
  sequenceNumber : addI64 checked manifest.sequenceNumber 1 = .ok next.sequenceNumber

variable {manifest next : Manifest} {checked : Bool} {stamp : Stamp} {txn : SnapshotTransaction}
  {newSnapshotId : Int} {locations : List (FilePath × DvLocation)}

theorem apply_eq_ok (done : manifest.apply checked stamp txn newSnapshotId locations = .ok next) :
    Applied manifest checked txn locations next := by
  simp only [apply, Except.bind_eq_ok] at done
  obtain ⟨_, located, _, unremoved, ⟨inherited, cursor⟩, carried, ⟨added, last⟩, adds, number,
    counted, value⟩ := done
  cases value
  refine ⟨fun path member => ?_, fun path member => ?_, ?_, counted⟩
  · simpa using checkVectors_eq_ok.mp located path member
  · simpa using checkVectors_eq_ok.mp unremoved path member
  · exact ⟨inherited, cursor, added, carried, adds, rfl⟩

theorem Applied.parts (applied : Applied manifest checked txn locations next) :
    ∃ inherited added, next.entries = inherited ++ added ∧
      List.Forall₂ (fun old new => Inherits (stampVector txn locations old) new) (manifest.kept txn)
        inherited ∧
      List.Forall₂ (fun add entry => ∃ id, entry = addedEntry id add) txn.adds added := by
  obtain ⟨inherited, cursor, added, carried, adds, whole⟩ := applied.entries
  exact ⟨inherited, added, whole,
    List.forall₂_map_left_iff.mp (inheritRowIds_inherits carried), addFiles_entries adds⟩

@[simp] theorem stampVector_firstRowId (entry : ManifestEntry) :
    (stampVector txn locations entry).firstRowId = entry.firstRowId := by
  unfold stampVector
  split
  · split <;> rfl
  · rfl

@[simp] theorem stampVector_path (entry : ManifestEntry) :
    (stampVector txn locations entry).path = entry.path := by
  unfold stampVector
  split
  · split <;> rfl
  · rfl

@[simp] theorem stampVector_numRows (entry : ManifestEntry) :
    (stampVector txn locations entry).fileMeta.numRows = entry.fileMeta.numRows := by
  unfold stampVector
  split
  · split <;> rfl
  · rfl

theorem apply_unchecked (done : manifest.apply true stamp txn newSnapshotId locations = .ok next) :
    manifest.apply checked stamp txn newSnapshotId locations = .ok next := by
  simp only [apply, Except.bind_eq_ok] at done ⊢
  obtain ⟨_, located, _, unremoved, inherited, carried, added, adds, number, counted, value⟩ := done
  exact ⟨_, located, _, unremoved, inherited, inheritRowIds_unchecked carried, added,
    addFiles_unchecked adds, number, addI64_unchecked counted, value⟩

end Manifest

namespace Sample

def column : ColumnDef := ⟨"k", .int64, false, none, none, none⟩

def schema : TableSchema := ⟨"t", [column], [0], 0, 1⟩

def fileMeta (rows : UInt64) : ParquetFileMeta where
  level := 0
  seqMin := 1
  seqMax := 1
  keyMin := [1]
  keyMax := [1]
  numRows := rows
  fileSize := 64
  dvPath := none
  dvOffset := none
  dvLength := none
  format := none
  columnStats := none

def file (name : String) : FilePath := ⟨["data", "L0"], name⟩

def add (name : String) (rows : UInt64) : IcebergDataFile := ⟨file name, 64, rows, fileMeta rows⟩

def stamp : Stamp := ⟨7, "u"⟩

end Sample

end Merutable.Iceberg
