import Merutable.Parquet

/-! Manifests, versions and the catalog commit as the engine sees them: `iceberg::manifest`,
`iceberg::version`, `iceberg::snapshot` and `iceberg::catalog` with the rows of the data files and
the contents of the deletion vectors in place of paths and coordinates. The stored manifest, with
its row lineage, is `Iceberg.Manifest`, and `Iceberg.commit_represents` relates the two. -/

namespace Merutable

/-- A deletion vector, stored in the Puffin file named after the data file and the snapshot. -/
structure DeletionVector where
  path : Nat × Nat
  bitmap : Finset Nat
  deriving DecidableEq

/-- A data file as one snapshot refers to it. -/
structure DataFileMeta where
  file : DataFile
  dv : Option DeletionVector
  deriving DecidableEq

namespace DataFileMeta

def path (ref : DataFileMeta) : Nat := ref.file.path

def level (ref : DataFileMeta) : Nat := ref.file.level

def deletedRows (ref : DataFileMeta) : Finset Nat := (ref.dv.map DeletionVector.bitmap).getD ∅

/-- The rows a reader of this snapshot is shown. -/
def liveRows (ref : DataFileMeta) : List Entry := liveFrom ref.deletedRows 0 ref.file.rows

theorem mem_liveRows {ref : DataFileMeta} {row : Entry} : row ∈ ref.liveRows ↔
    ∃ position, ref.file.rows[position]? = some row ∧ position ∉ ref.deletedRows := by
  simp [liveRows, mem_liveFrom]

theorem liveRows_sublist (ref : DataFileMeta) : ref.liveRows.Sublist ref.file.rows :=
  liveFrom_sublist _ _ _

theorem liveRows_none (file : DataFile) : liveRows ⟨file, none⟩ = file.rows := by
  have general : ∀ (rows : List Entry) (first : Nat), liveFrom ∅ first rows = rows := by
    intro rows
    induction rows with
    | nil => intro first; rfl
    | cons row rest ih => intro first; simp [liveFrom, ih]
  exact general file.rows 0

end DataFileMeta

/-- The files of one snapshot. The source keeps them in a map from level to list; `filesAt` is the
list found there. -/
structure Version where
  snapshotId : Nat
  files : List DataFileMeta
  deriving DecidableEq

namespace Version

/-- Level 0 newest first, the other levels by their smallest key. -/
def filesAt (version : Version) (level : Nat) : List DataFileMeta :=
  let files := version.files.filter fun ref => ref.level = level
  if level = 0 then files.insertionSort fun a b => b.file.seqMax ≤ a.file.seqMax
  else files.insertionSort fun a b => a.file.keyMin ≤ b.file.keyMin

def maxLevel (version : Version) : Nat :=
  version.files.foldl (fun most ref => max most ref.level) 0

def maxSeq (version : Version) : Nat := (version.files.map fun ref => ref.file.seqMax).foldl max 0

/-- The candidate is the last file that does not start above the key. -/
def findFileForKey (version : Version) (level : Nat) (key : UserKey) : Option DataFileMeta :=
  match ((version.filesAt level).takeWhile fun ref => ref.file.keyMin ≤ key.bytes).getLast? with
  | some candidate => if key.bytes ≤ candidate.file.keyMax then some candidate else none
  | none => none

variable {version : Version} {ref : DataFileMeta}

theorem mem_filesAt {level : Nat} :
    ref ∈ version.filesAt level ↔ ref ∈ version.files ∧ ref.level = level := by
  unfold filesAt
  dsimp only
  split <;> rw [List.mem_insertionSort] <;> simp

theorem filesAt_paths (unique : (version.files.map DataFileMeta.path).Nodup) (level : Nat) :
    ((version.filesAt level).map DataFileMeta.path).Nodup := by
  have kept : ((version.files.filter fun ref => ref.level = level).map DataFileMeta.path).Nodup :=
    unique.sublist (List.filter_sublist.map _)
  unfold filesAt
  dsimp only
  split
  · exact ((List.perm_insertionSort _ _).map _).nodup_iff.mpr kept
  · exact ((List.perm_insertionSort _ _).map _).nodup_iff.mpr kept

theorem level_le_maxLevel (present : ref ∈ version.files) :
    ref.level ≤ version.maxLevel :=
  (Foundation.foldl_max_spec DataFileMeta.level version.files 0).2.1 ref present

end Version

inductive EntryStatus where
  | existing
  | added
  | deleted
  deriving DecidableEq

structure ManifestEntry where
  file : DataFile
  dv : Option DeletionVector
  status : EntryStatus
  deriving DecidableEq

structure Manifest where
  snapshotId : Nat
  parentSnapshotId : Option Nat
  sequenceNumber : Nat
  entries : List ManifestEntry
  deriving DecidableEq

structure SnapshotTransaction where
  adds : List DataFile
  removes : List Nat
  dvs : List (Nat × Finset Nat)

/-- A second vector for the same file is united with the first. -/
def SnapshotTransaction.addDv {P R : Type} [DecidableEq P] [DecidableEq R] :
    List (P × Finset R) → P → Finset R → List (P × Finset R)
  | [], path, bitmap => [(path, bitmap)]
  | (known, old) :: rest, path, bitmap =>
    if known = path then (known, old ∪ bitmap) :: rest
    else (known, old) :: addDv rest path bitmap

inductive IcebergError where
  | missingLocation (path : Nat)
  | conflict (path : Nat)
  deriving DecidableEq

namespace ManifestEntry

def toMeta (entry : ManifestEntry) : DataFileMeta := ⟨entry.file, entry.dv⟩

def live (entry : ManifestEntry) : Bool := entry.status ≠ .deleted

end ManifestEntry

namespace Manifest

def empty : Manifest := ⟨0, none, 0, []⟩

/-- The data files of the snapshot, in manifest order. -/
def live (manifest : Manifest) : List DataFileMeta :=
  (manifest.entries.filter ManifestEntry.live).map ManifestEntry.toMeta

def toVersion (manifest : Manifest) : Version := ⟨manifest.snapshotId, manifest.live⟩

/-- The entry with the new location of its deletion vector, if the transaction has one for it. -/
def stampDv (locations : List (Nat × DeletionVector)) (entry : ManifestEntry) : ManifestEntry :=
  match locations.lookup entry.file.path with
  | some dv => { entry with dv := some dv }
  | none => entry

def apply (manifest : Manifest) (txn : SnapshotTransaction) (newSnapshotId : Nat)
    (dvLocations : List (Nat × DeletionVector)) : Except IcebergError Manifest :=
  match txn.dvs.find? fun dv => (dvLocations.lookup dv.1).isNone with
  | some (path, _) => .error (.missingLocation path)
  | none =>
    match txn.dvs.find? fun dv => dv.1 ∈ txn.removes with
    | some (path, _) => .error (.conflict path)
    | none =>
      let carried := (manifest.entries.filter fun entry =>
        entry.live ∧ entry.file.path ∉ txn.removes).map (stampDv dvLocations)
      .ok {
        snapshotId := newSnapshotId
        parentSnapshotId := if manifest.snapshotId = 0 then none else some manifest.snapshotId
        sequenceNumber := manifest.sequenceNumber + 1
        entries := carried ++ txn.adds.map fun file => ⟨file, none, .added⟩ }

@[simp] theorem stampDv_live (locations : List (Nat × DeletionVector)) (entry : ManifestEntry) :
    (stampDv locations entry).live = entry.live := by
  unfold stampDv
  split <;> rfl

theorem apply_ok {manifest next : Manifest} {txn : SnapshotTransaction} {newSnapshotId : Nat}
    {dvLocations : List (Nat × DeletionVector)}
    (applied : manifest.apply txn newSnapshotId dvLocations = .ok next) :
    next.snapshotId = newSnapshotId ∧
      next.live = ((manifest.entries.filter fun entry =>
          entry.live ∧ entry.file.path ∉ txn.removes).map fun entry =>
            (stampDv dvLocations entry).toMeta) ++ txn.adds.map fun file => ⟨file, none⟩ := by
  unfold apply at applied
  split at applied
  · cases applied
  · split at applied <;> cases applied
    refine ⟨rfl, ?_⟩
    have added : (txn.adds.map fun file => (⟨file, none, .added⟩ : ManifestEntry)).filter
        ManifestEntry.live = txn.adds.map fun file => ⟨file, none, .added⟩ := by
      simp [ManifestEntry.live]
    rw [live, List.filter_append, List.map_append, added, List.filter_map, List.filter_filter,
      List.map_map, List.map_map]
    congr 2
    apply List.filter_congr
    intro entry _
    simp

end Manifest

/-- The catalog: the latest committed manifest and the id of the next snapshot. -/
structure Catalog where
  current : Manifest
  nextVersion : Nat
  deriving DecidableEq

namespace Catalog

def empty : Catalog := ⟨Manifest.empty, 1⟩

/-- The deletion vector already recorded for the path. -/
def existingDv (manifest : Manifest) (path : Nat) : Finset Nat :=
  match manifest.entries.find? fun entry => entry.live ∧ entry.file.path = path with
  | some entry => entry.toMeta.deletedRows
  | none => ∅

/-- The Puffin files of the commit: each new vector united with the one already recorded. -/
def dvLocations (manifest : Manifest) (newSnapshotId : Nat) (dvs : List (Nat × Finset Nat)) :
    List (Nat × DeletionVector) :=
  dvs.map fun dv => (dv.1, ⟨(dv.1, newSnapshotId), existingDv manifest dv.1 ∪ dv.2⟩)

def commit (catalog : Catalog) (txn : SnapshotTransaction) :
    Except IcebergError (Catalog × Version) :=
  match catalog.current.apply txn catalog.nextVersion
      (dvLocations catalog.current catalog.nextVersion txn.dvs) with
  | .ok manifest => .ok (⟨manifest, catalog.nextVersion + 1⟩, manifest.toVersion)
  | .error error => .error error

/-- What a committed transaction does to a file it keeps. -/
def restamp (dvs : List (Nat × Finset Nat)) (newSnapshotId : Nat) (ref : DataFileMeta) :
    DataFileMeta :=
  match dvs.lookup ref.path with
  | some bitmap => ⟨ref.file, some ⟨(ref.path, newSnapshotId), ref.deletedRows ∪ bitmap⟩⟩
  | none => ref

section

variable (dvs : List (Nat × Finset Nat)) (newSnapshotId : Nat) (ref : DataFileMeta)
include dvs newSnapshotId ref

@[simp] theorem restamp_file : (restamp dvs newSnapshotId ref).file = ref.file := by
  unfold restamp
  split <;> rfl

@[simp] theorem restamp_path : (restamp dvs newSnapshotId ref).path = ref.path := by
  simp [DataFileMeta.path]

theorem restamp_deletedRows : (restamp dvs newSnapshotId ref).deletedRows =
      ref.deletedRows ∪ (dvs.lookup ref.path).getD ∅ := by
  unfold restamp
  split <;> rename_i found <;> simp [found, DataFileMeta.deletedRows]

end

@[simp] theorem restamp_nil (newSnapshotId : Nat) (ref : DataFileMeta) :
    restamp [] newSnapshotId ref = ref := rfl

theorem lookup_dvLocations (manifest : Manifest) (newSnapshotId path : Nat)
    (dvs : List (Nat × Finset Nat)) :
    (dvLocations manifest newSnapshotId dvs).lookup path = (dvs.lookup path).map fun bitmap =>
      ⟨(path, newSnapshotId), existingDv manifest path ∪ bitmap⟩ := by
  induction dvs with
  | nil => rfl
  | cons dv rest ih =>
    obtain ⟨known, bitmap⟩ := dv
    simp only [dvLocations, List.map_cons, List.lookup_cons] at ih ⊢
    cases same : path == known with
    | true =>
      have equal := beq_iff_eq.mp same
      subst equal
      rfl
    | false => exact ih

theorem existingDv_eq {manifest : Manifest} (unique : (manifest.live.map DataFileMeta.path).Nodup)
    {entry : ManifestEntry} (present : entry ∈ manifest.entries) (live : entry.live = true) :
    existingDv manifest entry.file.path = entry.toMeta.deletedRows := by
  unfold existingDv
  cases found : manifest.entries.find? fun other =>
      other.live ∧ other.file.path = entry.file.path with
  | none =>
    have absent := List.find?_eq_none.mp found entry present
    simp [live] at absent
  | some other =>
    have holds := List.find?_some found
    simp only [decide_eq_true_eq] at holds
    have listed : other.toMeta ∈ manifest.live := List.mem_map.mpr
      ⟨other, List.mem_filter.mpr ⟨List.mem_of_find?_eq_some found, holds.1⟩, rfl⟩
    have listed' : entry.toMeta ∈ manifest.live := List.mem_map.mpr
      ⟨entry, List.mem_filter.mpr ⟨present, live⟩, rfl⟩
    have same := List.inj_on_of_nodup_map unique listed listed' holds.2
    simp only [same]

variable {txn : SnapshotTransaction} {catalog next : Catalog} {version : Version}

theorem commit_ok (committed : catalog.commit txn = .ok (next, version)) :
    catalog.current.apply txn catalog.nextVersion
        (dvLocations catalog.current catalog.nextVersion txn.dvs) = .ok next.current ∧
      next.nextVersion = catalog.nextVersion + 1 ∧ version = next.current.toVersion := by
  unfold commit at committed
  split at committed
  · rename_i manifest applied
    injection committed with same
    injection same with sameCatalog sameVersion
    subst sameCatalog
    exact ⟨applied, rfl, sameVersion.symm⟩
  · cases committed

theorem commit_isOk (catalog : Catalog) (free : ∀ dv ∈ txn.dvs, dv.1 ∉ txn.removes) :
    ∃ next version, catalog.commit txn = .ok (next, version) := by
  have located : txn.dvs.find? (fun dv => ((dvLocations catalog.current catalog.nextVersion
      txn.dvs).lookup dv.1).isNone) = none := by
    rw [List.find?_eq_none]
    intro dv member
    rw [lookup_dvLocations]
    cases found : txn.dvs.lookup dv.1 with
    | none => exact absurd (List.lookup_eq_none_iff.mp found dv member) (by simp)
    | some bitmap => simp
  have unremoved : txn.dvs.find? (fun dv => dv.1 ∈ txn.removes) = none := by simpa using free
  simp [commit, Manifest.apply, located, unremoved]

theorem commit_snapshotId (committed : catalog.commit txn = .ok (next, version)) :
    next.current.snapshotId = catalog.nextVersion :=
  (Manifest.apply_ok (commit_ok committed).1).1

theorem commit_live (unique : (catalog.current.live.map DataFileMeta.path).Nodup)
    (committed : catalog.commit txn = .ok (next, version)) :
    next.current.live = ((catalog.current.live.filter fun ref => ref.path ∉ txn.removes).map
      (restamp txn.dvs catalog.nextVersion)) ++ txn.adds.map fun file => ⟨file, none⟩ := by
  obtain ⟨_, live⟩ := Manifest.apply_ok (commit_ok committed).1
  rw [live, Manifest.live, List.filter_map, List.map_map, List.filter_filter]
  congr 1
  have selected : (catalog.current.entries.filter fun entry =>
        entry.live ∧ entry.file.path ∉ txn.removes) =
      catalog.current.entries.filter fun entry =>
        (fun ref : DataFileMeta => decide (ref.path ∉ txn.removes)) (entry.toMeta)
          && entry.live := by
    apply List.filter_congr
    intro entry _
    rw [Bool.and_comm, Bool.decide_and, Bool.decide_eq_true]
    rfl
  rw [selected]
  apply List.map_congr_left
  intro entry member
  obtain ⟨present, kept⟩ := List.mem_filter.mp member
  have live : entry.live = true := (Bool.and_eq_true_iff.mp kept).2
  have located := lookup_dvLocations catalog.current catalog.nextVersion entry.file.path txn.dvs
  have recorded := existingDv_eq unique present live
  have samePath : entry.toMeta.path = entry.file.path := rfl
  simp only [Function.comp, Manifest.stampDv, restamp, located, recorded, samePath]
  cases txn.dvs.lookup entry.file.path <;> rfl

end Catalog

end Merutable
