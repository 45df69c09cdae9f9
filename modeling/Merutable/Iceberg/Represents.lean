import Merutable.Iceberg.Commit
import Merutable.Iceberg.Refresh

/-! The stored catalog and the catalog of the engine's model: the same commits lead to the same
live files with the same deleted rows. -/

namespace Merutable.Iceberg

open Foundation

/-- What the manifest notes of a data file. -/
structure ParquetFileMeta.Describes (fileMeta : ParquetFileMeta) (file : DataFile) : Prop where
  level : fileMeta.level.toNat = file.level
  seqMin : fileMeta.seqMin.toNat = file.seqMin
  seqMax : fileMeta.seqMax.toNat = file.seqMax
  keyMin : fileMeta.keyMin = file.keyMin
  keyMax : fileMeta.keyMax = file.keyMax
  numRows : fileMeta.numRows.toNat = file.numRows

/-- The entry stands for the file: `name` is where the store has a file of the model, and the
deleted rows are those of all vectors that were committed for it. -/
structure ManifestEntry.Represents (name : Nat → FilePath) (past : List SnapshotTransaction)
    (entry : ManifestEntry) (ref : Merutable.DataFileMeta) : Prop where
  path : entry.path = name ref.path
  file : entry.fileMeta.Describes ref.file
  deleted : (committed past entry.path).image UInt32.toNat = ref.deletedRows

/-- The same for a file as `toVersion` lists it. -/
def DataFileMeta.Represents (name : Nat → FilePath) (file : DataFileMeta)
    (ref : Merutable.DataFileMeta) : Prop :=
  file.path = name ref.path ∧ file.fileMeta.Describes ref.file

structure SnapshotTransaction.Represents (name : Nat → FilePath) (txn : SnapshotTransaction)
    (change : Merutable.SnapshotTransaction) : Prop where
  adds : List.Forall₂ (fun add file => add.path = name file.path ∧ add.fileMeta.Describes file)
    txn.adds change.adds
  removes : txn.removes = change.removes.map name
  paths : txn.paths = change.dvs.map fun dv => name dv.1
  vectors : ∀ path, (txn.vector (name path)).image UInt32.toNat = (change.dvs.lookup path).getD ∅

structure Catalog.Represents (name : Nat → FilePath) (past : List SnapshotTransaction)
    (catalog : Catalog) (model : Merutable.Catalog) : Prop where
  version : catalog.nextVersion = model.nextVersion
  entries : List.Forall₂ (ManifestEntry.Represents name past)
    (catalog.current.entries.filter ManifestEntry.live) model.current.live

section Commit

variable {name : Nat → FilePath} {past : List SnapshotTransaction} {catalog next : Catalog}
  {model : Merutable.Catalog} {lib : CommitLib} {checked : Bool} {stamp : Stamp}
  {txn : SnapshotTransaction} {change : Merutable.SnapshotTransaction}
  {locations : List (FilePath × DvLocation)} {old new : ManifestEntry}
  {ref : Merutable.DataFileMeta}

theorem Manifest.stampVector_live (entry : ManifestEntry) :
    (stampVector txn locations entry).live = entry.live := by
  unfold stampVector
  split
  · split <;> rfl
  · rfl

theorem Manifest.Inherits.live (inherits : Manifest.Inherits old new) : new.live = old.live := by
  rw [inherits.same]
  rfl

/-- The new manifest lists live files only. -/
theorem Manifest.Applied.alive {manifest after : Manifest}
    (applied : Manifest.Applied manifest checked txn locations after) :
    ∀ entry ∈ after.entries, entry.live = true := by
  obtain ⟨inherited, added, whole, olds, adds⟩ := applied.parts
  rw [whole]
  refine List.forall_mem_append.mpr ⟨fun entry member => ?_, fun entry member => ?_⟩
  · obtain ⟨old, inKept, inherits⟩ := exists_left_of_forall₂ olds entry member
    have stays := (List.mem_filter.mp inKept).2
    simp only [Bool.decide_and, Bool.and_eq_true, decide_eq_true_eq] at stays
    rw [inherits.live, Manifest.stampVector_live, stays.1]
  · obtain ⟨add, _, id, rfl⟩ := exists_left_of_forall₂ adds entry member
    rfl

theorem Manifest.stampVector_describes {file : DataFile} (describes : old.fileMeta.Describes file) :
    (stampVector txn locations old).fileMeta.Describes file := by
  unfold stampVector
  split
  · split
    · exact { describes with }
    · exact describes
  · exact describes

/-- The paths of the model's live files are distinct, as those in the store are. -/
theorem Catalog.Represents.unique (represents : catalog.Represents name past model)
    (vectors : Vectors lib.puffin past catalog) :
    (model.current.live.map Merutable.DataFileMeta.path).Nodup := by
  have names : (catalog.current.entries.filter ManifestEntry.live).map ManifestEntry.path =
      (model.current.live.map Merutable.DataFileMeta.path).map name := by
    rw [List.map_map]
    exact map_eq_of_forall₂ represents.entries fun _ _ stands => stands.path
  exact List.Nodup.of_map name (names ▸ vectors.unique.sublist (List.filter_sublist.map _))

theorem ManifestEntry.Represents.carried (represents : old.Represents name past ref)
    (same : txn.Represents name change) (snapshotId : Nat)
    (inherits : Manifest.Inherits (Manifest.stampVector txn locations old) new) :
    new.Represents name (past ++ [txn]) (Catalog.restamp change.dvs snapshotId ref) := by
  have path : new.path = old.path := by rw [inherits.same, Manifest.stampVector_path]
  refine ⟨?_, ?_, ?_⟩
  · rw [path, represents.path, Catalog.restamp_path]
  · rw [Catalog.restamp_file, inherits.same]
    exact Manifest.stampVector_describes represents.file
  · rw [path, committed_append, Finset.image_union, represents.deleted,
      Catalog.restamp_deletedRows, represents.path, same.vectors]

theorem Catalog.Represents.filter (represents : catalog.Represents name past model)
    {p : ManifestEntry → Prop} {q : Merutable.DataFileMeta → Prop} [DecidablePred p]
    [DecidablePred q] (agree : ∀ entry ref, entry.Represents name past ref → (p entry ↔ q ref)) :
    List.Forall₂ (ManifestEntry.Represents name past)
      (catalog.current.entries.filter fun entry => entry.live ∧ p entry)
      (model.current.live.filter q) := by
  have split : (catalog.current.entries.filter fun entry => entry.live ∧ p entry) =
      (catalog.current.entries.filter ManifestEntry.live).filter p := by
    simp [List.filter_filter, Bool.and_comm]
  rw [split]
  refine List.rel_filter ?_ represents.entries
  intro entry ref stands
  simp only [decide_eq_true_eq, agree entry ref stands]

/-- A commit that succeeds in the store is the commit of the same transaction in the model. -/
theorem commit_represents (injective : Function.Injective name)
    (vectors : Vectors lib.puffin past catalog) (represents : catalog.Represents name past model)
    (same : txn.Represents name change)
    (live : ∀ path ∈ txn.paths, ∃ entry ∈ catalog.current.entries, entry.live ∧ entry.path = path)
    (stems : ((addedPaths (past ++ [txn])).map FilePath.stem).Nodup)
    (done : catalog.commit lib checked stamp txn = .ok next) :
    ∃ after version, model.commit change = .ok (after, version) ∧
      next.Represents name (past ++ [txn]) after := by
  obtain ⟨version, files, locations, _, applied, _⟩ := commit_eq_ok done
  obtain ⟨inherited, added, whole, olds, adds⟩ := applied.parts
  have free : ∀ dv ∈ change.dvs, dv.1 ∉ change.removes := by
    intro dv member removed
    refine applied.unremoved (name dv.1) ?_ ?_
    · rw [same.paths]
      exact List.mem_map_of_mem member
    · rw [same.removes]
      exact List.mem_map_of_mem removed
  obtain ⟨after, newVersion, done'⟩ := model.commit_isOk free
  refine ⟨after, newVersion, done', ?_, ?_⟩
  · rw [version, (Catalog.commit_ok done').2.1, represents.version]
    rfl
  rw [List.filter_eq_self.mpr applied.alive, whole,
    Catalog.commit_live (represents.unique vectors) done']
  refine List.rel_append ?_ ?_
  · rw [List.forall₂_map_right_iff]
    have kept := represents.filter (p := fun entry => entry.path ∉ txn.removes)
      (q := fun ref => ref.path ∉ change.removes) fun entry ref stands => by
        rw [stands.path, same.removes, List.mem_map_of_injective injective]
    exact forall₂_comp olds.flip kept
      fun new old ref inherits stands => stands.carried same model.nextVersion inherits
  · rw [List.forall₂_map_right_iff]
    have fresh := (List.forall₂_and_left _ _).mpr
      ⟨fun add member => committed_added vectors live stems member, same.adds⟩
    refine forall₂_comp adds.flip fresh ?_
    rintro entry add file ⟨id, rfl⟩ ⟨empty, path, describes⟩
    refine ⟨path, describes, ?_⟩
    simp [Manifest.addedEntry, empty, Merutable.DataFileMeta.deletedRows]

/-- The model's catalog after the transactions, one commit after the other. -/
def commitAll (changes : List Merutable.SnapshotTransaction) :
    Except IcebergError Merutable.Catalog :=
  changes.foldlM (fun catalog change => Prod.fst <$> catalog.commit change) .empty

theorem Commits.represents (injective : Function.Injective name)
    (known : ∀ bitmap, lib.puffin.deserialize (lib.puffin.serialize bitmap) = .ok bitmap)
    (run : Commits lib checked past catalog) {changes : List Merutable.SnapshotTransaction}
    (same : List.Forall₂ (SnapshotTransaction.Represents name) past changes) :
    ∃ model, commitAll changes = .ok model ∧ catalog.Represents name past model := by
  induction run generalizing changes with
  | opened =>
    cases same
    exact ⟨.empty, rfl, rfl, .nil⟩
  | @commit past _ _ _ txn before live stems done ih =>
    have olds := (List.forall₂_take_append _ _ _ same.flip).flip
    obtain ⟨change, _, new, ⟨⟩, last⟩ :=
      List.forall₂_cons_right_iff.mp (List.forall₂_drop_append _ _ _ same.flip)
    obtain ⟨model, replayed, represents⟩ := ih olds
    obtain ⟨after, version, done', stands⟩ :=
      commit_represents injective (before.vectors known) represents new live stems done
    refine ⟨after, ?_, stands⟩
    rw [← List.take_append_drop past.length changes, last, commitAll, List.foldlM_append]
    change (commitAll (changes.take past.length) >>= _) = _
    rw [replayed]
    change (Prod.fst <$> model.commit change >>= pure) = _
    rw [done']
    rfl

/-- The levels of a snapshot list the same files in the same order. -/
theorem Catalog.Represents.levelFiles (represents : catalog.Represents name past model)
    (level : UInt8) : List.Forall₂ (DataFileMeta.Represents name)
      (catalog.current.levelFiles level) (model.current.toVersion.filesAt level.toNat) := by
  have alive : (fun entry : ManifestEntry => decide (entry.status ≠ "deleted" ∧
      entry.fileMeta.level = level)) = fun entry => decide (entry.live ∧
        entry.fileMeta.level = level) := by
    simp [ManifestEntry.live]
  have kept := represents.filter (p := fun entry => entry.fileMeta.level = level)
    (q := fun ref => ref.level = level.toNat) fun entry ref stands => by
      rw [Merutable.DataFileMeta.level, ← stands.file.level, UInt8.toNat_inj]
  have files : List.Forall₂ (DataFileMeta.Represents name) ((catalog.current.entries.filter
      _).map ManifestEntry.toDataFileMeta) _ :=
    List.forall₂_map_left_iff.mpr (kept.imp fun _ _ stands => ⟨stands.path, stands.file⟩)
  rw [← alive] at files
  unfold Manifest.levelFiles Version.filesAt
  by_cases top : level = 0
  · rw [if_pos top, if_pos (by rw [top]; rfl)]
    refine forall₂_insertionSort ?_ files
    rintro a b c d ⟨_, file⟩ ⟨_, file'⟩
    rw [UInt64.le_iff_toNat_le, file.seqMax, file'.seqMax]
  · have below : level.toNat ≠ 0 := fun zero => top (UInt8.toNat_inj.mp zero)
    rw [if_neg top, if_neg below]
    refine forall₂_insertionSort ?_ files
    rintro a b c d ⟨_, file⟩ ⟨_, file'⟩
    rw [file.keyMin, file'.keyMin]

end Commit

end Merutable.Iceberg
