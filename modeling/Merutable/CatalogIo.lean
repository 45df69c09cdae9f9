import Merutable.Foundation.Files
import Merutable.Iceberg

/-! `IcebergCatalog::commit` as the file operations it makes, any one of which may fail, and
`IcebergCatalog::open` on what they leave. -/

namespace Merutable

open Foundation

/-- The catalog directory: the version hint, the manifests by version and the Puffin files. -/
structure CatalogDir where
  hint : Option Nat
  metadata : Files Nat Manifest
  puffins : Files (Nat × Nat) (Finset Nat)
  deriving DecidableEq

/-- The file operation of a commit that fails. Opening a file or a directory for its fsync and the
fsync fail alike. The temporary hint file is never read, so what is left of it does not matter. -/
inductive CommitFault where
  | readPuffin (path : Nat)
  | createDir (path : Nat)
  | writePuffin (path : Nat) (left : Residue)
  | syncPuffin (path : Nat)
  | syncLevelDir (path : Nat)
  | writeMetadata (left : Residue)
  | syncMetadata
  | syncMetadataDir
  | writeHint
  | syncHint
  | renameHint
  | syncBase
  | removePuffin (path : Nat)
  deriving DecidableEq

namespace CommitFault

/-- What a failed write leaves of the Puffin file. -/
def puffinLeft (path : Nat) : Option CommitFault → Option Residue
  | some (.writePuffin other left) => if other = path then some left else none
  | _ => none

/-- What a failed write leaves of the manifest file. -/
def metadataLeft : Option CommitFault → Option Residue
  | some (.writeMetadata left) => some left
  | _ => none

end CommitFault

namespace CatalogDir

def empty : CatalogDir := ⟨none, .empty, .empty⟩

/-- `IcebergCatalog::open`; `none` is an error. -/
def openCatalog (dir : CatalogDir) : Option Catalog :=
  match dir.hint with
  | some version =>
    match dir.metadata.read version with
    | some (some manifest) => some ⟨manifest, version + 1⟩
    | _ => none
  | none => if dir.metadata.isEmpty then some .empty else none

/-- The vector already recorded for the path. -/
def recordedDv (manifest : Manifest) (path : Nat) : Option DeletionVector :=
  (manifest.entries.find? fun entry => entry.live ∧ entry.file.path = path).bind ManifestEntry.dv

/-- The bitmap to write: the new vector united with the recorded one, which is read from its
file. -/
def mergeDv (dir : CatalogDir) (manifest : Manifest) (fault : Option CommitFault)
    (dv : Nat × Finset Nat) : Option (Finset Nat) :=
  match recordedDv manifest dv.1 with
  | none => some dv.2
  | some old =>
    if fault = some (.readPuffin dv.1) then none
    else
      match dir.puffins.read old.path with
      | some (some bitmap) => some (bitmap ∪ dv.2)
      | _ => none

/-- The Puffin file of one vector. An error leaves the directory as it is then. -/
def writePuffin (dir : CatalogDir) (manifest : Manifest) (newSnapshotId : Nat)
    (fault : Option CommitFault) (dv : Nat × Finset Nat) :
    Except CatalogDir (CatalogDir × Finset Nat) :=
  match dir.mergeDv manifest fault dv with
  | none => .error dir
  | some merged =>
    let name := (dv.1, newSnapshotId)
    let written := { dir with puffins := dir.puffins.write name merged }
    if fault = some (.createDir dv.1) then .error dir
    else
      match CommitFault.puffinLeft dv.1 fault with
      | some left => .error { dir with puffins := dir.puffins.writeFailed name merged left }
      | none =>
        if fault = some (.syncPuffin dv.1) ∨ fault = some (.syncLevelDir dv.1) then
          .error written
        else .ok (written, merged)

def writePuffins (manifest : Manifest) (newSnapshotId : Nat) (fault : Option CommitFault) :
    CatalogDir → List (Nat × Finset Nat) →
      Except CatalogDir (CatalogDir × List (Nat × DeletionVector))
  | dir, [] => .ok (dir, [])
  | dir, dv :: rest =>
    match dir.writePuffin manifest newSnapshotId fault dv with
    | .error left => .error left
    | .ok (written, merged) =>
      match writePuffins manifest newSnapshotId fault written rest with
      | .error left => .error left
      | .ok (last, locations) =>
        .ok (last, (dv.1, ⟨(dv.1, newSnapshotId), merged⟩) :: locations)

/-- The manifest file, then the hint that points to it. -/
def publish (dir : CatalogDir) (manifest : Manifest) (fault : Option CommitFault) :
    Except CatalogDir CatalogDir :=
  let written := { dir with metadata := dir.metadata.write manifest.snapshotId manifest }
  let renamed := { written with hint := some manifest.snapshotId }
  match CommitFault.metadataLeft fault with
  | some left =>
    .error { dir with metadata := dir.metadata.writeFailed manifest.snapshotId manifest left }
  | none =>
    if fault = some .syncMetadata ∨ fault = some .syncMetadataDir ∨ fault = some .writeHint ∨
        fault = some .syncHint ∨ fault = some .renameHint then .error written
    else if fault = some .syncBase then .error renamed
    else .ok renamed

/-- After a failure the Puffin files of this commit are removed. -/
def cleanUp (dir : CatalogDir) (newSnapshotId : Nat) (dvs : List (Nat × Finset Nat))
    (fault : Option CommitFault) : CatalogDir :=
  { dir with puffins := dir.puffins.remove fun name =>
      name.2 = newSnapshotId && dvs.any (fun dv => dv.1 = name.1) &&
        fault ≠ some (.removePuffin name.1) }

/-- `IcebergCatalog::commit`: the directory it leaves, and the new catalog and version if it
succeeds. -/
def commit (dir : CatalogDir) (catalog : Catalog) (txn : SnapshotTransaction)
    (fault : Option CommitFault) : CatalogDir × Option (Catalog × Version) :=
  match writePuffins catalog.current catalog.nextVersion fault dir txn.dvs with
  | .error left => (left, none)
  | .ok (written, locations) =>
    match catalog.current.apply txn catalog.nextVersion locations with
    | .error _ => (written.cleanUp catalog.nextVersion txn.dvs fault, none)
    | .ok manifest =>
      match written.publish manifest fault with
      | .error left => (left.cleanUp catalog.nextVersion txn.dvs fault, none)
      | .ok last => (last, some (⟨manifest, catalog.nextVersion + 1⟩, manifest.toVersion))

/-- Later commits that all succeed. -/
def commitAll : CatalogDir → Catalog → List SnapshotTransaction → Option (CatalogDir × Catalog)
  | dir, catalog, [] => some (dir, catalog)
  | dir, catalog, txn :: rest =>
    match dir.commit catalog txn none with
    | (next, some (committed, _)) => commitAll next committed rest
    | (_, none) => none

/-- Every deletion vector the catalog refers to is in its file, under the id of an older
snapshot. -/
def Intact (dir : CatalogDir) (catalog : Catalog) : Prop :=
  ∀ ref ∈ catalog.current.live, ∀ dv, ref.dv = some dv →
    dir.puffins.read dv.path = some (some dv.bitmap) ∧ dv.path.2 < catalog.nextVersion

/-- Opening the directory gives the catalog in memory, with all its deletion vectors. -/
structure Holds (dir : CatalogDir) (catalog : Catalog) : Prop where
  loads : dir.openCatalog = some catalog
  intact : dir.Intact catalog

theorem empty_holds : CatalogDir.empty.Holds .empty where
  loads := rfl
  intact := by intro ref member; cases member

end CatalogDir

/-- The transactions on the catalog in memory. -/
def Catalog.commitAll : Catalog → List SnapshotTransaction → Option Catalog
  | catalog, [] => some catalog
  | catalog, txn :: rest =>
    match catalog.commit txn with
    | .ok (next, _) => commitAll next rest
    | .error _ => none

/-- A transaction that masks rows of a file it removes is refused. -/
def SnapshotTransaction.Conflicts (txn : SnapshotTransaction) : Prop :=
  ∃ dv ∈ txn.dvs, dv.1 ∈ txn.removes

/-- `dvs` is a map: one vector for each file. -/
def SnapshotTransaction.Keyed (txn : SnapshotTransaction) : Prop := (txn.dvs.map Prod.fst).Nodup

namespace CommitFault

/-- The operations on Puffin files before the manifest is built. -/
def early : CommitFault → Bool
  | .readPuffin _ => true
  | .createDir _ => true
  | .writePuffin _ _ => true
  | .syncPuffin _ => true
  | .syncLevelDir _ => true
  | _ => false

/-- The failures after which the manifest file of the new version is there and the hint is not. -/
def leavesMetadata : CommitFault → Bool
  | .writeMetadata .untouched => false
  | .writeMetadata _ => true
  | .syncMetadata => true
  | .syncMetadataDir => true
  | .writeHint => true
  | .syncHint => true
  | .renameHint => true
  | _ => false

end CommitFault

theorem Manifest.apply_conflicts {manifest : Manifest} {txn : SnapshotTransaction} {id : Nat} :
    (∃ error, manifest.apply txn id (Catalog.dvLocations manifest id txn.dvs) = .error error) ↔
      txn.Conflicts := by
  have located : txn.dvs.find? (fun dv =>
      ((Catalog.dvLocations manifest id txn.dvs).lookup dv.1).isNone) = none := by
    rw [List.find?_eq_none]
    intro dv member
    rw [Catalog.lookup_dvLocations]
    simpa using ⟨dv.2, member⟩
  unfold Manifest.apply
  rw [located]
  constructor
  · rintro ⟨error, refused⟩
    cases clash : txn.dvs.find? fun dv => dv.1 ∈ txn.removes with
    | none => simp [clash] at refused
    | some dv => exact ⟨dv, List.mem_of_find?_eq_some clash, by simpa using List.find?_some clash⟩
  · rintro ⟨dv, member, removed⟩
    cases clash : txn.dvs.find? fun dv => dv.1 ∈ txn.removes with
    | none => exact absurd removed (by simpa using List.find?_eq_none.mp clash dv member)
    | some dv => exact ⟨_, rfl⟩

namespace CatalogDir

variable {dir left last : CatalogDir} {catalog : Catalog} {manifest : Manifest} {id : Nat}
  {fault : Option CommitFault} {dv : Nat × Finset Nat} {dvs : List (Nat × Finset Nat)}
  {txn : SnapshotTransaction} {next : Catalog}

/-- Only Puffin files of snapshot `id` differ. -/
structure Touched (id : Nat) (dir later : CatalogDir) : Prop where
  hint : later.hint = dir.hint
  metadata : later.metadata = dir.metadata
  puffins : ∀ name : Nat × Nat, name.2 ≠ id → later.puffins.read name = dir.puffins.read name

theorem Touched.refl (id : Nat) (dir : CatalogDir) :
    Touched id dir dir := ⟨rfl, rfl, fun _ _ => rfl⟩

theorem Touched.trans (first : Touched id dir left) (second : Touched id left last) :
    Touched id dir last where
  hint := second.hint.trans first.hint
  metadata := second.metadata.trans first.metadata
  puffins name other := (second.puffins name other).trans (first.puffins name other)

theorem Intact.touched (intact : dir.Intact catalog) {later : CatalogDir}
    (puffins : ∀ name : Nat × Nat, name.2 ≠ catalog.nextVersion →
      later.puffins.read name = dir.puffins.read name) : later.Intact catalog := by
  intro ref member dv same
  obtain ⟨content, older⟩ := intact ref member dv same
  exact ⟨(puffins dv.path older.ne).trans content, older⟩

theorem recordedDv_live {path : Nat} {old : DeletionVector}
    (recorded : recordedDv manifest path = some old) :
    ∃ ref ∈ manifest.live, ref.dv = some old := by
  obtain ⟨entry, found, same⟩ := Option.bind_eq_some_iff.mp recorded
  have holds := List.find?_some found
  simp only [decide_eq_true_eq] at holds
  exact ⟨entry.toMeta, List.mem_map.mpr
    ⟨entry, List.mem_filter.mpr ⟨List.mem_of_find?_eq_some found, holds.1⟩, rfl⟩, same⟩

theorem mergeDv_eq (intact : dir.Intact catalog) :
    dir.mergeDv catalog.current fault dv = some (Catalog.existingDv catalog.current dv.1 ∪ dv.2) ∨
      fault = some (.readPuffin dv.1) ∧ dir.mergeDv catalog.current fault dv = none := by
  have existing : Catalog.existingDv catalog.current dv.1 =
      ((recordedDv catalog.current dv.1).map DeletionVector.bitmap).getD ∅ := by
    unfold Catalog.existingDv recordedDv
    cases catalog.current.entries.find? fun entry => entry.live ∧ entry.file.path = dv.1 with
    | none => rfl
    | some entry => rfl
  unfold mergeDv
  cases recorded : recordedDv catalog.current dv.1 with
  | none =>
    rw [existing, recorded]
    simp
  | some old =>
    obtain ⟨ref, member, same⟩ := recordedDv_live recorded
    have content := (intact ref member old same).1
    by_cases fails : fault = some (.readPuffin dv.1)
    · simp [fails]
    · rw [existing, recorded]
      simp [fails, content]

theorem writePuffin_ok {merged : Finset Nat} (intact : dir.Intact catalog)
    (written : dir.writePuffin catalog.current id fault dv = .ok (left, merged)) :
    merged = Catalog.existingDv catalog.current dv.1 ∪ dv.2 ∧
      left = { dir with puffins := dir.puffins.write (dv.1, id) merged } := by
  unfold writePuffin at written
  rcases mergeDv_eq intact with same | ⟨_, none⟩
  · rw [same] at written
    dsimp only at written
    split at written
    · cases written
    split at written
    · cases written
    split at written
    · cases written
    · injection written with pair
      injection pair with first second
      subst second
      exact ⟨rfl, first.symm⟩
  · rw [none] at written
    cases written

theorem writePuffin_error (intact : dir.Intact catalog)
    (stopped : dir.writePuffin catalog.current id fault dv = .error left) :
    Touched id dir left ∧ ∃ own, fault = some own ∧ own.early = true := by
  have touched : ∀ puffins : Files (Nat × Nat) (Finset Nat),
      (∀ name : Nat × Nat, name ≠ (dv.1, id) → puffins.read name = dir.puffins.read name) →
      Touched id dir { dir with puffins := puffins } := by
    intro puffins same
    refine ⟨rfl, rfl, fun name other => same name ?_⟩
    rintro rfl
    exact other rfl
  unfold writePuffin at stopped
  rcases mergeDv_eq intact with same | ⟨fails, none⟩
  · rw [same] at stopped
    dsimp only at stopped
    split at stopped
    · rename_i fails
      cases stopped
      exact ⟨.refl _ _, _, fails, rfl⟩
    split at stopped
    · rename_i residue fails
      cases stopped
      refine ⟨touched _ fun name other => Files.read_writeFailed_of_ne other _ _, ?_⟩
      unfold CommitFault.puffinLeft at fails
      split at fails
      · exact ⟨_, rfl, rfl⟩
      · cases fails
    split at stopped <;> cases stopped
    rename_i fails
    refine ⟨touched _ fun name other => Files.read_write_of_ne other _, ?_⟩
    rcases fails with fails | fails
    · exact ⟨_, fails, rfl⟩
    · exact ⟨_, fails, rfl⟩
  · rw [none] at stopped
    cases stopped
    exact ⟨.refl _ _, _, fails, rfl⟩

theorem write_touched (dir : CatalogDir) (id path : Nat) (bitmap : Finset Nat) :
    Touched id dir { dir with puffins := dir.puffins.write (path, id) bitmap } := by
  refine ⟨rfl, rfl, fun name other => Files.read_write_of_ne ?_ _⟩
  rintro rfl
  exact other rfl

theorem writePuffins_ok {locations : List (Nat × DeletionVector)} (intact : dir.Intact catalog)
    (keyed : (dvs.map Prod.fst).Nodup)
    (written : writePuffins catalog.current catalog.nextVersion fault dir dvs =
      .ok (last, locations)) :
    Touched catalog.nextVersion dir last ∧
      locations = Catalog.dvLocations catalog.current catalog.nextVersion dvs ∧
      (∀ dv ∈ dvs, last.puffins.read (dv.1, catalog.nextVersion) =
        some (some (Catalog.existingDv catalog.current dv.1 ∪ dv.2))) ∧
      ∀ path, path ∉ dvs.map Prod.fst → last.puffins.read (path, catalog.nextVersion) =
        dir.puffins.read (path, catalog.nextVersion) := by
  induction dvs generalizing dir locations with
  | nil =>
    cases written
    exact ⟨.refl _ _, rfl, by simp, by simp⟩
  | cons dv rest ih =>
    obtain ⟨fresh, keyed⟩ := List.nodup_cons.mp keyed
    simp only [writePuffins] at written
    split at written
    · cases written
    rename_i next merged first
    obtain ⟨same, rfl⟩ := writePuffin_ok intact first
    have one := write_touched dir catalog.nextVersion dv.1 merged
    split at written
    · cases written
    rename_i final others later
    cases written
    obtain ⟨touched, located, contents, aside⟩ := ih (intact.touched one.puffins) keyed later
    refine ⟨one.trans touched, ?_, ?_, ?_⟩
    · rw [located, same]
      rfl
    · intro other member
      rcases List.mem_cons.mp member with rfl | inRest
      · rw [aside _ fresh, Files.read_write, same]
      · exact contents other inRest
    · intro path outside
      rw [List.map_cons, List.mem_cons, not_or] at outside
      rw [aside path outside.2]
      exact Files.read_write_of_ne (by simpa using outside.1) _

theorem writePuffins_error (intact : dir.Intact catalog)
    (stopped : writePuffins catalog.current catalog.nextVersion fault dir dvs = .error left) :
    Touched catalog.nextVersion dir left ∧ ∃ own, fault = some own ∧ own.early = true := by
  induction dvs generalizing dir with
  | nil => cases stopped
  | cons dv rest ih =>
    simp only [writePuffins] at stopped
    split at stopped
    · rename_i final first
      cases stopped
      exact writePuffin_error intact first
    rename_i next merged first
    obtain ⟨_, rfl⟩ := writePuffin_ok intact first
    have one := write_touched dir catalog.nextVersion dv.1 merged
    split at stopped <;> cases stopped
    rename_i final later
    obtain ⟨touched, fails⟩ := ih (intact.touched one.puffins) later
    exact ⟨one.trans touched, fails⟩

theorem cleanUp_puffins (dir : CatalogDir) (dvs : List (Nat × Finset Nat))
    (fault : Option CommitFault) (name : Nat × Nat) (other : name.2 ≠ id) :
    (dir.cleanUp id dvs fault).puffins.read name = dir.puffins.read name := by
  apply Files.read_remove
  simp [other]

/-- What a failed commit leaves: the manifest and the hint as they were, or the new manifest file
without the hint, or both. -/
inductive Failure (dir : CatalogDir) (catalog : Catalog) (txn : SnapshotTransaction)
    (left : CatalogDir) : Option CommitFault → Prop
  | refused {fault : Option CommitFault} (conflicts : txn.Conflicts) (hint : left.hint = dir.hint)
      (metadata : left.metadata = dir.metadata) : Failure dir catalog txn left fault
  | early {own : CommitFault} (before : own.early = true ∨ own = .writeMetadata .untouched)
      (hint : left.hint = dir.hint) (metadata : left.metadata = dir.metadata) :
      Failure dir catalog txn left (some own)
  | unpublished {own : CommitFault} {content : Option Manifest} (valid : ¬ txn.Conflicts)
      (stage : own.leavesMetadata = true) (hint : left.hint = dir.hint)
      (metadata : left.metadata = dir.metadata.put catalog.nextVersion content) :
      Failure dir catalog txn left (some own)
  | published {manifest : Manifest} (valid : ¬ txn.Conflicts)
      (hint : left.hint = some catalog.nextVersion)
      (metadata : left.metadata = dir.metadata.write catalog.nextVersion manifest) :
      Failure dir catalog txn left (some .syncBase)

theorem publish_error (valid : ¬ txn.Conflicts)
    (snapshot : manifest.snapshotId = catalog.nextVersion)
    (stopped : dir.publish manifest fault = .error left) :
    Failure dir catalog txn left fault ∧ left.puffins = dir.puffins := by
  unfold publish at stopped
  dsimp only at stopped
  rw [snapshot] at stopped
  split at stopped
  · rename_i residue fails
    cases stopped
    unfold CommitFault.metadataLeft at fails
    split at fails
    · rename_i own
      injection fails with same
      subst same
      refine ⟨?_, rfl⟩
      cases own with
      | untouched => exact .early (.inr rfl) rfl rfl
      | torn | complete => exact .unpublished valid rfl rfl rfl
    · cases fails
  split at stopped
  · rename_i fails
    cases stopped
    refine ⟨?_, rfl⟩
    rcases fails with rfl | rfl | rfl | rfl | rfl
    all_goals exact .unpublished valid rfl rfl rfl
  split at stopped <;> cases stopped
  rename_i fails
  subst fails
  exact ⟨.published valid rfl rfl, rfl⟩

theorem publish_ok (snapshot : manifest.snapshotId = catalog.nextVersion)
    (published : dir.publish manifest fault = .ok last) :
    last = { dir with
      metadata := dir.metadata.write catalog.nextVersion manifest
      hint := some catalog.nextVersion } := by
  unfold publish at published
  dsimp only at published
  rw [snapshot] at published
  split at published
  · cases published
  split at published
  · cases published
  split at published
  · cases published
  · injection published with same
    exact same.symm

theorem commit_failed (intact : dir.Intact catalog) (keyed : txn.Keyed)
    (failed : (dir.commit catalog txn fault).2 = none) :
    Failure dir catalog txn (dir.commit catalog txn fault).1 fault ∧
      (dir.commit catalog txn fault).1.Intact catalog := by
  unfold commit at failed ⊢
  split
  · rename_i left stopped
    obtain ⟨touched, own, rfl, before⟩ := writePuffins_error intact stopped
    exact ⟨.early (.inl before) touched.hint touched.metadata, intact.touched touched.puffins⟩
  · rename_i written locations ran
    obtain ⟨touched, rfl, _, _⟩ := writePuffins_ok intact keyed ran
    rw [ran] at failed
    dsimp only at failed ⊢
    split
    · rename_i error refused
      refine ⟨.refused (Manifest.apply_conflicts.mp ⟨error, refused⟩) touched.hint
        touched.metadata, intact.touched fun name other => ?_⟩
      exact (cleanUp_puffins written _ _ name other).trans (touched.puffins name other)
    · rename_i manifest applied
      have valid : ¬ txn.Conflicts := by
        intro conflicts
        obtain ⟨_, refused⟩ := Manifest.apply_conflicts.mpr conflicts
        rw [applied] at refused
        cases refused
      rw [applied] at failed
      dsimp only at failed
      split
      · rename_i left stopped
        obtain ⟨failure, puffins⟩ := publish_error valid (Manifest.apply_ok applied).1 stopped
        refine ⟨?_, intact.touched fun name other => ?_⟩
        · cases failure with
          | refused conflicts hint metadata => exact absurd conflicts valid
          | early before hint metadata =>
            exact .early before (hint.trans touched.hint) (metadata.trans touched.metadata)
          | unpublished _ stage hint metadata =>
            exact .unpublished valid stage (hint.trans touched.hint)
              (metadata.trans (by rw [touched.metadata]))
          | published _ hint metadata =>
            exact .published valid hint (metadata.trans (by rw [touched.metadata]))
        · rw [cleanUp_puffins left _ _ name other, puffins]
          exact touched.puffins name other
      · rename_i last published
        rw [published] at failed
        cases failed

theorem commit_succeeded {version : Version} (intact : dir.Intact catalog) (keyed : txn.Keyed)
    (committed : (dir.commit catalog txn fault).2 = some (next, version)) :
    catalog.commit txn = .ok (next, version) ∧ (dir.commit catalog txn fault).1.Holds next := by
  unfold commit at committed ⊢
  split at committed
  · cases committed
  rename_i written locations ran
  obtain ⟨touched, rfl, contents, _⟩ := writePuffins_ok intact keyed ran
  split at committed
  · cases committed
  rename_i manifest applied
  split at committed
  · cases committed
  rename_i last published
  injection committed with pair
  injection pair with same sameVersion
  subst same sameVersion
  obtain ⟨snapshot, live⟩ := Manifest.apply_ok applied
  have result := publish_ok snapshot published
  subst result
  refine ⟨by rw [Catalog.commit, applied], ?_, ?_⟩
  · simp [openCatalog]
  · intro ref member dv same
    change ref ∈ manifest.live at member
    rw [live] at member
    rcases List.mem_append.mp member with kept | added
    · obtain ⟨entry, inside, rfl⟩ := List.mem_map.mp kept
      obtain ⟨listed, selected⟩ := List.mem_filter.mp inside
      have old : entry.toMeta ∈ catalog.current.live :=
        List.mem_map_of_mem (List.mem_filter.mpr ⟨listed, by simp_all⟩)
      unfold Manifest.stampDv at same
      rw [Catalog.lookup_dvLocations] at same
      cases found : txn.dvs.lookup entry.file.path with
      | none =>
        rw [found] at same
        obtain ⟨content, older⟩ := intact entry.toMeta old dv same
        exact ⟨(touched.puffins dv.path older.ne).trans content, Nat.lt_succ_of_lt older⟩
      | some bitmap =>
        rw [found] at same
        cases same
        obtain ⟨before, after, split, _⟩ := List.lookup_eq_some_iff.mp found
        have listed : (entry.file.path, bitmap) ∈ txn.dvs := by
          rw [split]
          simp
        exact ⟨contents _ listed, Nat.lt_succ_self _⟩
    · obtain ⟨file, _, rfl⟩ := List.mem_map.mp added
      cases same

theorem commitAll_holds {later : List SnapshotTransaction} (intact : dir.Intact catalog)
    (keyed : ∀ txn ∈ later, txn.Keyed)
    (committed : commitAll dir catalog later = some (last, next)) :
    catalog.commitAll later = some next ∧ last.Intact next ∧
      (later ≠ [] ∨ dir.openCatalog = some catalog → last.openCatalog = some next) := by
  induction later generalizing dir catalog with
  | nil =>
    cases committed
    exact ⟨rfl, intact, by simp⟩
  | cons txn rest ih =>
    simp only [commitAll] at committed
    split at committed
    · rename_i after result version ran
      have first : (dir.commit catalog txn none).2 = some (result, version) := by rw [ran]
      obtain ⟨memory, holds⟩ := commit_succeeded intact (keyed txn List.mem_cons_self) first
      rw [ran] at holds
      obtain ⟨all, whole, loads⟩ := ih holds.intact
        (fun other member => keyed other (List.mem_cons_of_mem _ member)) committed
      refine ⟨?_, whole, fun _ => loads (.inr holds.loads)⟩
      simp only [Catalog.commitAll, memory]
      exact all
    · cases committed

theorem Failure.loads (failure : Failure dir catalog txn left fault) (holds : dir.Holds catalog) :
    left.openCatalog = some catalog ↔
      txn.Conflicts ∨ fault ≠ some .syncBase ∧
        (dir.hint.isSome ∨ ∀ own, fault = some own → own.leavesMetadata = false) := by
  have same : left.hint = dir.hint → left.metadata = dir.metadata →
      left.openCatalog = some catalog := by
    intro hint metadata
    rw [← holds.loads, openCatalog, openCatalog, hint, metadata]
  cases failure with
  | refused conflicts hint metadata => exact iff_of_true (same hint metadata) (.inl conflicts)
  | @early own before hint metadata =>
    refine iff_of_true (same hint metadata) (.inr ⟨?_, .inr ?_⟩)
    · rintro found
      cases found
      rcases before with before | before <;> cases before
    · intro other found
      cases found
      rcases before with before | rfl
      · cases own <;> first | rfl | cases before
      · rfl
  | @unpublished own content valid stage hint metadata =>
    have loads := holds.loads
    unfold openCatalog at loads ⊢
    rw [hint, metadata]
    cases pointed : dir.hint with
    | some version =>
      rw [pointed] at loads
      dsimp only at loads ⊢
      split at loads
      · rename_i manifest found
        injection loads with same
        have other : version ≠ catalog.nextVersion := by
          rw [← same]
          exact (Nat.lt_succ_self version).ne
        rw [Files.read_put_of_ne other, found]
        refine iff_of_true (congrArg some same) (.inr ⟨?_, .inl rfl⟩)
        rintro ⟨⟩
        cases stage
      · cases loads
    | none =>
      refine iff_of_false (by simp [Files.isEmpty, Files.put]) ?_
      rintro (conflicts | ⟨_, found | clean⟩)
      · exact valid conflicts
      · cases found
      · rw [clean own rfl] at stage
        cases stage
  | @published manifest valid hint metadata =>
    refine iff_of_false ?_ ?_
    · rw [openCatalog, hint, metadata]
      simp only [Files.read_write, Option.some.injEq]
      intro same
      have := congrArg Catalog.nextVersion same
      simp at this
    · rintro (conflicts | ⟨other, _⟩)
      · exact valid conflicts
      · exact other rfl

end CatalogDir

/-- After a failed commit, reopening the catalog, at once or after any later successful commits,
loads what the other commits have made, with every deletion vector in its file, exactly if the
failure was not the fsync after the rename and did not leave the first manifest file of a table
without its hint. -/
theorem failed_commit_has_no_effect (dir : CatalogDir) (catalog : Catalog)
    (txn : SnapshotTransaction) (fault : Option CommitFault) (holds : dir.Holds catalog)
    (keyed : txn.Keyed) (failed : (dir.commit catalog txn fault).2 = none) :
    (∀ later last next, (∀ other ∈ later, other.Keyed) →
      CatalogDir.commitAll (dir.commit catalog txn fault).1 catalog later = some (last, next) →
      catalog.commitAll later = some next ∧ last.openCatalog = some next ∧ last.Intact next) ↔
    txn.Conflicts ∨ fault ≠ some .syncBase ∧
      (dir.hint.isSome ∨ ∀ own, fault = some own → own.leavesMetadata = false) := by
  obtain ⟨failure, intact⟩ := CatalogDir.commit_failed holds.intact keyed failed
  rw [← failure.loads holds]
  constructor
  · intro all
    exact (all [] _ _ (by simp) rfl).2.1
  · intro loads later last next keyed committed
    obtain ⟨memory, whole, reopened⟩ := CatalogDir.commitAll_holds intact keyed committed
    exact ⟨memory, reopened (.inr loads), whole⟩

/-- A file with one row. -/
def rowFile : DataFile where
  path := 0
  level := 0
  fileSize := 1
  rows := [⟨⟨[1], List.cons_ne_nil _ _⟩, 1, .put ⟨[]⟩⟩]
  rows_ne := List.cons_ne_nil _ _
  sorted := List.pairwise_singleton _ _

/-- The directory and the catalog after the first commit. -/
def oneCommit : CatalogDir × Option (Catalog × Version) :=
  CatalogDir.empty.commit .empty ⟨[rowFile], [], []⟩ none

def oneCatalog : Catalog := (oneCommit.2.map Prod.fst).getD .empty

/-- Masks the row. -/
def maskRow : SnapshotTransaction := ⟨[], [], [(0, {0})]⟩

theorem oneCommit_holds : oneCommit.1.Holds oneCatalog := by
  have keyed : SnapshotTransaction.Keyed ⟨[rowFile], [], []⟩ := List.nodup_nil
  have committed : oneCommit.2 = some (oneCatalog, oneCatalog.current.toVersion) := by decide
  exact (CatalogDir.commit_succeeded CatalogDir.empty_holds.intact keyed committed).2

theorem failed_commit_has_no_effect_hint :
    (oneCommit.1.commit oneCatalog maskRow (some .syncHint)).2 = none ∧
      (oneCommit.1.commit oneCatalog maskRow (some .syncHint)).1.openCatalog = some oneCatalog := by
  have failed : (oneCommit.1.commit oneCatalog maskRow (some .syncHint)).2 = none := by decide
  have effect := (failed_commit_has_no_effect oneCommit.1 oneCatalog maskRow (some .syncHint)
    oneCommit_holds (List.nodup_singleton _) failed).mpr (.inr ⟨by decide, .inl (by decide)⟩)
  exact ⟨failed, (effect [] _ _ (by simp) rfl).2.1⟩

/-- When the fsync after the rename fails, the failed transaction is loaded and the Puffin file it
refers to has been removed; when the first commit fails after its manifest file was written, the
catalog cannot be opened any more. -/
theorem failed_commit_is_loaded :
    (oneCommit.1.commit oneCatalog maskRow (some .syncBase)).2 = none ∧
      (∃ next, (oneCommit.1.commit oneCatalog maskRow (some .syncBase)).1.openCatalog = some next ∧
        next ≠ oneCatalog ∧ ∃ ref ∈ next.current.live, ∃ dv, ref.dv = some dv ∧
          (oneCommit.1.commit oneCatalog maskRow (some .syncBase)).1.puffins.read dv.path = none) ∧
    (CatalogDir.empty.commit .empty ⟨[rowFile], [], []⟩ (some .writeHint)).2 = none ∧
      (CatalogDir.empty.commit .empty ⟨[rowFile], [], []⟩ (some .writeHint)).1.openCatalog
        = none := by
  refine ⟨by decide,
    ⟨_, rfl, by decide, ⟨rowFile, some ⟨(0, 2), {0}⟩⟩, by decide, _, rfl, by decide⟩,
    by decide, by decide⟩

end Merutable
