import Mathlib.Data.Fintype.Quotient
import Merutable.Foundation.Files
import Merutable.Iceberg
import Merutable.Iceberg.Protobuf

/-! `IcebergCatalog::commit` on real manifests and Puffin files: what happens to the deletion
vectors of the table. -/

namespace Merutable.Iceberg

open Foundation

namespace FilePath

/-- `Path::file_stem`: the name up to its last dot, unless that is all of it or nothing. -/
def fileStem (path : FilePath) : Option String :=
  if path.name ∈ ["", ".", ".."] then none
  else
    let before := ((path.name.toList.reverse.dropWhile (· ≠ '.')).drop 1).reverse
    some (if before = [] then path.name else String.ofList before)

/-- The stem that Puffin files are named after. -/
def stem (path : FilePath) : String := path.fileStem.getD "unknown"

/-- `Path::parent`, which only the empty path lacks. -/
def levelDir (path : FilePath) : List String :=
  if path.parent = [] ∧ path.name = "" then ["data", "L0"] else path.parent

def puffinName (stem : String) (snapshotId : Int) : String :=
  stem ++ ".dv-" ++ snapshotId.repr ++ ".puffin"

/-- The Puffin file of a data file in one snapshot. -/
def puffin (path : FilePath) (snapshotId : Int) : FilePath :=
  ⟨path.levelDir, puffinName path.stem snapshotId⟩

def metadata (snapshotId : Int) : FilePath :=
  ⟨["metadata"], "v" ++ snapshotId.repr ++ ".metadata.pb"⟩

def versionHint : FilePath := ⟨[], "version-hint.text"⟩

end FilePath

section Names

theorem append_cons_inj {a b d e : List Char} {mark : Char} (left : mark ∉ d) (right : mark ∉ e)
    (same : a ++ mark :: d = b ++ mark :: e) : a = b ∧ d = e := by
  rcases List.append_eq_append_iff.mp same with ⟨c, rfl, rest⟩ | ⟨c, rfl, rest⟩
  · cases c with
    | nil => exact ⟨(List.append_nil a).symm, (List.cons.inj rest).2⟩
    | cons first c =>
      rw [(List.cons.inj rest).2] at left
      exact absurd (List.mem_append_right c List.mem_cons_self) left
  · cases c with
    | nil => exact ⟨List.append_nil b, (List.cons.inj rest).2.symm⟩
    | cons first c =>
      rw [(List.cons.inj rest).2] at right
      exact absurd (List.mem_append_right c List.mem_cons_self) right

theorem dash_notMem_toDigits (n : Nat) : '-' ∉ Nat.toDigits 10 n := fun member =>
  absurd (Nat.isDigit_of_mem_toDigits (by decide) (by decide) member) (by decide)

theorem toDigits_inj {n m : Nat} (same : Nat.toDigits 10 n = Nat.toDigits 10 m) : n = m := by
  rw [← @Nat.ofDigitChars_ten_toDigits n, same, Nat.ofDigitChars_ten_toDigits]

theorem puffinName_toList (stem : String) (n : Nat) :
    (FilePath.puffinName stem n).toList =
      (stem.toList ++ ['.', 'd', 'v']) ++ '-' :: Nat.toDigits 10 n ++ ".puffin".toList := by
  rw [FilePath.puffinName, String.toList_append, String.toList_append, String.toList_append,
    show ".dv-".toList = ['.', 'd', 'v'] ++ ['-'] from rfl]
  change _ ++ (Nat.repr n).toList ++ _ = _
  rw [Nat.toList_repr]
  simp

theorem puffinName_inj {stem other : String} {n m : Int} (positive : 0 ≤ n) (positive' : 0 ≤ m)
    (same : FilePath.puffinName stem n = FilePath.puffinName other m) : stem = other ∧ n = m := by
  obtain ⟨n, rfl⟩ := Int.eq_ofNat_of_zero_le positive
  obtain ⟨m, rfl⟩ := Int.eq_ofNat_of_zero_le positive'
  have chars := congrArg String.toList same
  rw [puffinName_toList, puffinName_toList] at chars
  obtain ⟨stems, digits⟩ := append_cons_inj (dash_notMem_toDigits n) (dash_notMem_toDigits m)
    (List.append_cancel_right chars)
  exact ⟨String.toList_inj.mp (List.append_cancel_right stems), by rw [toDigits_inj digits]⟩

theorem puffin_inj {path other : FilePath} {n m : Int} (positive : 0 ≤ n) (positive' : 0 ≤ m)
    (same : path.puffin n = other.puffin m) : path.stem = other.stem ∧ n = m :=
  puffinName_inj positive positive' (congrArg FilePath.name same)

theorem puffin_last (path : FilePath) (n : Int) :
    (path.puffin n).name.toList.getLast? = some 'n' := by
  rw [FilePath.puffin, FilePath.puffinName, String.toList_append, List.getLast?_append]
  rfl

theorem puffin_ne_metadata (path : FilePath) (n m : Int) : path.puffin n ≠ .metadata m := by
  intro same
  have last := puffin_last path n
  rw [same, FilePath.metadata, String.toList_append, List.getLast?_append] at last
  have wrong : some 'b' = some 'n' := last
  exact absurd wrong (by decide)

theorem puffin_ne_versionHint (path : FilePath) (n : Int) : path.puffin n ≠ .versionHint := by
  intro same
  have last := puffin_last path n
  rw [same] at last
  exact absurd last (by decide)

end Names

/-- The catalog and the files under its directory. -/
structure Catalog where
  current : Manifest
  nextVersion : Int
  files : Files FilePath Bytes

/-- The libraries of a commit. -/
structure CommitLib where
  puffin : Puffin.Lib
  wire : WireLib

def readFile (files : Files FilePath Bytes) (path : FilePath) : Except MeruError Bytes :=
  match files.read path with
  | some (some data) => .ok data
  | _ => .error (.io "No such file or directory (os error 2)")

section Vectors

variable (lib : Puffin.Lib)

/-- The slice of the Puffin file at the coordinates of the vector. -/
def readSlice (path : FilePath) (data : Bytes) (offset length : Int) : Except MeruError Bytes :=
  let name := path.text
  let size := data.length
  Puffin.blobAt data offset length
    s!"existing DV for '{name}' has negative offset ({offset}) or length ({length})"
    s!"existing DV for '{name}' offset {offset} + length {length} overflows usize"
    (s!"existing DV blob for '{name}' at offset {offset} length {length} " ++
      s!"exceeds puffin file size {size}")

/-- The vector that the entry refers to, if it has all three coordinates. -/
def loadVector (files : Files FilePath Bytes) (entry : ManifestEntry) :
    Except MeruError (Option (Finset UInt32)) :=
  match entry.dvPath, entry.dvOffset, entry.dvLength with
  | some dvPath, some offset, some length => do
      let data ← readFile files dvPath
      let blob ← readSlice entry.path data offset length
      let vector ← Puffin.fromPuffinBlob lib blob
      return some vector
  | _, _, _ => .ok none

/-- The union of the vector the file has and the new one. -/
def mergedVector (current : Manifest) (files : Files FilePath Bytes) (path : FilePath)
    (newDv : Finset UInt32) : Except MeruError (Finset UInt32) :=
  match current.entries.find? fun entry => entry.live ∧ entry.path = path with
  | none => .ok newDv
  | some entry => do
      match ← loadVector lib files entry with
      | none => return newDv
      | some existing =>
        let merged := existing ∪ newDv
        let name := path.text
        let existingCard := existing.card
        let newCard := newDv.card
        let mergedCard := merged.card
        okIf (max existingCard newCard ≤ mergedCard) (.corruption
          (s!"DV union for '{name}' shrank: existing={existingCard} new={newCard} " ++
            s!"merged={mergedCard}"))
        return merged

/-- Writes the Puffin files of a transaction and notes where their blobs are. -/
def uploadVectors (current : Manifest) (snapshotId : Int) :
    Files FilePath Bytes → List (FilePath × Finset UInt32) →
      Except MeruError (Files FilePath Bytes × List (FilePath × DvLocation))
  | files, [] => .ok (files, [])
  | files, (path, newDv) :: rest => do
      let merged ← mergedVector lib current files path newDv
      let encoded ← Puffin.encodePuffin lib merged path.text snapshotId snapshotId
      let (last, locations) ← uploadVectors current snapshotId
        (files.write (path.puffin snapshotId) encoded.bytes) rest
      return (last, (path, ⟨path.puffin snapshotId, encoded.blobOffset, encoded.blobLength⟩) ::
        locations)

end Vectors

/-- A commit whose file operations all succeed. The version goes up from one by one; its overflow
panics. -/
def Catalog.commit (catalog : Catalog) (lib : CommitLib) (checked : Bool) (stamp : Stamp)
    (txn : SnapshotTransaction) : Except MeruError Catalog := do
  let newSnapshotId := catalog.nextVersion
  let (files, locations) ← uploadVectors lib.puffin catalog.current newSnapshotId catalog.files
    txn.dvs
  let newManifest ← catalog.current.apply checked stamp txn newSnapshotId locations
  let pbBytes ← newManifest.toProtobuf lib.wire
  let nextVersion ← addI64 true newSnapshotId 1
  return {
    current := newManifest
    nextVersion := nextVersion
    files := (files.write (.metadata newSnapshotId) pbBytes).write .versionHint
      (newSnapshotId.repr.toUTF8.toList) }

section Upload

variable {lib : Puffin.Lib} {current : Manifest} {snapshotId : Int}
  {files last : Files FilePath Bytes} {dvs : List (FilePath × Finset UInt32)}
  {locations : List (FilePath × DvLocation)}

theorem encodePuffin_ok {bitmap : Finset UInt32} {path : String} {id number : Int}
    {encoded : Puffin.Encoded}
    (done : Puffin.encodePuffin lib bitmap path id number = .ok encoded) :
    Puffin.innerLen lib bitmap < 2 ^ 32 ∧ ∃ footer, encoded =
      ⟨Puffin.puffinFile lib bitmap footer, Puffin.puffinMagic.length,
        (Puffin.blobData lib bitmap).length⟩ := by
  simp only [Puffin.encodePuffin, Except.seq_eq_ok, okIf_eq_ok] at done
  exact ⟨done.1, _, (Except.ok.inj done.2.2).symm⟩

theorem uploadVectors_frame
    (done : uploadVectors lib current snapshotId files dvs = .ok (last, locations))
    {path : FilePath}
    (other : ∀ target ∈ dvs.map Prod.fst, path ≠ target.puffin snapshotId) :
    last.read path = files.read path := by
  induction dvs generalizing files locations with
  | nil =>
    cases done
    rfl
  | cons dv dvs ih =>
    simp only [uploadVectors, Except.bind_eq_ok] at done
    obtain ⟨merged, _, encoded, _, ⟨after, _⟩, later, value⟩ := done
    cases value
    rw [List.map_cons, List.forall_mem_cons] at other
    rw [ih later other.2, Files.read_write_of_ne other.1]

/-- What a transaction has stored for one of its vectors. -/
structure Uploaded (lib : Puffin.Lib) (current : Manifest) (snapshotId : Int)
    (files last : Files FilePath Bytes) (locations : List (FilePath × DvLocation))
    (path : FilePath) (newDv merged : Finset UInt32) : Prop where
  union : ∃ seen : Files FilePath Bytes,
    (∀ other, (∀ target : FilePath, other ≠ target.puffin snapshotId) →
      seen.read other = files.read other) ∧ mergedVector lib current seen path newDv = .ok merged
  fits : Puffin.innerLen lib merged < 2 ^ 32
  stored : ∃ footer,
    last.read (path.puffin snapshotId) = some (some (Puffin.puffinFile lib merged footer))
  located : locations.lookup path = some ⟨path.puffin snapshotId, Puffin.puffinMagic.length,
    (Puffin.blobData lib merged).length⟩

theorem uploadVectors_uploaded (positive : 0 ≤ snapshotId)
    (done : uploadVectors lib current snapshotId files dvs = .ok (last, locations))
    (stems : (dvs.map fun dv => dv.1.stem).Nodup) :
    ∀ dv ∈ dvs, ∃ merged,
      Uploaded lib current snapshotId files last locations dv.1 dv.2 merged := by
  induction dvs generalizing files locations with
  | nil => simp
  | cons first dvs ih =>
    simp only [uploadVectors, Except.bind_eq_ok] at done
    obtain ⟨merged, union, encoded, encodes, ⟨after, others⟩, later, value⟩ := done
    cases value
    rw [List.map_cons, List.nodup_cons] at stems
    obtain ⟨fits, footer, rfl⟩ := encodePuffin_ok encodes
    have apart : ∀ dv ∈ dvs, first.1.stem ≠ dv.1.stem := fun dv member same =>
      stems.1 (List.mem_map.mpr ⟨dv, member, same.symm⟩)
    refine List.forall_mem_cons.mpr ⟨⟨merged, ⟨files, fun _ _ => rfl, union⟩, fits,
      ⟨footer, ?_⟩, ?_⟩,
      fun dv member => ?_⟩
    · rw [uploadVectors_frame later, Files.read_write]
      intro target member same
      obtain ⟨dv, inside, rfl⟩ := List.mem_map.mp member
      exact apart dv inside (puffin_inj positive positive same).1
    · rw [List.lookup_cons_self]
    · obtain ⟨union, uploaded⟩ := ih later stems.2 dv member
      obtain ⟨seen, frame, merges⟩ := uploaded.union
      refine ⟨union, ⟨seen, fun other free => ?_, merges⟩, uploaded.fits, uploaded.stored, ?_⟩
      · rw [frame other free, Files.read_write_of_ne (free _)]
      · have different : dv.1 ≠ first.1 := fun same => apart dv member (by rw [same])
        rw [List.lookup_cons, beq_false_of_ne different]
        exact uploaded.located

end Upload

section Load

variable {lib : Puffin.Lib} {files : Files FilePath Bytes} {bound : Int} {entry : ManifestEntry}
  {vector : Finset UInt32} {path : FilePath}

/-- The entry refers to a Puffin file of an earlier snapshot that holds the vector, or to none. -/
inductive Refers (lib : Puffin.Lib) (files : Files FilePath Bytes) (bound : Int)
    (entry : ManifestEntry) : Finset UInt32 → Prop
  | absent (path : entry.dvPath = none) : Refers lib files bound entry ∅
  | stored {vector : Finset UInt32} (snapshotId : Int) (footer : Bytes)
      (positive : 0 ≤ snapshotId) (earlier : snapshotId < bound)
      (path : entry.dvPath = some (entry.path.puffin snapshotId))
      (offset : entry.dvOffset = some (Puffin.puffinMagic.length : Int))
      (length : entry.dvLength = some ((Puffin.blobData lib vector).length : Int))
      (content : files.read (entry.path.puffin snapshotId) =
        some (some (Puffin.puffinFile lib vector footer)))
      (fits : Puffin.innerLen lib vector < 2 ^ 32) : Refers lib files bound entry vector

theorem Refers.load (known : ∀ bitmap, lib.deserialize (lib.serialize bitmap) = .ok bitmap)
    (refers : Refers lib files bound entry vector) :
    ∃ found, loadVector lib files entry = .ok found ∧ found.getD ∅ = vector := by
  cases refers with
  | absent path => exact ⟨none, by rw [loadVector, path], rfl⟩
  | stored snapshotId footer positive earlier path offset length content fits =>
    refine ⟨some vector, ?_, rfl⟩
    have decoded := Puffin.decodeDvBlob_encode fits (known vector)
    have read : readFile files (entry.path.puffin snapshotId) =
        .ok (Puffin.puffinFile lib vector footer) := by rw [readFile, content]
    rw [loadVector, path, offset, length]
    exact Except.bind_eq_ok.mpr ⟨_, read, Except.bind_eq_ok.mpr ⟨_, Puffin.blobAt_file fits,
      Except.bind_eq_ok.mpr ⟨_, decoded, rfl⟩⟩⟩

theorem mergedVector_eq {current : Manifest} {newDv merged : Finset UInt32}
    (known : ∀ bitmap, lib.deserialize (lib.serialize bitmap) = .ok bitmap)
    (found : current.entries.find? (fun entry => entry.live ∧ entry.path = path) = some entry)
    (refers : Refers lib files bound entry vector)
    (done : mergedVector lib current files path newDv = .ok merged) : merged = vector ∪ newDv := by
  obtain ⟨existing, loaded, same⟩ := refers.load known
  simp only [mergedVector, found, loaded] at done
  cases existing with
  | none =>
    cases done
    rw [← same, Option.getD_none, Finset.empty_union]
  | some existing =>
    have value := (Except.seq_eq_ok.mp done).2
    rw [← same, ← Except.ok.inj value, Option.getD_some]

end Load

section Frame

variable {lib : Puffin.Lib} {files last : Files FilePath Bytes} {bound later : Int}
  {entry new : ManifestEntry} {vector : Finset UInt32}

theorem Refers.frame (refers : Refers lib files bound entry vector) (ahead : bound ≤ later)
    (kept : ∀ (path : FilePath) (snapshotId : Int), 0 ≤ snapshotId → snapshotId < bound →
      last.read (path.puffin snapshotId) = files.read (path.puffin snapshotId))
    (path : new.path = entry.path) (dvPath : new.dvPath = entry.dvPath)
    (dvOffset : new.dvOffset = entry.dvOffset) (dvLength : new.dvLength = entry.dvLength) :
    Refers lib last later new vector := by
  cases refers with
  | absent none => exact .absent (dvPath.trans none)
  | stored snapshotId footer positive earlier location offset length content fits =>
    refine .stored snapshotId footer positive (earlier.trans_le ahead) ?_ (dvOffset.trans offset)
      (dvLength.trans length) ?_ fits
    · rw [dvPath, location, path]
    · rw [path, kept _ _ positive earlier, content]

end Frame

/-- The vector of the transaction for a file; empty if it has none. -/
def SnapshotTransaction.vector (txn : SnapshotTransaction) (path : FilePath) : Finset UInt32 :=
  (txn.dvs.lookup path).getD ∅

theorem addDv_keys (dvs : List (FilePath × Finset UInt32)) (path : FilePath) (dv : Finset UInt32) :
    (Merutable.SnapshotTransaction.addDv dvs path dv).map Prod.fst =
      if path ∈ dvs.map Prod.fst then dvs.map Prod.fst else dvs.map Prod.fst ++ [path] := by
  induction dvs with
  | nil => rfl
  | cons first dvs ih =>
    rw [Merutable.SnapshotTransaction.addDv]
    by_cases same : first.1 = path
    · simp [same]
    · rw [if_neg same, List.map_cons, ih]
      by_cases member : path ∈ dvs.map Prod.fst
      · rw [if_pos member, List.map_cons, if_pos (List.mem_cons_of_mem _ member)]
      · have absent : path ∉ first.1 :: dvs.map Prod.fst := by
          rw [List.mem_cons, not_or]
          exact ⟨fun equal => same equal.symm, member⟩
        rw [if_neg member, List.map_cons, if_neg absent, List.cons_append]

namespace SnapshotTransaction

def addDv (txn : SnapshotTransaction) (path : FilePath) (dv : Finset UInt32) :
    SnapshotTransaction where
  adds := txn.adds
  removes := txn.removes
  dvs := Merutable.SnapshotTransaction.addDv txn.dvs path dv
  props := txn.props
  keyed := by
    rw [addDv_keys]
    split
    · exact txn.keyed
    · rename_i absent
      exact List.nodup_append.mpr ⟨txn.keyed, List.nodup_singleton _, fun known member other only =>
        fun same => absent (List.mem_singleton.mp only ▸ same ▸ member)⟩

end SnapshotTransaction

/-- The union of all vectors committed for a file. -/
def committed (past : List SnapshotTransaction) (path : FilePath) : Finset UInt32 :=
  past.foldl (fun union txn => union ∪ txn.vector path) ∅

def addedPaths (past : List SnapshotTransaction) : List FilePath :=
  past.flatMap fun txn => txn.adds.map IcebergDataFile.path

/-- Successful commits on a new catalog. Vectors are for files that are live before the commit, and
no two files that were ever added share their stem. -/
inductive Commits (lib : CommitLib) (checked : Bool) : List SnapshotTransaction → Catalog → Prop
  | opened (schema : TableSchema) (stamp : Stamp) (files : Files FilePath Bytes) :
      Commits lib checked [] ⟨Manifest.empty schema stamp, 1, files⟩
  | commit {past : List SnapshotTransaction} {catalog next : Catalog} {stamp : Stamp}
      {txn : SnapshotTransaction} (before : Commits lib checked past catalog)
      (live : ∀ path ∈ txn.paths, ∃ entry ∈ catalog.current.entries,
        entry.live ∧ entry.path = path)
      (stems : ((addedPaths (past ++ [txn])).map FilePath.stem).Nodup)
      (done : catalog.commit lib checked stamp txn = .ok next) :
      Commits lib checked (past ++ [txn]) next

section Commits

variable {lib : CommitLib} {checked : Bool} {past more : List SnapshotTransaction}
  {catalog next : Catalog} {stamp : Stamp} {txn : SnapshotTransaction} {path : FilePath}
  {locations : List (FilePath × DvLocation)} {files : Files FilePath Bytes}

theorem committed_append (path : FilePath) :
    committed (past ++ [txn]) path = committed past path ∪ txn.vector path := by
  rw [committed, List.foldl_append]
  rfl

theorem addedPaths_append :
    addedPaths (past ++ [txn]) = addedPaths past ++ txn.adds.map IcebergDataFile.path := by
  simp [addedPaths]

theorem vector_of_notMem (absent : path ∉ txn.paths) : txn.vector path = ∅ := by
  have missing : txn.dvs.lookup path = none := List.lookup_eq_none_iff.mpr fun dv member =>
    bne_iff_ne.mpr fun same => absent (List.mem_map.mpr ⟨dv, member, same.symm⟩)
  rw [SnapshotTransaction.vector, missing, Option.getD_none]

theorem vector_of_mem (member : path ∈ txn.paths) :
    (path, txn.vector path) ∈ txn.dvs := by
  cases found : txn.dvs.lookup path with
  | none =>
    obtain ⟨dv, inside, rfl⟩ := List.mem_map.mp member
    exact absurd (List.lookup_eq_none_iff.mp found dv inside) (by simp)
  | some dv =>
    obtain ⟨front, back, whole, _⟩ := List.lookup_eq_some_iff.mp found
    rw [SnapshotTransaction.vector, found, Option.getD_some, whole]
    exact List.mem_append_right _ List.mem_cons_self

theorem committed_eq_empty (unused : ∀ txn ∈ past, path ∉ txn.paths) :
    committed past path = ∅ := by
  induction past using List.reverseRecOn with
  | nil => rfl
  | append_singleton past txn ih =>
    rw [List.forall_mem_append, List.forall_mem_singleton] at unused
    rw [committed_append, ih unused.1, vector_of_notMem unused.2, Finset.empty_union]

/-- What successful commits keep true. -/
structure Vectors (lib : Puffin.Lib) (past : List SnapshotTransaction) (catalog : Catalog) :
    Prop where
  version : 0 ≤ catalog.nextVersion
  entries : ∀ entry ∈ catalog.current.entries, entry.path ∈ addedPaths past
  unique : (catalog.current.entries.map ManifestEntry.path).Nodup
  targets : ∀ txn ∈ past, ∀ path ∈ txn.paths, path ∈ addedPaths past
  refers : ∀ entry ∈ catalog.current.entries,
    Refers lib catalog.files catalog.nextVersion entry (committed past entry.path)

/-- What a successful commit has done. -/
structure Committed (catalog : Catalog) (lib : CommitLib) (checked : Bool)
    (txn : SnapshotTransaction) (next : Catalog) : Prop where
  version : next.nextVersion = catalog.nextVersion + 1
  stored : ∃ files locations,
    uploadVectors lib.puffin catalog.current catalog.nextVersion catalog.files txn.dvs =
      .ok (files, locations) ∧
    Manifest.Applied catalog.current checked txn locations next.current ∧
    ∀ (path : FilePath) (snapshotId : Int),
      next.files.read (path.puffin snapshotId) = files.read (path.puffin snapshotId)

theorem commit_eq_ok (done : catalog.commit lib checked stamp txn = .ok next) :
    Committed catalog lib checked txn next := by
  simp only [Catalog.commit, Except.bind_eq_ok] at done
  obtain ⟨⟨files, locations⟩, uploaded, manifest, applied, bytes, _, version, counted,
    value⟩ := done
  cases value
  refine ⟨addI64_checked counted, files, locations, uploaded, Manifest.apply_eq_ok applied,
    fun path snapshotId => ?_⟩
  rw [Files.read_write_of_ne (puffin_ne_versionHint path snapshotId),
    Files.read_write_of_ne (puffin_ne_metadata path snapshotId _)]

theorem refers_carried {old new : ManifestEntry}
    (uploaded : ∀ path ∈ txn.paths, Uploaded lib.puffin catalog.current catalog.nextVersion
      catalog.files files locations path (txn.vector path) (committed (past ++ [txn]) path))
    (version : 0 ≤ catalog.nextVersion) (ahead : next.nextVersion = catalog.nextVersion + 1)
    (reads : ∀ (path : FilePath) (id : Int), next.files.read (path.puffin id) = files.read
      (path.puffin id))
    (kept : ∀ (path : FilePath) (id : Int), 0 ≤ id → id < catalog.nextVersion →
      next.files.read (path.puffin id) = catalog.files.read (path.puffin id))
    (refers : Refers lib.puffin catalog.files catalog.nextVersion old (committed past old.path))
    (inherits : Manifest.Inherits (Manifest.stampVector txn locations old) new) :
    Refers lib.puffin next.files next.nextVersion new (committed (past ++ [txn]) new.path) := by
  have same := inherits.same
  have path : new.path = old.path := by rw [same, Manifest.stampVector_path]
  by_cases member : old.path ∈ txn.paths
  · have upload := uploaded old.path member
    obtain ⟨footer, stored⟩ := upload.stored
    rw [Manifest.stampVector, if_pos member, upload.located] at same
    rw [path]
    refine .stored catalog.nextVersion footer version (by omega) ?_ ?_ ?_ ?_ upload.fits
    · rw [same]
      rfl
    · rw [same]
      rfl
    · rw [same]
      rfl
    · rw [path, reads, stored]
  · rw [Manifest.stampVector, if_neg member] at same
    rw [path, committed_append, vector_of_notMem member, Finset.union_empty]
    refine refers.frame (by omega) kept path ?_ ?_ ?_
    · rw [same]
    · rw [same]
    · rw [same]

section

variable (vectors : Vectors lib.puffin past catalog)
  (live : ∀ path ∈ txn.paths, ∃ entry ∈ catalog.current.entries, entry.live ∧ entry.path = path)
include vectors live

theorem Vectors.targets_next : ∀ other ∈ past ++ [txn], ∀ path ∈ other.paths,
    path ∈ addedPaths past := by
  refine List.forall_mem_append.mpr ⟨vectors.targets, List.forall_mem_singleton.mpr ?_⟩
  intro target inTxn
  obtain ⟨entry, inEntries, _, rfl⟩ := live target inTxn
  exact vectors.entries entry inEntries

theorem committed_added
    (stems : ((addedPaths (past ++ [txn])).map FilePath.stem).Nodup) {add : IcebergDataFile}
    (member : add ∈ txn.adds) : committed (past ++ [txn]) add.path = ∅ := by
  rw [addedPaths_append] at stems
  refine committed_eq_empty fun other inPast inOther => ?_
  exact (List.nodup_append.mp stems.of_map).2.2 _ (vectors.targets_next live other inPast _ inOther)
    _ (List.mem_map_of_mem member) rfl

theorem uploaded_union
    (known : ∀ bitmap, lib.puffin.deserialize (lib.puffin.serialize bitmap) = .ok bitmap)
    (stems : ((addedPaths past).map FilePath.stem).Nodup)
    (uploaded : uploadVectors lib.puffin catalog.current catalog.nextVersion catalog.files
      txn.dvs = .ok (files, locations))
    (member : path ∈ txn.paths) :
    Uploaded lib.puffin catalog.current catalog.nextVersion catalog.files files locations path
      (txn.vector path) (committed (past ++ [txn]) path) := by
  have inside := vectors.targets_next live txn (by simp)
  have apart : (txn.dvs.map fun dv => dv.1.stem).Nodup := by
    have split : txn.dvs.map (fun dv => dv.1.stem) = txn.paths.map FilePath.stem := by
      rw [SnapshotTransaction.paths, List.map_map]
      rfl
    rw [split]
    refine List.Nodup.map_on (fun one inOne other inOther same => ?_) txn.keyed
    exact List.inj_on_of_nodup_map stems (inside one inOne) (inside other inOther) same
  obtain ⟨merged, upload⟩ := uploadVectors_uploaded vectors.version uploaded apart _
    (vector_of_mem member)
  obtain ⟨seen, frame, merges⟩ := upload.union
  obtain ⟨entry, inEntries, alive, own⟩ := live path member
  have some : (catalog.current.entries.find?
      fun entry => entry.live ∧ entry.path = path).isSome := by
    rw [List.find?_isSome]
    exact ⟨entry, inEntries, by simp [alive, own]⟩
  obtain ⟨first, found⟩ := Option.isSome_iff_exists.mp some
  have firstPath : first.path = path := by
    have matching := List.find?_some found
    simp only [decide_eq_true_eq] at matching
    exact matching.2
  have refers := vectors.refers first (List.mem_of_find?_eq_some found)
  have seenRefers : Refers lib.puffin seen catalog.nextVersion first
    (committed past first.path) := by
    refine refers.frame le_rfl (fun target id positive earlier => frame _ fun other same => ?_)
      rfl rfl rfl rfl
    have equal := (puffin_inj positive vectors.version same).2
    omega
  have union := mergedVector_eq known found seenRefers merges
  rw [firstPath, ← committed_append] at union
  rwa [union] at upload

theorem vectors_step
    (known : ∀ bitmap, lib.puffin.deserialize (lib.puffin.serialize bitmap) = .ok bitmap)
    (stems : ((addedPaths (past ++ [txn])).map FilePath.stem).Nodup)
    (done : catalog.commit lib checked stamp txn = .ok next) :
    Vectors lib.puffin (past ++ [txn]) next := by
  obtain ⟨version, files, locations, uploaded, applied, reads⟩ := commit_eq_ok done
  obtain ⟨inherited, added, whole, olds, adds⟩ := applied.parts
  have kept : ∀ (path : FilePath) (id : Int), 0 ≤ id → id < catalog.nextVersion →
      next.files.read (path.puffin id) = catalog.files.read (path.puffin id) := by
    intro path id positive earlier
    rw [reads, uploadVectors_frame uploaded]
    intro target _ same
    have equal := (puffin_inj positive vectors.version same).2
    omega
  have earlier := stems
  rw [addedPaths_append, List.map_append] at earlier
  refine ⟨by have := vectors.version; omega, ?_, ?_, ?_, ?_⟩
  · rw [whole, addedPaths_append]
    refine List.forall_mem_append.mpr ⟨fun entry member => ?_, fun entry member => ?_⟩
    · obtain ⟨old, inKept, inherits⟩ := exists_left_of_forall₂ olds entry member
      rw [inherits.same, Manifest.stampVector_path]
      exact List.mem_append_left _ (vectors.entries old (List.mem_of_mem_filter inKept))
    · obtain ⟨add, inAdds, id, rfl⟩ := exists_left_of_forall₂ adds entry member
      exact List.mem_append_right _ (List.mem_map_of_mem inAdds)
  · have olds' : inherited.map ManifestEntry.path = (catalog.current.kept txn).map
        ManifestEntry.path := map_eq_of_forall₂ olds.flip fun _ _ inherits => by
      rw [inherits.same, Manifest.stampVector_path]
    have adds' : added.map ManifestEntry.path = txn.adds.map IcebergDataFile.path :=
      map_eq_of_forall₂ adds.flip fun _ _ ⟨_, same⟩ => same ▸ rfl
    obtain ⟨_, fresh, apart⟩ := List.nodup_append.mp (addedPaths_append ▸ stems.of_map)
    rw [whole, List.map_append, olds', adds']
    refine List.nodup_append.mpr ⟨vectors.unique.sublist (List.filter_sublist.map _), fresh, ?_⟩
    intro path inKept
    obtain ⟨old, member, rfl⟩ := List.mem_map.mp inKept
    exact apart _ (vectors.entries old (List.mem_of_mem_filter member))
  · intro other member path inOther
    rw [addedPaths_append]
    exact List.mem_append_left _ (vectors.targets_next live other member path inOther)
  · rw [whole]
    refine List.forall_mem_append.mpr ⟨fun entry member => ?_, fun entry member => ?_⟩
    · obtain ⟨old, inKept, inherits⟩ := exists_left_of_forall₂ olds entry member
      exact refers_carried (fun path inTxn => uploaded_union vectors live known
        earlier.of_append_left uploaded inTxn) vectors.version version reads kept
        (vectors.refers old (List.mem_of_mem_filter inKept)) inherits
    · obtain ⟨add, inAdds, id, rfl⟩ := exists_left_of_forall₂ adds entry member
      change Refers _ _ _ _ (committed (past ++ [txn]) add.path)
      rw [committed_added vectors live stems inAdds]
      exact .absent rfl

end

theorem Commits.vectors
    (known : ∀ bitmap, lib.puffin.deserialize (lib.puffin.serialize bitmap) = .ok bitmap)
    (run : Commits lib checked past catalog) :
    Vectors lib.puffin past catalog := by
  induction run with
  | opened schema stamp files =>
    exact ⟨Int.one_nonneg, fun _ member => absurd member List.not_mem_nil, List.nodup_nil,
      fun _ member => absurd member List.not_mem_nil,
      fun _ member => absurd member List.not_mem_nil⟩
  | commit _ live stems done ih => exact vectors_step ih live known stems done

theorem committed_subset (path : FilePath) :
    committed past path ⊆ committed (past ++ more) path := by
  induction more using List.reverseRecOn with
  | nil => rw [List.append_nil]
  | append_singleton more txn ih =>
    rw [← List.append_assoc, committed_append]
    exact ih.trans Finset.subset_union_left

/-- After every commit the vector that a live file refers to decodes to the union of all vectors
committed for it, so it never shrinks. -/
theorem vectors_accumulate (lib : CommitLib) (checked : Bool)
    (known : ∀ bitmap, lib.puffin.deserialize (lib.puffin.serialize bitmap) = .ok bitmap)
    (past more : List SnapshotTransaction) (catalog last : Catalog)
    (run : Commits lib checked past catalog) (longer : Commits lib checked (past ++ more) last) :
    (∀ entry ∈ catalog.current.entries, entry.live → ∃ found,
        loadVector lib.puffin catalog.files entry = .ok found ∧
          found.getD ∅ = committed past entry.path) ∧
      ∀ entry ∈ catalog.current.entries, entry.live → ∀ later ∈ last.current.entries, later.live →
        later.path = entry.path → ∃ found grown,
          loadVector lib.puffin catalog.files entry = .ok found ∧
          loadVector lib.puffin last.files later = .ok grown ∧ found.getD ∅ ⊆ grown.getD ∅ := by
  refine ⟨fun entry member _ => ((run.vectors known).refers entry member).load known, ?_⟩
  intro entry member _ later laterMember _ same
  obtain ⟨found, loaded, union⟩ := ((run.vectors known).refers entry member).load known
  obtain ⟨grown, reloaded, larger⟩ := ((longer.vectors known).refers later laterMember).load known
  refine ⟨found, grown, loaded, reloaded, ?_⟩
  rw [union, larger, same]
  exact committed_subset entry.path

end Commits

namespace Sample

section Words

/-- The positions in ascending order. -/
def positions (bitmap : Finset UInt32) : List Nat :=
  Quotient.liftOn bitmap.val (fun items => (items.map UInt32.toNat).insertionSort (· ≤ ·))
    fun _ _ same => List.Perm.eq_of_pairwise' (List.pairwise_insertionSort _ _)
      (List.pairwise_insertionSort _ _)
      (((List.perm_insertionSort _ _).trans (same.map _)).trans (List.perm_insertionSort _ _).symm)

def words : Bytes → List Nat
  | a :: b :: c :: d :: rest => Wal.ofLe [a, b, c, d] :: words rest
  | _ => []

theorem mem_positions {bitmap : Finset UInt32} {n : Nat} :
    n ∈ positions bitmap ↔ ∃ row ∈ bitmap, row.toNat = n := by
  obtain ⟨items, nodup⟩ := bitmap
  induction items using Quotient.inductionOn with
  | h items => simp [positions]

theorem words_flatMap {items : List Nat} (small : ∀ n ∈ items, n < 2 ^ 32) :
    words (items.flatMap (Wal.toLe 4)) = items := by
  induction items with
  | nil => rfl
  | cons n items ih =>
    rw [List.forall_mem_cons] at small
    have here : Wal.ofLe (Wal.toLe 4 n) = n := Wal.ofLe_toLe (lt_of_lt_of_eq small.1 (by decide))
    calc words ((n :: items).flatMap (Wal.toLe 4))
        = Wal.ofLe (Wal.toLe 4 n) :: words (items.flatMap (Wal.toLe 4)) := rfl
      _ = n :: items := by rw [here, ih small.2]

end Words

/-- Vectors stored as their positions, with the footer of a file. -/
def puffinLib : Puffin.Lib where
  serialize bitmap := (positions bitmap).flatMap (Wal.toLe 4)
  deserialize bytes := .ok ((words bytes).map UInt32.ofNat).toFinset
  printFooter := Puffin.sampleLib.printFooter
  parseFooter := Puffin.sampleLib.parseFooter
  crc := Puffin.sampleLib.crc

theorem puffinLib_lossless (bitmap : Finset UInt32) :
    puffinLib.deserialize (puffinLib.serialize bitmap) = .ok bitmap := by
  have small : ∀ n ∈ positions bitmap, n < 2 ^ 32 := fun n member => by
    obtain ⟨row, _, rfl⟩ := mem_positions.mp member
    exact row.toNat_lt
  simp only [puffinLib, words_flatMap small]
  congr 1
  ext row
  simp only [List.mem_toFinset, List.mem_map, mem_positions]
  constructor
  · rintro ⟨n, ⟨known, member, rfl⟩, rfl⟩
    rwa [UInt32.ofNat_toNat]
  · intro member
    exact ⟨row.toNat, ⟨row, member, rfl⟩, UInt32.ofNat_toNat⟩

def commitLib : CommitLib :=
  ⟨puffinLib, wireLib (masked.message schemaJson) (body 2 maskedBytes [0x60, 2, 0x68, 2])⟩

def opened : Catalog := ⟨Manifest.empty schema stamp, 1, .empty⟩

def adds : SnapshotTransaction := ⟨[add "a.parquet" 8], [], [], ∅, List.nodup_nil⟩

/-- Two vectors for the same file in one transaction. -/
def deletes : SnapshotTransaction :=
  (SnapshotTransaction.addDv ⟨[], [], [], ∅, List.nodup_nil⟩ (file "a.parquet") {3}).addDv
    (file "a.parquet") {5}

def deletesMore : SnapshotTransaction :=
  ⟨[], [], [(file "a.parquet", {6})], ∅, List.nodup_singleton _⟩

def committing (catalog : Catalog) (txn : SnapshotTransaction) : Catalog :=
  match catalog.commit commitLib false stamp txn with
  | .ok next => next
  | .error _ => catalog

theorem committing_eq {catalog : Catalog} {txn : SnapshotTransaction}
    (accepted : (catalog.commit commitLib false stamp txn).isOk = true) :
    catalog.commit commitLib false stamp txn = .ok (committing catalog txn) := by
  unfold committing
  split
  · assumption
  · rename_i refused
    rw [refused] at accepted
    cases accepted

end Sample

open Sample in
/-- A file, then two rows of it deleted, and another one in a later commit. -/
theorem vectors_accumulate_deletes :
    let once := [adds, deletes].foldl committing opened
    let twice := committing once deletesMore
    once.current.entries.length = 1 ∧ twice.current.entries.length = 1 ∧
      (∀ entry ∈ once.current.entries, ∃ found,
        loadVector puffinLib once.files entry = .ok found ∧ found.getD ∅ = {3, 5}) ∧
      ∀ entry ∈ twice.current.entries, ∃ found,
        loadVector puffinLib twice.files entry = .ok found ∧ found.getD ∅ = {3, 5, 6} := by
  intro once twice
  have added : Commits commitLib false [adds] (committing opened adds) :=
    .commit (.opened schema stamp .empty) (fun _ member => absurd member List.not_mem_nil)
      (List.nodup_singleton _) (committing_eq (by decide +kernel))
  have first : Commits commitLib false [adds, deletes] once :=
    .commit added (by decide +kernel) (List.nodup_singleton _) (committing_eq (by decide +kernel))
  have second : Commits commitLib false ([adds, deletes] ++ [deletesMore]) twice :=
    .commit first (by decide +kernel) (List.nodup_singleton _) (committing_eq (by decide +kernel))
  have before := (vectors_accumulate commitLib false puffinLib_lossless _ _ _ _ first second).1
  have after := (vectors_accumulate commitLib false puffinLib_lossless _ [] _ _ second
    (by rwa [List.append_nil])).1
  refine ⟨by decide +kernel, by decide +kernel, fun entry member => ?_, fun entry member => ?_⟩
  · have live : ∀ entry ∈ once.current.entries, entry.live ∧
        committed [adds, deletes] entry.path = {3, 5} := by decide +kernel
    rw [← (live entry member).2]
    exact before entry member (live entry member).1
  · have live : ∀ entry ∈ twice.current.entries, entry.live ∧
        committed ([adds, deletes] ++ [deletesMore]) entry.path = {3, 5, 6} := by decide +kernel
    rw [← (live entry member).2]
    exact after entry member (live entry member).1

end Merutable.Iceberg
