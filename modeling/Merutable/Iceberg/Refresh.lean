import Merutable.Engine.Cache
import Merutable.Iceberg.Protobuf

/-! `MeruEngine::refresh` of a read-only engine and `IcebergCatalog::refresh` under it, on any
contents of the directory. Additions wrap around, as in a build without overflow checks. -/

namespace Merutable.Iceberg

open Foundation

inductive FileRead where
  | data (bytes : Bytes)
  | notFound
  | failed (message : String)

/-- What the calls read: the text of `version-hint.text`, the files under `metadata/`, and which
data and Puffin files exist. -/
structure Directory where
  hint : Except String String
  metadata : String → FileRead
  present : FilePath → Bool

structure DataFileMeta where
  path : FilePath
  fileMeta : ParquetFileMeta
  dvPath : Option FilePath
  dvOffset : Option Int
  dvLength : Option Int
  deriving DecidableEq

structure Version where
  snapshotId : Int
  levels : List (UInt8 × List DataFileMeta)
  schema : TableSchema
  deriving DecidableEq

def ManifestEntry.toDataFileMeta (entry : ManifestEntry) : DataFileMeta :=
  ⟨entry.path, entry.fileMeta, entry.dvPath, entry.dvOffset, entry.dvLength⟩

/-- The files of one level, in the order lookups expect. -/
def Manifest.levelFiles (manifest : Manifest) (level : UInt8) : List DataFileMeta :=
  let files := (manifest.entries.filter fun entry =>
    entry.status ≠ "deleted" ∧ entry.fileMeta.level = level).map ManifestEntry.toDataFileMeta
  if level = 0 then files.insertionSort fun a b => b.fileMeta.seqMax ≤ a.fileMeta.seqMax
  else files.insertionSort fun a b => a.fileMeta.keyMin ≤ b.fileMeta.keyMin

/-- The levels of the map are listed by number. -/
def Manifest.toVersion (manifest : Manifest) (schema : TableSchema) : Version where
  snapshotId := manifest.snapshotId
  levels := (((List.range 256).map UInt8.ofNat).map fun level =>
    (level, manifest.levelFiles level)).filter fun level => level.2 ≠ []
  schema := schema

/-- `char::is_whitespace`. -/
def isWhiteSpace (c : Char) : Bool :=
  c.toNat ∈ [0x20, 0x85, 0xA0, 0x1680, 0x2028, 0x2029, 0x202F, 0x205F, 0x3000] ∨
    0x9 ≤ c.toNat ∧ c.toNat ≤ 0xD ∨ 0x2000 ≤ c.toNat ∧ c.toNat ≤ 0x200A

def trim (text : List Char) : List Char :=
  ((text.dropWhile isWhiteSpace).reverse.dropWhile isWhiteSpace).reverse

/-- `parse::<i64>`. -/
def parseI64 (text : List Char) : Option Int :=
  (parseSigned text).filter fun n => -2 ^ 63 ≤ n ∧ n < 2 ^ 63

namespace Directory

variable (dir : Directory)

def readManifestPayload (ver : Int) : Except MeruError Bytes :=
  match dir.metadata s!"v{ver}.metadata.pb" with
  | .data bytes => .ok bytes
  | .failed message => .error (.io message)
  | .notFound =>
    match dir.metadata s!"v{ver}.metadata.json" with
    | .data bytes => .ok bytes
    | .failed message => .error (.io message)
    | .notFound => .error (.io "No such file or directory (os error 2)")

/-- The manifest that the hint points to, and its number. -/
def loadManifest (lib : WireLib) (parseJson : Bytes → Except String Manifest) :
    Except MeruError (Manifest × Int) := do
  let hint ← dir.hint.mapError .io
  match parseI64 (trim hint.toList) with
  | none => throw (.corruption "bad version-hint on refresh")
  | some ver =>
    let data ← dir.readManifestPayload ver
    let manifest ←
      if data.take 4 = frameMagic then Manifest.fromProtobuf data lib
      else if data.head? = some 0x7B then
        (parseJson data).mapError fun text => .iceberg s!"manifest deserialize: {text}"
      else throw (.corruption ("manifest payload has neither \"MRUB\" magic nor leading '\x7b': " ++
        "head=" ++ hexList (data.take 8)))
    return (manifest, ver)

/-- Every referenced file must exist. -/
def preflight (version : Version) : Except MeruError Unit :=
  version.levels.forM fun level => level.2.forM fun file => do
    okIf (dir.present file.path) (.objectStore
      ("refresh: referenced data file missing: " ++ file.path.text))
    match file.dvPath with
    | none => return
    | some dvPath => okIf (dir.present dvPath) (.objectStore
        ("refresh: referenced puffin file missing: " ++ dvPath.text))

end Directory

structure IcebergCatalog where
  current : Manifest
  nextVersion : Int

/-- The catalog after the call, and what it returned. -/
def IcebergCatalog.refresh (catalog : IcebergCatalog) (lib : WireLib)
    (parseJson : Bytes → Except String Manifest) (dir : Directory) (schema : TableSchema) :
    IcebergCatalog × Except MeruError Version :=
  match dir.loadManifest lib parseJson with
  | .error error => (catalog, .error error)
  | .ok (manifest, ver) =>
    (⟨manifest, (ver + 1).bmod (2 ^ 64)⟩, .ok (manifest.toVersion schema))

/-- What an engine shows, `visibleSeq` being `read_seq`. -/
structure MeruEngine where
  catalog : IcebergCatalog
  version : Version
  visibleSeq : UInt64
  globalSeq : UInt64
  rowCache : Option RowCache
  schema : TableSchema

def Version.maxSeq (version : Version) : UInt64 :=
  (version.levels.flatMap fun level => level.2.map fun file => file.fileMeta.seqMax).foldl max 0

def MeruEngine.refresh (engine : MeruEngine) (lib : WireLib)
    (parseJson : Bytes → Except String Manifest) (dir : Directory) :
    MeruEngine × Except MeruError Unit :=
  let (catalog, loaded) := engine.catalog.refresh lib parseJson dir engine.schema
  let engine := { engine with catalog }
  match loaded with
  | .error error => (engine, .error error)
  | .ok version =>
    match dir.preflight version with
    | .error error => (engine, .error error)
    | .ok _ =>
      let newMaxSeq := version.maxSeq
      ({ engine with
          version
          visibleSeq := max engine.visibleSeq newMaxSeq
          globalSeq :=
            if 0 < newMaxSeq then max engine.globalSeq (newMaxSeq + 1) else engine.globalSeq
          rowCache := engine.rowCache.map RowCache.clear }, .ok ())

section Preflight

/-- The files that an entry refers to are there. -/
def Directory.Has (dir : Directory) (entry : ManifestEntry) : Prop :=
  dir.present entry.path = true ∧ ∀ dvPath ∈ entry.dvPath, dir.present dvPath = true

theorem mem_levelFiles {manifest : Manifest} {level : UInt8} {file : DataFileMeta} :
    file ∈ manifest.levelFiles level ↔ ∃ entry ∈ manifest.entries,
      entry.live = true ∧ entry.fileMeta.level = level ∧ entry.toDataFileMeta = file := by
  have sorted : file ∈ manifest.levelFiles level ↔ file ∈ (manifest.entries.filter fun entry =>
      entry.status ≠ "deleted" ∧ entry.fileMeta.level = level).map
        ManifestEntry.toDataFileMeta := by
    unfold Manifest.levelFiles
    split <;> exact List.mem_insertionSort _
  simp [sorted, ManifestEntry.live, and_assoc]

theorem preflight_eq_ok {dir : Directory} {manifest : Manifest} {schema : TableSchema} :
    dir.preflight (manifest.toVersion schema) = .ok () ↔
      ∀ entry ∈ manifest.entries, entry.live = true → dir.Has entry := by
  have levels (level : UInt8) (files : List DataFileMeta) :
      (level, files) ∈ (manifest.toVersion schema).levels ↔
        files = manifest.levelFiles level ∧ files ≠ [] := by
    have every : level ∈ (List.range 256).map UInt8.ofNat :=
      List.mem_map.mpr ⟨level.toNat, List.mem_range.mpr level.toNat_lt, UInt8.ofNat_toNat⟩
    simp only [Manifest.toVersion, List.mem_filter, List.mem_map (f := fun level => _)]
    aesop
  have files (file : DataFileMeta) : (do
      okIf (dir.present file.path) (.objectStore
        ("refresh: referenced data file missing: " ++ file.path.text))
      match file.dvPath with
      | none => return
      | some dvPath => okIf (dir.present dvPath) (.objectStore
          ("refresh: referenced puffin file missing: " ++ dvPath.text))) = .ok () ↔
      dir.present file.path = true ∧ ∀ dvPath ∈ file.dvPath, dir.present dvPath = true := by
    rw [Except.seq_eq_ok, okIf_eq_ok]
    cases file.dvPath with
    | none => simp [pure, Except.pure]
    | some dvPath => simp [okIf_eq_ok]
  simp only [Directory.preflight, forM_eq_ok, files]
  constructor
  · intro checked entry listed live
    have inLevel := mem_levelFiles.mpr ⟨entry, listed, live, rfl, rfl⟩
    exact checked (_, manifest.levelFiles entry.fileMeta.level)
      ((levels _ _).mpr ⟨rfl, List.ne_nil_of_mem inLevel⟩) _ inLevel
  · rintro present ⟨level, found⟩ listed file member
    obtain ⟨rfl, _⟩ := (levels _ _).mp listed
    obtain ⟨entry, inManifest, live, _, rfl⟩ := mem_levelFiles.mp member
    exact present entry inManifest live

end Preflight

/-- A failed refresh leaves the engine as it is exactly if no manifest can be loaded, every file
that the loaded one refers to is there, so that the refresh does not fail, or the manifest and its
number are those the catalog handle has. -/
theorem refresh_error_keeps_iff (engine : MeruEngine) (lib : WireLib)
    (parseJson : Bytes → Except String Manifest) (dir : Directory) :
    (∀ error, (engine.refresh lib parseJson dir).2 = .error error →
      (engine.refresh lib parseJson dir).1 = engine) ↔
    ∀ manifest ver, dir.loadManifest lib parseJson = .ok (manifest, ver) →
      (∀ entry ∈ manifest.entries, entry.live = true → dir.Has entry) ∨
        engine.catalog = ⟨manifest, (ver + 1).bmod (2 ^ 64)⟩ := by
  unfold MeruEngine.refresh IcebergCatalog.refresh
  cases loaded : dir.loadManifest lib parseJson with
  | error error => simp
  | ok result =>
    obtain ⟨manifest, ver⟩ := result
    have only {P : Manifest → Int → Prop} : (∀ found number,
        (.ok (manifest, ver) : Except MeruError _) = .ok (found, number) → P found number) ↔
        P manifest ver := by
      refine ⟨fun all => all _ _ rfl, ?_⟩
      rintro holds _ _ ⟨⟩
      exact holds
    rw [only, ← @preflight_eq_ok dir manifest engine.schema]
    cases checked : dir.preflight (manifest.toVersion engine.schema) with
    | ok _ => simp [checked]
    | error error =>
      simp only [checked]
      constructor
      · exact fun keeps => .inr (congrArg MeruEngine.catalog (keeps error rfl)).symm
      · rintro (⟨⟨⟩⟩ | same) _ _
        rw [← same]

namespace Sample

def flushFrame : Bytes := encodeFrame (body 1 flushedBytes [0x60, 2])

def flushLib : WireLib := wireLib (flush.message schemaJson) (body 1 flushedBytes [0x60, 2])

def noJson (_ : Bytes) : Except String Manifest := .error "expected value at line 1 column 1"

/-- The first flush of a table is committed, and its data file is gone. -/
def lost : Directory where
  hint := .ok "1\n"
  metadata name := if name = "v1.metadata.pb" then .data flushFrame else .notFound
  present _ := false

def unflushed : MeruEngine where
  catalog := ⟨Manifest.empty schema stamp, 1⟩
  version := (Manifest.empty schema stamp).toVersion schema
  visibleSeq := 0
  globalSeq := 1
  rowCache := none
  schema := schema

/-- What the metadata of the flush is read as. -/
def reread : Manifest :=
  ((Manifest.fromProtobuf flushFrame flushLib).toOption).getD (Manifest.empty schema stamp)

def refreshed : MeruEngine := { unflushed with catalog := ⟨reread, 2⟩ }

end Sample

open Sample in
theorem refresh_error_keeps_reread :
    (refreshed.refresh flushLib noJson lost).2 =
        .error (.objectStore "refresh: referenced data file missing: data/L0/a.parquet") ∧
      (refreshed.refresh flushLib noJson lost).1 = refreshed := by
  have failed : (refreshed.refresh flushLib noJson lost).2 =
      .error (.objectStore "refresh: referenced data file missing: data/L0/a.parquet") := by
    decide +kernel
  have loaded : lost.loadManifest flushLib noJson = .ok (reread, 1) := by decide +kernel
  refine ⟨failed, (refresh_error_keeps_iff _ _ _ _).mpr (fun manifest ver same => ?_) _ failed⟩
  obtain ⟨sameManifest, sameNumber⟩ := Prod.mk.inj (Except.ok.inj (loaded.symm.trans same))
  rw [← sameManifest, ← sameNumber]
  exact .inr rfl

open Sample in
/-- The call fails on the missing file, with the loaded manifest and the next version number already
in the catalog handle. -/
theorem refresh_error_moves_catalog :
    (unflushed.refresh flushLib noJson lost).2 =
        .error (.objectStore "refresh: referenced data file missing: data/L0/a.parquet") ∧
      (unflushed.refresh flushLib noJson lost).1.catalog.current.snapshotId = 1 ∧
      (unflushed.refresh flushLib noJson lost).1.catalog.nextVersion = 2 ∧
      unflushed.catalog.current.snapshotId = 0 ∧ unflushed.catalog.nextVersion = 1 := by
  decide +kernel

end Merutable.Iceberg
