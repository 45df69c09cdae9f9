import Merutable.Foundation.Traversal
import Merutable.Mirror

/-! Files before manifests: what is on the target when a manifest is there. A file that was left
unfinished by a failed write counts as uploaded when a later turn finds it. -/

namespace Merutable.Mirror

open Foundation

variable {bytes : FilePath → Bytes} {mirror next : Mirror} {action : MirrorAction}
  {phase : MirrorPhase} {manifest : Manifest}

/-- Where a manifest is on the target, the files of the primary's manifest of that number are there
with the bytes of the primary. -/
def Backed (bytes : FilePath → Bytes) (mirror : Mirror) : Prop :=
  ∀ manifest ∈ mirror.primary.manifests,
    (mirror.target.read (.manifest manifest.snapshotId)).isSome →
      ∀ path ∈ manifest.paths, mirror.target.read (.file path) = some (some (.file (bytes path)))

instance (bytes : FilePath → Bytes) (mirror : Mirror) : Decidable (Backed bytes mirror) := by
  unfold Backed
  infer_instance

/-- The manifest that is read names all files of the snapshot whose number was taken before, and no
upload finds an unfinished file on the target. -/
def UploadsWhole (mirror : Mirror) : MirrorAction → Prop
  | .readManifest => ∀ version ∈ mirror.phase.sampledVersion,
      ∀ manifest ∈ mirror.primary.manifests, manifest.snapshotId = version →
        ∀ path ∈ manifest.paths, path ∈ mirror.primary.catalog.current.paths
  | .upload index (.put .create) => ∀ upload ∈ mirror.phase.uploads[index]?,
      mirror.target.read (.file upload.path) ≠ some none
  | _ => True

instance (mirror : Mirror) : DecidablePred (UploadsWhole mirror) := fun action => by
  unfold UploadsWhole
  split <;> infer_instance

/-- What the phase has made sure of. -/
def Prepared (bytes : FilePath → Bytes) (primary : Primary) (target : MirrorTarget) :
    MirrorPhase → Prop
  | .idle => True
  | .sampled version => version < primary.catalog.nextVersion
  | .uploading version _ uploads => version < primary.catalog.nextVersion ∧
      (∀ manifest ∈ primary.manifests, manifest.snapshotId = version →
        manifest.paths ⊆ uploads.map Upload.path) ∧
      ∀ upload ∈ uploads, upload.put = some .written ∨ upload.put = some (.returned true) →
        target.read (.file upload.path) = some (some (.file (bytes upload.path)))
  | .publishing version _ _ => version < primary.catalog.nextVersion ∧
      ∀ manifest ∈ primary.manifests, manifest.snapshotId = version →
        ∀ path ∈ manifest.paths, target.read (.file path) = some (some (.file (bytes path)))
  | .advancing version => version < primary.catalog.nextVersion

structure Whole (bytes : FilePath → Bytes) (mirror : Mirror) : Prop where
  numbered : mirror.primary.Numbered
  prepared : Prepared bytes mirror.primary mirror.target mirror.phase
  known : ∀ version, (mirror.target.read (.manifest version)).isSome →
    version < mirror.primary.catalog.nextVersion
  contents : ∀ path object, mirror.target.read (.file path) = some (some object) →
    object = .file (bytes path)
  backed : Backed bytes mirror

theorem whole_fresh (bytes : FilePath → Bytes) : Whole bytes fresh where
  numbered := Primary.numbered_fresh
  prepared := trivial
  known := by simp [fresh, Files.empty, Files.read]
  contents := by simp [fresh, Files.empty, Files.read]
  backed := by simp [Backed, fresh, Files.empty, Files.read]

theorem Prepared.primary {primary after : Primary} {target : MirrorTarget}
    (event : PrimaryEvent primary after) (prepared : Prepared bytes primary target phase) :
    Prepared bytes after target phase := by
  cases event with
  | quiet catalog manifests =>
    have same : Prepared bytes after target phase = Prepared bytes primary target phase := by
      cases phase <;> simp only [Prepared, catalog, manifests]
    rw [same]
    exact prepared
  | commit number later manifests =>
    have old : ∀ version < primary.catalog.nextVersion, ∀ manifest ∈ after.manifests,
        manifest.snapshotId = version → manifest ∈ primary.manifests := by
      intro version below manifest member same
      rw [manifests] at member
      rcases List.mem_append.mp member with before | last
      · exact before
      · rw [List.mem_singleton.mp last, number] at same
        omega
    cases phase with
    | idle => trivial
    | sampled version | advancing version =>
      have below : version < primary.catalog.nextVersion := prepared
      exact Nat.lt_of_lt_of_eq (Nat.lt_succ_of_lt below) later.symm
    | uploading version manifest uploads =>
      obtain ⟨below, named, done⟩ := prepared
      refine ⟨Nat.lt_of_lt_of_eq (Nat.lt_succ_of_lt below) later.symm, ?_, done⟩
      exact fun other member same => named other (old version below other member same) same
    | publishing version manifest put =>
      obtain ⟨below, stored⟩ := prepared
      refine ⟨Nat.lt_of_lt_of_eq (Nat.lt_succ_of_lt below) later.symm, ?_⟩
      exact fun other member same => stored other (old version below other member same) same

theorem Whole.primary {primary : Primary} (whole : Whole bytes mirror) (numbered : primary.Numbered)
    (event : PrimaryEvent mirror.primary primary) :
    Whole bytes { mirror with primary := primary } := by
  refine ⟨numbered, whole.prepared.primary event, ?_, whole.contents, ?_⟩
  · intro version present
    have below := whole.known version present
    cases event with
    | quiet catalog _ =>
      rw [catalog]
      exact below
    | commit _ later _ =>
      rw [later]
      exact Nat.lt_succ_of_lt below
  · intro manifest member present
    cases event with
    | quiet _ manifests =>
      rw [manifests] at member
      exact whole.backed manifest member present
    | commit number _ manifests =>
      rw [manifests] at member
      rcases List.mem_append.mp member with before | last
      · exact whole.backed manifest before present
      · have below := whole.known manifest.snapshotId present
        rw [List.mem_singleton.mp last, number] at below
        exact absurd below (Nat.lt_irrefl _)

theorem UploadEvent.keeps {target after : MirrorTarget} {upload following : Upload}
    {step : UploadStep} (event : UploadEvent bytes target upload step following after)
    {path : FilePath} (complete : target.read (.file path) = some (some (.file (bytes path)))) :
    after.read (.file path) = some (some (.file (bytes path))) := by
  cases event with
  | read | readFailed => exact complete
  | put phase step next after reading event =>
    by_cases same : path = upload.path
    · subst same
      exact event.keeps complete
    · rw [event.read_of_ne (by simpa using same)]
      exact complete

theorem UploadEvent.contents {target after : MirrorTarget} {upload following : Upload}
    {step : UploadStep} (event : UploadEvent bytes target upload step following after)
    (contents : ∀ path object, target.read (.file path) = some (some object) →
      object = .file (bytes path)) (path : FilePath) (object : MirrorObject)
    (found : after.read (.file path) = some (some object)) : object = .file (bytes path) := by
  cases event with
  | read | readFailed => exact contents path object found
  | put phase step next after reading event =>
    by_cases same : path = upload.path
    · subst same
      cases event with
      | found | synced | failed => exact contents _ object found
      | created absent => simp [Files.read, Files.put] at found
      | wrote =>
        rw [Files.read_write] at found
        cases found
        rfl
    · rw [event.read_of_ne (by simpa using same)] at found
      exact contents path object found

theorem Whole.target {target : MirrorTarget} {detached : List Upload} {lastUploaded : Nat}
    (whole : Whole bytes mirror) (prepared : Prepared bytes mirror.primary target phase)
    (manifests : ∀ version, target.read (.manifest version) = mirror.target.read
      (.manifest version))
    (keeps : ∀ path, mirror.target.read (.file path) = some (some (.file (bytes path))) →
      target.read (.file path) = some (some (.file (bytes path))))
    (contents : ∀ path object, target.read (.file path) = some (some object) →
      object = .file (bytes path)) :
    Whole bytes ⟨mirror.primary, target, lastUploaded, phase, detached⟩ := by
  refine ⟨whole.numbered, prepared, ?_, contents, ?_⟩
  · intro version present
    rw [manifests] at present
    exact whole.known version present
  · intro manifest member present path named
    rw [manifests] at present
    exact keeps path (whole.backed manifest member present path named)

theorem Prepared.mono {primary : Primary} {before target : MirrorTarget}
    (prepared : Prepared bytes primary before phase)
    (keeps : ∀ path, before.read (.file path) = some (some (.file (bytes path))) →
      target.read (.file path) = some (some (.file (bytes path)))) :
    Prepared bytes primary target phase := by
  cases phase with
  | idle => trivial
  | sampled | advancing => exact prepared
  | uploading version manifest uploads =>
    exact ⟨prepared.1, prepared.2.1, fun upload member done =>
      keeps _ (prepared.2.2 upload member done)⟩
  | publishing version manifest put =>
    exact ⟨prepared.1, fun other member same path named =>
      keeps path (prepared.2 other member same path named)⟩

theorem UploadEvent.finished {target after : MirrorTarget} {upload following : Upload}
    {step : UploadStep} (event : UploadEvent bytes target upload step following after)
    (contents : ∀ path object, target.read (.file path) = some (some object) →
      object = .file (bytes path))
    (whole : step = .put .create → target.read (.file upload.path) ≠ some none)
    (before : upload.put = some .written → target.read (.file upload.path) =
      some (some (.file (bytes upload.path))))
    (done : following.put = some .written ∨ following.put = some (.returned true)) :
    after.read (.file following.path) = some (some (.file (bytes following.path))) := by
  cases event with
  | read | readFailed => simp at done
  | put phase step next after reading event =>
    cases event with
    | found content present =>
      cases content with
      | none => exact absurd present (whole rfl)
      | some object =>
        rw [contents _ object present] at present
        exact present
    | created | failed => simp at done
    | wrote => exact Files.read_write _ _ _
    | synced => exact before reading

theorem Whole.upload {version index : Nat} {uploads : List Upload} {step : UploadStep}
    {upload following : Upload} {target : MirrorTarget} (whole : Whole bytes mirror)
    (phase : mirror.phase = .uploading version manifest uploads)
    (found : uploads[index]? = some upload) (met : UploadsWhole mirror (.upload index step))
    (event : UploadEvent bytes mirror.target upload step following target) :
    Whole bytes { mirror with
      target := target, phase := .uploading version manifest (uploads.set index following) } := by
  have prepared := whole.prepared
  rw [phase] at prepared
  obtain ⟨below, named, done⟩ := prepared
  have keeps : ∀ path, mirror.target.read (.file path) = some (some (.file (bytes path))) →
      target.read (.file path) = some (some (.file (bytes path))) := fun _ => event.keeps
  refine whole.target ⟨below, ?_, ?_⟩ (fun other => event.read_of_ne (by simp)) keeps
    (event.contents whole.contents)
  · have paths : (uploads.set index following).map Upload.path = uploads.map Upload.path :=
      map_set_of_eq found event.same_path
    rw [paths]
    exact named
  · intro other member finished
    rcases List.mem_or_eq_of_mem_set member with before | rfl
    · exact keeps _ (done other before finished)
    · refine event.finished whole.contents ?_ (fun written => ?_) finished
      · rintro rfl
        exact met upload (by rw [phase]; exact found)
      · exact done upload (List.mem_of_getElem? found) (.inl written)

theorem Whole.publish {version : Nat} {put after : PutPhase} {step : PutStep}
    {target : MirrorTarget} (whole : Whole bytes mirror)
    (phase : mirror.phase = .publishing version manifest put)
    (event : PutEvent mirror.target (.manifest version) (.manifest manifest) put step
      after target) :
    Whole bytes { mirror with target := target, phase := published version manifest after } := by
  have prepared := whole.prepared
  rw [phase] at prepared
  obtain ⟨below, stored⟩ := prepared
  have files : ∀ path, target.read (.file path) = mirror.target.read (.file path) :=
    fun path => event.read_of_ne (by simp)
  refine ⟨whole.numbered, ?_, ?_, ?_, ?_⟩
  · have started : Prepared bytes mirror.primary mirror.target
      (published version manifest after) := by
      cases after with
      | opening | opened | written => exact ⟨below, stored⟩
      | returned ok =>
        cases ok with
        | true => exact below
        | false => trivial
    exact started.mono fun path complete => (files path).trans complete
  · intro other present
    by_cases same : other = version
    · rw [same]
      exact below
    · rw [event.read_of_ne (by simpa using same)] at present
      exact whole.known other present
  · intro path object found
    rw [files] at found
    exact whole.contents path object found
  · intro other member present path named
    rw [files]
    by_cases same : other.snapshotId = version
    · exact stored other member same path named
    · rw [event.read_of_ne (by simpa using same)] at present
      exact whole.backed other member present path named

theorem Whole.step (whole : Whole bytes mirror) (met : UploadsWhole mirror action)
    (fired : mirror.step bytes action = some next) : Whole bytes next := by
  cases event_of_step fired with
  | primary action primary stepped =>
    obtain ⟨numbered, event⟩ := whole.numbered.step stepped
    exact whole.primary numbered event
  | sampled phase => exact ⟨whole.numbered, whole.numbered.installed, whole.known, whole.contents,
      whole.backed⟩
  | unchanged phase => exact whole
  | readManifest version phase =>
    have below := whole.prepared
    rw [phase] at below
    refine ⟨whole.numbered, ⟨below, ?_, by simp⟩, whole.known, whole.contents, whole.backed⟩
    intro manifest member same
    have named := met version (by rw [phase]; rfl) manifest member same
    rw [List.map_map]
    change manifest.paths ⊆ mirror.primary.catalog.current.paths.map id
    rw [List.map_id]
    exact fun path => named path
  | upload version manifest uploads index step upload following target phase found event =>
    exact whole.upload phase found met event
  | detached index step upload following target event =>
    have keeps : ∀ path, mirror.target.read (.file path) = some (some (.file (bytes path))) →
        target.read (.file path) = some (some (.file (bytes path))) := fun _ => event.keeps
    exact whole.target (whole.prepared.mono keeps) (fun _ => event.read_of_ne (by simp)) keeps
      (event.contents whole.contents)
  | joined version manifest uploads phase all =>
    have prepared := whole.prepared
    rw [phase] at prepared
    obtain ⟨below, named, done⟩ := prepared
    refine ⟨whole.numbered, ⟨below, ?_⟩, whole.known, whole.contents, whole.backed⟩
    intro other member same path listed
    obtain ⟨upload, present, rfl⟩ := List.mem_map.mp (named other member same listed)
    exact done upload present (.inr (all upload present))
  | gaveUp version manifest uploads detached phase =>
    exact ⟨whole.numbered, trivial, whole.known, whole.contents, whole.backed⟩
  | publish version manifest put after step target phase event => exact whole.publish phase event
  | advance version lastUploaded replaced ok target phase others =>
    refine whole.target trivial (fun _ => others _ (by simp)) ?_ ?_
    · intro path complete
      rw [others _ (by simp)]
      exact complete
    · intro path object found
      rw [others _ (by simp)] at found
      exact whole.contents path object found
  | reopen =>
    exact ⟨whole.numbered.reopened, trivial, whole.known, whole.contents, whole.backed⟩

/-- As long as the manifest read covers the sampled snapshot and no upload finds an unfinished file,
every manifest on the target has its files there, byte for byte. -/
theorem mirrored_manifest_backed {last : Mirror} {actions : List MirrorAction}
    (run : Run (step bytes) UploadsWhole .fresh actions last) : Backed bytes last :=
  (run.invariant (Whole bytes) (fun _ _ _ whole met fired => whole.step met fired)
    (whole_fresh bytes)).backed

open Sample in
theorem mirrored_manifest_backed_retried :
    (final (step (fun _ => [9])) .fresh retried).target.read (.manifest 1) =
        some (some (.manifest (final (step (fun _ => [9])) .fresh
          retried).primary.catalog.current)) ∧
      Backed (fun _ => [9]) (final (step (fun _ => [9])) .fresh retried) :=
  ⟨by decide +kernel, mirrored_manifest_backed (.of_decided (by decide +kernel))⟩

open Sample in
/-- The first turn creates the data file and fails to write it. The second one finds the file, takes
it for uploaded and publishes the manifest. -/
theorem mirrored_manifest_without_file :
    (execute (step (fun _ => [9])) .fresh torn).isSome ∧
      (final (step (fun _ => [9])) .fresh torn).target.read (.file (.data 7)) = some none ∧
      ¬ Backed (fun _ => [9]) (final (step (fun _ => [9])) .fresh torn) := by
  decide +kernel

end Merutable.Mirror
