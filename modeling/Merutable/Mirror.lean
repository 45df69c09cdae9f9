import Merutable.Foundation.Files
import Merutable.Lsm.Install

/-! The mirror worker: `mirror_loop` and `mirror_snapshot` on a `LocalFileStore`, interleaved with
the commits of the primary. Every step of a store operation may fail. -/

namespace Merutable

open Foundation

/-- What the mirror sees of the primary: the catalog and the number of the installed version.
`versions` are the numbers under which flushes and compactions have committed, `manifests` are all
the manifests. -/
structure Primary where
  catalog : Catalog
  installed : Nat
  versions : List Nat
  manifests : List Manifest
  deriving DecidableEq

inductive PrimaryAction where
  | commit (txn : SnapshotTransaction)
  | install (index : Nat)
  | addColumn

namespace Primary

def fresh : Primary := ⟨.empty, 0, [], [.empty]⟩

/-- A flush or a compaction commits and installs its version at some later time, whatever was
committed or installed in between; `add_column` commits an empty transaction and installs
nothing. -/
def step (primary : Primary) : PrimaryAction → Option Primary
  | .commit txn =>
    match primary.catalog.commit txn with
    | .ok (catalog, version) => some { primary with
        catalog := catalog
        versions := primary.versions ++ [version.snapshotId]
        manifests := primary.manifests ++ [catalog.current] }
    | .error _ => none
  | .install index =>
    match primary.versions[index]? with
    | some version => some { primary with installed := version }
    | none => none
  | .addColumn =>
    match primary.catalog.commit ⟨[], [], []⟩ with
    | .ok (catalog, _) => some { primary with
        catalog := catalog
        manifests := primary.manifests ++ [catalog.current] }
    | .error _ => none

/-- An opened table starts with the latest manifest installed. -/
def reopened (primary : Primary) : Primary :=
  { primary with installed := primary.catalog.current.snapshotId, versions := [] }

end Primary

inductive MirrorPath where
  | file (path : FilePath)
  | manifest (version : Nat)
  | lowWater
  deriving DecidableEq

inductive MirrorObject where
  | file (bytes : Bytes)
  | manifest (manifest : Manifest)
  | lowWater (version : Nat)
  deriving DecidableEq

abbrev MirrorTarget := Files MirrorPath MirrorObject

/-- Where a `put_if_absent` stands: before the file is opened, with the file created and not yet
written, written and not yet synced, or returned. A file that already exists counts as `Ok`. -/
inductive PutPhase where
  | opening
  | opened
  | written
  | returned (ok : Bool)
  deriving DecidableEq

/-- The steps of `LocalFileStore::put_if_absent`. Creating the directory and opening the file fail
alike, and so do the syncs of the file and of the directory. -/
inductive PutStep where
  | create
  | createFailed
  | write
  | writeFailed
  | sync
  | syncFailed
  deriving DecidableEq

/-- `O_CREAT | O_EXCL` on the final path, then the content. -/
def putIfAbsent (target : MirrorTarget) (path : MirrorPath) (object : MirrorObject) :
    PutPhase → PutStep → Option (PutPhase × MirrorTarget)
  | .opening, .create =>
    if (target.read path).isSome then some (.returned true, target)
    else some (.opened, target.put path none)
  | .opening, .createFailed => some (.returned false, target)
  | .opened, .write => some (.written, target.write path object)
  | .opened, .writeFailed => some (.returned false, target)
  | .written, .sync => some (.returned true, target)
  | .written, .syncFailed => some (.returned false, target)
  | _, _ => none

/-- An upload task; `none` before the file of the primary has been read. -/
structure Upload where
  path : FilePath
  put : Option PutPhase
  deriving DecidableEq

inductive UploadStep where
  | read
  | readFailed
  | put (step : PutStep)
  deriving DecidableEq

inductive MirrorPhase where
  | idle
  | sampled (version : Nat)
  | uploading (version : Nat) (manifest : Manifest) (uploads : List Upload)
  | publishing (version : Nat) (manifest : Manifest) (put : PutPhase)
  | advancing (version : Nat)
  deriving DecidableEq

namespace MirrorPhase

/-- The number the turn has taken and not yet read a manifest for. -/
def sampledVersion : MirrorPhase → Option Nat
  | .sampled version => some version
  | _ => none

def uploads : MirrorPhase → List Upload
  | .uploading _ _ uploads => uploads
  | _ => []

/-- The manifest whose file is there and has not been written. -/
def unwritten : MirrorPhase → Option Nat
  | .publishing version _ .opened => some version
  | _ => none

end MirrorPhase

/-- The primary, the target and the worker. `detached` are the writes of a failed tick that were
already on the blocking pool: aborting their task does not stop them. -/
structure Mirror where
  primary : Primary
  target : MirrorTarget
  lastUploaded : Nat
  phase : MirrorPhase
  detached : List Upload
  deriving DecidableEq

inductive MirrorAction where
  | primary (action : PrimaryAction)
  | sample
  | readManifest
  | upload (index : Nat) (step : UploadStep)
  | detached (index : Nat) (step : PutStep)
  | join
  | giveUp
  | publish (step : PutStep)
  | advance (replaced ok : Bool)
  | reopen

namespace Mirror

def fresh : Mirror := ⟨.fresh, .empty, 0, .idle, []⟩

/-- One step of an upload. The files of the primary are immutable; `bytes` is what each holds. -/
def uploadStep (bytes : FilePath → Bytes) (target : MirrorTarget) (upload : Upload) :
    UploadStep → Option (Upload × MirrorTarget)
  | .read => if upload.put = none then some ({ upload with put := some .opening }, target) else none
  | .readFailed =>
    if upload.put = none then some ({ upload with put := some (.returned false) }, target) else none
  | .put step =>
    match upload.put with
    | none => none
    | some phase =>
      (putIfAbsent target (.file upload.path) (.file (bytes upload.path)) phase step).map
        fun result => ({ upload with put := some result.1 }, result.2)

/-- An `Err` of the manifest's write ends the turn. -/
def published (version : Nat) (manifest : Manifest) : PutPhase → MirrorPhase
  | .returned true => .advancing version
  | .returned false => .idle
  | put => .publishing version manifest put

/-- The write goes on after its task was aborted. -/
def survives (upload : Upload) : Bool :=
  match upload.put with
  | none => false
  | some (.returned _) => false
  | some _ => true

/-- One turn of `mirror_loop` is `sample` and, if there is a new version, the steps of
`mirror_snapshot`: the manifest is read, its files are uploaded in parallel, then the manifest and
the low-water mark are written. An error ends the turn. The process may end at any point, and the
next `open` starts a new worker. -/
def step (bytes : FilePath → Bytes) (mirror : Mirror) : MirrorAction → Option Mirror
  | .primary action =>
    (mirror.primary.step action).map fun primary => { mirror with primary := primary }
  | .sample =>
    match mirror.phase with
    | .idle =>
      if mirror.lastUploaded < mirror.primary.installed ∧ 0 < mirror.primary.installed then
        some { mirror with phase := .sampled mirror.primary.installed }
      else some mirror
    | _ => none
  | .readManifest =>
    match mirror.phase with
    | .sampled version =>
      let manifest := mirror.primary.catalog.current
      some { mirror with
        phase := .uploading version manifest (manifest.paths.map fun path => ⟨path, none⟩) }
    | _ => none
  | .upload index step =>
    match mirror.phase with
    | .uploading version manifest uploads =>
      match uploads[index]? with
      | some upload =>
        (uploadStep bytes mirror.target upload step).map fun result =>
          { mirror with
            target := result.2
            phase := .uploading version manifest (uploads.set index result.1) }
      | none => none
    | _ => none
  | .detached index step =>
    match mirror.detached[index]? with
    | some upload =>
      (uploadStep bytes mirror.target upload (.put step)).map fun result =>
        { mirror with target := result.2, detached := mirror.detached.set index result.1 }
    | none => none
  | .join =>
    match mirror.phase with
    | .uploading version manifest uploads =>
      if uploads.all fun upload => upload.put = some (.returned true) then
        some { mirror with phase := .publishing version manifest .opening }
      else none
    | _ => none
  | .giveUp =>
    match mirror.phase with
    | .uploading _ _ uploads =>
      if uploads.any fun upload => upload.put = some (.returned false) then
        some { mirror with
          phase := .idle
          detached := mirror.detached ++ uploads.filter survives }
      else none
    | _ => none
  | .publish step =>
    match mirror.phase with
    | .publishing version manifest put =>
      (putIfAbsent mirror.target (.manifest version) (.manifest manifest) put step).map
        fun result =>
          { mirror with
            target := result.2
            phase := published version manifest result.1 }
    | _ => none
  | .advance replaced ok =>
    match mirror.phase with
    | .advancing version =>
      if ok = true → replaced = true then
        some { mirror with
          target := if replaced then mirror.target.write .lowWater (.lowWater version)
            else mirror.target
          lastUploaded := if ok then version else mirror.lastUploaded
          phase := .idle }
      else none
    | _ => none
  | .reopen => some ⟨mirror.primary.reopened, mirror.target, 0, .idle, []⟩

end Mirror

/-- The primary is ahead of nothing it has not committed. -/
structure Primary.Numbered (primary : Primary) : Prop where
  current : primary.catalog.current ∈ primary.manifests
  manifests : ∀ manifest ∈ primary.manifests, manifest.snapshotId < primary.catalog.nextVersion
  installed : primary.installed < primary.catalog.nextVersion
  versions : ∀ version ∈ primary.versions, version < primary.catalog.nextVersion

/-- What a step of the primary adds: nothing, or one manifest under the next number. -/
inductive PrimaryEvent (before after : Primary) : Prop
  | quiet (catalog : after.catalog = before.catalog)
    (manifests : after.manifests = before.manifests)
  | commit (number : after.catalog.current.snapshotId = before.catalog.nextVersion)
      (next : after.catalog.nextVersion = before.catalog.nextVersion + 1)
      (manifests : after.manifests = before.manifests ++ [after.catalog.current])

namespace Primary

variable {primary next : Primary} {action : PrimaryAction}

theorem numbered_fresh : fresh.Numbered where
  current := by simp [fresh, Catalog.empty]
  manifests := by simp [fresh, Catalog.empty, Manifest.empty]
  installed := by simp [fresh, Catalog.empty]
  versions := by simp [fresh]

theorem Numbered.committed {catalog : Catalog} {version : Version} {txn : SnapshotTransaction}
    {versions : List Nat} (numbered : primary.Numbered)
    (committed : primary.catalog.commit txn = .ok (catalog, version))
    (known : ∀ number ∈ versions, number < catalog.nextVersion) :
    Numbered ⟨catalog, primary.installed, versions, primary.manifests ++ [catalog.current]⟩ ∧
      PrimaryEvent primary
        ⟨catalog, primary.installed, versions, primary.manifests ++ [catalog.current]⟩ := by
  have number := Catalog.commit_snapshotId committed
  obtain ⟨_, later, _⟩ := Catalog.commit_ok committed
  refine ⟨⟨by simp, ?_, ?_, known⟩, .commit number later rfl⟩
  · intro manifest member
    rw [later]
    rcases List.mem_append.mp member with before | last
    · exact Nat.lt_succ_of_lt (numbered.manifests manifest before)
    · rw [List.mem_singleton.mp last, number]
      exact Nat.lt_succ_self _
  · rw [later]
    exact Nat.lt_succ_of_lt numbered.installed

theorem Numbered.step (numbered : primary.Numbered) (fired : primary.step action = some next) :
    next.Numbered ∧ PrimaryEvent primary next := by
  cases action with
  | commit txn =>
    simp only [Primary.step] at fired
    split at fired <;> cases fired
    rename_i catalog version committed
    obtain ⟨_, later, rfl⟩ := Catalog.commit_ok committed
    refine numbered.committed committed fun number member => ?_
    rw [later]
    rcases List.mem_append.mp member with before | last
    · exact Nat.lt_succ_of_lt (numbered.versions number before)
    · rw [List.mem_singleton.mp last]
      have own := Catalog.commit_snapshotId committed
      change catalog.current.snapshotId < _
      omega
  | install index =>
    simp only [Primary.step] at fired
    split at fired <;> cases fired
    rename_i version found
    refine ⟨⟨numbered.current, numbered.manifests, ?_, ?_⟩, .quiet rfl rfl⟩
    · exact numbered.versions version (List.mem_of_getElem? found)
    · exact numbered.versions
  | addColumn =>
    simp only [Primary.step] at fired
    split at fired <;> cases fired
    rename_i catalog version committed
    obtain ⟨_, later, _⟩ := Catalog.commit_ok committed
    refine numbered.committed committed fun number member => ?_
    rw [later]
    exact Nat.lt_succ_of_lt (numbered.versions number member)

theorem manifests_subset {before after : Primary} (event : PrimaryEvent before after) :
    before.manifests ⊆ after.manifests := by
  cases event with
  | quiet _ manifests => rw [manifests]; exact List.Subset.refl _
  | commit _ _ manifests => rw [manifests]; exact List.subset_append_left _ _

theorem Numbered.reopened (numbered : primary.Numbered) : primary.reopened.Numbered where
  current := numbered.current
  manifests := numbered.manifests
  installed := numbered.manifests _ numbered.current
  versions := by simp [Primary.reopened]

/-- The catalog and the versions of the engine, seen as a primary. -/
structure Follows (s : System) (primary : Primary) : Prop where
  catalog : primary.catalog = s.catalog
  installed : primary.installed = s.version.snapshotId
  pending : ∀ version, s.Pending version → version.snapshotId ∈ primary.versions

theorem follows_initial (config : Config) : Follows (.initial config) fresh where
  catalog := rfl
  installed := rfl
  pending := by
    rintro version (⟨_, phase⟩ | ⟨_, _, phase⟩) <;> cases phase

theorem Follows.step {config : Config} {s t : System} {action : Action}
    (follows : Follows s primary) (fired : Merutable.step config s action = some t) :
    ∃ next, (next = primary ∨ ∃ action, primary.step action = some next) ∧ Follows t next := by
  cases step_event fired with
  | quiet version catalog pending =>
    refine ⟨primary, .inl rfl, follows.catalog.trans catalog.symm, ?_, ?_⟩
    · rw [version, follows.installed]
    · exact fun other waits => follows.pending other ((pending other).mp waits)
  | commit txn new committed version pending =>
    refine ⟨⟨t.catalog, primary.installed, primary.versions ++ [new.snapshotId],
      primary.manifests ++ [t.catalog.current]⟩, .inr ⟨.commit txn, ?_⟩, rfl, ?_, ?_⟩
    · simp only [Primary.step, follows.catalog, committed]
    · rw [version]
      exact follows.installed
    · intro other waits
      rcases (pending other).mp waits with before | rfl
      · exact List.mem_append_left _ (follows.pending other before)
      · simp
  | install waiting catalog pending left order =>
    obtain ⟨index, found⟩ := List.getElem?_of_mem (follows.pending _ waiting)
    refine ⟨{ primary with installed := t.version.snapshotId }, .inr ⟨.install index, ?_⟩,
      ?_, rfl, ?_⟩
    · simp only [Primary.step, found]
    · exact follows.catalog.trans catalog.symm
    · exact fun other waits => follows.pending other (pending other waits)

end Primary

/-- What a step of `put_if_absent` does to the target. -/
inductive PutEvent (target : MirrorTarget) (path : MirrorPath) (object : MirrorObject) :
    PutPhase → PutStep → PutPhase → MirrorTarget → Prop
  | found (content : Option MirrorObject) (present : target.read path = some content) :
      PutEvent target path object .opening .create (.returned true) target
  | created (absent : target.read path = none) :
      PutEvent target path object .opening .create .opened (target.put path none)
  | wrote : PutEvent target path object .opened .write .written (target.write path object)
  | synced : PutEvent target path object .written .sync (.returned true) target
  | failed (phase : PutPhase) (step : PutStep) (cause : phase = .opened → step = .writeFailed) :
      PutEvent target path object phase step (.returned false) target

variable {object : MirrorObject} {step : PutStep} {path : MirrorPath} {target after : MirrorTarget}
  {phase next : PutPhase}

theorem putIfAbsent_event {target : MirrorTarget} {phase : PutPhase}
    {result : PutPhase × MirrorTarget}
    (fired : putIfAbsent target path object phase step = some result) :
    PutEvent target path object phase step result.1 result.2 := by
  unfold putIfAbsent at fired
  split at fired
  · split at fired
    · rename_i present
      cases fired
      obtain ⟨content, found⟩ := Option.isSome_iff_exists.mp present
      exact .found content found
    · rename_i absent
      cases fired
      exact .created (Option.not_isSome_iff_eq_none.mp absent)
  · cases fired
    exact .failed _ _ (by simp)
  · cases fired
    exact .wrote
  · cases fired
    exact .failed _ _ (by simp)
  · cases fired
    exact .synced
  · cases fired
    exact .failed _ _ (by simp)
  · cases fired

theorem PutEvent.read_of_ne {path other : MirrorPath}
    (event : PutEvent target path object phase step next after) (different : other ≠ path) :
    after.read other = target.read other := by
  cases event with
  | found | synced | failed => rfl
  | created absent => exact Files.read_put_of_ne different _
  | wrote => exact Files.read_write_of_ne different _

theorem PutEvent.keeps (event : PutEvent target path object phase step next after)
    (complete : target.read path = some (some object)) : after.read path = some (some object) := by
  cases event with
  | found | synced | failed => exact complete
  | created absent =>
    rw [complete] at absent
    cases absent
  | wrote => exact Files.read_write _ _ _

namespace Mirror

variable {bytes : FilePath → Bytes} {mirror next : Mirror} {action : MirrorAction}
  {step : UploadStep} {target after : MirrorTarget} {upload following : Upload}

/-- What a step of an upload task does. -/
inductive UploadEvent (bytes : FilePath → Bytes) (target : MirrorTarget) (upload : Upload) :
    UploadStep → Upload → MirrorTarget → Prop
  | read (unread : upload.put = none) :
      UploadEvent bytes target upload .read { upload with put := some .opening } target
  | readFailed (unread : upload.put = none) :
      UploadEvent bytes target upload .readFailed
        { upload with put := some (.returned false) } target
  | put (phase : PutPhase) (step : PutStep) (after : PutPhase) (next : MirrorTarget)
      (reading : upload.put = some phase)
      (event : PutEvent target (.file upload.path) (.file (bytes upload.path)) phase step
        after next) :
      UploadEvent bytes target upload (.put step) { upload with put := some after } next

theorem uploadStep_event {target : MirrorTarget} {upload : Upload} {result : Upload × MirrorTarget}
    (fired : uploadStep bytes target upload step = some result) :
    UploadEvent bytes target upload step result.1 result.2 := by
  cases step with
  | read =>
    simp only [uploadStep] at fired
    split at fired <;> cases fired
    rename_i unread
    exact .read unread
  | readFailed =>
    simp only [uploadStep] at fired
    split at fired <;> cases fired
    rename_i unread
    exact .readFailed unread
  | put step =>
    simp only [uploadStep] at fired
    split at fired
    · cases fired
    · rename_i phase reading
      obtain ⟨result, putting, rfl⟩ := Option.map_eq_some_iff.mp fired
      exact .put phase step result.1 result.2 reading (putIfAbsent_event putting)

theorem UploadEvent.same_path (event : UploadEvent bytes target upload step following after) :
    following.path = upload.path := by
  cases event <;> rfl

theorem UploadEvent.read_of_ne {other : MirrorPath}
    (event : UploadEvent bytes target upload step following after)
    (different : ∀ path, other ≠ .file path) : after.read other = target.read other := by
  cases event with
  | read | readFailed => rfl
  | put phase step next after reading event => exact event.read_of_ne (different _)

/-- What a step of the mirror does, by the phase it starts from. -/
inductive Event (bytes : FilePath → Bytes) (mirror : Mirror) : MirrorAction → Mirror → Prop
  | primary (action : PrimaryAction) (primary : Primary)
      (fired : mirror.primary.step action = some primary) :
      Event bytes mirror (.primary action) { mirror with primary := primary }
  | sampled (phase : mirror.phase = .idle) :
      Event bytes mirror .sample { mirror with phase := .sampled mirror.primary.installed }
  | unchanged (phase : mirror.phase = .idle) : Event bytes mirror .sample mirror
  | readManifest (version : Nat) (phase : mirror.phase = .sampled version) :
      Event bytes mirror .readManifest { mirror with
        phase := .uploading version mirror.primary.catalog.current
          (mirror.primary.catalog.current.paths.map fun path => ⟨path, none⟩) }
  | upload (version : Nat) (manifest : Manifest) (uploads : List Upload) (index : Nat)
      (step : UploadStep) (upload following : Upload) (target : MirrorTarget)
      (phase : mirror.phase = .uploading version manifest uploads)
      (found : uploads[index]? = some upload)
      (event : UploadEvent bytes mirror.target upload step following target) :
      Event bytes mirror (.upload index step) { mirror with
        target := target, phase := .uploading version manifest (uploads.set index following) }
  | detached (index : Nat) (step : PutStep) (upload following : Upload) (target : MirrorTarget)
      (event : UploadEvent bytes mirror.target upload (.put step) following target) :
      Event bytes mirror (.detached index step) { mirror with
        target := target, detached := mirror.detached.set index following }
  | joined (version : Nat) (manifest : Manifest) (uploads : List Upload)
      (phase : mirror.phase = .uploading version manifest uploads)
      (all : ∀ upload ∈ uploads, upload.put = some (.returned true)) :
      Event bytes mirror .join { mirror with phase := .publishing version manifest .opening }
  | gaveUp (version : Nat) (manifest : Manifest) (uploads detached : List Upload)
      (phase : mirror.phase = .uploading version manifest uploads) :
      Event bytes mirror .giveUp { mirror with phase := .idle, detached := detached }
  | publish (version : Nat) (manifest : Manifest) (put after : PutPhase) (step : PutStep)
      (target : MirrorTarget) (phase : mirror.phase = .publishing version manifest put)
      (event : PutEvent mirror.target (.manifest version) (.manifest manifest) put step
        after target) :
      Event bytes mirror (.publish step) { mirror with
        target := target, phase := published version manifest after }
  | advance (version lastUploaded : Nat) (replaced ok : Bool) (target : MirrorTarget)
      (phase : mirror.phase = .advancing version)
      (others : ∀ path, path ≠ .lowWater → target.read path = mirror.target.read path) :
      Event bytes mirror (.advance replaced ok) { mirror with
        target := target, lastUploaded := lastUploaded, phase := .idle }
  | reopen : Event bytes mirror .reopen ⟨mirror.primary.reopened, mirror.target, 0, .idle, []⟩

theorem event_of_step (fired : mirror.step bytes action = some next) :
    Event bytes mirror action next := by
  cases action with
  | primary action =>
    obtain ⟨primary, stepped, rfl⟩ := Option.map_eq_some_iff.mp fired
    exact .primary action primary stepped
  | sample =>
    simp only [step] at fired
    split at fired
    · rename_i phase
      split at fired
      · cases fired
        exact .sampled phase
      · cases fired
        exact .unchanged phase
    · cases fired
  | readManifest =>
    simp only [step] at fired
    split at fired <;> cases fired
    rename_i version phase
    exact .readManifest version phase
  | upload index step =>
    simp only [Mirror.step] at fired
    split at fired
    · rename_i version manifest uploads phase
      split at fired
      · rename_i upload found
        obtain ⟨result, stepped, rfl⟩ := Option.map_eq_some_iff.mp fired
        exact .upload version manifest uploads index step upload _ _ phase found
          (uploadStep_event stepped)
      · cases fired
    · cases fired
  | detached index step =>
    simp only [Mirror.step] at fired
    split at fired
    · obtain ⟨result, stepped, rfl⟩ := Option.map_eq_some_iff.mp fired
      exact .detached index step _ _ _ (uploadStep_event stepped)
    · cases fired
  | join =>
    simp only [step] at fired
    split at fired
    · rename_i version manifest uploads phase
      split at fired <;> cases fired
      rename_i all
      refine .joined version manifest uploads phase fun upload member => ?_
      exact of_decide_eq_true (List.all_eq_true.mp all upload member)
    · cases fired
  | giveUp =>
    simp only [step] at fired
    split at fired
    · rename_i version manifest uploads phase
      split at fired <;> cases fired
      exact .gaveUp version manifest uploads _ phase
    · cases fired
  | publish step =>
    simp only [Mirror.step] at fired
    split at fired
    · rename_i version manifest put phase
      obtain ⟨result, stepped, rfl⟩ := Option.map_eq_some_iff.mp fired
      exact .publish version manifest put _ step _ phase (putIfAbsent_event stepped)
    · cases fired
  | advance replaced ok =>
    simp only [step] at fired
    split at fired
    · rename_i version phase
      split at fired <;> cases fired
      refine .advance version _ replaced ok _ phase fun path other => ?_
      split
      · exact Files.read_write_of_ne other _
      · rfl
    · cases fired
  | reopen =>
    cases fired
    exact .reopen

namespace Sample

def file : DataFile :=
  ⟨7, 0, 100, [⟨(putByte 1 1).1, 1, (putByte 1 1).2⟩], List.cons_ne_nil _ _,
    List.pairwise_singleton _ _⟩

def flushed : List MirrorAction := [.primary (.commit ⟨[file], [], []⟩), .primary (.install 0)]

def begun : List MirrorAction :=
  [.sample, .readManifest, .upload 0 .read, .upload 0 (.put .create)]

def published : List MirrorAction :=
  [.join, .publish .create, .publish .write, .publish .sync, .advance true true]

/-- The first turn cannot read the data file, the second one uploads the snapshot. -/
def retried : List MirrorAction :=
  flushed ++ [.sample, .readManifest, .upload 0 .readFailed, .giveUp] ++ begun ++
    [.upload 0 (.put .write), .upload 0 (.put .sync)] ++ published

def torn : List MirrorAction :=
  flushed ++ begun ++ [.upload 0 (.put .writeFailed), .giveUp] ++ begun ++ published

/-- A column is added between the two reads of the turn. -/
def extended : List MirrorAction :=
  flushed ++ [.sample, .primary .addColumn, .readManifest, .upload 0 .read,
    .upload 0 (.put .create),
    .upload 0 (.put .write), .upload 0 (.put .sync)] ++ published

end Sample

end Mirror

end Merutable
