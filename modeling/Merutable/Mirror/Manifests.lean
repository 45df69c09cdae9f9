import Merutable.Mirror

/-! The manifests on the target. `mirror_loop` takes the number from the installed version and
`mirror_snapshot` the manifest from the catalog, which may have moved on. -/

namespace Merutable.Mirror

open Foundation

variable {bytes : FilePath → Bytes} {mirror next : Mirror} {action : MirrorAction}
  {phase : MirrorPhase} {target : MirrorTarget}

/-- A manifest on the target under this number is the primary's manifest of the number. -/
def Authentic (mirror : Mirror) (version : Nat) : Prop :=
  ∀ content, mirror.target.read (.manifest version) = some content →
    ∃ manifest ∈ mirror.primary.manifests,
      content = some (.manifest manifest) ∧ manifest.snapshotId = version

/-- The catalog is still at the number that was taken, and the write of a manifest neither fails
halfway nor is cut off by the end of the process. -/
def ReadsOwn (mirror : Mirror) : MirrorAction → Prop
  | .readManifest => ∀ version ∈ mirror.phase.sampledVersion,
      mirror.primary.catalog.current.snapshotId = version
  | .publish .writeFailed => False
  | .reopen => mirror.phase.unwritten = none
  | _ => True

instance (mirror : Mirror) : DecidablePred (ReadsOwn mirror) := fun action => by
  unfold ReadsOwn
  split <;> infer_instance

/-- The manifest in the worker's hands is the one of its number. -/
def Holds (manifests : List Manifest) : MirrorPhase → Prop
  | .uploading version manifest _ => manifest ∈ manifests ∧ manifest.snapshotId = version
  | .publishing version manifest _ => manifest ∈ manifests ∧ manifest.snapshotId = version
  | _ => True

/-- Every manifest on the target but the one that is being written is authentic. -/
structure Genuine (mirror : Mirror) : Prop where
  numbered : mirror.primary.Numbered
  holds : Holds mirror.primary.manifests mirror.phase
  authentic : ∀ version, mirror.phase.unwritten = some version ∨ Authentic mirror version

theorem genuine_fresh : Genuine fresh where
  numbered := Primary.numbered_fresh
  holds := trivial
  authentic _ := .inr (by simp [Authentic, fresh, Files.empty, Files.read])

theorem Holds.mono {manifests more : List Manifest} (subset : manifests ⊆ more)
    (holds : Holds manifests phase) : Holds more phase := by
  cases phase with
  | uploading | publishing => exact ⟨subset holds.1, holds.2⟩
  | idle | sampled | advancing => trivial

theorem Genuine.move {lastUploaded : Nat} {detached : List Upload} (genuine : Genuine mirror)
    (idle : mirror.phase.unwritten = none) (holds : Holds mirror.primary.manifests phase)
    (manifests :
      ∀ version, target.read (.manifest version) = mirror.target.read (.manifest version)) :
    Genuine ⟨mirror.primary, target, lastUploaded, phase, detached⟩ := by
  refine ⟨genuine.numbered, holds, fun version => .inr fun content found => ?_⟩
  rw [manifests] at found
  rcases genuine.authentic version with writing | own
  · rw [idle] at writing
    cases writing
  · exact own content found

theorem Genuine.publish {version : Nat} {manifest : Manifest} {put after : PutPhase}
    {step : PutStep} (genuine : Genuine mirror)
    (phase : mirror.phase = .publishing version manifest put) (whole : step ≠ .writeFailed)
    (event :
      PutEvent mirror.target (.manifest version) (.manifest manifest) put step after target) :
    Genuine { mirror with target := target, phase := published version manifest after } := by
  have holds := genuine.holds
  rw [phase] at holds
  have unwritten : ∀ other, mirror.phase.unwritten = some other →
      other = version ∧ put = .opened := by
    intro other writing
    rw [phase] at writing
    cases put <;> cases writing
    exact ⟨rfl, rfl⟩
  refine ⟨genuine.numbered, ?_, ?_⟩
  · cases after with
    | opening | opened | written => exact holds
    | returned ok => cases ok <;> trivial
  · intro other
    by_cases same : other = version
    · subst same
      cases event with
      | found | synced =>
        rcases genuine.authentic other with writing | own
        · cases (unwritten other writing).2
        · exact .inr own
      | created absent => exact .inl rfl
      | wrote =>
        refine .inr fun content found => ?_
        rw [Files.read_write] at found
        cases found
        exact ⟨manifest, holds.1, rfl, holds.2⟩
      | failed put step cause =>
        rcases genuine.authentic other with writing | own
        · exact absurd (cause (unwritten other writing).2) whole
        · exact .inr own
    · refine .inr fun content found => ?_
      rw [event.read_of_ne (by simpa using same)] at found
      rcases genuine.authentic other with writing | own
      · exact absurd (unwritten other writing).1 same
      · exact own content found

theorem Genuine.primary {primary : Primary} (genuine : Genuine mirror) (numbered : primary.Numbered)
    (more : mirror.primary.manifests ⊆ primary.manifests) :
    Genuine { mirror with primary := primary } := by
  refine ⟨numbered, genuine.holds.mono more, fun version => ?_⟩
  refine (genuine.authentic version).imp_right fun own content found => ?_
  obtain ⟨manifest, member, same⟩ := own content found
  exact ⟨manifest, more member, same⟩

theorem Genuine.step (genuine : Genuine mirror) (met : ReadsOwn mirror action)
    (fired : mirror.step bytes action = some next) : Genuine next := by
  have nothing : ∀ {phase : MirrorPhase}, mirror.phase = phase → phase.unwritten = none →
      mirror.phase.unwritten = none := by
    intro phase same idle
    rw [same, idle]
  cases event_of_step fired with
  | primary action primary stepped =>
    obtain ⟨numbered, event⟩ := genuine.numbered.step stepped
    exact genuine.primary numbered (Primary.manifests_subset event)
  | sampled phase | gaveUp _ _ _ _ phase =>
    exact genuine.move (nothing phase rfl) trivial fun _ => rfl
  | unchanged phase => exact genuine
  | readManifest version phase =>
    have own := met version (by rw [phase]; rfl)
    exact genuine.move (nothing phase rfl) ⟨genuine.numbered.current, own⟩ fun _ => rfl
  | upload version manifest uploads index step upload following target phase found event =>
    have holds := genuine.holds
    rw [phase] at holds
    exact genuine.move (nothing phase rfl) holds fun _ => event.read_of_ne (by simp)
  | detached index step upload following target event =>
    refine ⟨genuine.numbered, genuine.holds, fun version => ?_⟩
    refine (genuine.authentic version).imp_right fun own content found => ?_
    rw [event.read_of_ne (by simp)] at found
    exact own content found
  | joined version manifest uploads phase all =>
    have holds := genuine.holds
    rw [phase] at holds
    exact genuine.move (nothing phase rfl) holds fun _ => rfl
  | publish version manifest put after step target phase event =>
    refine genuine.publish phase ?_ event
    rintro rfl
    exact met
  | advance version lastUploaded replaced ok target phase others =>
    exact genuine.move (nothing phase rfl) trivial fun _ => others _ (by simp)
  | reopen =>
    have moved : Genuine ⟨mirror.primary, mirror.target, 0, .idle, []⟩ :=
      genuine.move met trivial fun _ => rfl
    exact moved.primary genuine.numbered.reopened (List.Subset.refl _)

/-- As long as the catalog is at the number that was taken when the manifest is read, every manifest
on the target is the primary's manifest of its number once the call that creates it has written
it. -/
theorem mirrored_manifest_authentic {last : Mirror} {actions : List MirrorAction}
    (run : Run (step bytes) ReadsOwn .fresh actions last) (version : Nat)
    (written : last.phase.unwritten ≠ some version) : Authentic last version :=
  ((run.invariant Genuine (fun _ _ _ genuine met fired => genuine.step met fired)
    genuine_fresh).authentic version).resolve_left written

open Sample in
theorem mirrored_manifest_authentic_retried :
    let mirror := final (step (fun _ => [9])) .fresh retried
    mirror.target.read (.manifest 1) = some (some (.manifest mirror.primary.catalog.current)) ∧
      Authentic mirror 1 :=
  ⟨by decide +kernel, mirrored_manifest_authentic (.of_decided (by decide +kernel)) 1
    (by decide +kernel)⟩

open Sample in
/-- The number is 1 when the column is added; the manifest read afterwards is the one of snapshot 2
and is published under 1. -/
theorem mirrored_manifest_of_other_snapshot :
    let mirror := final (step (fun _ => [9])) .fresh extended
    (execute (step (fun _ => [9])) .fresh extended).isSome ∧ mirror.phase.unwritten = none ∧
      mirror.target.read (.manifest 1) = some (some (.manifest mirror.primary.catalog.current)) ∧
      mirror.primary.catalog.current.snapshotId = 2 ∧ ¬ Authentic mirror 1 := by
  intro mirror
  have stored : mirror.target.read (.manifest 1) =
      some (some (.manifest mirror.primary.catalog.current)) := by
    decide +kernel
  have number : mirror.primary.catalog.current.snapshotId = 2 := by decide +kernel
  refine ⟨by decide +kernel, by decide +kernel, stored, number, fun authentic => ?_⟩
  obtain ⟨manifest, _, content, own⟩ := authentic _ stored
  injection content with content
  injection content with content
  rw [← content, number] at own
  cases own

end Merutable.Mirror
