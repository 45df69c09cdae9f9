import Merutable.Lsm.Retention

/-! Snapshot ids and file names over whole runs: neither is used a second time, and no data file
that the manifest lists is deleted, whatever the order of commits, installs and sweeps. -/

namespace Merutable

open Foundation Compaction

/-- The file is deleted or on its way there, from the commit that has removed it on. -/
def System.Removes (s : System) (path : FilePath) : Prop :=
  (∃ job plan version, s.jobs job = .committed plan version ∧ path ∈ obsoletedPaths plan) ∨
    (∃ tag, s.Discards path tag) ∨ path ∈ s.deleted

/-- Versions in use with one snapshot id are one version, none of their files is being written, and
what is on its way to deletion is used up. -/
structure System.Traced (config : Config) (s : System) : Prop where
  base : s.Base config
  dated : s.Dated
  same : ∀ first second, s.Mentions first → s.Mentions second →
    first.snapshotId = second.snapshotId → first = second
  unwritten : ∀ version, s.Mentions version → ∀ ref ∈ version.files, ∀ owner file,
    s.Writes config owner file → file.path ≠ ref.path
  gone : ∀ path, s.Removes path → s.Gone config path.owner

theorem initial_traced (config : Config) : (System.initial config).Traced config where
  base := initial_base config
  dated := initial_dated config
  same := by
    intro first second held held' _
    rw [initial_mentions held, initial_mentions held']
  unwritten := by
    intro version held ref present
    rw [initial_mentions held] at present
    cases present
  gone := by
    rintro path (⟨_, _, _, phase, _⟩ | ⟨_, discards⟩ | member)
    · cases phase
    · exact absurd discards initial_discards
    · cases member

section Traced

variable {config : Config} {s t : System} {action : Action}

theorem removes_step {path : FilePath} (fired : step config s action = some t)
    (removes : t.Removes path) : s.Removes path ∨ ∃ job plan version,
      action = .job job .commit ∧ t.jobs job = .committed plan version ∧
        path ∈ obsoletedPaths plan := by
  obtain ⟨committed, discards, _, deleted⟩ := deletion_step fired
  rcases removes with ⟨job, plan, version, phase, listed⟩ | ⟨tag, found⟩ | member
  · rcases committed job plan version phase with before | commits
    · exact .inl (.inl ⟨job, plan, version, before, listed⟩)
    · exact .inr ⟨job, plan, version, commits, phase, listed⟩
  · rcases discards path tag found with before | ⟨job, plan, phase, listed, _⟩
    · exact .inl (.inr (.inl ⟨tag, before⟩))
    · exact .inl (.inl ⟨job, plan, _, phase, listed⟩)
  · rcases deleted path member with before | ⟨_, _, _, _, _, phase, rfl, _⟩
    · exact .inl (.inr (.inr before))
    · exact .inl (.inr (.inl ⟨_, .swept phase (List.mem_append_left _ List.mem_cons_self)⟩))

theorem System.Traced.gone_step (inv : s.Traced config)
    (fired : Merutable.step config s action = some t) {path : FilePath} (removes : t.Removes path) :
    t.Gone config path.owner := by
  rcases removes_step fired removes with before | ⟨job, plan, version, rfl, phase, listed⟩
  · exact (inv.gone path before).step inv.base fired
  · change jobStep config s job .commit = some t at fired
    cases job_effect fired with
    | commit plan readSeq firstPath catalog version merged _ committed =>
      cases (Function.update_self ..).symm.trans phase
      have busy : (s.jobs job).plan? = some plan := by rw [merged]; rfl
      have held : s.Mentions plan.version := .planned busy
      have planned := (inv.base.locked.planned job plan busy).1
      obtain ⟨ref, source, same⟩ := owner_of_obsoleted (inv.dated.mentioned _ held) planned listed
      have present := (mem_sources planned source).1
      rw [same]
      exact commit_gone inv.base merged committed source ((inv.base.keeps _ held).2 ref present)
        (inv.unwritten _ held ref present)

theorem System.Traced.step (inv : s.Traced config)
    (fired : Merutable.step config s action = some t) : t.Traced config := by
  have base := inv.base.step fired
  have dated := inv.dated.step inv.base fired
  have newest {version} (held : t.Mentions version)
      (same : version.snapshotId = t.catalog.current.toVersion.snapshotId) :
      version = t.catalog.current.toVersion := by
    rcases dated.ids version held with less | equal
    · exact absurd same less.ne
    · exact equal
  refine ⟨base, dated, ?_, ?_, fun _ => inv.gone_step fired⟩
  · intro first second held held' same
    rcases step_mentions fired held with before | rfl
    · rcases step_mentions fired held' with before' | rfl
      · exact inv.same first second before before' same
      · exact newest held same
    · exact (newest held' same.symm).symm
  · intro version held ref present owner file writes
    rcases step_mentions fired held with before | rfl
    · have old := inv.unwritten version before ref present owner file
      cases step_fileEvent fired with
      | quiet _ _ _ back => exact old (back owner file writes)
      | commit _ _ _ _ _ _ _ _ back => exact old (back owner file writes).1
      | write _ _ _ _ _ range _ back =>
        rcases back owner file writes with earlier | ⟨_, new⟩
        · exact old earlier
        · have stored := (inv.base.keeps version before).2 ref present
          exact ((inv.base.stored.fresh ref.file stored).trans_le (range file new).1).ne'
    · exact live_unwritten base present owner file writes

theorem traced_of_run {guard : System → Action → Prop} {actions : List Action}
    (run : Run (step config) guard (.initial config) actions s) : s.Traced config :=
  run.invariant (fun s => s.Traced config) (fun _ _ _ inv _ fired => inv.step fired)
    (initial_traced config)

end Traced

/-- Two versions that readers, jobs or installs hold at one time under one id are the same. -/
theorem snapshot_id_identifies_version (config : Config) (actions : List Action) (s : System)
    (run : Run (step config) (fun _ _ => True) (.initial config) actions s)
    (first second : Version) (held : s.Mentions first) (held' : s.Mentions second)
    (same : first.snapshotId = second.snapshotId) : first = second :=
  (traced_of_run run).same first second held held' same

theorem snapshot_id_identifies_pinned : ∃ pin ∈ (finalPlain pinnedFlushed).pins,
    pin.2 = (finalPlain pinnedFlushed).version :=
  ⟨(finalPlain pinnedFlushed).pins.head (by decide +kernel), List.head_mem _,
    snapshot_id_identifies_version .plain pinnedFlushed _
      (.of_execute (fun _ _ _ => trivial) (execute_final (by decide +kernel))) _ _
      (.pinned (List.head_mem _)) .installed (by decide +kernel)⟩

/-- A data file that some version in use has and the manifest no longer lists never comes back into
the manifest, and no flush or job writes under its name again. -/
theorem removed_file_never_returns (config : Config) (actions later : List Action) (s t : System)
    (run : Run (step config) (fun _ _ => True) (.initial config) actions s)
    (onward : Run (step config) (fun _ _ => True) s later t) (version : Version)
    (held : s.Mentions version) (ref : DataFileMeta) (present : ref ∈ version.files)
    (removed : ref.path ∉ s.catalog.current.live.map DataFileMeta.path) :
    ref.path ∉ t.catalog.current.live.map DataFileMeta.path ∧
      ∀ owner file, t.Writes config owner file → file.path ≠ ref.path := by
  have traced := traced_of_run run
  have gone : s.Gone config ref.path :=
    ⟨traced.base.stored.fresh ref.file ((traced.base.keeps version held).2 ref present), removed,
      traced.unwritten version held ref present⟩
  have after := onward.invariant (fun s => s.Base config ∧ s.Gone config ref.path)
    (fun _ _ _ inv _ fired => ⟨inv.1.step fired, inv.2.step inv.1 fired⟩) ⟨traced.base, gone⟩
  exact ⟨after.2.removed, after.2.unwritten⟩

theorem removed_file_never_returns_replaced :
    0 ∉ (final (step .plain) (finalPlain pinnedCommitted)
      [.job 0 .install, .job 0 .clear]).catalog.current.live.map DataFileMeta.path :=
  (removed_file_never_returns .plain pinnedCommitted _ _ _
    (.of_execute (fun _ _ _ => trivial) (execute_final (by decide +kernel)))
    (.of_execute (fun _ _ _ => trivial) (execute_final (by decide +kernel))) _
    (.pinned (List.head_mem (by decide +kernel))) _ (List.head_mem (by decide +kernel))
    (by decide +kernel)).1

/-- Every data file that the manifest lists has been written and is not deleted. -/
theorem listed_file_in_store (config : Config) (actions : List Action) (s : System)
    (run : Run (step config) (fun _ _ => True) (.initial config) actions s) (ref : DataFileMeta)
    (listed : ref ∈ s.catalog.current.live) : ref.file ∈ s.store ∧ .data ref.path ∉ s.deleted := by
  have traced := traced_of_run run
  refine ⟨traced.base.stored.tracked ref listed, fun deleted => ?_⟩
  exact (traced.gone _ (.inr (.inr deleted))).removed (List.mem_map_of_mem listed)

theorem listed_file_in_store_swept : ∃ ref ∈ (finalPlain pinnedSwept).catalog.current.live,
    .data ref.path ∉ (finalPlain pinnedSwept).deleted :=
  ⟨_, List.head_mem (by decide +kernel), (listed_file_in_store .plain pinnedSwept _
    (.of_execute (fun _ _ _ => trivial) (execute_final (by decide +kernel))) _ (List.head_mem _)).2⟩

end Merutable
