import Merutable.Lsm.Base

/-! Deferred deletion of obsolete files. A file is queued with the id of the snapshot its job was
picked on, and a sweep keeps it while that id is not below the smallest pin it has sampled. -/

namespace Merutable

open Foundation Compaction

/-- The data file a path belongs to: a deletion vector belongs to the file it masks. -/
def FilePath.owner : FilePath → Nat
  | .data path => path
  | .dv path => path.1

namespace Version

/-- The version refers to the file. -/
def References (version : Version) : FilePath → Prop
  | .data path => ∃ ref ∈ version.files, ref.path = path
  | .dv path => ∃ ref ∈ version.files, ∃ dv, ref.dv = some dv ∧ dv.path = path

def Lists (version : Version) (path : Nat) : Prop := ∃ ref ∈ version.files, ref.path = path

/-- Deletion vectors are stored under the path of their data file. -/
def DvNamed (version : Version) : Prop :=
  ∀ ref ∈ version.files, ∀ dv, ref.dv = some dv → dv.path.1 = ref.path

theorem References.lists {version : Version} {path : FilePath} (named : version.DvNamed)
    (found : version.References path) : version.Lists path.owner := by
  cases path with
  | data path => exact found
  | dv path =>
    obtain ⟨ref, present, dv, stored, rfl⟩ := found
    exact ⟨ref, present, (named ref present dv stored).symm⟩

end Version

/-- A job commits on top of the snapshot it was picked on. -/
def CommitsOnBase (s : System) : Action → Prop
  | .job job .commit => ∀ plan readSeq firstPath, s.jobs job = .merged plan readSeq firstPath →
      plan.version.snapshotId = s.catalog.current.snapshotId
  | _ => True

/-- What a pin protects when the sweep locks the queue is protected by the pin it has sampled. -/
def SweepsProtected (s : System) : Action → Prop
  | .sweep sweep .lock => ∀ minPinned, s.sweeps sweep = .sampled minPinned →
      ∀ entry ∈ s.pendingDeletions, ∀ pin ∈ s.pins,
        pin.2.snapshotId ≤ entry.obsoletedAfterSnapshot →
          minPinned.any (· ≤ entry.obsoletedAfterSnapshot) = true
  | _ => True

/-- The path is used up: no manifest to come has it. -/
structure System.Gone (config : Config) (s : System) (path : Nat) : Prop where
  old : path < s.nextUuid
  removed : path ∉ s.catalog.current.live.map DataFileMeta.path
  unwritten : ∀ owner file, s.Writes config owner file → file.path ≠ path

/-- The file was removed by a commit after the snapshot `tag` and cannot come back. -/
structure System.Obsolete (config : Config) (s : System) (path tag : Nat) : Prop
    extends s.Gone config path where
  tagged : ∀ version, s.Mentions version → version.Lists path → version.snapshotId ≤ tag

section Obsolete

variable {config : Config} {s t : System} {path tag : Nat}

theorem lists_current {manifest : Manifest} :
    manifest.toVersion.Lists path ↔ path ∈ manifest.live.map DataFileMeta.path :=
  List.mem_map.symm

theorem System.Gone.step {action : Action} (gone : s.Gone config path) (base : s.Base config)
    (fired : step config s action = some t) : t.Gone config path := by
  have event := step_fileEvent fired
  refine ⟨?_, ?_, ?_⟩
  · have old := gone.old
    cases event with
    | quiet _ _ nextUuid | commit _ _ _ _ _ nextUuid =>
      rw [nextUuid]
      exact old
    | write _ _ _ _ grows _ _ _ => exact lt_of_lt_of_le old grows
  · rcases catalog_step fired with catalog | ⟨owner, txn, new, committed, adds⟩
    · rw [catalog]
      exact gone.removed
    · rw [commit_paths base.stored committed]
      intro listed
      rcases List.mem_append.mp listed with kept | added
      · exact gone.removed ((List.filter_sublist.map _).subset kept)
      · obtain ⟨file, member, same⟩ := List.mem_map.mp added
        exact gone.unwritten owner file (adds file member) same
  · intro owner file held
    cases event with
    | quiet _ _ _ writes => exact gone.unwritten owner file (writes owner file held)
    | write _ _ _ _ _ range _ writes =>
      rcases writes owner file held with before | ⟨_, member⟩
      · exact gone.unwritten owner file before
      · exact (lt_of_lt_of_le gone.old (range file member).1).ne'
    | commit _ _ _ _ _ _ _ _ writes =>
      exact gone.unwritten owner file (writes owner file held).1

theorem live_unwritten (base : s.Base config) {ref : DataFileMeta}
    (live : ref ∈ s.catalog.current.live) (owner : Option Nat) (file : DataFile)
    (held : s.Writes config owner file) : file.path ≠ ref.path := by
  intro equal
  apply (base.stored.written owner file held).2
  rw [equal]
  exact List.mem_map_of_mem live

theorem commit_gone {job readSeq firstPath : Nat} {plan : JobPlan} {next : Catalog} {new : Version}
    (base : s.Base config) (phase : s.jobs job = .merged plan readSeq firstPath)
    (committed : s.catalog.commit ⟨Compaction.outputs config plan readSeq firstPath,
      plan.sources.map DataFileMeta.path, []⟩ = .ok (next, new)) {ref : DataFileMeta}
    (source : ref ∈ plan.sources) (stored : ref.file ∈ s.store)
    (unwritten : ∀ owner file, s.Writes config owner file → file.path ≠ ref.path) :
    System.Gone config { s.setJob job (.committed plan new) with catalog := next } ref.path := by
  refine ⟨base.stored.fresh ref.file stored, ?_, ?_⟩
  · change ref.path ∉ next.current.live.map DataFileMeta.path
    rw [commit_paths base.stored committed]
    intro present
    rcases List.mem_append.mp present with kept | added
    · obtain ⟨other, inFilter, equal⟩ := List.mem_map.mp kept
      have outside := of_decide_eq_true (List.mem_filter.mp inFilter).2
      rw [equal] at outside
      exact outside (List.mem_map_of_mem source)
    · obtain ⟨file, inAdds, equal⟩ := List.mem_map.mp added
      exact unwritten (some job) file ⟨plan, readSeq, firstPath, phase, inAdds⟩ equal
  · intro owner file held
    rcases writes_of_jobs (s := s) held rfl rfl with ⟨_, before⟩ | ⟨_, _, _, _, found, _⟩
    · exact unwritten owner file before
    · cases found

theorem System.Obsolete.step {action : Action} (obsolete : s.Obsolete config path tag)
    (base : s.Base config) (fired : step config s action = some t) :
    t.Obsolete config path tag := by
  have after := obsolete.toGone.step base fired
  refine ⟨after, ?_⟩
  intro version mentioned listed
  rcases step_mentions fired mentioned with before | rfl
  · exact obsolete.tagged version before listed
  · exact absurd (lists_current.mp listed) after.removed

end Obsolete

/-- Versions in use are older than the manifest or its own, and name deletion vectors after their
file. -/
structure System.Dated (s : System) : Prop where
  ids : ∀ version, s.Mentions version → version.snapshotId < s.catalog.current.snapshotId ∨
    version = s.catalog.current.toVersion
  next : s.catalog.current.snapshotId < s.catalog.nextVersion
  named : s.catalog.current.toVersion.DvNamed
  mentioned : ∀ version, s.Mentions version → version.DvNamed

theorem initial_dated (config : Config) : (System.initial config).Dated where
  ids := by
    intro version mentioned
    exact .inr (initial_mentions mentioned)
  next := Nat.zero_lt_one
  named := by intro ref present; cases present
  mentioned := by
    intro version mentioned
    rw [initial_mentions mentioned]
    intro ref present
    cases present

section Dated

variable {config : Config} {s t : System}

theorem restamp_named {dvs : List (Nat × Finset Nat)} {newId : Nat} {ref : DataFileMeta}
    (named : ∀ dv, ref.dv = some dv → dv.path.1 = ref.path) :
    ∀ dv, (Catalog.restamp dvs newId ref).dv = some dv → dv.path.1 = ref.path := by
  intro dv stored
  unfold Catalog.restamp at stored
  split at stored
  · injection stored with same
    rw [← same]
  · exact named dv stored

theorem System.Dated.step {action : Action} (dated : s.Dated) (base : s.Base config)
    (fired : step config s action = some t) : t.Dated := by
  have next : t.catalog.current.snapshotId < t.catalog.nextVersion := by
    rcases catalog_step fired with catalog | ⟨_, _, _, committed, _⟩
    · rw [catalog]
      exact dated.next
    · rw [Catalog.commit_snapshotId committed, (Catalog.commit_ok committed).2.1]
      exact Nat.lt_succ_self _
  have named : t.catalog.current.toVersion.DvNamed := by
    rcases catalog_step fired with catalog | ⟨_, txn, _, committed, _⟩
    · rw [catalog]
      exact dated.named
    · intro ref present
      rcases (mem_commit_live base.stored committed).mp present with
        ⟨old, live, _, rfl⟩ | ⟨file, _, rfl⟩
      · rw [Catalog.restamp_path]
        exact restamp_named (dated.named old live)
      · intro dv stored
        cases stored
  refine ⟨?_, next, named, ?_⟩
  · intro version mentioned
    rcases step_mentions fired mentioned with before | rfl
    · rcases catalog_step fired with catalog | ⟨_, _, _, committed, _⟩
      · rw [catalog]
        exact dated.ids version before
      · left
        rw [Catalog.commit_snapshotId committed]
        rcases dated.ids version before with less | rfl
        · exact less.trans dated.next
        · exact dated.next
    · exact .inr rfl
  · intro version mentioned
    rcases step_mentions fired mentioned with before | rfl
    · exact dated.mentioned version before
    · exact named

end Dated

/-- The file is obsolete and the installed version is past the snapshot it was removed after. -/
def System.Unlisted (config : Config) (s : System) (path tag : Nat) : Prop :=
  s.Obsolete config path tag ∧ tag < s.version.snapshotId

/-- The file is on its way to deletion, removed after the snapshot `tag`: a version without it is
installed, it is queued, or a sweep holds it. -/
inductive System.Discards (s : System) : FilePath → Nat → Prop
  | replaced {job : Nat} {plan : JobPlan} {path : FilePath}
      (phase : s.jobs job = .installed plan ∨ s.jobs job = .cleared plan)
      (listed : path ∈ obsoletedPaths plan) : Discards s path plan.version.snapshotId
  | queued {entry : PendingDelete} (member : entry ∈ s.pendingDeletions) :
      Discards s entry.path entry.obsoletedAfterSnapshot
  | swept {sweep : Nat} {minPinned : Option Nat} {todo remaining : List PendingDelete}
      {entry : PendingDelete} (phase : s.sweeps sweep = .sweeping minPinned todo remaining)
      (member : entry ∈ todo ++ remaining) : Discards s entry.path entry.obsoletedAfterSnapshot

/-- What a step can do to files on their way to deletion: each stage is reached from the one before
it. -/
structure DeletionStep (s t : System) (action : Action) : Prop where
  committed : ∀ job plan version, t.jobs job = .committed plan version →
    s.jobs job = .committed plan version ∨ action = .job job .commit
  discards : ∀ path tag, t.Discards path tag → s.Discards path tag ∨
    ∃ job plan, s.jobs job = .committed plan t.version ∧ path ∈ obsoletedPaths plan ∧
      tag = plan.version.snapshotId
  todo : ∀ sweep minPinned todo remaining, t.sweeps sweep = .sweeping minPinned todo remaining →
    ∀ entry ∈ todo, (∃ before remaining, s.sweeps sweep = .sweeping minPinned before remaining ∧
      entry ∈ before) ∨
      action = .sweep sweep .lock ∧ s.sweeps sweep = .sampled minPinned ∧
        entry ∈ s.pendingDeletions
  deleted : ∀ path ∈ t.deleted, path ∈ s.deleted ∨ ∃ sweep minPinned entry todo remaining,
    s.sweeps sweep = .sweeping minPinned (entry :: todo) remaining ∧ entry.path = path ∧
      minPinned.any (· ≤ entry.obsoletedAfterSnapshot) = false

section Deletion

variable {config : Config} {s t : System} {job : Nat} {action : JobAction} {sweep : Nat}

theorem DeletionStep.of_same {action : Action} (jobs : t.jobs = s.jobs)
    (sweeps : t.sweeps = s.sweeps) (pending : t.pendingDeletions = s.pendingDeletions)
    (deleted : t.deleted = s.deleted) : DeletionStep s t action where
  committed _ _ _ phase := .inl (jobs ▸ phase)
  discards path tag found := by
    cases found with
    | replaced phase listed => exact .inl (.replaced (jobs ▸ phase) listed)
    | queued member => exact .inl (.queued (pending ▸ member))
    | swept phase member => exact .inl (.swept (sweeps ▸ phase) member)
  todo _ _ _ _ phase _ member := .inl ⟨_, _, sweeps ▸ phase, member⟩
  deleted _ member := .inl (deleted ▸ member)

theorem job_phases (fired : jobStep config s job action = some t) :
    ∃ phase, t.jobs = Function.update s.jobs job phase ∧
      (∀ plan version, phase = .committed plan version → action = .commit) ∧
      (∀ plan, phase = .installed plan → s.jobs job = .committed plan t.version) ∧
      ∀ plan, phase = .cleared plan → s.jobs job = .installed plan := by
  cases job_effect fired with
  | commit => exact ⟨_, rfl, fun _ _ _ => rfl, by simp, by simp⟩
  | install plan version phase =>
    refine ⟨_, rfl, by simp, ?_, by simp⟩
    rintro _ ⟨⟩
    exact phase
  | clear plan phase =>
    refine ⟨_, rfl, by simp, by simp, ?_⟩
    rintro _ ⟨⟩
    exact phase
  | _ => exact ⟨_, rfl, by simp, by simp, by simp⟩

theorem job_pending (fired : jobStep config s job action = some t) {entry : PendingDelete}
    (member : entry ∈ t.pendingDeletions) :
    entry ∈ s.pendingDeletions ∨ ∃ plan, s.jobs job = .cleared plan ∧
      entry.path ∈ obsoletedPaths plan ∧
      entry.obsoletedAfterSnapshot = plan.version.snapshotId := by
  cases job_effect fired with
  | enqueue plan phase =>
    rcases List.mem_append.mp member with old | new
    · exact .inl old
    · obtain ⟨path, listed, rfl⟩ := List.mem_map.mp new
      exact .inr ⟨plan, phase, listed, rfl⟩
  | _ => exact .inl member

theorem job_deletionStep (fired : jobStep config s job action = some t) :
    DeletionStep s t (.job job action) := by
  have frame : t.sweeps = s.sweeps ∧ t.deleted = s.deleted := by
    obtain ⟨_, _, _, _, _, _, _, _, rfl⟩ := job_frame fired
    exact ⟨rfl, rfl⟩
  obtain ⟨phase, jobs, commits, installs, clears⟩ := job_phases fired
  have moved {other : Nat} {found : JobPhase} (now : t.jobs other = found) :
      s.jobs other = found ∨ other = job ∧ phase = found := by
    rw [jobs, Function.update_apply] at now
    split at now
    · rename_i same
      exact .inr ⟨same, now⟩
    · exact .inl now
  constructor
  · intro other plan version found
    rcases moved found with before | ⟨rfl, same⟩
    · exact .inl before
    · rw [commits plan version same]
      exact .inr rfl
  · intro path tag found
    cases found with
    | @replaced other plan _ found listed =>
      rcases found with installed | cleared
      · rcases moved installed with before | ⟨rfl, same⟩
        · exact .inl (.replaced (.inl before) listed)
        · exact .inr ⟨other, plan, installs plan same, listed, rfl⟩
      · rcases moved cleared with before | ⟨rfl, same⟩
        · exact .inl (.replaced (.inr before) listed)
        · exact .inl (.replaced (.inl (clears plan same)) listed)
    | queued member =>
      rcases job_pending fired member with before | ⟨plan, cleared, listed, same⟩
      · exact .inl (.queued before)
      · rw [same]
        exact .inl (.replaced (.inr cleared) listed)
    | swept found member => exact .inl (.swept (frame.1 ▸ found) member)
  · intro other minPinned todo remaining found entry member
    exact .inl ⟨todo, remaining, frame.1 ▸ found, member⟩
  · intro path member
    exact .inl (frame.2 ▸ member)

/-- What a sweep has in its new phase and leaves in the queue was there before. -/
theorem DeletionStep.of_sweep {action : SweepAction} {phase : SweepPhase} (jobs : t.jobs = s.jobs)
    (sweeps : t.sweeps = Function.update s.sweeps sweep phase)
    (queued : ∀ entry ∈ t.pendingDeletions, s.Discards entry.path entry.obsoletedAfterSnapshot)
    (held : ∀ minPinned todo remaining, phase = .sweeping minPinned todo remaining →
      (∀ entry ∈ todo ++ remaining, s.Discards entry.path entry.obsoletedAfterSnapshot) ∧
      ∀ entry ∈ todo, (∃ before remaining, s.sweeps sweep = .sweeping minPinned before remaining ∧
        entry ∈ before) ∨
        action = .lock ∧ s.sweeps sweep = .sampled minPinned ∧ entry ∈ s.pendingDeletions)
    (deleted : ∀ path ∈ t.deleted, path ∈ s.deleted ∨ ∃ sweep minPinned entry todo remaining,
      s.sweeps sweep = .sweeping minPinned (entry :: todo) remaining ∧ entry.path = path ∧
        minPinned.any (· ≤ entry.obsoletedAfterSnapshot) = false) :
    DeletionStep s t (.sweep sweep action) := by
  refine ⟨fun _ _ _ found => .inl (jobs ▸ found), ?_, ?_, deleted⟩
  · intro path tag found
    cases found with
    | replaced found listed => exact .inl (.replaced (jobs ▸ found) listed)
    | queued member => exact .inl (queued _ member)
    | swept found member =>
      rw [sweeps, Function.update_apply] at found
      split at found
      · exact .inl ((held _ _ _ found).1 _ member)
      · exact .inl (.swept found member)
  · intro other minPinned todo remaining found entry member
    rw [sweeps, Function.update_apply] at found
    split at found
    · rename_i same
      rw [same]
      exact ((held _ _ _ found).2 entry member).imp_right fun ⟨locks, rest⟩ =>
        ⟨congrArg (Action.sweep sweep) locks, rest⟩
    · exact .inl ⟨todo, remaining, found, member⟩

theorem sweep_deletionStep {action : SweepAction}
    (fired : sweepStep config s sweep action = some t) :
    DeletionStep s t (.sweep sweep action) := by
  have queued : ∀ entry ∈ s.pendingDeletions, s.Discards entry.path entry.obsoletedAfterSnapshot :=
    fun _ member => .queued member
  cases sweep_effect fired with
  | sample => exact .of_sweep rfl rfl queued (by simp) fun _ => .inl
  | lock phase =>
    refine .of_sweep rfl rfl (by simp) ?_ fun _ => .inl
    rintro _ _ _ ⟨⟩
    exact ⟨by simpa using queued, fun entry member => .inr ⟨rfl, phase, member⟩⟩
  | keep phase =>
    refine .of_sweep rfl rfl queued ?_ fun _ => .inl
    rintro _ _ _ ⟨⟩
    refine ⟨fun other member => .swept phase ?_, fun other member =>
      .inl ⟨_, _, phase, List.mem_cons_of_mem _ member⟩⟩
    simp only [List.mem_append, List.mem_cons, List.not_mem_nil, or_false] at member ⊢
    tauto
  | @remove _ entry _ _ removed phase unpinned =>
    refine .of_sweep rfl rfl queued ?_ ?_
    · rintro _ _ _ ⟨⟩
      exact ⟨fun other member => .swept phase (List.mem_cons_of_mem _ member), fun other member =>
        .inl ⟨_, _, phase, List.mem_cons_of_mem _ member⟩⟩
    · intro path member
      cases removed with
      | false => exact .inl member
      | true =>
        rcases List.mem_cons.mp member with rfl | before
        · exact .inr ⟨sweep, _, entry, _, _, phase, rfl, unpinned⟩
        · exact .inl before
  | unlock phase => exact .of_sweep rfl rfl (fun _ => .swept phase) (by simp) fun _ => .inl

theorem deletion_step {action : Action} (fired : step config s action = some t) :
    DeletionStep s t action := by
  cases job : action.isJob with
  | true =>
    cases action with
    | job job action => exact job_deletionStep fired
    | _ => cases job
  | false =>
    cases sweep : action.isSweep with
    | true =>
      cases action with
      | sweep sweep action => exact sweep_deletionStep fired
      | _ => cases sweep
    | false =>
      obtain ⟨jobs, sweeps, pending, deleted⟩ := deletion_frame job sweep fired
      exact .of_same jobs sweeps pending deleted

end Deletion

/-- Everything on its way to deletion is out of the installed version, and what a sweep has not
visited yet is protected by its sampled pin if some reader needs it. -/
structure System.Retained (config : Config) (s : System) : Prop where
  order : s.InstallOrder
  dated : s.Dated
  committed : ∀ job plan version, s.jobs job = .committed plan version →
    plan.version.snapshotId < version.snapshotId ∧ ∀ path ∈ obsoletedPaths plan,
      s.Obsolete config path.owner plan.version.snapshotId
  unlisted : ∀ path tag, s.Discards path tag → s.Unlisted config path.owner tag
  protects : ∀ sweep minPinned todo remaining,
    s.sweeps sweep = .sweeping minPinned todo remaining → ∀ entry ∈ todo, ∀ pin ∈ s.pins,
      pin.2.Lists entry.path.owner → minPinned.any (· ≤ entry.obsoletedAfterSnapshot) = true
  deleted : ∀ path ∈ s.deleted, (∃ tag, s.Unlisted config path.owner tag) ∧
    ∀ pin ∈ s.pins, ¬ pin.2.Lists path.owner

theorem initial_discards {config : Config} {path : FilePath} {tag : Nat} :
    ¬ (System.initial config).Discards path tag := by
  intro discards
  cases discards with
  | replaced phase => rcases phase with phase | phase <;> cases phase
  | queued member => cases member
  | swept phase => cases phase

theorem initial_retained (config : Config) : (System.initial config).Retained config where
  order := initial_installOrder config
  dated := initial_dated config
  committed := by intro job plan version phase; cases phase
  unlisted := fun _ _ discards => absurd discards initial_discards
  protects := by intro sweep minPinned todo remaining phase; cases phase
  deleted := by intro path member; cases member

section Retained

variable {config : Config} {s t : System} {job : Nat}

theorem System.Unlisted.installed {path tag : Nat} (unlisted : s.Unlisted config path tag) :
    ¬ s.version.Lists path := by
  intro listed
  have below := unlisted.1.tagged s.version .installed listed
  exact absurd unlisted.2 (Nat.not_lt.mpr below)

theorem System.Unlisted.step {action : Action} {path tag : Nat}
    (unlisted : s.Unlisted config path tag)
    (base : s.Base config) (grows : s.version.snapshotId ≤ t.version.snapshotId)
    (fired : step config s action = some t) : t.Unlisted config path tag :=
  ⟨unlisted.1.step base fired, lt_of_lt_of_le unlisted.2 grows⟩

theorem owner_of_obsoleted {plan : JobPlan} (named : plan.version.DvNamed)
    (planned : Compaction.plan config plan.version plan.inputLevel = some plan) {path : FilePath}
    (member : path ∈ obsoletedPaths plan) : ∃ ref ∈ plan.sources, path.owner = ref.path := by
  obtain ⟨ref, source, listed⟩ := List.mem_flatMap.mp member
  refine ⟨ref, source, ?_⟩
  rcases List.mem_cons.mp listed with rfl | stored
  · rfl
  · obtain ⟨dv, found, rfl⟩ := Option.map_eq_some_iff.mp (Option.mem_toList.mp stored)
    exact named ref (mem_sources planned source).1 dv found

theorem commit_obsolete (base : s.Base config) (dated : s.Dated)
    (onBase : CommitsOnBase s (.job job .commit)) (fired : jobStep config s job .commit = some t) :
    ∃ plan version, t.jobs = Function.update s.jobs job (.committed plan version) ∧
      plan.version.snapshotId < version.snapshotId ∧ ∀ path ∈ obsoletedPaths plan,
        t.Obsolete config path.owner plan.version.snapshotId := by
  have stepped : step config s (.job job .commit) = some t := fired
  cases job_effect fired with
  | commit plan readSeq firstPath catalog version phase _ committed =>
  have onCurrent := onBase plan readSeq firstPath phase
  have busy : (s.jobs job).plan? = some plan := by rw [phase]; rfl
  have planned := (base.locked.planned job plan busy).1
  have current : plan.version = s.catalog.current.toVersion := by
    rcases dated.ids plan.version (.planned busy) with less | same
    · exact absurd onCurrent less.ne
    · exact same
  refine ⟨plan, version, rfl, ?_, ?_⟩
  · rw [onCurrent, (Catalog.commit_ok committed).2.2]
    exact lt_of_lt_of_eq dated.next (Catalog.commit_snapshotId committed).symm
  · intro path member
    have named := dated.mentioned plan.version (.planned busy)
    obtain ⟨ref, source, same⟩ := owner_of_obsoleted named planned member
    have live : ref ∈ s.catalog.current.live := by
      have present := (mem_sources planned source).1
      rwa [current] at present
    have gone := commit_gone base phase committed source (base.stored.tracked ref live)
      (live_unwritten base live)
    rw [same]
    refine ⟨gone, ?_⟩
    intro other mentioned lists
    rcases step_mentions stepped mentioned with before | rfl
    · rw [onCurrent]
      rcases dated.ids other before with less | rfl
      · exact less.le
      · exact le_rfl
    · exact absurd (lists_current.mp lists) gone.removed

/-- The only new pins are on the installed version, which lists nothing on its way to deletion. -/
theorem System.Retained.step {action : Action} (inv : s.Retained config) (base : s.Base config)
    (ordered : InstallsInOrder s action) (onBase : CommitsOnBase s action)
    (covered : SweepsProtected s action) (fired : step config s action = some t) :
    t.Retained config := by
  obtain ⟨order, grows⟩ := inv.order.step ordered fired
  obtain ⟨committed, discards, todo, deleted⟩ := deletion_step fired
  have pinned : ∀ {path tag : Nat}, s.Unlisted config path tag → ∀ pin ∈ t.pins,
      pin.2.Lists path → pin ∈ s.pins := by
    intro path tag unlisted pin member lists
    rcases pins_step fired member with before | same
    · exact before
    · rw [same] at lists
      exact absurd lists unlisted.installed
  refine ⟨order, inv.dated.step base fired, ?_, ?_, ?_, ?_⟩
  · intro job plan version phase
    rcases committed job plan version phase with before | rfl
    · obtain ⟨less, obsolete⟩ := inv.committed job plan version before
      exact ⟨less, fun path member => (obsolete path member).step base fired⟩
    · obtain ⟨_, _, jobs, new⟩ := commit_obsolete base inv.dated onBase fired
      rw [jobs, Function.update_self] at phase
      cases phase
      exact new
  · intro path tag found
    rcases discards path tag found with before | ⟨job, plan, phase, listed, rfl⟩
    · exact (inv.unlisted path tag before).step base grows fired
    · obtain ⟨less, obsolete⟩ := inv.committed job plan t.version phase
      exact ⟨(obsolete path listed).step base fired, less⟩
  · intro sweep minPinned left remaining phase entry member pin present lists
    rcases todo sweep minPinned left remaining phase entry member with
      ⟨_, _, before, listed⟩ | ⟨rfl, sampled, queued⟩
    · have unlisted := inv.unlisted _ _ (.swept before (List.mem_append_left _ listed))
      exact inv.protects _ _ _ _ before entry listed pin (pinned unlisted pin present lists) lists
    · have unlisted := inv.unlisted _ _ (.queued queued)
      have before := pinned unlisted pin present lists
      exact covered minPinned sampled entry queued pin before
        (unlisted.1.tagged pin.2 (.pinned before) lists)
  · intro path member
    rcases deleted path member with before | ⟨sweep, minPinned, entry, _, _, phase, rfl, unpinned⟩
    · obtain ⟨⟨tag, unlisted⟩, free⟩ := inv.deleted path before
      exact ⟨⟨tag, unlisted.step base grows fired⟩, fun pin present lists =>
        free pin (pinned unlisted pin present lists) lists⟩
    · have unlisted := inv.unlisted _ _ (.swept phase (List.mem_append_left _ List.mem_cons_self))
      refine ⟨⟨_, unlisted.step base grows fired⟩, fun pin present lists => ?_⟩
      have kept := inv.protects _ _ _ _ phase entry List.mem_cons_self pin
        (pinned unlisted pin present lists) lists
      rw [unpinned] at kept
      cases kept

/-- The three conditions under which a deleted file is never needed by a reader. -/
def DeletesSafely (s : System) (action : Action) : Prop :=
  InstallsInOrder s action ∧ CommitsOnBase s action ∧ SweepsProtected s action

theorem retained_of_run {guard : System → Action → Prop} {actions : List Action}
    (safe : ∀ s action, guard s action → DeletesSafely s action)
    (run : Run (Merutable.step config) guard (.initial config) actions s) : s.Retained config := by
  have invariants := run.invariant (fun s => s.Base config ∧ s.Retained config)
    (fun s action t inv met fired => ⟨inv.1.step fired, inv.2.step inv.1 (safe s action met).1
      (safe s action met).2.1 (safe s action met).2.2 fired⟩)
    ⟨initial_base config, initial_retained config⟩
  exact invariants.2

/-- No file that a pinned version refers to is deleted, whatever the grace period. -/
theorem pinned_files_kept (config : Config) (actions : List Action) (s : System)
    (run : Run (Merutable.step config) DeletesSafely (.initial config) actions s)
    (pin : PinOwner × Version) (pinned : pin ∈ s.pins) (path : FilePath)
    (needed : pin.2.References path) : path ∉ s.deleted := by
  intro deleted
  have retained := retained_of_run (fun _ _ => id) run
  have named := retained.dated.mentioned pin.2 (.pinned pinned)
  exact (retained.deleted path deleted).2 pin pinned (needed.lists named)

/-- A reader pins the first flushed version, and a job is about to replace its only file. -/
def pinnedFlushed : List Action :=
  Calls.write [putByte 1 1] ++ Calls.rotate ++ [.flush .pick, .flush .resolve, .flush .commit] ++
    .flush .install :: [.flush (.mark []), .flush .drop, .pin 0, .job 0 (.pick 0), .job 0 .merge]

def pinnedCommitted : List Action := pinnedFlushed ++ .job 0 .commit :: []

/-- The job has queued the file for deletion and a sweep has sampled the smallest pin. -/
def pinnedSampled : List Action :=
  pinnedCommitted ++ .job 0 .install :: [.job 0 .clear, .job 0 .enqueue, .job 0 .release,
    .sweep 0 .sample]

def pinnedSwept : List Action :=
  pinnedSampled ++ .sweep 0 .lock :: [.sweep 0 (.visit true), .sweep 0 .unlock]

theorem pinned_files_kept_replaced :
    ∃ pin ∈ (finalPlain pinnedSwept).pins, pin.2.References (.data 0) ∧
      ¬ (finalPlain pinnedSwept).version.Lists 0 ∧ .data 0 ∉ (finalPlain pinnedSwept).deleted := by
  have installs : Run (Merutable.step .plain) InstallsInOrder (.initial .plain) pinnedSwept
      (finalPlain pinnedSwept) := (installs_of_check (initial_oneJob .plain) (by decide +kernel)).1
  have merged : Run (Merutable.step .plain) CommitsOnBase (.initial .plain) pinnedFlushed
      (finalPlain pinnedFlushed) :=
    .of_execute (by simp [pinnedFlushed, Calls.write, Calls.rotate, CommitsOnBase])
      (execute_final (by decide +kernel))
  have commits := @Run.extend _ _ _ _ _ _ (pinnedSwept.drop (pinnedFlushed.length + 1)) _ merged
    (by decide +kernel : (execute _ _ (pinnedFlushed ++ .job 0 .commit :: _)).isSome)
    (by intro plan readSeq firstPath phase; cases phase; decide +kernel)
    (by simp [pinnedSwept, pinnedSampled, pinnedCommitted, pinnedFlushed, Calls.write, Calls.rotate,
      CommitsOnBase])
  have protects : Run (Merutable.step .plain) SweepsProtected (.initial .plain) pinnedSwept
      (finalPlain pinnedSwept) := by
    refine Run.extend (.of_execute ?_ (execute_final (by decide +kernel))) (by decide +kernel) ?_
      (by simp [SweepsProtected])
    · simp [pinnedSampled, pinnedCommitted, pinnedFlushed, Calls.write, Calls.rotate,
        SweepsProtected]
    · intro minPinned phase entry queued pin pinned below
      cases phase
      revert entry pin
      decide +kernel
  have run : Run (Merutable.step .plain) DeletesSafely (.initial .plain) pinnedSwept
      (finalPlain pinnedSwept) := installs.and (Run.and commits protects)
  have listed : Version.References (finalPlain pinnedFlushed).version (.data 0) :=
    ⟨_, List.mem_cons_self, rfl⟩
  have pinned : (.reader 0, (finalPlain pinnedFlushed).version) ∈
    (finalPlain pinnedSwept).pins := by
    decide +kernel
  refine ⟨_, pinned, listed, ?_, pinned_files_kept .plain _ _ run _ pinned _ listed⟩
  rintro ⟨ref, present, path⟩
  revert ref
  decide +kernel

/-- A job is picked, a flush commits another version that still lists the file of the job, and a
reader pins that version before the job commits and a sweep runs. -/
def pinnedBetween : List Action :=
  Calls.write [putByte 1 1] ++ Calls.rotate ++ Calls.runFlush ++ [.job 0 (.pick 0)] ++
    Calls.write [putByte 2 2] ++ Calls.rotate ++ Calls.runFlush ++ [.pin 0, .job 0 .merge,
      .job 0 .commit, .job 0 .install, .job 0 .clear, .job 0 .enqueue, .job 0 .release,
      .sweep 0 .sample, .sweep 0 .lock, .sweep 0 (.visit true), .sweep 0 .unlock]

/-- The tag of the file is older than the pin, so the sweep deletes a file the reader needs. -/
theorem pinned_file_deleted : ∃ s, runFrom .plain pinnedBetween = some s ∧
    ∃ pin ∈ s.pins, pin.2.References (.data 0) ∧ .data 0 ∈ s.deleted :=
  ⟨_, execute_final (by decide +kernel), (finalPlain pinnedBetween).pins.head (by decide +kernel),
    List.head_mem _, ⟨_, List.mem_cons_self, by decide +kernel⟩, by decide +kernel⟩

end Retained

end Merutable
