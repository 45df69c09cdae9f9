import Merutable.Engine.Recovery
import Merutable.Lsm.Align
import Merutable.Lsm.Handover

/-! Operations executed one at a time. A put that rotates the memtable out, its flush and a
compaction may follow each other in any order, but none of them starts while another one is under
way. -/

namespace Merutable

open Foundation Compaction

inductive Task where
  | write
  | rotation
  | flush
  | job (id : Nat)
  deriving DecidableEq

def System.Busy (s : System) : Task → Prop
  | .write => s.write ≠ .idle
  | .rotation => s.rotation ≠ .idle
  | .flush => s.flush ≠ .idle
  | .job id => s.jobs id ≠ .idle

namespace Action

def task? : Action → Option Task
  | .write _ => some .write
  | .rotate _ => some .rotation
  | .flush _ => some .flush
  | .job id _ => some (.job id)
  | _ => none

/-- The first step of a task. -/
def starts : Action → Bool
  | .write (.allocate _) => true
  | .rotate .lock => true
  | .flush .pick => true
  | .job _ (.pick _) => true
  | _ => false

/-- The step with which a call returns an error. -/
def fails : Action → Bool
  | .write (.appendFailed _) => true
  | .flush .abort => true
  | .job _ .abort => true
  | _ => false

end Action

/-- No call fails, and a task starts when no other one is under way. A memtable that `flush` has
rotated out empty is dropped before anything else starts, because the call does not return
before. -/
def Alone (s : System) (action : Action) : Prop :=
  action.fails = false ∧ (action.starts = true → (∀ task, ¬ s.Busy task) ∧
    (action = .flush .pick ∨ ∀ memtable ∈ s.memtable.immutable, memtable.batches ≠ []))

section Tasks

variable {config : Config} {s t : System} {action : Action} {task : Task}

theorem busy_step (fired : step config s action = some t) (busy : t.Busy task) :
    s.Busy task ∨ action.task? = some task := by
  cases step_effect fired with
  | write =>
    cases task with
    | write => exact .inr rfl
    | _ => exact .inl busy
  | rotate =>
    cases task with
    | rotation => exact .inr rfl
    | _ => exact .inl busy
  | flush =>
    cases task with
    | flush => exact .inr rfl
    | _ => exact .inl busy
  | @job job _ _ _ _ _ _ _ _ _ fired =>
    cases task with
    | job id =>
      by_cases same : id = job
      · rw [same]
        exact .inr rfl
      · exact .inl fun idle => busy ((job_others fired same).trans idle)
    | _ => exact .inl busy
  | _ => exact .inl busy

theorem write_busy {action : WriteAction} (fired : writeStep config s action = some t) :
    s.write ≠ .idle ∨ (Action.write action).starts = true := by
  cases write_effect fired with
  | allocate => exact .inr rfl
  | append _ phase | appendFailed _ phase | apply _ phase | publish _ phase =>
    exact .inl (by simp [phase])

theorem rotation_busy {action : RotationAction} (fired : rotationStep s action = some t) :
    s.rotation ≠ .idle ∨ (Action.rotate action).starts = true := by
  cases rotation_effect fired with
  | lock => exact .inr rfl
  | readSeq phase | sealActive _ phase | rotateWal phase => exact .inl (by simp [phase])

theorem flush_busy {action : FlushAction} (fired : flushStep config s action = some t) :
    s.flush ≠ .idle ∨ (Action.flush action).starts = true := by
  cases flush_effect fired with
  | pick => exact .inr rfl
  | dropEmpty _ phase | resolve _ _ phase | commit _ _ _ _ _ phase | install _ _ phase
  | mark _ phase | drop _ phase =>
    exact .inl (by simp [phase])
  | abort found =>
    obtain ⟨_, phase | ⟨_, _, phase⟩⟩ := found
    · exact .inl (by simp [phase])
    · exact .inl (by simp [phase])

theorem job_busy {job : Nat} {action : JobAction} (fired : jobStep config s job action = some t) :
    s.jobs job ≠ .idle ∨ (Action.job job action).starts = true := by
  cases job_move fired with
  | pick _ _ _ _ _ _ _ => exact .inr rfl
  | work before | leave before =>
    left
    intro idle
    rw [idle] at before
    cases before

theorem task_step (fired : step config s action = some t) (own : action.task? = some task) :
    s.Busy task ∨ action.starts = true := by
  cases action with
  | write action =>
    cases own
    exact write_busy fired
  | rotate action =>
    cases own
    exact rotation_busy fired
  | flush action =>
    cases own
    exact flush_busy fired
  | job job action =>
    cases own
    exact job_busy fired
  | _ => cases own

theorem write_idle_of_rotating (solo : ∀ a b, s.Busy a → s.Busy b → a = b)
    (rotating : s.rotation ≠ .idle) : s.write = .idle := by
  by_contra busy
  cases solo .write .rotation busy rotating

theorem solo_step (solo : ∀ a b, s.Busy a → s.Busy b → a = b) (alone : Alone s action)
    (fired : step config s action = some t) :
    ∀ a b, t.Busy a → t.Busy b → a = b := by
  intro a b first second
  -- Whatever is busy besides the task of this step was so before, and then the task was too.
  have other : ∀ {task own : Task}, s.Busy task → action.task? = some own → task = own := by
    intro task own busy acts
    rcases task_step fired acts with before | starts
    · exact solo task own busy before
    · exact absurd busy ((alone.2 starts).1 task)
  rcases busy_step fired first with before | own
  · rcases busy_step fired second with before' | own'
    · exact solo a b before before'
    · exact other before own'
  · rcases busy_step fired second with before' | own'
    · exact (other before' own).symm
    · exact Option.some.inj (own.symm.trans own')

end Tasks

/-- The memtables that wait for their flush have records, the last one perhaps apart, and different
first sequence numbers. -/
structure System.Lined (s : System) : Prop where
  waiting : s.memtable.immutable.Pairwise fun a b => a.batches ≠ [] ∧ a.firstSeq < b.firstSeq
  below : ∀ held ∈ s.memtable.immutable, held.batches ≠ [] →
    held.firstSeq < s.memtable.active.firstSeq
  active : s.memtable.active.firstSeq ≤ s.globalSeq + 1
  filled : s.memtable.active.batches ≠ [] ∨ s.write ≠ .idle → s.memtable.active.firstSeq ≤
    s.globalSeq
  read : ∀ nextSeq, s.rotation = .read nextSeq → nextSeq = s.globalSeq + 1
  full : s.rotation = .locked ∨ (∃ nextSeq, s.rotation = .read nextSeq) →
    ∀ held ∈ s.memtable.immutable, held.batches ≠ []

theorem initial_lined (config : Config) : (System.initial config).Lined where
  waiting := List.Pairwise.nil
  below := by intro held member; cases member
  active := Nat.le_succ _
  filled := fun _ => le_rfl
  read := by intro nextSeq phase; cases phase
  full := by intro _ held member; cases member

section Lined

variable {config : Config} {s t : System} {action : Action}

section

variable (inv : s.Lined) (solo : ∀ a b, s.Busy a → s.Busy b → a = b)
include inv solo

theorem write_lined {action : WriteAction} (alone : Alone s (.write action))
    (fired : writeStep config s action = some t) : t.Lined := by
  have unread : ∀ {nextSeq : Nat}, s.rotation = .read nextSeq → False := by
    intro nextSeq phase
    have rotating : s.Busy .rotation := by
      change s.rotation ≠ .idle
      simp [phase]
    rcases write_busy fired with busy | starts
    · cases solo .write .rotation busy rotating
    · exact (alone.2 starts).1 _ rotating
  cases write_effect fired with
  | @allocate records _ _ batch _ same =>
    have some : 1 ≤ records.length := by
      rw [← same]
      exact List.length_pos_of_ne_nil batch.nonempty
    refine ⟨inv.waiting, inv.below, ?_, ?_, fun _ phase => (unread phase).elim, inv.full⟩
    · have := inv.active
      change s.memtable.active.firstSeq ≤ s.globalSeq + records.length + 1
      omega
    · intro _
      have := inv.active
      change s.memtable.active.firstSeq ≤ s.globalSeq + records.length
      omega
  | append _ phase | apply _ phase | publish _ phase =>
    exact ⟨inv.waiting, inv.below, inv.active, fun _ => inv.filled (.inr (by simp [phase])),
      inv.read, inv.full⟩
  | appendFailed => cases alone.1

theorem rotation_lined {action : RotationAction} (alone : Alone s (.rotate action))
    (fired : rotationStep s action = some t) : t.Lined := by
  cases rotation_effect fired with
  | lock =>
    refine ⟨inv.waiting, inv.below, inv.active, inv.filled, by simp, fun _ => ?_⟩
    rcases (alone.2 rfl).2 with other | nonempty
    · cases other
    · exact nonempty
  | readSeq phase =>
    refine ⟨inv.waiting, inv.below, inv.active, inv.filled, ?_, fun _ => inv.full (.inl phase)⟩
    intro nextSeq same
    injection same with same
    exact same.symm
  | sealActive nextSeq phase =>
    have next := inv.read nextSeq phase
    have full := inv.full (.inr ⟨nextSeq, phase⟩)
    have active := inv.active
    have idle := write_idle_of_rotating solo (by simp [phase])
    refine ⟨?_, ?_, ?_, ?_, by simp, by simp⟩
    · refine List.pairwise_append.mpr ⟨inv.waiting, List.pairwise_singleton _ _, ?_⟩
      intro held member last only
      rw [List.mem_singleton.mp only]
      exact ⟨full held member, inv.below held member (full held member)⟩
    · intro held member nonempty
      change held.firstSeq < nextSeq
      rcases List.mem_append.mp member with immutable | sealed'
      · have := inv.below held immutable nonempty
        omega
      · rw [List.mem_singleton.mp sealed'] at nonempty ⊢
        have := inv.filled (.inl nonempty)
        change s.memtable.active.firstSeq < nextSeq
        omega
    · exact next.le
    · rintro (filled | busy)
      · exact absurd rfl filled
      · exact absurd idle busy
  | rotateWal => exact ⟨inv.waiting, inv.below, inv.active, inv.filled, by simp, by simp⟩

theorem step_lined (alone : Alone s action) (fired : step config s action = some t) : t.Lined := by
  cases step_effect fired with
  | write fired => exact write_lined inv solo alone fired
  | rotate fired => exact rotation_lined inv solo alone fired
  | flush fired =>
    rcases flush_memtable fired with same | ⟨memtable, dropped, _⟩
    · change _ = s.memtable at same
      subst same
      exact ⟨inv.waiting, inv.below, inv.active, inv.filled, inv.read, inv.full⟩
    · cases dropped
      refine ⟨inv.waiting.sublist List.filter_sublist, ?_, inv.active, inv.filled, inv.read, ?_⟩
      · intro held member
        exact inv.below held (List.mem_filter.mp member).1
      · intro phase held member
        exact inv.full phase held (List.mem_filter.mp member).1
  | _ => exact ⟨inv.waiting, inv.below, inv.active, inv.filled, inv.read, inv.full⟩

end

theorem System.Lined.dropsOwn (inv : s.Lined) (queued : s.Queued) :
    DropsOwnMemtable s action := by
  have distinct : (s.memtable.immutable.map Memtable.firstSeq).Nodup := by
    rw [List.Nodup, List.pairwise_map]
    exact inv.waiting.imp fun ordered => ordered.2.ne
  exact dropsOwn_of_distinct distinct queued

end Lined

/-- At most one task is under way; the manifest it started from is still the latest one until it
commits itself. -/
structure System.Sequential (config : Config) (s : System) : Prop where
  solo : ∀ a b, s.Busy a → s.Busy b → a = b
  lined : s.Lined
  order : s.InstallOrder
  planned : ∀ job plan, (s.jobs job).uncommitted? = some plan →
    plan.version = s.catalog.current.toVersion
  deltas : ∀ memtable file deltas, s.flush = .resolved memtable file deltas →
    deltas = Flush.dvDeltas config memtable s.catalog.current.toVersion

theorem initial_sequential (config : Config) : (System.initial config).Sequential config where
  solo := by
    intro a _ busy
    cases a <;> exact absurd rfl busy
  lined := initial_lined config
  order := initial_installOrder config
  planned := by intro job plan working; cases working
  deltas := by intro memtable file deltas phase; cases phase

section Sequential

variable {config : Config} {s t : System} {memtable : Memtable} {action : Action} {plan : JobPlan}
  {deltas : List (Nat × Finset Nat)} {file : DataFile} {row : Entry} {ref : DataFileMeta}

section

variable (inv : s.Sequential config)
include inv

theorem System.Sequential.installs (action : Action) :
    InstallsInOrder s action := by
  have flushing : ∀ {memtable : Memtable} {version : Version},
      s.flush = .committed memtable version → s.Busy .flush := by
    intro memtable version phase
    change s.flush ≠ .idle
    simp [phase]
  have working : ∀ {job : Nat} {plan : JobPlan} {version : Version},
      s.jobs job = .committed plan version → s.Busy (.job job) := by
    intro job plan version phase
    change s.jobs job ≠ .idle
    simp [phase]
  cases action with
  | flush action =>
    cases action with
    | install =>
      intro memtable version phase job plan other busy
      cases inv.solo _ _ (flushing phase) (working busy)
    | _ => trivial
  | job job action =>
    cases action with
    | install =>
      intro plan version phase
      refine ⟨?_, ?_⟩
      · intro memtable other busy
        cases inv.solo _ _ (flushing busy) (working phase)
      · intro job' plan' other different busy
        injection inv.solo _ _ (working busy) (working phase) with same
        exact absurd same different
    | _ => trivial
  | _ => trivial

theorem System.Sequential.latest (flush : ∀ memtable version, s.flush ≠ .committed memtable version)
    (jobs : ∀ job plan version, s.jobs job ≠ .committed plan version) :
    s.version = s.catalog.current.toVersion := by
  rcases inv.order.latest with same | ⟨memtable, phase⟩ | ⟨job, plan, phase⟩
  · exact same
  · exact absurd phase (flush memtable _)
  · exact absurd phase (jobs job plan _)

theorem System.Sequential.idle_latest (idle : ∀ task, ¬ s.Busy task) :
    s.version = s.catalog.current.toVersion := by
  refine inv.latest ?_ ?_
  · intro memtable version phase
    exact idle .flush (by change s.flush ≠ .idle; simp [phase])
  · intro job plan version phase
    exact idle (.job job) (by change s.jobs job ≠ .idle; simp [phase])

theorem System.Sequential.flush_latest (phase : s.flush = .picked memtable) :
    s.version = s.catalog.current.toVersion := by
  refine inv.latest (by simp [phase]) ?_
  intro job plan version busy
  have flushing : s.Busy .flush := by
    change s.flush ≠ .idle
    simp [phase]
  cases inv.solo .flush (.job job) flushing (by change s.jobs job ≠ .idle; simp [busy])

theorem System.Sequential.job_catalog {job : Nat} (working : (s.jobs job).uncommitted? = some plan)
    (still : (t.jobs job).uncommitted? = some plan)
    (fired : Merutable.step config s action = some t) : t.catalog = s.catalog := by
  have busy : s.Busy (.job job) := by
    intro idle
    rw [idle] at working
    cases working
  rcases step_catalog fired with catalog | rfl | ⟨other, rfl⟩
  · exact catalog
  · rcases task_step fired rfl with flushing | starts
    · cases inv.solo _ _ busy flushing
    · cases starts
  · rcases task_step fired rfl with committing | starts
    · injection inv.solo _ _ busy committing with same
      subst same
      change jobStep config s job .commit = some t at fired
      cases job_effect fired with
      | commit =>
      change (Function.update s.jobs job _ job).uncommitted? = _ at still
      rw [Function.update_self] at still
      cases still
    · cases starts

theorem System.Sequential.planned_step (alone : Alone s action)
    (fired : Merutable.step config s action = some t) {job : Nat}
    (working : (t.jobs job).uncommitted? = some plan) :
    plan.version = t.catalog.current.toVersion := by
  rcases uncommitted_step fired working with before | ⟨level, rfl, picked⟩
  · rw [inv.job_catalog before working fired]
    exact inv.planned job plan before
  · have latest := inv.idle_latest (alone.2 rfl).1
    rcases step_catalog fired with catalog | other | ⟨_, other⟩
    · rw [picked, latest, catalog]
    · cases other
    · cases other

theorem System.Sequential.deltas_step (fired : Merutable.step config s action = some t)
    (phase : t.flush = .resolved memtable file deltas) :
    deltas = Flush.dvDeltas config memtable t.catalog.current.toVersion := by
  rcases resolved_step fired phase with before | ⟨rfl, _, same, _⟩
  · have flushing : s.Busy .flush := by
      change s.flush ≠ .idle
      simp [before]
    rcases step_catalog fired with catalog | rfl | ⟨job, rfl⟩
    · rw [catalog]
      exact inv.deltas memtable file deltas before
    · change flushStep config s .commit = some t at fired
      cases flush_effect fired with
      | commit => cases phase
    · rcases task_step fired rfl with committing | starts
      · cases inv.solo _ _ flushing committing
      · cases starts
  · change flushStep config s .resolve = some t at fired
    cases flush_effect fired with
    | resolve _ _ picked => rw [same, inv.flush_latest picked]

end

theorem System.Sequential.step {action : Action} (inv : s.Sequential config)
    (alone : Alone s action) (fired : Merutable.step config s action = some t) :
    t.Sequential config where
  solo := solo_step inv.solo alone fired
  lined := step_lined inv.lined inv.solo alone fired
  order := (inv.order.step (inv.installs action) fired).1
  planned _ _ working := inv.planned_step alone fired working
  deltas _ _ _ phase := inv.deltas_step fired phase

/-- The row is one that this flush commits: the newest record of its key in the memtable. -/
def System.Flushes (config : Config) (s : System) (action : Action) (row : Entry) : Prop :=
  action = .flush .commit ∧ ∃ memtable, s.flush.memtable? = some memtable ∧
    ∃ entry, row = entry.persist config ∧ newest Entry.key entry.key memtable.entries = some entry

theorem System.Base.flushes (base : s.Base config)
    (phase : s.flush = .resolved memtable file deltas) :
    row ∈ file.rows ↔ s.Flushes config (.flush .commit) row := by
  have picked : s.flush.memtable? = some memtable := by
    rw [phase]
    rfl
  have front := base.front picked
  rw [(base.resolved memtable file deltas phase).rows,
    Flush.mem_rows (base.increasing front) (base.seq_le front)]
  constructor
  · intro found
    exact ⟨rfl, memtable, picked, found⟩
  · rintro ⟨_, other, same, found⟩
    rw [picked] at same
    injection same with same
    rwa [same]

section

variable (inv : s.Sequential config) (base : s.Base config)
include inv base

theorem System.Sequential.file_step (fired : Merutable.step config s action = some t)
    (present : ref ∈ t.catalog.current.live) :
    (∃ old ∈ s.catalog.current.live, ref.file = old.file ∧ old.deletedRows ⊆ ref.deletedRows) ∨
      (ref.dv = none ∧ ∀ row ∈ ref.file.rows, s.Flushes config action row) ∨
      (ref.dv = none ∧ ∀ row ∈ ref.file.rows, ∃ old ∈ s.catalog.current.live,
        row ∈ old.liveRows) := by
  rcases Merutable.live_step base.stored fired present with kept |
      ⟨fresh, rfl, memtable, deltas, phase⟩ |
        ⟨fresh, job, plan, readSeq, firstPath, _, phase, written⟩
  · exact .inl kept
  · exact .inr (.inl ⟨fresh, fun row member => (base.flushes phase).mp member⟩)
  · refine .inr (.inr ⟨fresh, ?_⟩)
    intro row member
    have working : (s.jobs job).uncommitted? = some plan := by
      rw [phase]
      rfl
    have planned := (base.locked.planned job plan (JobPhase.plan?_of_uncommitted? working)).1
    obtain ⟨source, isSource, live⟩ := mem_mergedRows ((mem_outputs written).2.2.2 row member)
    have there := (mem_sources planned isSource).1
    rw [inv.planned job plan working] at there
    exact ⟨source, there, live⟩

theorem System.Sequential.live_step (fired : Merutable.step config s action = some t)
    (live : t.catalog.current.toVersion.Live row) :
    s.catalog.current.toVersion.Live row ∨ s.Flushes config action row := by
  obtain ⟨ref, present, inRef⟩ := live
  rcases inv.file_step base fired present with
    ⟨old, listed, sameFile, masks⟩ | ⟨_, flushed⟩ | ⟨_, merged⟩
  · obtain ⟨position, found, unmasked⟩ := DataFileMeta.mem_liveRows.mp inRef
    exact .inl ⟨old, listed, DataFileMeta.mem_liveRows.mpr
      ⟨position, sameFile ▸ found, fun masked => unmasked (masks masked)⟩⟩
  · exact .inr (flushed row (ref.liveRows_sublist.subset inRef))
  · exact .inl (merged row (ref.liveRows_sublist.subset inRef))

theorem System.Sequential.row_step (fired : Merutable.step config s action = some t)
    (present : ref ∈ t.catalog.current.live) (member : row ∈ ref.file.rows) :
    (∃ old ∈ s.catalog.current.live, row ∈ old.file.rows) ∨ s.Flushes config action row := by
  rcases inv.file_step base fired present with
    ⟨old, listed, sameFile, _⟩ | ⟨_, flushed⟩ | ⟨_, merged⟩
  · exact .inl ⟨old, listed, sameFile ▸ member⟩
  · exact .inr (flushed row member)
  · obtain ⟨old, listed, live⟩ := merged row member
    exact .inl ⟨old, listed, old.liveRows_sublist.subset live⟩

theorem System.Sequential.flushed_visible (phase : s.flush.memtable? = some memtable)
    {entry : Entry} (member : entry ∈ memtable.entries) : entry.seq ≤ s.visibleSeq := by
  have flushing : s.Busy .flush := by
    intro idle
    rw [idle] at phase
    cases phase
  obtain ⟨batch, inMemtable, inBatch⟩ := mem_entriesOf.mp member
  have written := (base.queued.memtable_batches (base.front phase)).subset inMemtable
  rcases base.numbered.published batch written with applied | seen
  · cases inv.solo .write .flush (by change s.write ≠ .idle; simp [applied]) flushing
  · exact (WriteBatch.seq_bounds inBatch).2.trans seen

theorem System.Sequential.rows_visible
    (rows : ∀ ref ∈ s.catalog.current.live, ∀ row ∈ ref.file.rows, row.seq ≤ s.visibleSeq)
    (fired : Merutable.step config s action = some t) :
    ∀ ref ∈ t.catalog.current.live, ∀ row ∈ ref.file.rows, row.seq ≤ s.visibleSeq := by
  intro ref present row member
  rcases inv.row_step base fired present member with
    ⟨old, listed, inOld⟩ | ⟨_, memtable, phase, entry, rfl, found⟩
  · exact rows old listed row inOld
  · rw [Entry.persist_seq]
    exact inv.flushed_visible base phase (newest_mem found).1

end

end Sequential

/-- The operations on a table are executed one at a time. -/
def OneAtATime (table : Table) : TableAction → Prop
  | .act action => ∀ s, table.host = .running s → Alone s action
  | _ => True

section Checks

/-- `Alone` for runs in which job 0 is the only one, as a test. -/
def aloneCheck (s : System) (action : Action) : Bool :=
  !action.fails && (action.task?.all fun task => task = .write ∨ task = .rotation ∨ task = .flush ∨
      task = .job 0) &&
    (!action.starts || (s.write = .idle && s.rotation = .idle && s.flush = .idle &&
      s.jobs 0 = .idle &&
      (action = .flush .pick || s.memtable.immutable.all fun memtable => memtable.batches ≠ [])))

variable {action : Action} {config : Config}

theorem aloneCheck_alone {s : System} (one : s.OneJob) (passed : aloneCheck s action = true) :
    Alone s action := by
  simp only [aloneCheck, Bool.and_eq_true, Bool.not_eq_true', Bool.or_eq_true,
    decide_eq_true_eq] at passed
  obtain ⟨⟨returns, _⟩, idle⟩ := passed
  refine ⟨returns, fun starts => ?_⟩
  rw [starts] at idle
  rcases idle with never | ⟨⟨⟨⟨write, rotation⟩, flush⟩, job⟩, waiting⟩
  · cases never
  · constructor
    · intro task busy
      cases task with
      | write => exact busy write
      | rotation => exact busy rotation
      | flush => exact busy flush
      | job id =>
        rw [one id busy] at busy
        exact busy job
    · refine waiting.imp_right fun filled memtable member => ?_
      exact of_decide_eq_true (List.all_eq_true.mp filled memtable member)

theorem aloneCheck_oneJob {s t : System} (one : s.OneJob) (passed : aloneCheck s action = true)
    (fired : step config s action = some t) : t.OneJob := by
  intro job busy
  rcases @busy_step config s t action (.job job) fired busy with before | own
  · exact one job before
  · simp only [aloneCheck, own, Bool.and_eq_true] at passed
    simpa using passed.1.2

theorem oneAtATime_of_check {actions : List TableAction}
    (passed : (execute (checked tableStep (tableCheck aloneCheck fun _ _ => true)) (.created config)
      actions).isSome) :
    Run tableStep OneAtATime (.created config) actions
      (final tableStep (.created config) actions) :=
  run_of_tableCheck System.OneJob
    (fun _ _ good s host => aloneCheck_alone (good s host).1 (good s host).2) (fun _ _ => trivial)
    (fun _ _ _ => trivial) aloneCheck_oneJob (fun _ _ _ busy => absurd rfl busy)
    (initial_oneJob config) passed

end Checks

end Merutable
