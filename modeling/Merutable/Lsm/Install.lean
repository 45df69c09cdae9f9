import Merutable.Engine.Calls

/-! Installing committed versions. `install` runs after the commit lock has been released, so two
jobs can install in the other order than they committed. -/

namespace Merutable

open Foundation

/-- A version that was committed and not yet installed. -/
def System.Pending (s : System) (version : Version) : Prop :=
  (∃ memtable, s.flush = .committed memtable version) ∨
    ∃ job plan, s.jobs job = .committed plan version

/-- Versions are installed in the order of their commits: whatever else is committed and not yet
installed has a larger snapshot id. -/
def InstallsInOrder (s : System) : Action → Prop
  | .flush .install => ∀ memtable version, s.flush = .committed memtable version →
      ∀ job plan other, s.jobs job = .committed plan other → version.snapshotId < other.snapshotId
  | .job job .install => ∀ plan version, s.jobs job = .committed plan version →
      (∀ memtable other, s.flush = .committed memtable other →
        version.snapshotId < other.snapshotId) ∧
      ∀ job' plan' other, job' ≠ job → s.jobs job' = .committed plan' other →
        version.snapshotId < other.snapshotId
  | _ => True

/-- What a step does to the installed version, the catalog and the pending versions. -/
inductive VersionEvent (s t : System) (action : Action) : Prop
  | quiet (version : t.version = s.version) (catalog : t.catalog = s.catalog)
      (pending : ∀ version, t.Pending version ↔ s.Pending version)
  | commit (txn : SnapshotTransaction) (new : Version)
      (committed : s.catalog.commit txn = .ok (t.catalog, new)) (version : t.version = s.version)
      (pending : ∀ version, t.Pending version ↔ s.Pending version ∨ version = new)
  | install (waiting : s.Pending t.version) (catalog : t.catalog = s.catalog)
      (pending : ∀ version, t.Pending version → s.Pending version)
      (left : ∀ version, s.Pending version → version = t.version ∨ t.Pending version)
      (order : InstallsInOrder s action → ∀ version, t.Pending version →
        t.version.snapshotId < version.snapshotId)

section Events

variable {config : Config} {s t : System} {action : Action}

theorem VersionEvent.of_frame (version : t.version = s.version) (catalog : t.catalog = s.catalog)
    (flush : t.flush = s.flush) (jobs : t.jobs = s.jobs) :
    VersionEvent s t action :=
  .quiet version catalog fun other => by rw [System.Pending, System.Pending, flush, jobs]

theorem pending_of_flush {flush : FlushPhase} (before : ∀ memtable version,
      s.flush ≠ .committed memtable version)
    (after : ∀ memtable version, flush ≠ .committed memtable version) (version : Version) :
    System.Pending { s with flush := flush } version ↔ s.Pending version := by
  unfold System.Pending
  simp only [before, after]

theorem flush_event {action : FlushAction} (fired : flushStep config s action = some t) :
    VersionEvent s t (.flush action) := by
  cases flush_effect fired with
  | pick _ phase | dropEmpty _ phase | resolve _ _ phase | mark _ phase | drop _ phase =>
    exact .quiet rfl rfl (pending_of_flush (by simp [phase]) (by simp))
  | commit memtable file deltas catalog new phase committed =>
    refine .commit _ new committed rfl fun version => ?_
    constructor
    · rintro (⟨_, same⟩ | found)
      · injection same with _ same
        exact .inr same.symm
      · exact .inl (.inr found)
    · rintro ((⟨_, same⟩ | found) | rfl)
      · rw [phase] at same
        cases same
      · exact .inr found
      · exact .inl ⟨memtable, rfl⟩
  | install memtable new phase =>
    refine .install (.inl ⟨memtable, phase⟩) rfl ?_ ?_ ?_
    · rintro version (⟨_, same⟩ | found)
      · cases same
      · exact .inr found
    · rintro version (⟨_, same⟩ | found)
      · rw [phase] at same
        injection same with _ same
        exact .inl same.symm
      · exact .inr (.inr found)
    · rintro ordered version (⟨_, same⟩ | ⟨job, plan, found⟩)
      · cases same
      · exact ordered memtable new phase job plan version found
  | abort found =>
    obtain ⟨memtable, phase | ⟨_, _, phase⟩⟩ := found
    · exact .quiet rfl rfl (pending_of_flush (by simp [phase]) (by simp))
    · exact .quiet rfl rfl (pending_of_flush (by simp [phase]) (by simp))

theorem pending_setJob {job : Nat} {phase : JobPhase} {version : Version} :
    (s.setJob job phase).Pending version ↔ (∃ memtable, s.flush = .committed memtable version) ∨
      (∃ plan, phase = .committed plan version) ∨
        ∃ other plan, other ≠ job ∧ s.jobs other = .committed plan version := by
  unfold System.Pending System.setJob
  simp only
  constructor
  · rintro (found | ⟨other, plan, found⟩)
    · exact .inl found
    · by_cases same : other = job
      · rw [same, Function.update_self] at found
        exact .inr (.inl ⟨plan, found⟩)
      · rw [Function.update_of_ne same] at found
        exact .inr (.inr ⟨other, plan, same, found⟩)
  · rintro (found | ⟨plan, found⟩ | ⟨other, plan, different, found⟩)
    · exact .inl found
    · exact .inr ⟨job, plan, by rw [Function.update_self, found]⟩
    · exact .inr ⟨other, plan, by rw [Function.update_of_ne different, found]⟩

theorem VersionEvent.of_job (job : Nat) (phase : JobPhase) (version : t.version = s.version)
    (catalog : t.catalog = s.catalog) (flush : t.flush = s.flush)
    (jobs : t.jobs = Function.update s.jobs job phase)
    (before : ∀ plan version, s.jobs job ≠ .committed plan version)
    (after : ∀ plan version, phase ≠ .committed plan version) : VersionEvent s t action := by
  refine .quiet version catalog fun other => ?_
  have same : t.Pending other ↔ (s.setJob job phase).Pending other := by
    rw [System.Pending, System.Pending, flush, jobs]
    rfl
  rw [same, pending_setJob]
  constructor
  · rintro (found | ⟨plan, found⟩ | ⟨other, plan, _, found⟩)
    · exact .inl found
    · exact absurd found (after plan _)
    · exact .inr ⟨other, plan, found⟩
  · rintro (found | ⟨other, plan, found⟩)
    · exact .inl found
    · refine .inr (.inr ⟨other, plan, ?_, found⟩)
      rintro rfl
      exact before plan _ found

theorem job_event {job : Nat} {action : JobAction} (fired : jobStep config s job action = some t) :
    VersionEvent s t (.job job action) := by
  cases job_effect fired with
  | pick plan phase => exact .of_job job (.picked plan) rfl rfl rfl rfl (by simp [phase]) (by simp)
  | merge plan phase =>
    exact .of_job job (.merged plan s.visibleSeq s.nextUuid) rfl rfl rfl rfl
      (by simp [phase]) (by simp)
  | commit plan readSeq firstPath catalog new phase _ committed =>
    refine .commit _ new committed rfl fun version => ?_
    change (s.setJob job (.committed plan new)).Pending version ↔ _
    rw [pending_setJob]
    constructor
    · rintro (found | ⟨_, same⟩ | ⟨other, plan', _, found⟩)
      · exact .inl (.inl found)
      · injection same with _ same
        exact .inr same.symm
      · exact .inl (.inr ⟨other, plan', found⟩)
    · rintro ((found | ⟨other, plan', found⟩) | rfl)
      · exact .inl found
      · refine .inr (.inr ⟨other, plan', ?_, found⟩)
        rintro rfl
        rw [phase] at found
        cases found
      · exact .inr (.inl ⟨plan, rfl⟩)
  | install plan new phase =>
    have after : ∀ version, (s.setJob job (.installed plan)).Pending version ↔
        (∃ memtable, s.flush = .committed memtable version) ∨
          ∃ other plan', other ≠ job ∧ s.jobs other = .committed plan' version := by
      intro version
      rw [pending_setJob]
      simp
    refine .install (.inr ⟨job, plan, phase⟩) rfl ?_ ?_ ?_
    · intro version found
      rcases (after version).mp found with found | ⟨other, plan', _, found⟩
      · exact .inl found
      · exact .inr ⟨other, plan', found⟩
    · rintro version (found | ⟨other, plan', found⟩)
      · exact .inr ((after version).mpr (.inl found))
      · by_cases same : other = job
        · rw [same, phase] at found
          injection found with _ same
          exact .inl same.symm
        · exact .inr ((after version).mpr (.inr ⟨other, plan', same, found⟩))
    · intro ordered version found
      obtain ⟨flushes, jobs⟩ := ordered plan new phase
      rcases (after version).mp found with ⟨memtable, found⟩ | ⟨other, plan', different, found⟩
      · exact flushes memtable version found
      · exact jobs other plan' version different found
  | clear plan phase =>
    exact .of_job job (.cleared plan) rfl rfl rfl rfl (by simp [phase]) (by simp)
  | enqueue plan phase =>
    exact .of_job job (.enqueued plan) rfl rfl rfl rfl (by simp [phase]) (by simp)
  | release plan phase => exact .of_job job .idle rfl rfl rfl rfl (by simp [phase]) (by simp)
  | abort plan found =>
    rcases found with phase | ⟨_, _, phase⟩
    · exact .of_job job .idle rfl rfl rfl rfl (by simp [phase]) (by simp)
    · exact .of_job job .idle rfl rfl rfl rfl (by simp [phase]) (by simp)

theorem step_event (fired : step config s action = some t) :
    VersionEvent s t action := by
  cases step_effect fired with
  | flush fired => exact flush_event fired
  | job fired => exact job_event fired
  | _ => exact .of_frame rfl rfl rfl rfl

end Events

/-- The installed version is behind every pending one, and the latest manifest is installed or
pending. -/
structure System.InstallOrder (s : System) : Prop where
  next : s.catalog.current.snapshotId < s.catalog.nextVersion
  behind : s.version.snapshotId ≤ s.catalog.current.snapshotId
  waiting : ∀ version, s.Pending version → s.version.snapshotId < version.snapshotId ∧
    version.snapshotId ≤ s.catalog.current.snapshotId
  latest : s.version = s.catalog.current.toVersion ∨ s.Pending s.catalog.current.toVersion

theorem initial_installOrder (config : Config) : (System.initial config).InstallOrder where
  next := Nat.zero_lt_one
  behind := le_rfl
  waiting := by
    rintro version (⟨_, phase⟩ | ⟨_, _, phase⟩) <;> cases phase
  latest := .inl rfl

section InstallOrder

variable {config : Config} {s t : System} {action : Action}

theorem System.InstallOrder.step (inv : s.InstallOrder) (ordered : InstallsInOrder s action)
    (fired : step config s action = some t) :
    t.InstallOrder ∧ s.version.snapshotId ≤ t.version.snapshotId := by
  cases step_event fired with
  | quiet version catalog pending =>
    refine ⟨⟨?_, ?_, ?_, ?_⟩, by rw [version]⟩
    · rw [catalog]
      exact inv.next
    · rw [version, catalog]
      exact inv.behind
    · intro other waiting
      rw [version, catalog]
      exact inv.waiting other ((pending other).mp waiting)
    · rw [version, catalog, pending]
      exact inv.latest
  | commit txn new committed version pending =>
    have snapshot := Catalog.commit_snapshotId committed
    obtain ⟨_, next, same⟩ := Catalog.commit_ok committed
    have newId : new.snapshotId = t.catalog.current.snapshotId := by
      rw [same]
      rfl
    have above := inv.next
    have below := inv.behind
    refine ⟨⟨?_, ?_, ?_, ?_⟩, by rw [version]⟩
    · rw [snapshot, next]
      exact Nat.lt_succ_self _
    · rw [version, snapshot]
      omega
    · intro other waiting
      rw [version]
      rcases (pending other).mp waiting with before | rfl
      · have := inv.waiting other before
        omega
      · omega
    · exact .inr ((pending _).mpr (.inr same.symm))
  | install waiting catalog pending left order =>
    have bounds := inv.waiting t.version waiting
    refine ⟨⟨?_, ?_, ?_, ?_⟩, by omega⟩
    · rw [catalog]
      exact inv.next
    · rw [catalog]
      exact bounds.2
    · intro other found
      rw [catalog]
      exact ⟨order ordered other found, (inv.waiting other (pending other found)).2⟩
    · rw [catalog]
      rcases inv.latest with same | found
      · have := congrArg Version.snapshotId same
        have latest : s.catalog.current.toVersion.snapshotId = s.catalog.current.snapshotId := rfl
        omega
      · rcases left _ found with same | found
        · exact .inl same.symm
        · exact .inr found

theorem System.InstallOrder.run {actions : List Action} (inv : s.InstallOrder)
    (run : Run (Merutable.step config) InstallsInOrder s actions t) : t.InstallOrder :=
  run.invariant _ (fun _ _ _ inv ordered fired => (inv.step ordered fired).1) inv

/-- When versions are installed in the order of their commits, the installed snapshot id never
decreases, and without a running job the installed version is the one of the latest manifest. -/
theorem installed_version_ordered (config : Config) (before after : List Action) (s t : System)
    (reached : Run (step config) InstallsInOrder (.initial config) before s)
    (continued : Run (step config) InstallsInOrder s after t) :
    s.version.snapshotId ≤ t.version.snapshotId ∧
      (t.flush = .idle → (∀ job, t.jobs job = .idle) →
        t.version = t.catalog.current.toVersion) := by
  have start := (initial_installOrder config).run reached
  constructor
  · exact continued.relation System.InstallOrder
      (fun s t => s.version.snapshotId ≤ t.version.snapshotId) (fun _ => le_rfl)
      (fun _ _ _ => le_trans) (fun _ _ _ inv ordered fired => inv.step ordered fired) start
  · intro flush jobs
    rcases (start.run continued).latest with same | ⟨_, phase⟩ | ⟨job, plan, phase⟩
    · exact same
    · rw [flush] at phase
      cases phase
    · rw [jobs job] at phase
      cases phase

section Checks

/-- Only the first job runs. -/
def System.OneJob (s : System) : Prop := ∀ job, s.jobs job ≠ .idle → job = 0

/-- `InstallsInOrder` for runs in which job 0 is the only one, as a test. -/
def installsCheck (s : System) (action : Action) : Bool :=
  (match action with
    | .job job _ => job = 0
    | _ => true) &&
  match action, s.flush, s.jobs 0 with
  | .flush .install, .committed _ flushed, .committed _ other =>
    flushed.snapshotId < other.snapshotId
  | .job _ .install, .committed _ flushed, .committed _ other =>
    other.snapshotId < flushed.snapshotId
  | _, _, _ => true

theorem installsCheck_sound (one : s.OneJob) (passed : installsCheck s action = true) :
    InstallsInOrder s action := by
  simp only [installsCheck, Bool.and_eq_true] at passed
  obtain ⟨own, passed⟩ := passed
  unfold InstallsInOrder
  split
  · intro memtable version flushed job plan other busy
    cases one job (by simp [busy])
    simpa [flushed, busy] using passed
  · rename_i job
    intro plan version busy
    cases of_decide_eq_true own
    refine ⟨fun memtable other flushed => ?_, fun other plan' version' different busy' => ?_⟩
    · simpa [flushed, busy] using passed
    · exact absurd (one other (by simp [busy'])) different
  · trivial

theorem installsCheck_oneJob (one : s.OneJob) (passed : installsCheck s action = true)
    (fired : step config s action = some t) : t.OneJob := by
  simp only [installsCheck, Bool.and_eq_true] at passed
  intro job busy
  cases step_effect fired with
  | @job id _ _ _ _ _ _ _ _ _ fired =>
    by_cases same : job = id
    · exact same.trans (of_decide_eq_true passed.1)
    · exact one job fun idle => busy ((job_others fired same).trans idle)
  | _ => exact one job busy

theorem initial_oneJob (config : Config) : (System.initial config).OneJob :=
  fun _ busy => absurd rfl busy

theorem installs_of_check {actions : List Action} (one : s.OneJob)
    (passed : (execute (checked (step config) installsCheck) s actions).isSome) :
    Run (step config) InstallsInOrder s actions (final (step config) s actions) ∧
      (final (step config) s actions).OneJob :=
  Run.of_checked System.OneJob (fun _ _ => installsCheck_sound) (fun _ _ _ => installsCheck_oneJob)
    one passed

end Checks

/-- A second flush has committed, and after it a compaction job. -/
def bothCommitted : List Action :=
  Calls.write [putByte 1 1] ++ Calls.rotate ++ Calls.runFlush ++ Calls.write [putByte 2 2] ++
    Calls.rotate ++ [.flush .pick, .flush .resolve, .flush .commit, .job 0 (.pick 0),
      .job 0 .merge, .job 0 .commit]

def flushFinished : List Action := [.flush .install, .flush (.mark []), .flush .drop]

def jobFinished : List Action := [.job 0 .clear, .job 0 .enqueue, .job 0 .release]

theorem installed_version_ordered_flush :
    let s := final (step .plain) (.initial .plain) bothCommitted
    let t := final (step .plain) s (flushFinished ++ .job 0 .install :: jobFinished)
    s.version.snapshotId ≤ t.version.snapshotId ∧ t.version = t.catalog.current.toVersion := by
  intro s t
  obtain ⟨reached, one⟩ := @installs_of_check .plain _ bothCommitted (initial_oneJob .plain)
    (by decide +kernel)
  obtain ⟨continued, alone⟩ := @installs_of_check .plain s
    (flushFinished ++ .job 0 .install :: jobFinished) one (by decide +kernel)
  obtain ⟨grows, latest⟩ := installed_version_ordered .plain _ _ s t reached continued
  refine ⟨grows, latest (by decide +kernel) fun job => ?_⟩
  by_contra busy
  cases alone job busy
  exact busy (by decide +kernel)

/-- The job installs first. -/
def jobOvertakes : List Action := bothCommitted ++ [.job 0 .install]

def bothFinished : List Action := flushFinished ++ jobFinished

/-- The late install of the flush takes the installed version back, and it stays behind the
catalog after both jobs have returned. -/
theorem installed_version_goes_back : ∃ s t, runFrom .plain jobOvertakes = some s ∧
    execute (step .plain) s bothFinished = some t ∧ t.version.snapshotId < s.version.snapshotId ∧
    t.flush = .idle ∧ (∀ job, t.jobs job = .idle) ∧ t.version ≠ t.catalog.current.toVersion := by
  refine ⟨_, _, execute_final (by decide +kernel), execute_final (by decide +kernel),
    by decide +kernel, rfl, ?_, ?_⟩
  · intro job
    cases job with
    | zero => rfl
    | succ job => rfl
  · intro same
    have ids := congrArg Version.snapshotId same
    revert ids
    decide +kernel

end InstallOrder

end Merutable
