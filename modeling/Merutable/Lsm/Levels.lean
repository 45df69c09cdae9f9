import Merutable.Lsm.Base
import Merutable.Lsm.Rewrite

/-! Disjoint key ranges on the levels below 0, for any number of jobs that work at the same time and
install what they commit at once. -/

namespace Merutable

open Foundation Compaction

/-- A turn of the schedule: a step of some task, or a commit with the install of its version. -/
inductive Turn where
  | act (action : Action)
  | commitFlush
  | commitJob (job : Nat)
  deriving DecidableEq

def Action.commits : Action → Bool
  | .flush .commit => true
  | .flush .install => true
  | .job _ .commit => true
  | .job _ .install => true
  | _ => false

def takeTurn (config : Config) (s : System) : Turn → Option System
  | .act action => if action.commits then none else step config s action
  | .commitFlush => execute (step config) s [.flush .commit, .flush .install]
  | .commitJob job => execute (step config) s [.job job .commit, .job job .install]

/-- The installed version is the one of the manifest and layered. On the levels of a job that has
not committed the manifest has only files the job knows. -/
structure System.Leveled (s : System) : Prop where
  latest : s.version = s.catalog.current.toVersion
  quiet : ∀ version, ¬ s.Pending version
  layered : s.catalog.current.toVersion.Layered
  planned : ∀ job plan, (s.jobs job).uncommitted? = some plan → plan.version.Layered ∧
    ∀ now ∈ s.catalog.current.live, 1 ≤ now.level → plan.Touches now.level →
      ∃ ref ∈ plan.version.files, ref.file = now.file

theorem initial_leveled (config : Config) : (System.initial config).Leveled where
  latest := rfl
  quiet := by
    rintro version (⟨_, phase⟩ | ⟨_, _, phase⟩) <;> cases phase
  layered := by intro a member; cases member
  planned := by intro job plan working; cases working

section Leveled

variable {config : Config} {s t : System}

theorem execute_pair {first second : Action}
    (executed : execute (step config) s [first, second] = some t) :
    ∃ middle, step config s first = some middle ∧ step config middle second = some t := by
  cases fired : step config s first with
  | none => simp [execute, fired] at executed
  | some middle =>
    refine ⟨middle, rfl, ?_⟩
    cases fired' : step config middle second with
    | none => simp [execute, fired, fired'] at executed
    | some last => simpa [execute, fired, fired'] using executed

theorem System.Base.turn {turn : Turn} (inv : s.Base config)
    (taken : takeTurn config s turn = some t) : t.Base config := by
  cases turn with
  | act action =>
    simp only [takeTurn] at taken
    split at taken
    · cases taken
    · exact inv.step taken
  | commitFlush | commitJob =>
    obtain ⟨middle, committed, installed⟩ := execute_pair taken
    exact (inv.step committed).step installed

theorem System.Leveled.act {action : Action} (inv : s.Leveled) (other : action.commits = false)
    (fired : step config s action = some t) : t.Leveled := by
  have catalog : t.catalog = s.catalog := by
    rcases step_catalog fired with same | rfl | ⟨job, rfl⟩
    · exact same
    · cases other
    · cases other
  cases step_event fired with
  | quiet version _ pending =>
    refine ⟨by rw [version, catalog, inv.latest], ?_, by rw [catalog]; exact inv.layered, ?_⟩
    · intro waiting
      rw [pending]
      exact inv.quiet waiting
    · intro job plan working
      rw [catalog]
      rcases uncommitted_step fired working with before | ⟨level, rfl, picked⟩
      · exact inv.planned job plan before
      · rw [picked, inv.latest]
        exact ⟨inv.layered, fun now present _ _ => ⟨now, present, rfl⟩⟩
  | commit _ _ committed _ _ =>
    have next := (Catalog.commit_ok committed).2.1
    rw [catalog] at next
    omega
  | install waiting _ _ _ _ => exact absurd waiting (inv.quiet _)

theorem System.Leveled.commitFlush (inv : s.Leveled) (base : s.Base config)
    (taken : takeTurn config s .commitFlush = some t) : t.Leveled := by
  obtain ⟨middle, commits, installs⟩ := execute_pair taken
  change flushStep config s .commit = some middle at commits
  change flushStep config middle .install = some t at installs
  cases flush_effect commits with
  | commit memtable file deltas catalog new phase committed =>
  cases flush_effect installs with
  | install _ version waiting =>
  injection waiting with _ same
  subst same
  have level := (base.resolved memtable file deltas phase).level
  have kept : ∀ ref ∈ catalog.current.live, 1 ≤ ref.level →
      ∃ old ∈ s.catalog.current.live, old.file = ref.file := by
    intro ref live deep
    rcases flush_kept base.stored committed live with ⟨old, listed, sameFile, _⟩ | rfl
    · exact ⟨old, listed, sameFile.symm⟩
    · rw [DataFileMeta.level, level] at deep
      cases deep
  refine ⟨(Catalog.commit_ok committed).2.2, ?_, ?_, ?_⟩
  · rintro other (⟨_, phase⟩ | found)
    · cases phase
    · exact inv.quiet other (.inr found)
  · exact inv.layered.of_deep kept
  · intro job plan working
    obtain ⟨layered, known⟩ := inv.planned job plan working
    refine ⟨layered, ?_⟩
    intro now live deep touches
    obtain ⟨old, present, same⟩ := kept now live deep
    rw [DataFileMeta.level, ← same] at deep touches
    obtain ⟨ref, there, sameFile⟩ := known old present deep touches
    exact ⟨ref, there, sameFile.trans same⟩

theorem System.Leveled.commitJob {job : Nat} (inv : s.Leveled) (base : s.Base config)
    (taken : takeTurn config s (.commitJob job) = some t) : t.Leveled := by
  obtain ⟨middle, commits, installs⟩ := execute_pair taken
  change jobStep config s job .commit = some middle at commits
  change jobStep config middle job .install = some t at installs
  cases job_effect commits with
  | commit plan readSeq firstPath catalog new phase _ committed =>
  cases job_effect installs with
  | install own version waiting =>
  change Function.update s.jobs job (.committed plan new) job = .committed own version at waiting
  rw [Function.update_self] at waiting
  injection waiting with samePlan same
  subst samePlan same
  have working : (s.jobs job).uncommitted? = some plan := by
    rw [phase]
    rfl
  have busy := JobPhase.plan?_of_uncommitted? working
  obtain ⟨layered, known⟩ := inv.planned job plan working
  have planned := (base.locked.planned job plan busy).1
  have paths := (base.keeps plan.version (.planned busy)).1
  have files := fun ref => (@mem_rewrite_live _ _ base.stored _ _ _ _ committed ref).mp
  have jobs : ∀ other, Function.update (Function.update s.jobs job (.committed plan new)) job
      (.installed plan) other = if other = job then .installed plan else s.jobs other := by
    intro other
    by_cases own : other = job
    · rw [own, Function.update_self, if_pos rfl]
    · rw [Function.update_of_ne own, Function.update_of_ne own, if_neg own]
  refine ⟨(Catalog.commit_ok committed).2.2, ?_, ?_, ?_⟩
  · rintro other (found | ⟨task, plan', found⟩)
    · exact inv.quiet other (.inl found)
    · have held := (jobs task).symm.trans found
      split at held
      · cases held
      · exact inv.quiet other (.inr ⟨task, plan', held⟩)
  · refine Version.Layered.rewrite inv.layered files ?_
    intro now present kept level
    have deep : 1 ≤ now.level := by
      rw [level]
      exact Nat.succ_le_succ (Nat.zero_le _)
    obtain ⟨own, there, same⟩ := known now present deep (.inr level)
    have outside : own ∉ plan.sources := by
      intro source
      apply kept
      rw [DataFileMeta.path, ← same]
      exact List.mem_map_of_mem source
    rw [DataFileMeta.level, ← same] at level
    rw [← same]
    exact plan_aside planned paths layered there level outside
  · intro other found stillWorking
    have held := (congrArg JobPhase.uncommitted? (jobs other)).symm.trans stillWorking
    split at held
    · cases held
    · rename_i different
      obtain ⟨layered', known'⟩ := inv.planned other found held
      refine ⟨layered', ?_⟩
      intro now live deep touches
      rcases files now live with ⟨present, _⟩ | ⟨file, written, rfl⟩
      · exact known' now present deep touches
      · have level : DataFileMeta.level ⟨file, none⟩ = plan.outputLevel := (mem_outputs written).1
        exact absurd (base.locked.apart other found job plan
          (JobPhase.plan?_of_uncommitted? held) busy _ touches (.inr level)) different

theorem System.Leveled.turn {turn : Turn} (inv : s.Leveled) (base : s.Base config)
    (taken : takeTurn config s turn = some t) : t.Leveled := by
  cases turn with
  | act action =>
    simp only [takeTurn] at taken
    split at taken
    · cases taken
    · rename_i other
      exact inv.act (Bool.eq_false_iff.mpr other) taken
  | commitFlush => exact inv.commitFlush base taken
  | commitJob job => exact inv.commitJob base taken

/-- In every committed snapshot the files of a level below 0 are sorted and end before the next one
starts, and the file found for a key is the one whose range has the key. -/
theorem committed_levels_disjoint (config : Config) (schedule : List Turn) (s : System)
    (executed : execute (takeTurn config) (.initial config) schedule = some s) (level : Nat)
    (deep : 1 ≤ level) :
    (s.catalog.current.toVersion.filesAt level).Pairwise (fun a b =>
      a.file.keyMin ≤ b.file.keyMin ∧ a.file.keyMax < b.file.keyMin) ∧
    ∀ key ref, s.catalog.current.toVersion.findFileForKey level key = some ref ↔
      ref ∈ s.catalog.current.toVersion.filesAt level ∧ ref.file.keyMin ≤ key.bytes ∧
        key.bytes ≤ ref.file.keyMax := by
  have run : Run (takeTurn config) (fun _ _ => True) (.initial config) schedule s :=
    .of_execute (fun _ _ _ => trivial) executed
  have invariants := run.invariant (fun s => s.Base config ∧ s.Leveled)
    (fun s turn t inv _ taken => ⟨inv.1.turn taken, inv.2.turn inv.1 taken⟩)
    ⟨initial_base config, initial_leveled config⟩
  obtain ⟨base, leveled⟩ := invariants
  have paths := base.stored.unique
  refine ⟨(filesAt_sorted _ deep).and (leveled.layered.separate paths deep), ?_⟩
  intro key ref
  constructor
  · intro found
    obtain ⟨present, range⟩ := findFileForKey_mem found
    exact ⟨Version.mem_filesAt.mpr present, range⟩
  · rintro ⟨listed, lower, upper⟩
    obtain ⟨present, here⟩ := Version.mem_filesAt.mp listed
    subst here
    exact findFileForKey_eq paths leveled.layered present deep lower upper

/-- The steps of one task after another. -/
def Turn.acts (actions : List Action) : List Turn := actions.map .act

/-- A flush commits between the merge and the commit of the first job; the second job adds its
output beside the one of the first. -/
def jobsOverlap : List Turn :=
  Turn.acts (Calls.write [putByte 1 1] ++ Calls.rotate ++ [.flush .pick, .flush .resolve]) ++
    .commitFlush :: Turn.acts ([.flush (.mark []), .flush .drop, .job 0 (.pick 0), .job 0 .merge] ++
      Calls.write [putByte 2 2] ++ Calls.rotate ++ [.flush .pick, .flush .resolve]) ++
    .commitFlush :: .commitJob 0 :: Turn.acts [.job 0 .clear, .job 0 .enqueue, .job 0 .release,
      .job 1 (.pick 0), .job 1 .merge] ++ [.commitJob 1]

theorem committed_levels_disjoint_jobs :
    ∃ s, execute (takeTurn .plain) (.initial .plain) jobsOverlap = some s ∧
      (s.catalog.current.toVersion.filesAt 1).length = 2 ∧
      (s.catalog.current.toVersion.filesAt 1).Pairwise fun a b =>
        a.file.keyMin ≤ b.file.keyMin ∧ a.file.keyMax < b.file.keyMin := by
  have executed : execute (takeTurn .plain) (.initial .plain) jobsOverlap =
      some (final (takeTurn .plain) (.initial .plain) jobsOverlap) :=
    execute_final (by decide +kernel)
  exact ⟨_, executed, by decide +kernel,
    (committed_levels_disjoint .plain jobsOverlap _ executed 1 le_rfl).1⟩

end Leveled

end Merutable
