import Merutable.Engine.Calls

/-! Compaction jobs: the plan each one works on and the levels it keeps to itself. -/

namespace Merutable

open Foundation Compaction

/-- The plan a job works on. -/
def JobPhase.plan? : JobPhase → Option JobPlan
  | .idle => none
  | .picked plan => some plan
  | .merged plan _ _ => some plan
  | .committed plan _ => some plan
  | .installed plan => some plan
  | .cleared plan => some plan
  | .enqueued plan => some plan

/-- The plan of a job that has not committed yet. -/
def JobPhase.uncommitted? : JobPhase → Option JobPlan
  | .picked plan => some plan
  | .merged plan _ _ => some plan
  | _ => none

variable {plan : JobPlan}

theorem JobPhase.plan?_of_uncommitted? {phase : JobPhase}
    (working : phase.uncommitted? = some plan) :
    phase.plan? = some plan := by
  cases phase with
  | picked | merged => exact working
  | _ => cases working

/-- The levels a job reads and rewrites. -/
def Compaction.JobPlan.Touches (plan : JobPlan) (level : Nat) : Prop :=
  level = plan.inputLevel ∨ level = plan.outputLevel

/-- What a job step does to the plan and the level locks of the job. -/
inductive JobMove (config : Config) (s t : System) (job : Nat) : JobAction → Prop
  | pick {level : Nat} {plan : JobPlan} (idle : s.jobs job = .idle)
      (bound : level ≤ config.levelTargetBytes.length) (input : level ∉ s.compacting)
      (output : level + 1 ∉ s.compacting)
      (planned : Compaction.plan config s.version level = some plan)
      (jobs : t.jobs = Function.update s.jobs job (.picked plan))
      (compacting : t.compacting = level :: (level + 1) :: s.compacting) :
      JobMove config s t job (.pick level)
  | work {action : JobAction} {plan : JobPlan} {phase : JobPhase}
      (before : (s.jobs job).plan? = some plan) (after : phase.plan? = some plan)
      (jobs : t.jobs = Function.update s.jobs job phase)
      (compacting : t.compacting = s.compacting) : JobMove config s t job action
  | leave {action : JobAction} {plan : JobPlan} (before : (s.jobs job).plan? = some plan)
      (jobs : t.jobs = Function.update s.jobs job .idle)
      (compacting : t.compacting = s.compacting.filter fun level =>
        level ≠ plan.inputLevel ∧ level ≠ plan.outputLevel) : JobMove config s t job action

section Moves

variable {config : Config} {s t : System} {job : Nat} {action : JobAction} {plan : JobPlan}
  {other : Nat} {readSeq firstPath : Nat}

theorem job_move (fired : jobStep config s job action = some t) :
    JobMove config s t job action := by
  cases job_effect fired with
  | pick plan idle bound input output planned => exact .pick idle bound input output planned rfl rfl
  | merge _ phase | commit _ _ _ _ _ phase | install _ _ phase | clear _ phase | enqueue _ phase =>
    exact .work (by rw [phase]; rfl) rfl rfl rfl
  | release plan phase => exact .leave (by rw [phase]; rfl) rfl rfl
  | abort plan phase =>
    have working : (s.jobs job).plan? = some plan := by
      rcases phase with phase | ⟨_, _, phase⟩
      · rw [phase]
        rfl
      · rw [phase]
        rfl
    exact .leave working rfl rfl

theorem JobMove.planned (move : JobMove config s t job action)
    (busy : (t.jobs other).plan? = some plan) :
    (s.jobs other).plan? = some plan ∨ other = job ∧ s.jobs job = .idle ∧
      ∃ level, action = .pick level ∧ Compaction.plan config s.version level = some plan := by
  by_cases same : other = job
  · subst same
    cases move with
    | pick idle _ _ _ planned jobs _ =>
      rw [jobs, Function.update_self] at busy
      cases busy
      exact .inr ⟨rfl, idle, _, rfl, planned⟩
    | work before after jobs _ =>
      rw [jobs, Function.update_self, after] at busy
      exact .inl (before.trans busy)
    | leave _ jobs _ =>
      rw [jobs, Function.update_self] at busy
      cases busy
  · left
    cases move with
    | pick _ _ _ _ _ jobs | work _ _ jobs | leave _ jobs =>
      rwa [jobs, Function.update_of_ne same] at busy

theorem job_uncommitted (fired : jobStep config s job action = some t)
    (working : (t.jobs other).uncommitted? = some plan) :
    (s.jobs other).uncommitted? = some plan ∨
      other = job ∧ ∃ level, action = .pick level ∧ plan.version = s.version := by
  by_cases same : other = job
  swap
  · left
    rwa [job_others fired same] at working
  subst same
  have become : ∀ phase, t.jobs = Function.update s.jobs other phase →
      phase.uncommitted? = some plan := by
    intro phase jobs
    rwa [jobs, Function.update_self] at working
  cases job_effect fired with
  | @pick level own _ _ _ _ planned =>
    have same := Option.some.inj (become _ rfl)
    exact .inr ⟨rfl, level, rfl, same ▸ (plan_eq planned).2.1⟩
  | merge own phase =>
    have same := become (.merged own s.visibleSeq s.nextUuid) rfl
    rw [phase]
    exact .inl same
  | _ => cases become _ rfl

theorem uncommitted_step {action : Action} (fired : step config s action = some t)
    (working : (t.jobs other).uncommitted? = some plan) :
    (s.jobs other).uncommitted? = some plan ∨
      ∃ level, action = .job other (.pick level) ∧ plan.version = s.version := by
  cases step_effect fired with
  | job fired =>
    rcases job_uncommitted fired working with before | ⟨rfl, level, rfl, picked⟩
    · exact .inl before
    · exact .inr ⟨level, rfl, picked⟩
  | _ => exact .inl working

theorem job_merged (fired : jobStep config s job action = some t)
    (phase : t.jobs other = .merged plan readSeq firstPath) :
    s.jobs other = .merged plan readSeq firstPath ∨
      readSeq = s.visibleSeq ∧ s.jobs other = .picked plan := by
  by_cases same : other = job
  swap
  · left
    rwa [job_others fired same] at phase
  subst same
  have become : ∀ own, t.jobs = Function.update s.jobs other own →
      own = .merged plan readSeq firstPath := by
    intro own jobs
    rwa [jobs, Function.update_self] at phase
  cases job_effect fired with
  | merge own before =>
    injection become _ rfl with samePlan sameSeq
    exact .inr ⟨sameSeq.symm, samePlan ▸ before⟩
  | _ => cases become _ rfl

theorem merged_step {action : Action} (fired : step config s action = some t)
    (phase : t.jobs other = .merged plan readSeq firstPath) :
    s.jobs other = .merged plan readSeq firstPath ∨
      readSeq = s.visibleSeq ∧ s.jobs other = .picked plan := by
  cases step_effect fired with
  | job fired => exact job_merged fired phase
  | _ => exact .inl phase

end Moves

theorem mem_sources {config : Config}
    (planned : Compaction.plan config plan.version plan.inputLevel = some plan) {ref : DataFileMeta}
    (member : ref ∈ plan.sources) :
    ref ∈ plan.version.files ∧ plan.Touches ref.level := by
  rcases List.mem_append.mp member with input | overlap
  · have facts := mem_plan_inputs planned input
    exact ⟨facts.1, .inl facts.2⟩
  · have facts := mem_plan_overlap planned overlap
    exact ⟨facts.1, .inr facts.2⟩

/-- Every job works on a plan made for its version, and no two jobs touch one level. -/
structure System.Locked (config : Config) (s : System) : Prop where
  planned : ∀ job plan, (s.jobs job).plan? = some plan →
    Compaction.plan config plan.version plan.inputLevel = some plan ∧
      plan.inputLevel ≤ config.levelTargetBytes.length
  held : ∀ job plan, (s.jobs job).plan? = some plan → ∀ level, plan.Touches level →
    level ∈ s.compacting
  apart : ∀ job plan job' plan', (s.jobs job).plan? = some plan →
    (s.jobs job').plan? = some plan' → ∀ level, plan.Touches level → plan'.Touches level →
      job = job'

theorem initial_locked (config : Config) : (System.initial config).Locked config where
  planned := by intro job plan busy; cases busy
  held := by intro job plan busy; cases busy
  apart := by intro job plan job' plan' busy; cases busy

section Locked

variable {config : Config} {s t : System} {plan : JobPlan}

theorem System.Locked.of_frame (inv : s.Locked config) (jobs : t.jobs = s.jobs)
    (compacting : t.compacting = s.compacting) : t.Locked config := by
  refine ⟨?_, ?_, ?_⟩
  · rw [jobs]
    exact inv.planned
  · rw [jobs, compacting]
    exact inv.held
  · rw [jobs]
    exact inv.apart

theorem touches_of_plan {version : Version} {level other : Nat}
    (planned : Compaction.plan config version level = some plan) (touches : plan.Touches other) :
    other = level ∨ other = level + 1 := by
  rwa [JobPlan.Touches, JobPlan.outputLevel, (plan_eq planned).1] at touches

theorem System.Locked.pick {job level : Nat} {plan : JobPlan} (inv : s.Locked config)
    (bound : level ≤ config.levelTargetBytes.length) (input : level ∉ s.compacting)
    (output : level + 1 ∉ s.compacting)
    (planned : Compaction.plan config s.version level = some plan)
    (jobs : t.jobs = Function.update s.jobs job (.picked plan))
    (compacting : t.compacting = level :: (level + 1) :: s.compacting) : t.Locked config := by
  have cases : ∀ other found, (t.jobs other).plan? = some found →
      other = job ∧ found = plan ∨ other ≠ job ∧ (s.jobs other).plan? = some found := by
    intro other found busy
    rw [jobs] at busy
    by_cases same : other = job
    · rw [same, Function.update_self] at busy
      exact .inl ⟨same, (Option.some.inj busy).symm⟩
    · rw [Function.update_of_ne same] at busy
      exact .inr ⟨same, busy⟩
  -- A level that another job holds is not one of the two new ones.
  have free : ∀ other found, (s.jobs other).plan? = some found → ∀ level', found.Touches level' →
      ¬ plan.Touches level' := by
    intro other found busy level' touches own
    have held := inv.held other found busy level' touches
    rcases touches_of_plan planned own with rfl | rfl
    · exact input held
    · exact output held
  refine ⟨?_, ?_, ?_⟩
  · intro other found busy
    rcases cases other found busy with ⟨_, rfl⟩ | ⟨_, before⟩
    · rw [(plan_eq planned).1, (plan_eq planned).2.1]
      exact ⟨planned, bound⟩
    · exact inv.planned other found before
  · intro other found busy level' touches
    rw [compacting]
    rcases cases other found busy with ⟨_, rfl⟩ | ⟨_, before⟩
    · rcases touches_of_plan planned touches with rfl | rfl
      · exact List.mem_cons_self
      · exact List.mem_cons_of_mem _ List.mem_cons_self
    · exact List.mem_cons_of_mem _ (List.mem_cons_of_mem _
        (inv.held other found before level' touches))
  · intro first found second found' busy busy' level' touches touches'
    rcases cases first found busy with ⟨own, rfl⟩ | ⟨_, before⟩
    · rcases cases second found' busy' with ⟨own', _⟩ | ⟨_, before'⟩
      · exact own.trans own'.symm
      · exact absurd touches (free second found' before' level' touches')
    · rcases cases second found' busy' with ⟨_, rfl⟩ | ⟨_, before'⟩
      · exact absurd touches' (free first found before level' touches)
      · exact inv.apart first found second found' before before' level' touches touches'

theorem System.Locked.leave {job : Nat} (inv : s.Locked config)
    (before : (s.jobs job).plan? = some plan) (jobs : t.jobs = Function.update s.jobs job .idle)
    (compacting : t.compacting = s.compacting.filter fun level => level ≠ plan.inputLevel ∧
      level ≠ plan.outputLevel) :
    t.Locked config := by
  have others : ∀ other found, (t.jobs other).plan? = some found →
      other ≠ job ∧ (s.jobs other).plan? = some found := by
    intro other found busy
    rw [jobs] at busy
    by_cases same : other = job
    · rw [same, Function.update_self] at busy
      cases busy
    · rw [Function.update_of_ne same] at busy
      exact ⟨same, busy⟩
  refine ⟨?_, ?_, ?_⟩
  · intro other found busy
    exact inv.planned other found (others other found busy).2
  · intro other found busy level touches
    obtain ⟨different, busy⟩ := others other found busy
    have untouched : ¬ plan.Touches level := fun own =>
      different (inv.apart other found job plan busy before level touches own)
    rw [compacting, List.mem_filter]
    exact ⟨inv.held other found busy level touches, decide_eq_true (not_or.mp untouched)⟩
  · intro first found second found' busy busy'
    exact inv.apart first found second found' (others _ _ busy).2 (others _ _ busy').2

theorem System.Locked.work {job : Nat} {phase : JobPhase} (inv : s.Locked config)
    (before : (s.jobs job).plan? = some plan) (after : phase.plan? = some plan)
    (jobs : t.jobs = Function.update s.jobs job phase) (compacting : t.compacting = s.compacting) :
    t.Locked config := by
  have same : ∀ other, (t.jobs other).plan? = (s.jobs other).plan? := by
    intro other
    rw [jobs]
    by_cases equal : other = job
    · rw [equal, Function.update_self, after, before]
    · rw [Function.update_of_ne equal]
  refine ⟨?_, ?_, ?_⟩
  · intro other found busy
    exact inv.planned other found (same other ▸ busy)
  · intro other found busy
    rw [compacting]
    exact inv.held other found (same other ▸ busy)
  · intro first found second found' busy busy'
    exact inv.apart first found second found' (same first ▸ busy) (same second ▸ busy')

theorem System.Locked.step {action : Action} (inv : s.Locked config)
    (fired : step config s action = some t) : t.Locked config := by
  cases step_effect fired with
  | job fired =>
    cases job_move fired with
    | pick idle bound input output planned jobs compacting =>
      exact inv.pick bound input output planned jobs compacting
    | work before after jobs compacting => exact inv.work before after jobs compacting
    | leave before jobs compacting => exact inv.leave before jobs compacting
  | _ => exact inv.of_frame rfl rfl

end Locked

end Merutable
