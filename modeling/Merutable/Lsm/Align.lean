import Merutable.Lsm.Base
import Merutable.Lsm.Rewrite

/-! The manifest against the versions that readers and jobs still work with: as long as versions are
installed in the order of their commits, a job finds the files of its two levels in the manifest it
commits to. -/

namespace Merutable

open Foundation Compaction

/-- The version is installed or waits for its install. -/
def System.Upcoming (s : System) (version : Version) : Prop :=
  version = s.version ∨ s.Pending version

theorem System.Upcoming.mentions {s : System} {version : Version} (coming : s.Upcoming version) :
    s.Mentions version := by
  rcases coming with rfl | waiting
  · exact .installed
  · exact .pending waiting

/-- An upcoming version has the files of the manifest on every level that no later commit has
touched, and a job still works on the files of its two levels. -/
structure System.Aligned (s : System) : Prop where
  order : s.InstallOrder
  agree : ∀ version, s.Upcoming version → ∀ level,
    (∀ job plan other, s.jobs job = .committed plan other →
      version.snapshotId < other.snapshotId → ¬ plan.Touches level) →
    Agree version s.catalog.current.toVersion level
  planned : ∀ job plan, (s.jobs job).uncommitted? = some plan → ∀ level, plan.Touches level →
    Agree plan.version s.catalog.current.toVersion level

section Align

variable {config : Config} {s t : System} {plan : JobPlan} {version : Version} {job : Nat}
  {action : Action} {next : Catalog} {new : Version}

theorem job_committed {action : JobAction} (fired : jobStep config s job action = some t)
    {other : Nat} (phase : s.jobs other = .committed plan version) :
    t.jobs other = .committed plan version ∨ t.version = version := by
  by_cases same : other = job
  swap
  · left
    rwa [job_others fired same]
  subst same
  cases job_effect fired with
  | pick _ found | merge _ found | commit _ _ _ _ _ found | clear _ found | enqueue _ found
  | release _ found =>
    rw [phase] at found
    cases found
  | install _ _ found =>
    rw [phase] at found
    injection found with _ same
    exact .inr same.symm
  | abort _ found =>
    rcases found with found | ⟨_, _, found⟩
    · rw [phase] at found
      cases found
    · rw [phase] at found
      cases found

theorem committed_step (fired : step config s action = some t)
    (phase : s.jobs job = .committed plan version) :
    t.jobs job = .committed plan version ∨ t.version = version := by
  cases step_effect fired with
  | job fired => exact job_committed fired phase
  | _ => exact .inl phase

theorem System.InstallOrder.upcoming (inv : s.InstallOrder) (ordered : InstallsInOrder s action)
    (fired : Merutable.step config s action = some t) (catalog : t.catalog = s.catalog)
    (coming : t.Upcoming version) :
    s.Upcoming version ∧ t.version.snapshotId ≤ version.snapshotId := by
  have after := (inv.step ordered fired).1
  have above : t.version.snapshotId ≤ version.snapshotId := by
    rcases coming with rfl | waiting
    · exact le_rfl
    · exact (after.waiting version waiting).1.le
  refine ⟨?_, above⟩
  cases step_event fired with
  | quiet same _ pending =>
    rcases coming with installed | waiting
    · exact .inl (installed.trans same)
    · exact .inr ((pending version).mp waiting)
  | commit _ _ committed _ _ =>
    have next := (Catalog.commit_ok committed).2.1
    rw [catalog] at next
    omega
  | install waiting _ pending _ _ =>
    rcases coming with rfl | later
    · exact .inr waiting
    · exact .inr (pending version later)

theorem System.InstallOrder.committed {action : Action} {txn : SnapshotTransaction} {new : Version}
    (inv : s.InstallOrder) (fired : Merutable.step config s action = some t)
    (committed : s.catalog.commit txn = .ok (t.catalog, new)) {version : Version}
    (coming : t.Upcoming version) :
    version = new ∨ s.Upcoming version ∧ version.snapshotId < new.snapshotId := by
  obtain ⟨_, next, latest⟩ := Catalog.commit_ok committed
  have snapshot : new.snapshotId = s.catalog.nextVersion := by
    rw [latest]
    exact Catalog.commit_snapshotId committed
  have bound := inv.next
  have changed : t.catalog ≠ s.catalog := by
    intro same
    rw [same] at next
    omega
  cases step_event fired with
  | quiet _ same | install _ same => exact absurd same changed
  | commit _ other committed' same pending =>
    have equal : other = new := (Catalog.commit_ok committed').2.2.trans latest.symm
    rcases coming with installed | waiting
    · rw [same] at installed
      have := inv.behind
      exact .inr ⟨.inl installed, by rw [installed]; omega⟩
    · rcases (pending version).mp waiting with before | rfl
      · have := (inv.waiting version before).2
        exact .inr ⟨.inr before, by omega⟩
      · exact .inl equal

theorem flush_extends {memtable : Memtable} {file : DataFile} {deltas : List (Nat × Finset Nat)}
    (base : s.Base config) (phase : s.flush = .resolved memtable file deltas)
    (committed : s.catalog.commit ⟨[file], [], deltas⟩ = .ok (next, new))
    (unique : (next.current.live.map DataFileMeta.path).Nodup) :
    Extends config memtable file s.catalog.current.toVersion next.current.toVersion := by
  have resolved := base.resolved memtable file deltas phase
  have listed (ref : DataFileMeta) := @mem_commit_live _ _ base.stored _ _ _ committed ref
  refine ⟨resolved.rows, resolved.level, unique, ?_, ?_, ?_⟩
  · intro ref member
    rcases (listed ref).mp member with ⟨old, present, _, rfl⟩ | ⟨added, only, rfl⟩
    · exact .inl ⟨old, present, Catalog.restamp_file _ _ _⟩
    · exact .inr (List.mem_singleton.mp only)
  · exact (listed _).mpr (.inr ⟨file, List.mem_cons_self, rfl⟩)
  · intro old present
    refine ⟨Catalog.restamp deltas s.catalog.nextVersion old,
      (listed _).mpr (.inl ⟨old, present, by simp, rfl⟩), Catalog.restamp_file _ _ _, ?_, ?_⟩
    · rw [Catalog.restamp_deletedRows]
      exact Finset.subset_union_left
    · intro row live absent
      obtain ⟨position, found, unmasked⟩ := DataFileMeta.mem_liveRows.mp live
      refine DataFileMeta.mem_liveRows.mpr ⟨position, by rwa [Catalog.restamp_file], ?_⟩
      rw [Catalog.restamp_deletedRows, Finset.mem_union, not_or]
      refine ⟨unmasked, fun masks => ?_⟩
      -- A masked row belongs to a key of the memtable.
      obtain ⟨target, stored, samePath, other, at', entry, flushed, key⟩ :=
        resolved.masked old.path position masks
      have same : target = old.file :=
        base.stored.eq_of_path stored (base.stored.tracked old present) samePath
      rw [same, found] at at'
      injection at' with equal
      rw [← equal] at key
      exact absent entry flushed key

section

variable (inv : s.Aligned) (base : s.Base config)
include inv base

theorem System.Aligned.rewrites {job readSeq firstPath : Nat} (shape : plan.version.Wf)
    (phase : s.jobs job = .merged plan readSeq firstPath)
    (committed : s.catalog.commit ⟨outputs config plan readSeq firstPath,
      plan.sources.map DataFileMeta.path, []⟩ = .ok (next, new))
    (unique : (next.current.live.map DataFileMeta.path).Nodup) :
    Rewrites config plan readSeq firstPath s.catalog.current.toVersion next.current.toVersion := by
  have working : (s.jobs job).uncommitted? = some plan := by
    rw [phase]
    rfl
  have busy := JobPhase.plan?_of_uncommitted? working
  refine ⟨(base.locked.planned job plan busy).1, shape,
    inv.planned job plan working _ (.inl rfl), inv.planned job plan working _ (.inr rfl),
      ?_, unique⟩
  intro ref
  change ref ∈ next.current.live ↔ _
  rw [mem_commit_live base.stored committed]
  simp only [Catalog.restamp_nil, exists_eq_right_right']
  rfl

theorem System.Aligned.picked {job level : Nat}
    (fired : jobStep config s job (.pick level) = some t)
    (working : (t.jobs job).uncommitted? = some plan) :
    ∀ touched, plan.Touches touched → Agree plan.version s.catalog.current.toVersion touched := by
  cases job_effect fired with
  | pick own _ _ input output planned =>
  change (Function.update s.jobs job (.picked own) job).uncommitted? = some plan at working
  rw [Function.update_self] at working
  cases working
  intro touched touches
  rw [(plan_eq planned).2.1]
  apply inv.agree s.version (.inl rfl)
  intro other plan' later phase _ touches'
  have held := base.locked.held other plan' (by rw [phase]; rfl) touched touches'
  rcases touches_of_plan planned touches with rfl | rfl
  · exact input held
  · exact output held

theorem System.Aligned.quiet (ordered : InstallsInOrder s action)
    (fired : Merutable.step config s action = some t) (catalog : t.catalog = s.catalog) :
    t.Aligned := by
  refine ⟨(inv.order.step ordered fired).1, ?_, ?_⟩
  · intro version coming level free
    obtain ⟨before, above⟩ := inv.order.upcoming ordered fired catalog coming
    rw [catalog]
    apply inv.agree version before level
    intro job plan later phase less
    rcases committed_step fired phase with still | installed
    · exact free job plan later still less
    · rw [installed] at above
      omega
  · intro job plan working level touches
    rw [catalog]
    rcases uncommitted_step fired working with before | ⟨picked, rfl, _⟩
    · exact inv.planned job plan before level touches
    · exact inv.picked base fired working level touches

theorem System.Aligned.flush_commit
    (newer : ∀ memtable file deltas, s.flush = .resolved memtable file deltas →
      ∀ version, s.Mentions version → ∀ row ∈ file.rows, ∀ ref ∈ version.files,
      ∀ other ∈ ref.file.rows, other.seq < row.seq)
    (fired : flushStep config s .commit = some t) : t.Aligned := by
  have stepped : Merutable.step config s (.flush .commit) = some t := fired
  have ordered : InstallsInOrder s (.flush .commit) := trivial
  have order := (inv.order.step ordered stepped).1
  have after := base.step stepped
  cases flush_effect fired with
  | commit memtable file deltas catalog new phase committed =>
  have extended := flush_extends base phase committed after.stored.unique
  have above := newer memtable file deltas phase
  refine ⟨order, ?_, ?_⟩
  · intro version coming level free
    rcases inv.order.committed stepped committed coming with rfl | ⟨old, _⟩
    · rw [(Catalog.commit_ok committed).2.2]
      exact .refl _ _
    · exact (inv.agree version old level free).flush extended (above version old.mentions)
  · intro job plan working level touches
    have mentioned : s.Mentions plan.version := .planned (JobPhase.plan?_of_uncommitted? working)
    exact (inv.planned job plan working level touches).flush extended (above _ mentioned)

theorem System.Aligned.job_commit (shape : ∀ version, s.Mentions version → version.Wf)
    (fired : jobStep config s job .commit = some t) : t.Aligned := by
  have stepped : Merutable.step config s (.job job .commit) = some t := fired
  have ordered : InstallsInOrder s (.job job .commit) := trivial
  have order := (inv.order.step ordered stepped).1
  have after := base.step stepped
  cases job_effect fired with
  | commit plan readSeq firstPath catalog new phase _ committed =>
  have busy : (s.jobs job).plan? = some plan := by
    rw [phase]
    rfl
  have paths : (s.catalog.current.toVersion.files.map DataFileMeta.path).Nodup := base.stored.unique
  have rewritten := inv.rewrites base (shape plan.version (.planned busy)) phase committed
    after.stored.unique
  have jobs : ∀ other, other ≠ job → Function.update s.jobs job (.committed plan new) other =
      s.jobs other := fun other different => Function.update_of_ne different _ _
  refine ⟨order, ?_, ?_⟩
  · intro version coming level free
    rcases inv.order.committed stepped committed coming with rfl | ⟨old, less⟩
    · rw [(Catalog.commit_ok committed).2.2]
      exact .refl _ _
    · have untouched : ¬ plan.Touches level := by
        apply free job plan new ?_ less
        exact Function.update_self _ _ _
      have agrees := inv.agree version old level (by
        intro other plan' later found above
        by_cases same : other = job
        · rw [same, phase] at found
          cases found
        · exact free other plan' later ((jobs other same).trans found) above)
      exact rewritten.agree paths agrees (fun same => untouched (.inl same))
        fun same => untouched (.inr same)
  · intro other plan' working level touches
    have before : (s.jobs other).uncommitted? = some plan' ∧ other ≠ job := by
      change (Function.update s.jobs job (.committed plan new) other).uncommitted? = _ at working
      by_cases same : other = job
      · rw [same, Function.update_self] at working
        cases working
      · rw [jobs other same] at working
        exact ⟨working, same⟩
    have apart : ∀ level, plan.Touches level → ¬ plan'.Touches level := by
      intro level touches touches'
      exact before.2 (base.locked.apart job plan other plan' busy
        (JobPhase.plan?_of_uncommitted? before.1) level touches touches').symm
    exact rewritten.agree paths (inv.planned other plan' before.1 level touches)
      (fun same => apart level (.inl same) touches) fun same => apart level (.inr same) touches

end

/-- Every step keeps the alignment, if versions keep their shape and a flushed file is newer than
what the known versions have. -/
theorem System.Aligned.step {action : Action} (inv : s.Aligned) (base : s.Base config)
    (shape : ∀ version, s.Mentions version → version.Wf)
    (newer : ∀ memtable file deltas, s.flush = .resolved memtable file deltas →
      ∀ version, s.Mentions version → ∀ row ∈ file.rows, ∀ ref ∈ version.files,
        ∀ other ∈ ref.file.rows, other.seq < row.seq)
    (ordered : InstallsInOrder s action) (fired : Merutable.step config s action = some t) :
    t.Aligned := by
  rcases step_catalog fired with catalog | rfl | ⟨job, rfl⟩
  · exact inv.quiet base ordered fired catalog
  · exact inv.flush_commit base newer fired
  · exact inv.job_commit base shape fired

end Align

end Merutable
