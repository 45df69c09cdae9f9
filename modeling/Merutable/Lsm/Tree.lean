import Merutable.Lsm.Align
import Merutable.Lsm.Handover

/-! The engine as a log-structured tree: the installed version and the memtables together stand for
everything that has been written, however flushes, compactions and writes are interleaved, as long
as drops remove only flushed memtables and versions are installed in the order of their commits. -/

namespace Merutable

open Foundation Compaction

namespace FlushPhase

/-- The batches of a committed memtable that every version from this snapshot on stands for. -/
def reached (flush : FlushPhase) (snapshotId : Nat) : List WriteBatch :=
  match flush with
  | .committed memtable version => if version.snapshotId ≤ snapshotId then memtable.batches else []
  | .installed memtable => memtable.batches
  | .marked memtable => memtable.batches
  | _ => []

theorem reached_covered (flush : FlushPhase) (snapshotId : Nat) :
    flush.reached snapshotId <+: flush.covered := by
  cases flush with
  | committed memtable version =>
    simp only [reached, covered]
    split
    · exact List.prefix_rfl
    · exact List.nil_prefix
  | _ => exact List.prefix_rfl

end FlushPhase

/-- The batches that have left the memtables. -/
def System.dropped (s : System) : List WriteBatch :=
  s.history.take (s.history.length - s.memtable.batches.length)

section Dropped

variable {config : Config} {s t : System} {memtable : Memtable} {action : Action}

theorem System.dropped_eq {first : List WriteBatch}
    (split : s.history = first ++ s.memtable.batches) :
    s.dropped = first := by
  simp [System.dropped, split]

theorem drop_history (split : s.history = s.dropped ++ s.memtable.batches) (queued : s.Queued)
    (phase : s.flush.memtable? = some memtable)
    (own : ∀ other ∈ s.memtable.immutable, other.firstSeq = memtable.firstSeq → other = memtable) :
    s.history = (s.dropped ++ memtable.batches) ++
      (s.memtable.dropFlushed memtable.firstSeq).batches := by
  rw [List.append_assoc, ← Queued.drop_batches queued phase own]
  exact split

theorem write_batches {action : WriteAction} (numbered : s.Numbered)
    (fired : writeStep config s action = some t) :
    ∃ more, t.history = s.history ++ more ∧ t.memtable.batches = s.memtable.batches ++ more ∧
      ∀ entry ∈ entriesOf more, s.visibleSeq < entry.seq := by
  cases write_effect fired with
  | apply batch phase =>
    refine ⟨[batch], rfl, MemtableManager.applyBatch_batches _ _, ?_⟩
    intro entry member
    rw [entriesOf_singleton] at member
    exact lt_of_lt_of_le (numbered.coming batch (.inr phase)).1 (WriteBatch.seq_bounds member).1
  | _ => exact ⟨[], by simp, by simp, by simp⟩

theorem history_more (numbered : s.Numbered) (fired : step config s action = some t) :
    ∃ more, t.history = s.history ++ more ∧ ∀ entry ∈ entriesOf more, s.visibleSeq < entry.seq := by
  cases step_effect fired with
  | write fired =>
    obtain ⟨more, history, _, above⟩ := write_batches numbered fired
    exact ⟨more, history, above⟩
  | _ => exact ⟨[], by simp, by simp⟩

section

variable (split : s.history = s.dropped ++ s.memtable.batches) (base : s.Base config)
  (own : DropsOwnMemtable s action) (fired : step config s action = some t)
include split base own fired

theorem dropped_step :
    t.history = t.dropped ++ t.memtable.batches ∧
      (t.dropped = s.dropped ∨ ∃ memtable, action = .flush .drop ∧ s.flush = .marked memtable ∧
        t.dropped = s.dropped ++ memtable.batches) := by
  have same : ∀ more, t.history = s.history ++ more →
      t.memtable.batches = s.memtable.batches ++ more →
      t.history = t.dropped ++ t.memtable.batches ∧ t.dropped = s.dropped := by
    intro more history batches
    have parts : t.history = s.dropped ++ t.memtable.batches := by
      rw [history, batches, ← List.append_assoc, ← split]
    rw [System.dropped_eq parts]
    exact ⟨parts, rfl⟩
  have lift : (t.history = t.dropped ++ t.memtable.batches ∧ t.dropped = s.dropped) →
      t.history = t.dropped ++ t.memtable.batches ∧
        (t.dropped = s.dropped ∨ ∃ memtable, action = .flush .drop ∧ s.flush = .marked memtable ∧
          t.dropped = s.dropped ++ memtable.batches) := fun both => ⟨both.1, .inl both.2⟩
  cases step_effect fired with
  | write fired =>
    obtain ⟨more, history, batches, _⟩ := write_batches base.numbered fired
    exact lift (same more history batches)
  | rotate fired =>
    have batches := rotation_batches fired
    exact lift (same [] (by simp) (by simpa using batches))
  | flush fired =>
    cases flush_effect fired with
    | dropEmpty memtable phase nothing =>
      have front : s.flush.memtable? = some memtable := by
        rw [phase]
        rfl
      have member := base.front front
      have none := Memtable.batches_of_iter_nil (base.increasing member)
        (base.seq_le member) nothing
      have rest := base.queued.drop_batches front (own memtable phase)
      rw [none, List.nil_append] at rest
      exact lift (same [] (by simp) (by simpa using rest.symm))
    | drop memtable phase =>
      have front : s.flush.memtable? = some memtable := by
        rw [phase]
        rfl
      have parts := drop_history split base.queued front (own memtable phase)
      refine ⟨?_, .inr ⟨memtable, rfl, phase, System.dropped_eq parts⟩⟩
      rw [System.dropped_eq parts]
      exact parts
    | _ => exact lift (same [] (by simp) (by simp))
  | _ => exact lift (same [] (by simp) (by simp))

theorem dropped_kept (other : action ≠ .flush .drop) : t.dropped = s.dropped :=
  (dropped_step split base own fired).2.resolve_right fun ⟨_, drops, _⟩ => other drops

end

end Dropped

/-- The version stands for what has been flushed up to some moment, at least for `least`. -/
def System.Stands (config : Config) (s : System) (least : List WriteBatch) (version : Version) :
    Prop :=
  ∃ batches, least <+: batches ∧ batches <+: s.dropped ++ s.flush.covered ∧
    version.Sound config s.visibleSeq (entriesOf batches)

/-- A job merges what was visible when it started. -/
def System.ReadsVisible (s : System) : Prop :=
  ∀ job plan readSeq firstPath, s.jobs job = .merged plan readSeq firstPath →
    readSeq ≤ s.visibleSeq

/-- Flushed records are in the manifest, in every version on its way to be installed, and in the
installed one. -/
structure System.Tree (config : Config) (s : System) : Prop where
  aligned : s.Aligned
  history : s.history = s.dropped ++ s.memtable.batches
  current : s.catalog.current.toVersion.Sound config s.visibleSeq
    (entriesOf (s.dropped ++ s.flush.covered))
  versions : ∀ version, s.Mentions version → s.Stands config [] version
  upcoming : ∀ version, s.Upcoming version →
    s.Stands config (s.dropped ++ s.flush.reached version.snapshotId) version
  reads : s.ReadsVisible

theorem initial_tree (config : Config) : (System.initial config).Tree config := by
  have sound : Catalog.empty.current.toVersion.Sound config 0 (entriesOf []) := .empty config
  have only : ∀ version, (System.initial config).Mentions version →
      version = Catalog.empty.current.toVersion := fun _ => initial_mentions
  have first : ∀ version, (System.initial config).Upcoming version →
      version = Catalog.empty.current.toVersion := by
    rintro version (same | waiting)
    · exact same
    · exact only version (.pending waiting)
  refine ⟨⟨initial_installOrder config, ?_, ?_⟩, rfl, sound, ?_, ?_, ?_⟩
  · intro version upcoming level _
    rw [first version upcoming]
    exact .refl _ _
  · intro job plan working
    cases working
  · intro version mentioned
    rw [only version mentioned]
    exact ⟨[], List.prefix_rfl, List.prefix_rfl, sound⟩
  · intro version upcoming
    rw [first version upcoming]
    exact ⟨[], List.prefix_rfl, List.prefix_rfl, sound⟩
  · intro job plan readSeq firstPath phase
    cases phase

section Tree

variable {config : Config} {s t : System} {action : Action} {version : Version}
  {memtable : Memtable}

theorem System.Tree.covered_history (inv : s.Tree config) (base : s.Base config) :
    s.dropped ++ s.flush.covered <+: s.history := by
  have whole := inv.history
  rw [whole]
  exact (List.prefix_append_right_inj _).mpr (covered_batches base.queued)

theorem System.Tree.increasing (inv : s.Tree config) (base : s.Base config)
    {batches : List WriteBatch} (flushed : batches <+: s.dropped ++ s.flush.covered) :
    (entriesOf batches).Pairwise fun a b => a.seq < b.seq := by
  have written := flushed.trans (inv.covered_history base)
  have ordered : Increasing batches := base.numbered.increasing.sublist written.sublist
  exact ordered.entries

theorem write_visible {action : WriteAction} (fired : writeStep config s action = some t) :
    s.visibleSeq ≤ t.visibleSeq := by
  cases write_effect fired with
  | publish => exact le_max_left _ _
  | _ => exact le_rfl

theorem visible_step (fired : step config s action = some t) :
    s.visibleSeq ≤ t.visibleSeq := by
  cases step_effect fired with
  | write fired => exact write_visible fired
  | _ => exact le_rfl

theorem System.ReadsVisible.step (reads : s.ReadsVisible)
    (fired : Merutable.step config s action = some t) : t.ReadsVisible := by
  intro job plan readSeq firstPath phase
  apply le_trans ?_ (visible_step fired)
  rcases merged_step fired phase with before | ⟨same, _⟩
  · exact reads job plan readSeq firstPath before
  · exact same.le

theorem System.Stands.of_eq {least least' : List WriteBatch}
    (stands : s.Stands config least version) (weaker : least' = least)
    (covered : t.dropped ++ t.flush.covered = s.dropped ++ s.flush.covered)
    (visible : s.visibleSeq ≤ t.visibleSeq) : t.Stands config least' version := by
  obtain ⟨batches, lower, upper, sound⟩ := stands
  exact ⟨batches, weaker ▸ lower, covered ▸ upper, sound.mono visible⟩

theorem System.Tree.shape (inv : s.Tree config) (mentioned : s.Mentions version) : version.Wf := by
  obtain ⟨_, _, _, sound⟩ := inv.versions version mentioned
  exact sound.wf

theorem System.Tree.flush_order (inv : s.Tree config) (base : s.Base config)
    (phase : s.flush.memtable? = some memtable) :
    memtable ∈ s.memtable.queue ∧
      ∀ a ∈ entriesOf s.dropped, ∀ b ∈ memtable.entries, a.seq < b.seq := by
  have member := base.front phase
  refine ⟨member, ?_⟩
  intro a first b second
  have ordered := base.numbered.increasing.entries
  rw [inv.history, entriesOf_append] at ordered
  apply (List.pairwise_append.mp ordered).2.2 a first b
  obtain ⟨batch, inMemtable, inBatch⟩ := mem_entriesOf.mp second
  exact mem_entriesOf.mpr ⟨batch, (MemtableManager.queue_batches member).subset inMemtable, inBatch⟩

theorem System.Tree.newer (inv : s.Tree config) (base : s.Base config) {file : DataFile}
    {deltas : List (Nat × Finset Nat)} (phase : s.flush = .resolved memtable file deltas)
    (mentioned : s.Mentions version) : ∀ row ∈ file.rows, ∀ ref ∈ version.files,
      ∀ other ∈ ref.file.rows, other.seq < row.seq := by
  have front : s.flush.memtable? = some memtable := by
    rw [phase]
    rfl
  obtain ⟨member, below⟩ := inv.flush_order base front
  obtain ⟨batches, _, upper, sound⟩ := inv.versions version mentioned
  have nothing : s.flush.covered = [] := by
    rw [phase]
    rfl
  rw [nothing, List.append_nil] at upper
  have rows := (base.resolved memtable file deltas phase).rows
  apply Flush.rows_newer rows sound (base.increasing member) (base.seq_le member)
  intro a first b second
  obtain ⟨batch, inBatches, inBatch⟩ := mem_entriesOf.mp first
  exact below a (mem_entriesOf.mpr ⟨batch, upper.subset inBatches, inBatch⟩) b second

theorem flush_covered {action : FlushAction} (split : s.history = s.dropped ++ s.memtable.batches)
    (base : s.Base config) (own : DropsOwnMemtable s (.flush action))
    (fired : flushStep config s action = some t) (catalog : t.catalog = s.catalog) :
    t.dropped ++ t.flush.covered = s.dropped ++ s.flush.covered ∧
      ∀ id, t.version.snapshotId ≤ id →
        t.dropped ++ t.flush.reached id = s.dropped ++ s.flush.reached id := by
  have stepped : step config s (.flush action) = some t := fired
  have kept (other : action ≠ .drop) : t.dropped = s.dropped :=
    dropped_kept split base own stepped (by simpa using other)
  cases flush_effect fired with
  | commit _ _ _ _ _ _ committed =>
    have next := (Catalog.commit_ok committed).2.1
    have same := congrArg Catalog.nextVersion catalog
    exact absurd (next.symm.trans same) (Nat.succ_ne_self _)
  | install memtable version phase =>
    rw [kept (by simp), phase]
    refine ⟨rfl, fun id above => ?_⟩
    rw [FlushPhase.reached, FlushPhase.reached, if_pos above]
  | drop memtable phase =>
    have moved : System.dropped { s with
        memtable := s.memtable.dropFlushed memtable.firstSeq, flush := .idle } =
        s.dropped ++ memtable.batches :=
      System.dropped_eq (drop_history split base.queued (by rw [phase]; rfl) (own memtable phase))
    rw [moved, phase]
    simp [FlushPhase.covered, FlushPhase.reached]
  | abort found =>
    rw [kept (by simp)]
    obtain ⟨_, phase | ⟨_, _, phase⟩⟩ := found <;> rw [phase] <;> exact ⟨rfl, fun _ _ => rfl⟩
  | pick _ phase | dropEmpty _ phase | resolve _ _ phase | mark _ phase =>
    rw [kept (by simp), phase]
    exact ⟨rfl, fun _ _ => rfl⟩

theorem covered_step (split : s.history = s.dropped ++ s.memtable.batches) (base : s.Base config)
    (own : DropsOwnMemtable s action) (fired : step config s action = some t)
    (catalog : t.catalog = s.catalog) :
    t.dropped ++ t.flush.covered = s.dropped ++ s.flush.covered ∧
      ∀ id, t.version.snapshotId ≤ id →
        t.dropped ++ t.flush.reached id = s.dropped ++ s.flush.reached id := by
  have frame : t.dropped = s.dropped → t.flush = s.flush →
      t.dropped ++ t.flush.covered = s.dropped ++ s.flush.covered ∧
        ∀ id, t.version.snapshotId ≤ id →
          t.dropped ++ t.flush.reached id = s.dropped ++ s.flush.reached id := by
    intro same flush
    rw [same, flush]
    exact ⟨rfl, fun _ _ => rfl⟩
  cases step_effect fired with
  | flush fired => exact flush_covered split base own fired catalog
  | _ => exact frame (dropped_kept split base own fired (by simp)) rfl

section

variable (inv : s.Tree config) (base : s.Base config)
include inv base

theorem System.Tree.quiet (own : DropsOwnMemtable s action) (ordered : InstallsInOrder s action)
    (fired : Merutable.step config s action = some t) (aligned : t.Aligned)
    (reads : t.ReadsVisible) (catalog : t.catalog = s.catalog) : t.Tree config := by
  have visible := visible_step fired
  obtain ⟨covered, reached⟩ := covered_step inv.history base own fired catalog
  have current : t.catalog.current.toVersion.Sound config t.visibleSeq
      (entriesOf (t.dropped ++ t.flush.covered)) := by
    rw [catalog, covered]
    exact inv.current.mono visible
  refine ⟨aligned, (dropped_step inv.history base own fired).1, current, ?_, ?_, reads⟩
  · intro version mentioned
    rcases step_mentions fired mentioned with before | rfl
    · exact (inv.versions version before).of_eq rfl covered visible
    · exact ⟨_, List.nil_prefix, List.prefix_rfl, current⟩
  · intro version coming
    obtain ⟨before, above⟩ := inv.aligned.order.upcoming ordered fired catalog coming
    exact (inv.upcoming version before).of_eq (reached _ above) covered visible

theorem System.Tree.flush_commit (aligned : t.Aligned)
    (fired : flushStep config s .commit = some t) :
    t.Tree config := by
  have stepped : Merutable.step config s (.flush .commit) = some t := fired
  have own : DropsOwnMemtable s (.flush .commit) := trivial
  have after := base.step stepped
  obtain ⟨history, dropped⟩ := dropped_step inv.history base own stepped
  replace dropped : t.dropped = s.dropped := by simpa using dropped
  cases flush_effect fired with
  | commit memtable file deltas catalog new phase committed =>
  have front : s.flush.memtable? = some memtable := by
    rw [phase]
    rfl
  have nothing : s.flush.covered = [] := by
    rw [phase]
    rfl
  obtain ⟨member, below⟩ := inv.flush_order base front
  have extended := flush_extends base phase committed after.stored.unique
  have before := inv.current
  rw [nothing, List.append_nil] at before
  have sound := extended.sound before (base.increasing member) (base.seq_le member) below
  have latest : new = catalog.current.toVersion := (Catalog.commit_ok committed).2.2
  rw [Memtable.entries, ← entriesOf_append] at sound
  -- What a version stood for stays below the records of this flush.
  have lift : ∀ {least : List WriteBatch} {version : Version}, s.Stands config least version →
      ∃ batches, least <+: batches ∧ batches <+: s.dropped ∧
        version.Sound config s.visibleSeq (entriesOf batches) := by
    rintro least version ⟨batches, lower, upper, sound⟩
    rw [nothing, List.append_nil] at upper
    exact ⟨batches, lower, upper, sound⟩
  refine ⟨aligned, history, ?_, ?_, ?_, inv.reads⟩
  · rw [dropped]
    exact sound
  · intro version mentioned
    rcases step_mentions stepped mentioned with old | rfl
    · obtain ⟨batches, lower, upper, stands⟩ := lift (inv.versions version old)
      refine ⟨batches, lower, ?_, stands⟩
      rw [dropped]
      exact upper.trans (List.prefix_append _ _)
    · refine ⟨_, List.nil_prefix, List.prefix_rfl, ?_⟩
      rw [dropped]
      exact sound
  · intro version coming
    rcases inv.aligned.order.committed stepped committed coming with rfl | ⟨old, less⟩
    · refine ⟨s.dropped ++ memtable.batches, ?_, ?_, latest ▸ sound⟩
      · rw [dropped, FlushPhase.reached, if_pos le_rfl]
      · rw [dropped]
        exact List.prefix_rfl
    · obtain ⟨batches, lower, upper, stands⟩ := lift (inv.upcoming version old)
      refine ⟨batches, ?_, ?_, stands⟩
      · rw [dropped, FlushPhase.reached, if_neg (Nat.not_le.mpr less), List.append_nil]
        rw [phase] at lower
        exact (List.prefix_append _ _).trans lower
      · rw [dropped]
        exact upper.trans (List.prefix_append _ _)

theorem System.Tree.job_commit {job : Nat} (aligned : t.Aligned) (reads : t.ReadsVisible)
    (fired : jobStep config s job .commit = some t) : t.Tree config := by
  have stepped : Merutable.step config s (.job job .commit) = some t := fired
  have own : DropsOwnMemtable s (.job job .commit) := trivial
  have after := base.step stepped
  obtain ⟨history, dropped⟩ := dropped_step inv.history base own stepped
  replace dropped : t.dropped = s.dropped := by simpa using dropped
  cases job_effect fired with
  | commit plan readSeq firstPath catalog new phase _ committed =>
  have busy : (s.jobs job).plan? = some plan := by
    rw [phase]
    rfl
  have rewritten := inv.aligned.rewrites base (inv.shape (.planned busy)) phase committed
    after.stored.unique
  have latest : new = catalog.current.toVersion := (Catalog.commit_ok committed).2.2
  have sound := rewritten.sound inv.current (inv.increasing base List.prefix_rfl)
    (inv.reads job plan readSeq firstPath phase) (base.locked.planned job plan busy).2
  have covered : ∀ {least : List WriteBatch} {version : Version}, s.Stands config least version →
      System.Stands config { s.setJob job (.committed plan new) with catalog := catalog } least
        version := by
    rintro least version ⟨batches, lower, upper, stands⟩
    exact ⟨batches, lower, dropped ▸ upper, stands⟩
  refine ⟨aligned, history, ?_, ?_, ?_, reads⟩
  · rw [dropped]
    exact sound
  · intro version mentioned
    rcases step_mentions stepped mentioned with old | rfl
    · exact covered (inv.versions version old)
    · refine ⟨_, List.nil_prefix, List.prefix_rfl, ?_⟩
      rw [dropped]
      exact sound
  · intro version coming
    rw [dropped]
    rcases inv.aligned.order.committed stepped committed coming with rfl | ⟨old, _⟩
    · refine ⟨s.dropped ++ s.flush.covered, ?_, ?_, latest ▸ sound⟩
      · exact (List.prefix_append_right_inj _).mpr (FlushPhase.reached_covered _ _)
      · rw [dropped]
        exact List.prefix_rfl
    · exact covered (inv.upcoming version old)

end

theorem System.Tree.step {action : Action} (inv : s.Tree config) (base : s.Base config)
    (own : DropsOwnMemtable s action) (ordered : InstallsInOrder s action)
    (fired : Merutable.step config s action = some t) : t.Tree config := by
  have aligned := inv.aligned.step base (fun _ mentioned => inv.shape mentioned)
    (fun _ _ _ phase _ mentioned => inv.newer base phase mentioned) ordered fired
  have reads := inv.reads.step fired
  rcases step_catalog fired with catalog | rfl | ⟨job, rfl⟩
  · exact inv.quiet base own ordered fired aligned reads catalog
  · exact inv.flush_commit base aligned fired
  · exact inv.job_commit base aligned reads fired

/-- Drops are exact and installs happen in the order of the commits. -/
def KeepsTree (s : System) (action : Action) : Prop :=
  DropsOwnMemtable s action ∧ InstallsInOrder s action

theorem tree_of_run {guard : System → Action → Prop} {actions : List Action}
    (keeps : ∀ s action, guard s action → KeepsTree s action)
    (run : Run (Merutable.step config) guard (.initial config) actions s) :
    s.Base config ∧ s.Tree config := by
  apply run.invariant (fun s => s.Base config ∧ s.Tree config) ?_
    ⟨initial_base config, initial_tree config⟩
  intro s action t inv met fired
  exact ⟨inv.1.step fired, inv.2.step inv.1 (keeps s action met).1 (keeps s action met).2 fired⟩

/-- `KeepsTree` for runs in which job 0 is the only one, as a test. -/
def treeCheck (s : System) (action : Action) : Bool :=
  installsCheck s action && (action ∉ [.flush .dropEmpty, .flush .drop] ||
    s.flush.memtable?.all fun memtable => s.memtable.immutable.all fun other =>
      other.firstSeq ≠ memtable.firstSeq || other = memtable)

theorem keepsTree_of_check {actions : List Action} (one : s.OneJob)
    (passed : (execute (checked (Merutable.step config) treeCheck) s actions).isSome) :
    Run (Merutable.step config) KeepsTree s actions (final (Merutable.step config) s actions) ∧
      (final (Merutable.step config) s actions).OneJob := by
  refine Run.of_checked System.OneJob ?_ ?_ one passed
  · intro s action one good
    rw [treeCheck, Bool.and_eq_true] at good
    refine ⟨?_, installsCheck_sound one good.1⟩
    unfold DropsOwnMemtable
    split
    · intro memtable phase
      simpa [phase, FlushPhase.memtable?, or_iff_not_imp_left] using good.2
    · intro memtable phase
      simpa [phase, FlushPhase.memtable?, or_iff_not_imp_left] using good.2
    · trivial
  · intro s action t one good
    rw [treeCheck, Bool.and_eq_true] at good
    exact installsCheck_oneJob one good.1

end Tree

end Merutable
