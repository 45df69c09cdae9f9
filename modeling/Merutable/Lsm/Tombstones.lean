import Merutable.Lsm.Order

/-! Dropping tombstones. A job that writes below the last level with a target drops them; nothing
may then be left of their keys in a file the job has not read. -/

namespace Merutable

open Foundation Compaction

/-- No file lies deeper than compactions of this configuration can write. -/
def Version.Fits (config : Config) (version : Version) : Prop :=
  ∀ ref ∈ version.files, ref.level ≤ config.levelTargetBytes.length + 1

instance (config : Config) (version : Version) : Decidable (version.Fits config) :=
  inferInstanceAs (Decidable (∀ ref ∈ version.files, _))

section Fits

variable {config : Config} {s t : System}

theorem fits_step {action : Action} (fits : s.catalog.current.toVersion.Fits config)
    (base : s.Base config) (fired : step config s action = some t) :
    t.catalog.current.toVersion.Fits config := by
  intro ref present
  rcases live_step base.stored fired present with ⟨old, listed, sameFile, _⟩ |
      ⟨_, _, memtable, deltas, phase⟩ | ⟨_, job, plan, readSeq, firstPath, _, phase, written⟩
  · rw [DataFileMeta.level, sameFile]
    exact fits old listed
  · rw [DataFileMeta.level, (base.resolved memtable ref.file deltas phase).level]
    exact Nat.zero_le _
  · have bound := (base.locked.planned job plan (by rw [phase]; rfl)).2
    rw [DataFileMeta.level, (mem_outputs written).1]
    exact Nat.succ_le_succ bound

end Fits

variable {config : Config}

theorem Rewrites.dropped_newer {plan : JobPlan} {readSeq firstPath : Nat} {current next : Version}
    (job : Rewrites config plan readSeq firstPath current next) (wf : current.Wf)
    (fits : current.Fits config) {entry : Entry}
    (dropped : entry ∈ droppedTombstones config plan readSeq) {ref : DataFileMeta}
    (present : ref ∈ next.files) {row : Entry} (member : row ∈ ref.file.rows)
    (same : row.key = entry.key) : entry.seq < row.seq := by
  have sorted := Entry.sort_sorted (plan.sources.map DataFileMeta.liveRows).flatten
  have bottom : config.levelTargetBytes.length < plan.outputLevel :=
    of_decide_eq_true (dedupeDropped_fires dropped).1
  have outputLevel : plan.outputLevel = plan.inputLevel + 1 := rfl
  have listed := (dedupeDropped_sublist _ _ _ _).subset dropped
  rw [Entry.mem_sort, List.mem_flatten] at listed
  obtain ⟨rows, inSources, inRows⟩ := listed
  obtain ⟨source, isSource, rfl⟩ := List.mem_map.mp inSources
  have inSource := source.liveRows_sublist.subset inRows
  rcases (job.files ref).mp present with ⟨stays, kept⟩ | ⟨file, written, rfl⟩
  · have depth := fits ref stays
    rcases Nat.lt_or_ge plan.inputLevel ref.level with below | above
    · exact absurd same (job.kept_apart stays kept (by omega) isSource member inSource)
    · exact job.kept_above wf stays kept above isSource member inSource same
  · have merged := (mem_outputs written).2.2.2 row member
    exact absurd same (dedupe_dropped sorted dropped row merged)

/-- The lookup order is kept, and an open finds no file below the levels it compacts to. -/
def KeepsLevels (table : Table) (action : TableAction) : Prop :=
  KeepsOrder table action ∧ ∀ tuning, action = .reopen tuning → ∀ disk, table.host = .down disk →
    disk.catalog.current.toVersion.Fits (table.config.tuned tuning)

def Table.Fits (table : Table) : Prop :=
  ∀ s, table.host = .running s → s.catalog.current.toVersion.Fits table.config

theorem Table.Fits.step {table next : Table} {action : TableAction} (fits : table.Fits)
    (consistent : table.Consistent) (keeps : KeepsLevels table action)
    (fired : tableStep table action = some next) : next.Fits := by
  intro t running
  cases table_event fired with
  | @act s _ _ host stepped made =>
    rw [Table.Consistent, host] at consistent
    subst made
    cases running
    exact fits_step (fits s host) consistent.1 stepped
  | crash host made =>
    subst made
    cases running
  | reopen host _ made =>
    subst made
    cases running
    exact keeps.2 _ rfl _ host

theorem fits_of_run {actions : List TableAction} {table : Table}
    (run : Run tableStep KeepsLevels (.created config) actions table) :
    (table.Consistent ∧ table.Ordered) ∧ table.Fits := by
  apply run.invariant (fun table => (table.Consistent ∧ table.Ordered) ∧ table.Fits) ?_
    ⟨⟨created_consistent config, initial_ordered config⟩, ?_⟩
  · intro table action next inv met fired
    exact ⟨⟨inv.1.1.step fired, inv.1.2.step inv.1.1 met.1 fired⟩, inv.2.step inv.1.1 met fired⟩
  · intro s running ref present
    cases running
    cases present

/-- In every state that a table reaches, the commit of a job that has dropped a tombstone leaves no
older live version of its key in the snapshot. -/
theorem dropped_tombstone_last (config : Config) (actions : List TableAction) (table : Table)
    (s t : System) (run : Run tableStep KeepsLevels (.created config) actions table)
    (running : table.host = .running s) (job readSeq firstPath : Nat) (plan : JobPlan)
    (phase : s.jobs job = .merged plan readSeq firstPath)
    (fired : step table.config s (.job job .commit) = some t) :
    ∀ entry ∈ droppedTombstones table.config plan readSeq, ∀ ref ∈ t.catalog.current.live,
      ∀ row ∈ ref.liveRows, row.key = entry.key → entry.seq < row.seq := by
  obtain ⟨⟨consistent, ordered⟩, fits⟩ := fits_of_run run
  rw [Table.Consistent, running] at consistent
  rw [Table.Ordered, running] at ordered
  have base : s.Base table.config := consistent.1
  have inv : s.Ordered := ordered
  have after := base.step fired
  intro entry dropped ref present row live same
  change jobStep table.config s job .commit = some t at fired
  cases job_effect fired with
  | commit own _ _ catalog new found _ committed =>
  rw [phase] at found
  injection found with samePlan sameSeq samePath
  subst samePlan sameSeq samePath
  have planned : s.Known plan.version := .inr (.planned (by rw [phase]; rfl))
  have rewritten := inv.aligned.rewrites base (inv.shape _ planned) phase committed
    after.stored.unique
  exact rewritten.dropped_newer (inv.shape _ (.inl rfl)) (fits s running) dropped present
    (ref.liveRows_sublist.subset live) same

/-- A delete of a one-byte key, with the row it had before. -/
def deleteByte (key value : UInt8) : UserKey × EntryValue :=
  (.ofByte key, .delete (some ⟨[some (.bytes [value])]⟩))

/-- The tombstones that the commit of the job drops, and the rows it leaves. -/
def System.committing (config : Config) (s : System)
    (job : Nat) : Option (List Entry × List Entry) :=
  match s.jobs job, step config s (.job job .commit) with
  | .merged plan readSeq _, some t => some (droppedTombstones config plan readSeq,
      t.catalog.current.live.flatMap DataFileMeta.liveRows)
  | _, _ => none

theorem committing_eq_some {s : System} {job : Nat} {dropped rows : List Entry}
    (found : s.committing config job = some (dropped, rows)) :
    ∃ plan readSeq firstPath t, s.jobs job = .merged plan readSeq firstPath ∧
      step config s (.job job .commit) = some t ∧ dropped = droppedTombstones config plan readSeq ∧
      rows = t.catalog.current.live.flatMap DataFileMeta.liveRows := by
  unfold System.committing at found
  split at found
  · rename_i plan readSeq firstPath t phase fired
    injection found with found
    injection found with first second
    exact ⟨plan, readSeq, firstPath, t, phase, fired, first.symm, second.symm⟩
  · cases found

/-- No level below level 1. -/
def Config.shallow : Config := { Config.plain with levelTargetBytes := [] }

/-- A job has merged a flushed tombstone. -/
def tombstoneMerged : List TableAction :=
  acts (Calls.write [putByte 1 1] ++ Calls.write [deleteByte 1 1] ++ Calls.write [putByte 2 1] ++
    Calls.rotate ++ [.flush .pick, .flush .resolve, .flush .commit]) ++
    .act (.flush .install) ::
      acts [.flush (.mark []), .flush .drop, .job 0 (.pick 0), .job 0 .merge]

theorem dropped_tombstone_last_merged :
    ∃ s t plan readSeq firstPath,
      (final tableStep (.created .shallow) tombstoneMerged).host = .running s ∧
      s.jobs 0 = .merged plan readSeq firstPath ∧ step .shallow s (.job 0 .commit) = some t ∧
      ⟨(deleteByte 1 1).1, 2, (deleteByte 1 1).2⟩ ∈ droppedTombstones .shallow plan readSeq ∧
      ∀ ref ∈ t.catalog.current.live, ∀ row ∈ ref.liveRows, row.key = (deleteByte 1 1).1 →
        2 < row.seq := by
  have merged : Run tableStep KeepsLevels (.created .shallow) tombstoneMerged
      (final tableStep (.created .shallow) tombstoneMerged) := by
    refine (keepsOrder_of_check (by decide +kernel)).mono fun action member state keeps =>
      ⟨keeps, ?_⟩
    rintro tuning rfl
    simp [tombstoneMerged, acts] at member
  have state : (final tableStep (.created .shallow) tombstoneMerged).system?.bind
      (System.committing .shallow · 0) = some ([⟨(deleteByte 1 1).1, 2, (deleteByte 1 1).2⟩],
        [⟨(putByte 2 1).1, 3, (putByte 2 1).2⟩]) := by decide +kernel
  obtain ⟨s, running, committing⟩ := Option.bind_eq_some_iff.mp state
  obtain ⟨plan, readSeq, firstPath, t, phase, fired, dropped, _⟩ := committing_eq_some committing
  have host := Table.system?_eq_some.mp running
  have member : ⟨(deleteByte 1 1).1, 2, (deleteByte 1 1).2⟩ ∈
      droppedTombstones .shallow plan readSeq := dropped ▸ List.mem_cons_self
  exact ⟨s, t, plan, readSeq, firstPath, host, phase, fired, member,
    dropped_tombstone_last .shallow _ _ s t merged host 0 readSeq firstPath plan phase
      fired _ member⟩

/-- The table is reopened with fewer levels than it has filled. -/
def fewerLevels : List TableAction :=
  acts (Calls.write [putByte 1 1] ++ Calls.rotate ++ Calls.runFlush ++ Calls.runJob 0 0 ++
    Calls.runJob 0 1) ++
    [.crash false, .reopen { Config.shallow.tuning with enableFlushDvEmission := false }] ++
    acts (Calls.write [deleteByte 1 1] ++ Calls.write [putByte 2 1] ++ Calls.rotate ++
      Calls.runFlush ++ [.job 0 (.pick 0), .job 0 .merge])

/-- The tombstone is dropped above the row it hides. -/
theorem dropped_tombstone_uncovers :
    ∃ table s t plan readSeq firstPath entry ref row,
      execute tableStep (.created .plain) fewerLevels = some table ∧ table.host = .running s ∧
      s.jobs 0 = .merged plan readSeq firstPath ∧ step table.config s (.job 0 .commit) = some t ∧
      entry ∈ droppedTombstones table.config plan readSeq ∧ ref ∈ t.catalog.current.live ∧
      row ∈ ref.liveRows ∧ row.key = entry.key ∧ row.seq < entry.seq := by
  have state : (final tableStep (.created .plain) fewerLevels).system?.bind
      (System.committing (final tableStep (.created .plain) fewerLevels).config · 0) =
      some ([⟨(deleteByte 1 1).1, 2, (deleteByte 1 1).2⟩],
        [⟨(putByte 1 1).1, 1, (putByte 1 1).2⟩, ⟨(putByte 2 1).1, 3, (putByte 2 1).2⟩]) := by
    decide +kernel
  obtain ⟨s, running, committing⟩ := Option.bind_eq_some_iff.mp state
  obtain ⟨plan, readSeq, firstPath, t, phase, fired, dropped, rows⟩ := committing_eq_some committing
  have listed : ⟨(putByte 1 1).1, 1, (putByte 1 1).2⟩ ∈
      t.catalog.current.live.flatMap DataFileMeta.liveRows := rows ▸ List.mem_cons_self
  obtain ⟨ref, present, live⟩ := List.mem_flatMap.mp listed
  have gone : ⟨(deleteByte 1 1).1, 2, (deleteByte 1 1).2⟩ ∈ droppedTombstones
      (final tableStep (.created .plain) fewerLevels).config plan readSeq :=
    dropped ▸ List.mem_cons_self
  exact ⟨_, s, t, plan, readSeq, firstPath, _, ref, _, execute_final (by decide +kernel),
    Table.system?_eq_some.mp running, phase, fired, gone, present, live, rfl, by decide⟩

end Merutable
