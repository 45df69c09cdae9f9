import Merutable.Lsm.Queue

/-! What the log still holds. A flush deletes the closed logs up to the `lastSeq` of its memtable;
that counter starts at the sequence number read by the rotation, which can lie beyond the records
of the memtable. -/

namespace Merutable

open Foundation

/-- The memtable whose rows have been committed and which is still queued. -/
def FlushPhase.committed? : FlushPhase → Option Memtable
  | .committed memtable _ => some memtable
  | .installed memtable => some memtable
  | .marked memtable => some memtable
  | _ => none

/-- A memtable with a flush that has not been committed. -/
def System.Uncommitted (s : System) (memtable : Memtable) : Prop :=
  memtable ∈ s.memtable.queue ∧ ∀ flushed, s.flush.committed? = some flushed →
    memtable.id ≠ flushed.id

/-- A closed log within the `lastSeq` of the flushed memtable does not reach beyond the records of
that memtable. -/
def MarksOwnRecords (s : System) : Action → Prop
  | .flush (.mark _) => ∀ memtable, s.flush = .installed memtable →
      ∀ log ∈ s.wal.closedLogs, log.maxSeq ≤ memtable.lastSeq →
        ∃ entry ∈ memtable.entries, log.maxSeq ≤ entry.seq
  | _ => True

instance (s : System) : DecidablePred (MarksOwnRecords s)
  | .flush (.mark _) =>
    decidable_of_iff (∀ memtable ∈ s.flush.memtable?, s.flush = .installed memtable →
        ∀ log ∈ s.wal.closedLogs, log.maxSeq ≤ memtable.lastSeq →
          ∃ entry ∈ memtable.entries, log.maxSeq ≤ entry.seq)
      ⟨fun marks memtable phase => marks memtable (by rw [phase]; rfl) phase,
        fun marks memtable _ phase => marks memtable phase⟩
  | .write _ | .post _ | .rotate _ | .flush .pick | .flush .dropEmpty | .flush .resolve
  | .flush .commit | .flush .install | .flush .drop | .flush .abort | .job _ _ | .get _ _ | .pin _
  | .unpin _ | .sweep _ _ | .tick => .isTrue trivial

structure Logged (wal : WalManager) (write : WritePhase) (memtable : MemtableManager)
    (flush : FlushPhase) : Prop where
  wf : wal.Wf
  appended : ∀ batch, write = .appended batch → wal.InOpenLog batch
  kept : ∀ held ∈ memtable.queue, (∀ flushed, flush.committed? = some flushed →
    held.id ≠ flushed.id) → ∀ batch ∈ held.batches, wal.Tracked batch

def System.Logged (s : System) : Prop := Merutable.Logged s.wal s.write s.memtable s.flush

theorem initial_logged (config : Config) : (System.initial config).Logged where
  wf := WalManager.openLog_wf 1
  appended := by intro batch phase; cases phase
  kept := by
    intro held member _ batch inHeld
    rw [List.mem_singleton.mp member] at inHeld
    cases inHeld

section Logged

variable {config : Config} {s t : System}

theorem FlushPhase.memtable?_of_committed? {flush : FlushPhase} {memtable : Memtable}
    (phase : flush.committed? = some memtable) : flush.memtable? = some memtable := by
  cases flush with
  | idle | picked | resolved => cases phase
  | committed | installed | marked => exact phase

theorem write_logged {action : WriteAction} (inv : s.Logged)
    (fired : writeStep config s action = some t) : t.Logged := by
  cases write_effect fired with
  | append batch =>
    refine ⟨inv.wf.append batch, ?_, ?_⟩
    · intro other phase
      injection phase with same
      rw [← same]
      exact WalManager.append_inOpenLog s.wal batch
    · intro held member uncommitted other inHeld
      exact (inv.kept held member uncommitted other inHeld).append inv.wf
  | @appendFailed reached batch =>
    refine ⟨inv.wf.appendFailed batch reached, by simp, ?_⟩
    intro held member uncommitted other inHeld
    exact (inv.kept held member uncommitted other inHeld).appendFailed inv.wf reached
  | apply batch phase =>
    refine ⟨inv.wf, by simp, ?_⟩
    intro held member uncommitted other inHeld
    rcases List.mem_append.mp member with immutable | active
    · exact inv.kept held (List.mem_append_left _ immutable) uncommitted other inHeld
    · rw [List.mem_singleton.mp active] at inHeld uncommitted
      rcases List.mem_append.mp inHeld with old | new
      · exact inv.kept _ (List.mem_append_right _ (List.mem_singleton.mpr rfl)) uncommitted
          other old
      · rw [List.mem_singleton.mp new]
        exact .inl (inv.appended batch phase)
  | _ => exact ⟨inv.wf, by simp, inv.kept⟩

theorem rotation_logged {action : RotationAction} (inv : s.Logged)
    (fired : rotationStep s action = some t) : t.Logged := by
  cases rotation_effect fired with
  | sealActive nextSeq =>
    refine ⟨inv.wf, inv.appended, ?_⟩
    intro held member uncommitted batch inHeld
    rcases List.mem_append.mp member with immutable | active
    · rcases List.mem_append.mp immutable with old | new
      · exact inv.kept held (List.mem_append_left _ old) uncommitted batch inHeld
      · rw [List.mem_singleton.mp new] at inHeld uncommitted
        exact inv.kept _ (List.mem_append_right _ (List.mem_singleton.mpr rfl)) uncommitted
          batch inHeld
    · rw [List.mem_singleton.mp active] at inHeld
      cases inHeld
  | rotateWal _ idle =>
    refine ⟨inv.wf.rotate, ?_, ?_⟩
    · intro batch phase
      rw [idle] at phase
      cases phase
    · intro held member uncommitted batch inHeld
      exact (inv.kept held member uncommitted batch inHeld).rotate inv.wf
  | _ => exact inv

theorem Logged.of_phase {wal : WalManager} {write : WritePhase} {memtable : MemtableManager}
    {flush later : FlushPhase} (inv : Merutable.Logged wal write memtable flush)
    (same : ∀ flushed, flush.committed? = some flushed → later.committed? = some flushed) :
    Merutable.Logged wal write memtable later :=
  ⟨inv.wf, inv.appended, fun held member uncommitted =>
    inv.kept held member fun flushed phase => uncommitted flushed (same flushed phase)⟩

section

variable (inv : s.Logged) (numbered : s.Numbered) (queued : s.Queued)
include inv numbered queued

theorem mark_logged {failed : List Nat} (own : MarksOwnRecords s (.flush (.mark failed)))
    (fired : flushStep config s (.mark failed) = some t) : t.Logged := by
  cases flush_effect fired with
  | mark memtable phase idle =>
  refine ⟨inv.wf.markFlushedSeq _ _, ?_, ?_⟩
  · intro batch busy
    rw [idle] at busy
    cases busy
  · intro held member uncommitted batch inHeld
    have different : held.id ≠ memtable.id := uncommitted memtable rfl
    have committed : s.flush.committed? = some memtable := by rw [phase]; rfl
    have tracked := inv.kept held member (by simpa [committed] using different) batch inHeld
    refine tracked.markFlushedSeq inv.wf fun log closed low => ?_
    obtain ⟨entry, inEntries, reaches⟩ := own memtable phase log closed low
    obtain ⟨first, inOldest, inFirst⟩ := mem_entriesOf.mp inEntries
    calc log.maxSeq ≤ entry.seq := reaches
      _ ≤ first.lastSeq := (WriteBatch.seq_bounds inFirst).2
      _ < batch.sequence := queued.before numbered.increasing
          (FlushPhase.memtable?_of_committed? committed) member different inOldest inHeld
      _ ≤ batch.lastSeq := batch.sequence_le_lastSeq

theorem flush_logged {action : FlushAction} (own : MarksOwnRecords s (.flush action))
    (fired : flushStep config s action = some t) : t.Logged := by
  cases flush_effect fired with
  | pick _ phase | resolve _ _ phase | commit _ _ _ _ _ phase | install _ _ phase =>
    exact Logged.of_phase inv (by simp [phase, FlushPhase.committed?])
  | dropEmpty memtable phase =>
    refine ⟨inv.wf, inv.appended, ?_⟩
    intro held member _ batch inHeld
    have present := (s.memtable.dropFlushed_queue _).subset member
    exact inv.kept held present (by simp [phase, FlushPhase.committed?]) batch inHeld
  | mark => exact mark_logged inv numbered queued own fired
  | drop memtable phase =>
    refine ⟨inv.wf, inv.appended, ?_⟩
    intro held member _ batch inHeld
    have oldest : s.flush.memtable? = some memtable := by rw [phase]; rfl
    have present := (s.memtable.dropFlushed_queue _).subset member
    have different := queued.dropped_id oldest member
    exact inv.kept held present (by simpa [phase, FlushPhase.committed?] using different)
      batch inHeld
  | abort found =>
    obtain ⟨_, phase | ⟨_, _, phase⟩⟩ := found
    · exact Logged.of_phase inv (by simp [phase, FlushPhase.committed?])
    · exact Logged.of_phase inv (by simp [phase, FlushPhase.committed?])

theorem step_logged {action : Action} (own : MarksOwnRecords s action)
    (fired : step config s action = some t) :
    t.Logged := by
  cases step_effect fired with
  | write fired => exact write_logged inv fired
  | rotate fired => exact rotation_logged inv fired
  | flush fired => exact flush_logged inv numbered queued own fired
  | _ => exact inv

end

/-- As long as every flush marks only what its own records cover, the records of the memtables that
have not been committed are in the log. -/
theorem uncommitted_records_logged (config : Config) (actions : List Action) (s : System)
    (run : Run (step config) MarksOwnRecords (.initial config) actions s) (memtable : Memtable)
    (uncommitted : s.Uncommitted memtable) (entry : Entry) (member : entry ∈ memtable.entries) :
    s.wal.Holds entry := by
  have invariants : s.Numbered ∧ s.Queued ∧ s.Logged :=
    run.invariant (fun s => s.Numbered ∧ s.Queued ∧ s.Logged)
      (fun _ _ _ inv own fired => ⟨step_numbered inv.1 fired, step_queued inv.2.1 fired,
        step_logged inv.2.2 inv.1 inv.2.1 own fired⟩)
      ⟨initial_numbered config, initial_queued config, initial_logged config⟩
  obtain ⟨batch, inMemtable, inBatch⟩ := mem_entriesOf.mp member
  have tracked := invariants.2.2.kept memtable uncommitted.1 uncommitted.2 batch inMemtable
  exact tracked.holds inBatch

/-- Two memtables wait, and the flush of the first one is about to mark the log. -/
def firstInstalled : List Action :=
  Calls.write [putByte 1 1] ++ Calls.rotate ++ Calls.write [putByte 2 2] ++ Calls.rotate ++
    [.flush .pick, .flush .resolve, .flush .commit, .flush .install]

theorem uncommitted_records_logged_second :
    let s := final (step .plain) (.initial .plain) (firstInstalled ++ [.flush (.mark [])])
    ∃ memtable, s.Uncommitted memtable ∧ memtable.entries ≠ [] ∧
      ∀ entry ∈ memtable.entries, s.wal.Holds entry := by
  intro s
  have installed : Run (step .plain) MarksOwnRecords (.initial .plain) firstInstalled
      (final (step .plain) (.initial .plain) firstInstalled) :=
    .of_execute (by simp [firstInstalled, Calls.write, Calls.rotate, MarksOwnRecords]) rfl
  have marked : Run (step .plain) MarksOwnRecords
      (final (step .plain) (.initial .plain) firstInstalled) [.flush (.mark [])] s := by
    refine .cons ?_ rfl (.nil _)
    intro memtable phase
    cases phase
    decide +kernel
  have waiting : s.Uncommitted (s.memtable.queue.get ⟨1, by decide +kernel⟩) := by
    refine ⟨List.get_mem _ _, ?_⟩
    intro flushed phase
    cases phase
    decide +kernel
  refine ⟨_, waiting, by decide +kernel, fun entry member => ?_⟩
  exact uncommitted_records_logged .plain _ s (installed.append marked) _ waiting entry member

/-- After a first flush every memtable starts with a counter one beyond the next record. Two
memtables with one record each are rotated out, and the first one is flushed. -/
def markBeyond : List Action :=
  Calls.write [putByte 1 1] ++ Calls.invalidate 1 ++ Calls.rotate ++ Calls.runFlush ++
    Calls.write [putByte 2 2] ++ Calls.invalidate 1 ++ Calls.rotate ++
    Calls.write [putByte 3 3] ++ Calls.invalidate 1 ++ Calls.rotate ++ Calls.runFlush

/-- The flush deletes the log that holds the record of the second memtable. -/
theorem uncommitted_record_lost : ∃ s, runFrom .plain markBeyond = some s ∧
    ∃ memtable, s.Uncommitted memtable ∧
      ∃ entry ∈ memtable.entries, entry ∈ entriesOf s.returned ∧ ¬ s.wal.Holds entry := by
  refine ⟨_, execute_final (by decide +kernel), _,
    ⟨List.mem_cons_self, by intro flushed phase; cases phase⟩,
    ⟨(putByte 3 3).1, 3, (putByte 3 3).2⟩, by decide +kernel, by decide +kernel, ?_⟩
  intro held
  obtain ⟨number, log, file, member⟩ := held
  match number with
  | 0 => cases file
  | 1 => cases file
  | 2 => cases file
  | 3 => cases file
  | 4 =>
    cases file
    cases member
  | number + 5 => cases file

end Logged

end Merutable
