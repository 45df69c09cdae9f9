import Merutable.Lsm.Durability
import Merutable.Lsm.Reopen
import Merutable.Lsm.Sequential
import Merutable.Lsm.Tree

/-! Sequence numbers over crashes and reopens. An open rebuilds the counter from the records in the
logs and the rows in the files, so what carries the highest number must never leave both. -/

namespace Merutable

open Foundation Compaction

section Queue

variable {config : Config} {s t : System} {held : Memtable} {action : RotationAction}
  {batch : WriteBatch}

theorem write_queue {action : WriteAction} (fired : writeStep config s action = some t)
    (member : held ∈ t.memtable.queue) :
    ∃ old ∈ s.memtable.queue, old.id = held.id ∧ (held.batches = old.batches ∨
      ∃ batch, s.write = .appended batch ∧ held.batches = old.batches ++ [batch]) := by
  cases write_effect fired with
  | apply batch phase =>
    rcases List.mem_append.mp member with immutable | active
    · exact ⟨held, List.mem_append_left _ immutable, rfl, .inl rfl⟩
    · rw [List.mem_singleton.mp active]
      exact ⟨s.memtable.active, List.mem_append_right _ List.mem_cons_self, rfl,
        .inr ⟨batch, phase, rfl⟩⟩
  | _ => exact ⟨held, member, rfl, .inl rfl⟩

theorem rotation_queue (fired : rotationStep s action = some t) (member : held ∈ t.memtable.queue) :
    held.batches = [] ∨ ∃ old ∈ s.memtable.queue, old.id = held.id ∧
      held.batches = old.batches := by
  cases rotation_effect fired with
  | sealActive =>
    rcases List.mem_append.mp member with waiting | active
    · rcases List.mem_append.mp waiting with immutable | last
      · exact .inr ⟨held, List.mem_append_left _ immutable, rfl, rfl⟩
      · rw [List.mem_singleton.mp last]
        exact .inr ⟨s.memtable.active, List.mem_append_right _ List.mem_cons_self, rfl, rfl⟩
    · rw [List.mem_singleton.mp active]
      exact .inl rfl
  | _ => exact .inr ⟨held, member, rfl, rfl⟩

/-- A memtable of the queue was there before, perhaps without its last batch, or is new and
empty. -/
theorem queue_step {action : Action} (fired : step config s action = some t)
    (member : held ∈ t.memtable.queue) :
    held.batches = [] ∨ ∃ old ∈ s.memtable.queue, old.id = held.id ∧ (held.batches = old.batches ∨
      ∃ batch, s.write = .appended batch ∧ held.batches = old.batches ++ [batch]) := by
  cases step_effect fired with
  | write fired => exact .inr (write_queue fired member)
  | rotate fired =>
    rcases rotation_queue fired member with empty | ⟨old, present, id, same⟩
    · exact .inl empty
    · exact .inr ⟨old, present, id, .inl same⟩
  | flush fired =>
    rcases flush_memtable fired with same | ⟨memtable, dropped, _⟩
    · rw [same] at member
      exact .inr ⟨held, member, rfl, .inl rfl⟩
    · cases dropped
      exact .inr ⟨held, (s.memtable.dropFlushed_queue _).subset member, rfl, .inl rfl⟩
  | _ => exact .inr ⟨held, member, rfl, .inl rfl⟩

/-- The batches of the memtables whose flush has not been committed. -/
def System.Unsaved (s : System) (batch : WriteBatch) : Prop :=
  ∃ held, s.Uncommitted held ∧ batch ∈ held.batches

theorem flush_unsaved {action : FlushAction} (base : s.Base config)
    (own : DropsOwnMemtable s (.flush action)) (fired : flushStep config s action = some t)
    (unsaved : s.Unsaved batch) :
    t.Unsaved batch ∨ action = .commit ∧ ∃ memtable, s.flush.memtable? = some memtable ∧
      batch ∈ memtable.batches := by
  obtain ⟨held, ⟨member, uncommitted⟩, inHeld⟩ := unsaved
  have same : t.memtable = s.memtable → t.flush.committed? = s.flush.committed? →
    t.Unsaved batch := by
    intro memtable flush
    refine ⟨held, ⟨memtable ▸ member, ?_⟩, inHeld⟩
    rw [flush]
    exact uncommitted
  cases flush_effect fired with
  | pick _ phase | resolve _ _ phase | install _ _ phase | mark _ phase =>
    exact .inl (same rfl (by rw [phase]; rfl))
  | dropEmpty memtable phase nothing =>
    have front := base.front (show s.flush.memtable? = some memtable by rw [phase]; rfl)
    have empty := Memtable.batches_of_iter_nil (base.increasing front) (base.seq_le front) nothing
    refine .inl ⟨held, ⟨?_, by intro flushed none; cases none⟩, inHeld⟩
    rcases List.mem_append.mp member with immutable | active
    · refine List.mem_append_left _ (List.mem_filter.mpr ⟨immutable, decide_eq_true ?_⟩)
      intro first
      rw [own memtable phase held immutable first, empty] at inHeld
      cases inHeld
    · exact List.mem_append_right _ active
  | commit memtable file deltas catalog version phase =>
    have front : s.flush.memtable? = some memtable := by
      rw [phase]
      rfl
    by_cases own : held.id = memtable.id
    · have equal := base.queued.eq_of_id member (base.front front) own
      exact .inr ⟨rfl, memtable, front, equal ▸ inHeld⟩
    · left
      refine ⟨held, ⟨member, ?_⟩, inHeld⟩
      intro flushed committed
      injection committed with equal
      rw [← equal]
      exact own
  | drop memtable phase =>
    have different := uncommitted memtable (by rw [phase]; rfl)
    refine .inl ⟨held, ⟨?_, by intro flushed none; cases none⟩, inHeld⟩
    rcases List.mem_append.mp member with immutable | active
    · refine List.mem_append_left _ (List.mem_filter.mpr ⟨immutable, decide_eq_true ?_⟩)
      intro first
      exact different (congrArg Memtable.id (own memtable phase held immutable first))
    · exact List.mem_append_right _ active
  | abort found =>
    obtain ⟨_, phase | ⟨_, _, phase⟩⟩ := found
    · exact .inl (same rfl (by rw [phase]; rfl))
    · exact .inl (same rfl (by rw [phase]; rfl))

theorem write_unsaved {action : WriteAction} (fired : writeStep config s action = some t)
    (unsaved : s.Unsaved batch) : t.Unsaved batch := by
  obtain ⟨held, ⟨member, uncommitted⟩, inHeld⟩ := unsaved
  cases write_effect fired with
  | apply other =>
    rcases List.mem_append.mp member with immutable | active
    · exact ⟨held, ⟨List.mem_append_left _ immutable, uncommitted⟩, inHeld⟩
    · rw [List.mem_singleton.mp active] at uncommitted inHeld
      exact ⟨s.memtable.active.applyBatch config.encodedLen other,
        ⟨List.mem_append_right _ List.mem_cons_self, uncommitted⟩, List.mem_append_left _ inHeld⟩
  | _ => exact ⟨held, ⟨member, uncommitted⟩, inHeld⟩

theorem rotation_unsaved (fired : rotationStep s action = some t) (unsaved : s.Unsaved batch) :
    t.Unsaved batch := by
  obtain ⟨held, ⟨member, uncommitted⟩, inHeld⟩ := unsaved
  cases rotation_effect fired with
  | sealActive =>
    rcases List.mem_append.mp member with immutable | active
    · exact ⟨held, ⟨List.mem_append_left _ (List.mem_append_left _ immutable), uncommitted⟩, inHeld⟩
    · rw [List.mem_singleton.mp active] at uncommitted inHeld
      exact ⟨{ s.memtable.active with sealed := true },
        ⟨List.mem_append_left _ (List.mem_append_right _ List.mem_cons_self), uncommitted⟩, inHeld⟩
  | _ => exact ⟨held, ⟨member, uncommitted⟩, inHeld⟩

theorem unsaved_step {action : Action} (base : s.Base config) (own : DropsOwnMemtable s action)
    (fired : step config s action = some t) (unsaved : s.Unsaved batch) :
    t.Unsaved batch ∨ action = .flush .commit ∧ ∃ memtable, s.flush.memtable? = some memtable ∧
      batch ∈ memtable.batches := by
  cases step_effect fired with
  | write fired => exact .inl (write_unsaved fired unsaved)
  | rotate fired => exact .inl (rotation_unsaved fired unsaved)
  | flush fired =>
    rcases flush_unsaved base own fired unsaved with still | ⟨rfl, found⟩
    · exact .inl still
    · exact .inr ⟨rfl, found⟩
  | _ => exact .inl unsaved

end Queue

/-- The highest sequence number that is visible is carried by a batch that is still logged or by a
live row of the manifest, and no memtable holds an older version of a key than the manifest. -/
structure System.Evident (config : Config) (s : System) : Prop where
  sequential : s.Sequential config
  logged : s.Logged
  rows : ∀ ref ∈ s.catalog.current.live, ∀ row ∈ ref.file.rows, row.seq ≤ s.visibleSeq
  above : ∀ held ∈ s.memtable.queue, ∀ entry,
    newest Entry.key entry.key held.entries = some entry →
    ∀ row, s.catalog.current.toVersion.Live row → row.key = entry.key → row.seq ≤ entry.seq
  applied : ∀ batch, s.write = .applied batch → batch ∈ s.memtable.active.batches
  reads : s.ReadsVisible
  evidence : s.visibleSeq = 0 ∨ (∃ batch, s.Unsaved batch ∧ batch.lastSeq = s.visibleSeq) ∨
    ∃ row, s.catalog.current.toVersion.Live row ∧ row.seq = s.visibleSeq

theorem initial_evident (config : Config) : (System.initial config).Evident config where
  sequential := initial_sequential config
  logged := initial_logged config
  rows := by intro ref member; cases member
  above := by
    rintro held member entry found row ⟨ref, present, _⟩
    cases present
  applied := by intro batch phase; cases phase
  reads := by intro job plan readSeq firstPath phase; cases phase
  evidence := .inl rfl

section Evident

variable {config : Config} {s t : System} {action : Action} {row : Entry} {batch : WriteBatch}

theorem System.Evident.above_step (inv : s.Evident config) (base : s.Base config)
    (fired : step config s action = some t) {held : Memtable} (member : held ∈ t.memtable.queue)
    {entry row : Entry} (found : newest Entry.key entry.key held.entries = some entry)
    (live : t.catalog.current.toVersion.Live row) (same : row.key = entry.key) :
    row.seq ≤ entry.seq := by
  rcases queue_step fired member with empty | ⟨old, present, id, batches⟩
  · rw [Memtable.entries, empty] at found
    cases found
  -- The newest record of the key was there before, or is in the new batch.
  have cases : newest Entry.key entry.key old.entries = some entry ∨ s.visibleSeq < entry.seq := by
    rcases batches with equal | ⟨batch, phase, equal⟩
    · rw [Memtable.entries, equal] at found
      exact .inl found
    · rw [Memtable.entries, equal, entriesOf_append, newest_append, entriesOf_singleton] at found
      cases added : newest Entry.key entry.key batch.entries with
      | some top =>
        rw [added, Option.some_or] at found
        injection found with equal
        have coming := (base.numbered.coming batch (.inr phase)).1
        have inBatch := (newest_mem added).1
        rw [equal] at inBatch
        exact .inr (coming.trans_le (WriteBatch.seq_bounds inBatch).1)
      | none =>
        rw [added, Option.none_or] at found
        exact .inl found
  rcases cases with before | above
  · rcases inv.sequential.live_step base fired live with alive | ⟨_, memtable, phase, own, rfl, top⟩
    · exact inv.above old present entry before row alive same
    · rw [Entry.persist_key] at same
      rw [Entry.persist_seq]
      have front := base.front phase
      by_cases own' : old.id = memtable.id
      · have equal := base.queued.eq_of_id present front own'
        rw [equal, ← same, top] at before
        injection before with before
        rw [before]
      · obtain ⟨first, inMemtable, inFirst⟩ := mem_entriesOf.mp (newest_mem top).1
        obtain ⟨second, inOld, inSecond⟩ := mem_entriesOf.mp (newest_mem before).1
        have less := base.queued.before base.numbered.increasing phase present own' inMemtable inOld
        have upper := (WriteBatch.seq_bounds inFirst).2
        have lower := (WriteBatch.seq_bounds inSecond).1
        omega
  · obtain ⟨ref, inManifest, inRef⟩ := live
    have bound := inv.sequential.rows_visible base inv.rows fired ref inManifest row
      (ref.liveRows_sublist.subset inRef)
    omega

theorem write_published {action : WriteAction} (fired : writeStep config s action = some t) :
    t.visibleSeq = s.visibleSeq ∨ ∃ batch, s.write = .applied batch ∧
      t.visibleSeq = max s.visibleSeq batch.lastSeq ∧ t.memtable = s.memtable := by
  cases write_effect fired with
  | publish batch phase => exact .inr ⟨batch, phase, rfl, rfl⟩
  | _ => exact .inl rfl

theorem published_step (fired : step config s action = some t) :
    t.visibleSeq = s.visibleSeq ∨ ∃ batch, s.write = .applied batch ∧
      t.visibleSeq = max s.visibleSeq batch.lastSeq ∧ t.memtable = s.memtable ∧
      t.flush = s.flush := by
  cases step_effect fired with
  | write fired =>
    rcases write_published fired with same | ⟨batch, phase, visible, memtable⟩
    · exact .inl same
    · exact .inr ⟨batch, phase, visible, memtable, rfl⟩
  | _ => exact .inl rfl

theorem System.Base.flushes_live (base : s.Base config)
    (fired : flushStep config s .commit = some t)
    (flushed : s.Flushes config (.flush .commit) row) :
    t.catalog.current.toVersion.Live row := by
  cases flush_effect fired with
  | commit memtable file deltas catalog version phase committed =>
  refine ⟨⟨file, none⟩, (mem_commit_live base.stored committed).mpr
    (.inr ⟨file, List.mem_cons_self, rfl⟩), ?_⟩
  rw [DataFileMeta.liveRows_none]
  exact (base.flushes phase).mpr flushed

theorem System.Evident.flush_idle (inv : s.Evident config) (applied : s.write = .applied batch) :
    s.flush = .idle := by
  by_contra busy
  cases inv.sequential.solo .write .flush (by change s.write ≠ .idle; simp [applied]) busy

section

variable (inv : s.Evident config) (base : s.Base config)
include inv base

/-- A flush of a record with the highest number, or of its key, leaves a live row with that
number. -/
theorem System.Evident.flush_evidence (fired : flushStep config s .commit = some t)
    {memtable : Memtable} (phase : s.flush.memtable? = some memtable) {entry : Entry}
    (member : entry ∈ memtable.entries)
    (above : ∀ top, newest Entry.key entry.key memtable.entries = some top →
      s.visibleSeq ≤ top.seq) :
    ∃ row, t.catalog.current.toVersion.Live row ∧ row.seq = s.visibleSeq := by
  obtain ⟨top, found⟩ : ∃ top, newest Entry.key entry.key memtable.entries = some top :=
    newest_isSome member
  have keyed := (newest_mem found).2
  refine ⟨top.persist config, base.flushes_live fired ⟨rfl, memtable, phase, top, rfl, ?_⟩, ?_⟩
  · rw [keyed]
    exact found
  · rw [Entry.persist_seq]
    exact Nat.le_antisymm (inv.sequential.flushed_visible base phase (newest_mem found).1)
      (above top found)

theorem System.Evident.job_evidence {job : Nat} (fired : jobStep config s job .commit = some t)
    (live : s.catalog.current.toVersion.Live row) (top : row.seq = s.visibleSeq) :
    t.catalog.current.toVersion.Live row := by
  cases job_effect fired with
  | commit plan readSeq firstPath catalog version phase _ committed =>
  have working : (s.jobs job).uncommitted? = some plan := by
    rw [phase]
    rfl
  obtain ⟨ref, present, inRef⟩ := live
  have listed (ref : DataFileMeta) := @mem_commit_live _ _ base.stored _ _ _ committed ref
  by_cases removed : ref.path ∈ plan.sources.map DataFileMeta.path
  · obtain ⟨source, isSource, samePath⟩ := List.mem_map.mp removed
    have planned := (base.locked.planned job plan (JobPhase.plan?_of_uncommitted? working)).1
    have there := (mem_sources planned isSource).1
    rw [inv.sequential.planned job plan working] at there
    have same : source = ref := List.inj_on_of_nodup_map base.stored.unique there present samePath
    have merged : row ∈ mergedRows config plan readSeq := by
      apply dedupe_recent
      · rw [Entry.mem_sort, List.mem_flatten]
        exact ⟨source.liveRows, List.mem_map_of_mem isSource, same ▸ inRef⟩
      · rw [top]
        exact inv.reads job plan readSeq firstPath phase
    obtain ⟨file, written, inFile⟩ := outputs_cover merged
    refine ⟨⟨file, none⟩, (listed _).mpr (.inr ⟨file, written, rfl⟩), ?_⟩
    rw [DataFileMeta.liveRows_none]
    exact inFile
  · refine ⟨ref, (listed _).mpr (.inl ⟨ref, present, removed, ?_⟩), inRef⟩
    rw [Catalog.restamp_nil]

theorem System.Evident.evidence_step (fired : step config s action = some t) :
    t.visibleSeq = 0 ∨ (∃ batch, t.Unsaved batch ∧ batch.lastSeq = t.visibleSeq) ∨
      ∃ row, t.catalog.current.toVersion.Live row ∧ row.seq = t.visibleSeq := by
  have own : DropsOwnMemtable s action := inv.sequential.lined.dropsOwn base.queued
  rcases published_step fired with visible | ⟨batch, phase, visible, memtable, flush⟩
  swap
  · have coming := (base.numbered.applied batch phase).1
    have last := batch.sequence_le_lastSeq
    have idle := inv.flush_idle phase
    refine .inr (.inl ⟨batch, ⟨t.memtable.active, ⟨?_, ?_⟩, ?_⟩, ?_⟩)
    · exact List.mem_append_right _ List.mem_cons_self
    · intro flushed committed
      rw [flush, idle] at committed
      cases committed
    · rw [memtable]
      exact inv.applied batch phase
    · rw [visible]
      exact (Nat.max_eq_right (by omega)).symm
  rw [visible]
  rcases inv.evidence with zero | ⟨batch, unsaved, last⟩ | ⟨row, live, top⟩
  · exact .inl zero
  · rcases unsaved_step base own fired unsaved with still | ⟨rfl, memtable, phase, inMemtable⟩
    · exact .inr (.inl ⟨batch, still, last⟩)
    · obtain ⟨entry, inBatch, seq⟩ := batch.exists_lastSeq
      have member : entry ∈ memtable.entries := mem_entriesOf.mpr ⟨batch, inMemtable, inBatch⟩
      refine .inr (.inr (inv.flush_evidence base fired phase member ?_))
      intro newest found
      rw [← last, ← seq]
      exact ((newest_eq_some (base.increasing (base.front phase)).entries).mp found).2.2 entry
        member rfl
  · refine .inr (.inr ?_)
    rcases step_catalog fired with catalog | rfl | ⟨job, rfl⟩
    · rw [catalog]
      exact ⟨row, live, top⟩
    · have after := base.step fired
      have stepped : flushStep config s .commit = some t := fired
      cases flush_effect stepped with
      | commit memtable file deltas catalog version phase committed =>
      have picked : s.flush.memtable? = some memtable := by
        rw [phase]
        rfl
      by_cases flushed : ∃ entry ∈ memtable.entries, entry.key = row.key
      · obtain ⟨entry, member, same⟩ := flushed
        apply inv.flush_evidence base fired picked member
        intro newest found
        have keyed := (newest_mem found).2
        rw [← top]
        exact inv.above memtable (base.front picked) newest (keyed ▸ found) row live
          (same.symm.trans keyed.symm)
      · obtain ⟨old, present, inOld⟩ := live
        obtain ⟨ref, member, _, _, keeps⟩ :=
          (flush_extends base phase committed after.stored.unique).kept old present
        refine ⟨row, ⟨ref, member, keeps row inOld ?_⟩, top⟩
        intro entry listed same
        have front := base.front picked
        have newest := (Memtable.mem_iter_all (base.increasing front) (base.seq_le front)).mp listed
        exact flushed ⟨entry, (newest_mem newest).1, same⟩
    · exact ⟨row, inv.job_evidence base fired live top, top⟩

end

theorem write_applied {action : WriteAction} (fired : writeStep config s action = some t)
    (phase : t.write = .applied batch) :
    batch ∈ t.memtable.active.batches := by
  cases write_effect fired with
  | apply own =>
    injection phase with same
    rw [← same]
    exact List.mem_append_right _ List.mem_cons_self
  | _ => cases phase

theorem System.Evident.applied_step (inv : s.Evident config) (alone : Alone s action)
    (fired : step config s action = some t) (phase : t.write = .applied batch) :
    batch ∈ t.memtable.active.batches := by
  cases step_effect fired with
  | write fired => exact write_applied fired phase
  | rotate =>
    change s.write = .applied batch at phase
    have writing : s.Busy .write := by
      change s.write ≠ .idle
      simp [phase]
    rcases task_step fired rfl with rotating | starts
    · cases inv.sequential.solo _ _ writing rotating
    · exact absurd writing ((alone.2 starts).1 _)
  | flush fired =>
    have member := inv.applied batch phase
    rcases flush_memtable fired with same | ⟨memtable, dropped, _⟩
    · rw [same]
      exact member
    · cases dropped
      exact member
  | _ => exact inv.applied batch phase

theorem System.Evident.step {action : Action} (inv : s.Evident config) (base : s.Base config)
    (alone : Alone s action) (own : MarksOwnRecords s action)
    (fired : Merutable.step config s action = some t) : t.Evident config where
  sequential := inv.sequential.step alone fired
  logged := step_logged inv.logged base.numbered base.queued own fired
  rows ref present row member :=
    (inv.sequential.rows_visible base inv.rows fired ref present row member).trans
      (visible_step fired)
  above _ member _ found _ live same := inv.above_step base fired member found live same
  applied _ phase := inv.applied_step alone fired phase
  reads := inv.reads.step fired
  evidence := inv.evidence_step base fired

theorem WalManager.Tracked.logged {wal : WalManager} (wf : wal.Wf) (tracked : wal.Tracked batch) :
    batch ∈ wal.logged := by
  refine LogDir.mem_batches.mpr ?_
  rcases tracked with ⟨log, file, held, _⟩ | ⟨closed, isClosed, _, log, file, held⟩
  · exact ⟨wal.logNumber, le_rfl, log, file, held⟩
  · exact ⟨closed.logNumber, (wf.closed closed isClosed).le, log, file, held⟩

theorem System.Evident.unsaved_logged (inv : s.Evident config) (unsaved : s.Unsaved batch) :
    batch ∈ s.wal.logged := by
  obtain ⟨held, ⟨member, uncommitted⟩, inHeld⟩ := unsaved
  exact (inv.logged.kept held member uncommitted batch inHeld).logged inv.logged.wf

theorem System.Evident.visible_lt (inv : s.Evident config) (stray : Bool) :
    s.visibleSeq < (s.crash stray).initSeq := by
  rcases inv.evidence with zero | ⟨batch, unsaved, last⟩ | ⟨row, ⟨ref, present, inRef⟩, top⟩
  · rw [zero]
    exact Nat.succ_pos _
  · rw [← last]
    exact Disk.batch_lt_initSeq (inv.unsaved_logged unsaved)
  · rw [← top]
    exact Disk.row_lt_initSeq present (ref.liveRows_sublist.subset inRef)

theorem System.Evident.history_lt (inv : s.Evident config) (base : s.Base config)
    (written : batch ∈ s.history) (stray : Bool) :
    batch.lastSeq < (s.crash stray).initSeq := by
  rcases base.numbered.published batch written with applied | seen
  · have idle := inv.flush_idle applied
    apply Disk.batch_lt_initSeq
    refine inv.unsaved_logged ⟨s.memtable.active, ⟨?_, ?_⟩, inv.applied batch applied⟩
    · exact List.mem_append_right _ List.mem_cons_self
    · intro flushed committed
      rw [idle] at committed
      cases committed
  · exact lt_of_le_of_lt seen (inv.visible_lt stray)

end Evident

section Opened

variable {config : Config} {disk : Disk}

theorem opened_sequential (consistent : disk.Consistent) :
    (System.opened config disk).Sequential config := by
  obtain ⟨immutable, _, _, firstSeq, _⟩ := disk.memtable_queue config
  refine ⟨?_, ⟨?_, ?_, ?_, ?_, ?_, ?_⟩, ⟨consistent.next, le_rfl, ?_, .inl rfl⟩, ?_, ?_⟩
  · intro a _ busy
    cases a <;> exact absurd rfl busy
  · change (disk.memtable config).immutable.Pairwise _
    rw [immutable]
    exact List.Pairwise.nil
  · change ∀ held ∈ (disk.memtable config).immutable, _
    rw [immutable]
    intro held member
    cases member
  · exact firstSeq.le.trans (Nat.le_succ _)
  · intro _
    exact firstSeq.le
  · intro nextSeq phase
    cases phase
  · rintro (phase | ⟨_, phase⟩) <;> cases phase
  · rintro version (⟨_, phase⟩ | ⟨_, _, phase⟩) <;> cases phase
  · intro job plan working
    cases working
  · intro memtable file deltas phase
    cases phase

theorem Disk.wal_tracked {batch : WriteBatch}
    (replayed : batch ∈ disk.logs.batches) : disk.wal.Tracked batch := by
  obtain ⟨number, bound, log, file, member⟩ := LogDir.mem_batches.mp replayed
  have listed : number ∈ disk.logs.numbers := by
    refine List.mem_filter.mpr ⟨List.mem_range.mpr (Nat.lt_succ_iff.mpr bound), ?_⟩
    rw [file]
    rfl
  have different : number ≠ disk.logs.maxLogNumber + 1 :=
    (Nat.lt_succ_of_le (LogDir.le_maxLogNumber bound file)).ne
  refine .inr ⟨⟨number, disk.logs.maxSeq⟩, List.mem_map_of_mem listed, LogDir.le_maxSeq replayed,
    log, ?_, member⟩
  exact (Function.update_of_ne different _ _).trans file

theorem opened_queue (config : Config) (disk : Disk) {held : Memtable}
    (member : held ∈ (System.opened config disk).memtable.queue) :
    held.batches = disk.logs.batches := by
  obtain ⟨immutable, _, _, _, batches⟩ := disk.memtable_queue config
  change held ∈ (disk.memtable config).queue at member
  rw [MemtableManager.queue, immutable, List.nil_append, List.mem_singleton] at member
  rw [member, ← batches, MemtableManager.batches, MemtableManager.queue, immutable, List.nil_append,
    List.flatMap_singleton]

/-- No key that is replayed has a live row in the manifest that is newer than all its replayed
records. -/
def Disk.RecoversNewest (disk : Disk) : Prop :=
  ∀ entry ∈ entriesOf disk.logs.batches, ∀ ref ∈ disk.catalog.current.live, ∀ row ∈ ref.liveRows,
    row.key = entry.key → ∃ top ∈ entriesOf disk.logs.batches, top.key = row.key ∧ row.seq ≤ top.seq

instance (disk : Disk) : Decidable disk.RecoversNewest :=
  inferInstanceAs (Decidable (∀ entry ∈ entriesOf disk.logs.batches,
    ∀ ref ∈ disk.catalog.current.live, ∀ row ∈ ref.liveRows, _ → ∃ top ∈ _, _))

/-- The number before the first one an open assigns is in the logs or in a live row. -/
def Disk.Evident (disk : Disk) : Prop :=
  disk.initSeq = 1 ∨ (∃ batch ∈ disk.logs.batches, batch.lastSeq + 1 = disk.initSeq) ∨
    ∃ row, disk.catalog.current.toVersion.Live row ∧ row.seq + 1 = disk.initSeq

theorem System.Evident.crash {s : System} (inv : s.Evident config) (stray : Bool) :
    (s.crash stray).Evident := by
  rcases (s.crash stray).initSeq_attained with one | logged | ⟨ref, present, row, member, top⟩
  · exact .inl one
  · exact .inr (.inl logged)
  · -- The row is visible, so the open starts right above what is visible now.
    have next : s.visibleSeq + 1 = (s.crash stray).initSeq := by
      have upper := inv.rows ref present row member
      have lower := inv.visible_lt stray
      omega
    rcases inv.evidence with zero | ⟨batch, unsaved, last⟩ | ⟨live, isLive, last⟩
    · exact .inl (by rw [← next, zero])
    · exact .inr (.inl ⟨batch, inv.unsaved_logged unsaved, by rw [last, next]⟩)
    · exact .inr (.inr ⟨live, isLive, by rw [last, next]⟩)

theorem Disk.Consistent.evident (consistent : disk.Consistent) (evident : disk.Evident)
    (recovers : disk.RecoversNewest) : (System.opened config disk).Evident config where
  sequential := opened_sequential consistent
  logged := by
    refine ⟨disk.wal_wf, ?_, ?_⟩
    · intro batch phase
      cases phase
    · intro held member _ batch inHeld
      rw [opened_queue config disk member] at inHeld
      exact disk.wal_tracked inHeld
  rows ref present row member := Nat.le_pred_of_lt (disk.row_lt_initSeq present member)
  above := by
    rintro held member entry found row ⟨ref, present, inRef⟩ same
    rw [Memtable.entries, opened_queue config disk member] at found
    obtain ⟨listed, _, top⟩ := (newest_eq_some consistent.increasing.entries).mp found
    obtain ⟨other, inLogs, keyed, above⟩ := recovers entry listed ref present row inRef same
    exact above.trans (top other inLogs (keyed.trans same))
  applied := by intro batch phase; cases phase
  reads := by intro job plan readSeq firstPath phase; cases phase
  evidence := by
    have visible : (System.opened config disk).visibleSeq = disk.initSeq - 1 := rfl
    rw [visible]
    rcases evident with one | ⟨batch, member, last⟩ | ⟨row, live, last⟩
    · exact .inl (by rw [one])
    · refine .inr (.inl ⟨batch, ⟨(System.opened config disk).memtable.active, ⟨?_, ?_⟩, ?_⟩, ?_⟩)
      · exact List.mem_append_right _ List.mem_cons_self
      · intro flushed none
        cases none
      · rw [opened_queue config disk (List.mem_append_right _ List.mem_cons_self)]
        exact member
      · rw [← last, Nat.add_sub_cancel]
    · exact .inr (.inr ⟨row, live, by rw [← last, Nat.add_sub_cancel]⟩)

end Opened

/-- A flush marks only logs of its own memtable, and an open replays no version of a key without
the newest one. -/
def KeepsEvidence (table : Table) : TableAction → Prop
  | .act action => ∀ s ∈ table.system?, MarksOwnRecords s action
  | .crash _ => True
  | .reopen _ => ∀ disk ∈ table.disk?, disk.RecoversNewest

instance (table : Table) : DecidablePred (KeepsEvidence table)
  | .act action => inferInstanceAs (Decidable (∀ s ∈ table.system?, MarksOwnRecords s action))
  | .crash _ => .isTrue trivial
  | .reopen _ => inferInstanceAs (Decidable (∀ disk ∈ table.disk?, disk.RecoversNewest))

def KeepsNumbers (table : Table) (action : TableAction) : Prop :=
  OneAtATime table action ∧ KeepsEvidence table action

/-- Every acknowledged number lies before the next one. -/
def Table.Evident (table : Table) : Prop :=
  match table.host with
  | .running s => s.Evident table.config ∧
      ∀ batch, (batch, .acknowledged) ∈ table.calls → batch.lastSeq ≤ s.visibleSeq
  | .down disk => disk.Evident ∧
      ∀ batch, (batch, .acknowledged) ∈ table.calls → batch.lastSeq < disk.initSeq

theorem acknowledged_returned {s : System} {batch : WriteBatch}
    (acknowledged : (batch, .acknowledged) ∈ s.outcomes) : batch ∈ s.returned := by
  unfold System.outcomes at acknowledged
  rcases List.mem_append.mp acknowledged with before | writing
  · rcases List.mem_append.mp before with returned | posted
    · obtain ⟨_, member, same⟩ := List.mem_map.mp returned
      cases same
      exact member
    · obtain ⟨_, _, same⟩ := List.mem_map.mp posted
      cases same
  · split at writing <;> simp at writing

theorem Table.Evident.step {table next : Table} {action : TableAction} (evident : table.Evident)
    (consistent : table.Consistent) (keeps : KeepsNumbers table action)
    (fired : tableStep table action = some next) : next.Evident := by
  cases table_event fired with
  | act host stepped made =>
    rw [Table.Evident, host] at evident
    rw [Table.Consistent, host] at consistent
    subst made
    refine ⟨evident.1.step consistent.1 (keeps.1 _ host)
      (keeps.2 _ (Table.system?_eq_some.mpr host)) stepped, ?_⟩
    intro batch acknowledged
    exact (evident.2 batch acknowledged).trans (visible_step stepped)
  | crash host made =>
    rw [Table.Evident, host] at evident
    rw [Table.Consistent, host] at consistent
    subst made
    refine ⟨evident.1.crash _, fun batch acknowledged => ?_⟩
    rcases List.mem_append.mp acknowledged with before | last
    · exact lt_of_le_of_lt (evident.2 batch before) (evident.1.visible_lt _)
    · have written := consistent.1.answered.returned batch (acknowledged_returned last)
      exact evident.1.history_lt consistent.1 written _
  | reopen host _ made =>
    rw [Table.Evident, host] at evident
    rw [Table.Consistent, host] at consistent
    subst made
    refine ⟨Disk.Consistent.evident consistent evident.1
      (keeps.2 _ (Table.disk?_eq_some.mpr host)), ?_⟩
    intro batch acknowledged
    exact Nat.le_pred_of_lt (evident.2 batch acknowledged)

/-- A number that is assigned is above every number that has been acknowledged since the table was
created, also before a crash. -/
theorem assigned_above_acknowledged (config : Config) (actions : List TableAction) (table : Table)
    (s t : System) (records : List (UserKey × EntryValue)) (batch : WriteBatch)
    (run : Run tableStep KeepsNumbers (.created config) actions table)
    (running : table.host = .running s)
    (fired : step table.config s (.write (.allocate records)) = some t)
    (assigned : t.write = .allocated batch) :
    ∀ earlier, (earlier, .acknowledged) ∈ table.calls ++ s.outcomes →
      ∀ old ∈ earlier.entries, ∀ entry ∈ batch.entries, old.seq < entry.seq := by
  intro earlier acknowledged old inEarlier entry inBatch
  have inv : table.Consistent ∧ table.Evident := by
    apply run.invariant (fun table => table.Consistent ∧ table.Evident) ?_
      ⟨created_consistent config, initial_evident config, by intro batch member; cases member⟩
    intro table action next inv keeps stepped
    exact ⟨inv.1.step stepped, inv.2.step inv.1 keeps stepped⟩
  obtain ⟨consistent, evident⟩ := inv
  rw [Table.Consistent, running] at consistent
  rw [Table.Evident, running] at evident
  change writeStep table.config s (.allocate records) = some t at fired
  cases write_effect fired with
  | allocate _ _ own first =>
  injection assigned with same
  have before : earlier.lastSeq < s.globalSeq := by
    rcases List.mem_append.mp acknowledged with call | last
    · exact lt_of_le_of_lt (evident.2 earlier call) consistent.1.numbered.visible
    · have written := consistent.1.answered.returned earlier (acknowledged_returned last)
      exact consistent.1.numbered.below earlier written
  calc old.seq ≤ earlier.lastSeq := (WriteBatch.seq_bounds inEarlier).2
    _ < s.globalSeq := before
    _ = batch.sequence := by rw [← same, first]
    _ ≤ entry.seq := (WriteBatch.seq_bounds inBatch).1

/-- A flushed record, and one that is replayed after a crash. -/
def replayedOnce : List TableAction :=
  acts (Calls.write [putByte 1 1] ++ Calls.invalidate 1 ++ Calls.rotate ++ Calls.runFlush ++
    Calls.write [putByte 2 2] ++ Calls.invalidate 1) ++ [.crash false, .reopen Config.plain.tuning]

theorem assigned_above_acknowledged_replayed :
    ∃ s t batch, (final tableStep (.created .plain) replayedOnce).host = .running s ∧
      step Config.plain s (.write (.allocate [putByte 1 3])) = some t ∧ t.write = .allocated batch ∧
      ∀ earlier, (earlier, .acknowledged) ∈
          (final tableStep (.created .plain) replayedOnce).calls ++ s.outcomes →
        ∀ old ∈ earlier.entries, ∀ entry ∈ batch.entries, old.seq < entry.seq := by
  have run : Run tableStep KeepsNumbers (.created .plain) replayedOnce
      (final tableStep (.created .plain) replayedOnce) :=
    (oneAtATime_of_check (by decide +kernel)).and
      (.of_decided (by decide +kernel))
  have running : ((final tableStep (.created .plain) replayedOnce).system?.bind fun s =>
      step Config.plain s (.write (.allocate [putByte 1 3]))).isSome := by decide +kernel
  obtain ⟨t, found⟩ := Option.isSome_iff_exists.mp running
  obtain ⟨s, isRunning, fired⟩ := Option.bind_eq_some_iff.mp found
  have host := Table.system?_eq_some.mp isRunning
  change writeStep .plain s (.allocate [putByte 1 3]) = some t at fired
  have ⟨batch, assigned⟩ : ∃ batch, t.write = .allocated batch := by
    cases write_effect fired with
    | allocate _ _ batch => exact ⟨batch, rfl⟩
  exact ⟨s, t, batch, host, fired, assigned,
    assigned_above_acknowledged .plain _ _ s t _ batch run host fired assigned⟩

/-- Every put reaches the threshold and rotates its memtable out. -/
def Config.eager : Config := { Config.plain with memtableSizeBytes := 1 }

/-- Three puts, of which the flush after the third deletes the log of an acknowledged record, and a
crash. -/
def forgottenNumber : List TableAction :=
  acts markBeyond ++ [.crash false, .reopen Config.eager.tuning]

/-- The number of that record is assigned once more. -/
theorem acknowledged_number_assigned_again :
    Run tableStep OneAtATime (.created .eager) forgottenNumber
        (final tableStep (.created .eager) forgottenNumber) ∧
      ∃ s t batch earlier, (final tableStep (.created .eager) forgottenNumber).host = .running s ∧
        step Config.eager s (.write (.allocate [putByte 1 4])) = some t ∧
          t.write = .allocated batch ∧
        (earlier, .acknowledged) ∈ (final tableStep (.created .eager) forgottenNumber).calls ∧
        batch.sequence = earlier.lastSeq := by
  have assigned : ((final tableStep (.created .eager) forgottenNumber).system?.bind fun s =>
      step Config.eager s (.write (.allocate [putByte 1 4]))).map System.write =
        some (.allocated ⟨3, [putByte 1 4], by decide⟩) := by decide +kernel
  obtain ⟨t, found, write⟩ := Option.map_eq_some_iff.mp assigned
  obtain ⟨s, running, fired⟩ := Option.bind_eq_some_iff.mp found
  exact ⟨oneAtATime_of_check (by decide +kernel), s, t, _, ⟨3, [putByte 3 3], by decide⟩,
    Table.system?_eq_some.mp running, fired, write, by decide +kernel, rfl⟩

end Merutable
