import Merutable.Engine.Recovery
import Merutable.Lsm.Base

/-! What the log directory and the manifest hold in every state of every run, and that an engine
opened on what a crash leaves starts from a consistent state. -/

namespace Merutable

open Foundation Compaction

namespace LogDir

variable {dir : LogDir} {batch : WriteBatch}

theorem batches_eq (dir : LogDir) : dir.batches =
    (List.range (dir.limit + 1)).flatMap fun number => (dir.files number).getD [] := by
  rw [batches, numbers]
  induction List.range (dir.limit + 1) with
  | nil => rfl
  | cons number rest ih =>
    rw [List.filter_cons, List.flatMap_cons, ← ih]
    cases file : dir.files number <;> simp [file]

theorem mem_batches : batch ∈ dir.batches ↔
    ∃ number ≤ dir.limit, ∃ log, dir.files number = some log ∧ batch ∈ log := by
  rw [batches_eq, List.mem_flatMap]
  constructor
  · rintro ⟨number, inRange, member⟩
    cases file : dir.files number with
    | none =>
      rw [file] at member
      cases member
    | some log =>
      rw [file] at member
      exact ⟨number, Nat.lt_succ_iff.mp (List.mem_range.mp inRange), log, file, member⟩
  · rintro ⟨number, bound, log, file, member⟩
    refine ⟨number, List.mem_range.mpr (Nat.lt_succ_iff.mpr bound), ?_⟩
    rw [file]
    exact member

theorem batches_extend {files : Nat → Option (List WriteBatch)} {limit later : Nat}
    (grows : limit ≤ later) (above : ∀ number, limit < number → files number = none ∨
      files number = some []) : batches ⟨files, later⟩ = batches ⟨files, limit⟩ := by
  rw [batches_eq, batches_eq]
  induction grows with
  | refl => rfl
  | @step later grows ih =>
    have empty : (files (later + 1)).getD [] = [] := by
      rcases above (later + 1) (Nat.lt_succ_of_le grows) with none | some
      · rw [none]
        rfl
      · rw [some]
        rfl
    rw [List.range_succ, List.flatMap_append, List.flatMap_singleton, ih, empty, List.append_nil]

theorem batches_congr {files others : Nat → Option (List WriteBatch)} {limit : Nat}
    (same : ∀ number ≤ limit, (files number).getD [] = (others number).getD []) :
    batches ⟨files, limit⟩ = batches ⟨others, limit⟩ := by
  rw [batches_eq, batches_eq]
  apply List.flatMap_congr
  intro number member
  exact same number (Nat.lt_succ_iff.mp (List.mem_range.mp member))

theorem le_maxSeq (member : batch ∈ dir.batches) :
    batch.lastSeq ≤ dir.maxSeq :=
  (foldl_max_spec id _ 0).2.1 _ (List.mem_map_of_mem member)

theorem maxSeq_mem (dir : LogDir) :
    dir.maxSeq = 0 ∨ ∃ batch ∈ dir.batches, batch.lastSeq = dir.maxSeq := by
  rcases (foldl_max_spec id (dir.batches.map WriteBatch.lastSeq) 0).2.2 with none |
    ⟨_, member, same⟩
  · exact .inl none
  · obtain ⟨batch, listed, rfl⟩ := List.mem_map.mp member
    exact .inr ⟨batch, listed, same⟩

theorem le_maxLogNumber {number : Nat} {log : List WriteBatch} (bound : number ≤ dir.limit)
    (file : dir.files number = some log) : number ≤ dir.maxLogNumber := by
  refine (foldl_max_spec id _ 0).2.1 _ (List.mem_filter.mpr ⟨?_, ?_⟩)
  · exact List.mem_range.mpr (Nat.lt_succ_iff.mpr bound)
  · rw [file]
    rfl

end LogDir

/-- The batches a crash would leave in the log directory. -/
def WalManager.logged (wal : WalManager) : List WriteBatch := wal.directory.batches

namespace WalManager

variable {wal : WalManager}

theorem logged_eq (wal : WalManager) : wal.logged =
    (List.range (wal.logNumber + 1)).flatMap fun number => (wal.files number).getD [] :=
  LogDir.batches_eq _

theorem addRecord_logged (wal : WalManager) (batch : WriteBatch) :
    (wal.addRecord batch).logged = wal.logged ++ [batch] := by
  have below : ∀ number ∈ List.range wal.logNumber,
      ((wal.addRecord batch).files number).getD [] = (wal.files number).getD [] := by
    intro number member
    change (Function.update wal.files wal.logNumber _ number).getD [] = _
    rw [Function.update_of_ne (List.mem_range.mp member).ne]
  have last : ((wal.addRecord batch).files wal.logNumber).getD [] =
      (wal.files wal.logNumber).getD [] ++ [batch] := by
    change (Function.update wal.files wal.logNumber _ wal.logNumber).getD [] = _
    rw [Function.update_self, Option.getD_some]
  have number : (wal.addRecord batch).logNumber = wal.logNumber := rfl
  rw [logged_eq, logged_eq, number, List.range_succ, List.flatMap_append, List.flatMap_append,
    List.flatMap_singleton, List.flatMap_singleton, List.append_assoc,
      List.flatMap_congr below, last]

theorem append_logged (wal : WalManager) (batch : WriteBatch) :
    (wal.append batch).logged = wal.logged ++ [batch] := addRecord_logged wal batch

theorem rotate_logged (wf : wal.Wf) (bounded : ∀ number, wal.logNumber < number →
    wal.files number = none) : wal.rotate.logged = wal.logged := by
  have above : ∀ number, wal.logNumber < number → wal.rotate.files number = none ∨
      wal.rotate.files number = some [] := by
    intro number larger
    by_cases next : number = wal.nextLog
    · right
      rw [next]
      exact Function.update_self _ _ _
    · left
      exact (Function.update_of_ne next _ _).trans (bounded number larger)
  have same : ∀ number ≤ wal.logNumber, (wal.rotate.files number).getD [] =
      (wal.files number).getD [] := by
    intro number small
    change (Function.update wal.files wal.nextLog _ number).getD [] = _
    rw [Function.update_of_ne (lt_of_le_of_lt small wf.next).ne]
  calc wal.rotate.logged = LogDir.batches ⟨wal.rotate.files, wal.logNumber⟩ :=
        LogDir.batches_extend wf.next.le above
    _ = wal.logged := LogDir.batches_congr same

theorem markFlushedSeq_logged (wal : WalManager) (seq : Nat) (failed : List Nat) :
    (wal.markFlushedSeq seq failed).logged.Sublist wal.logged := by
  rw [logged_eq, logged_eq]
  apply List.Sublist.flatMap_right
  intro number _
  change (if _ then none else wal.files number).getD [] |>.Sublist ((wal.files number).getD [])
  split
  · exact List.nil_sublist _
  · exact List.Sublist.refl _

end WalManager

/-- Every row of the version has a sequence number below the bound. -/
def Version.Below (bound : Nat) (version : Version) : Prop :=
  ∀ ref ∈ version.files, ∀ row ∈ ref.file.rows, row.seq < bound

theorem Version.Below.mono {bound later : Nat} {version : Version} (below : version.Below bound)
    (grows : bound ≤ later) : version.Below later :=
  fun ref present row member => lt_of_lt_of_le (below ref present row member) grows

/-- What recovery relies on: the logs in the order of their numbers have increasing sequence
numbers, and no log and no file has one that is still to be assigned. -/
structure System.Durable (s : System) : Prop where
  wf : s.wal.Wf
  bounded : ∀ number, s.wal.logNumber < number → s.wal.files number = none
  increasing : Increasing s.wal.logged
  below : ∀ batch ∈ s.wal.logged, batch.lastSeq < s.globalSeq
  coming : ∀ batch, s.write = .allocated batch → ∀ earlier ∈ s.wal.logged,
    earlier.lastSeq < batch.sequence
  next : s.catalog.current.snapshotId < s.catalog.nextVersion
  current : s.catalog.current.toVersion.Below s.globalSeq
  versions : ∀ version, s.Mentions version → version.Below s.globalSeq

theorem initial_durable (config : Config) : (System.initial config).Durable where
  wf := WalManager.openLog_wf 1
  bounded := by
    intro number larger
    have other : number ≠ 1 := ne_of_gt larger
    simp [System.initial, WalManager.openLog, other]
  increasing := List.Pairwise.nil
  below := by intro batch member; cases member
  coming := by intro batch phase; cases phase
  next := Nat.zero_lt_one
  current := by intro ref member; cases member
  versions := by
    intro version mentioned
    rw [initial_mentions mentioned]
    intro ref member
    cases member

section Durable

variable {config : Config} {s t : System} {action : Action}

/-- What a step does to the log manager. -/
inductive LogEvent (s t : System) : Prop
  | kept (wal : t.wal = s.wal)
  | appended {batch : WriteBatch} (phase : s.write = .allocated batch)
      (after : t.write = .appended batch) (wal : t.wal = s.wal.append batch)
  | reached {batch : WriteBatch} (phase : s.write = .allocated batch) (after : t.write = .idle)
      (wal : t.wal = s.wal.addRecord batch)
  | rotated (phase : s.rotation = .sealed) (idle : s.write = .idle) (wal : t.wal = s.wal.rotate)
  | marked {memtable : Memtable} {failed : List Nat} (phase : s.flush = .installed memtable)
      (idle : s.write = .idle) (wal : t.wal = s.wal.markFlushedSeq memtable.lastSeq failed)

theorem write_log_event {action : WriteAction} (fired : writeStep config s action = some t) :
    LogEvent s t := by
  cases write_effect fired with
  | append _ phase => exact .appended phase rfl rfl
  | @appendFailed reached _ phase =>
    cases reached with
    | false => exact .kept rfl
    | true => exact .reached phase rfl rfl
  | _ => exact .kept rfl

theorem rotation_log_event {action : RotationAction} (fired : rotationStep s action = some t) :
    LogEvent s t := by
  cases rotation_effect fired with
  | rotateWal phase idle => exact .rotated phase idle rfl
  | _ => exact .kept rfl

theorem flush_log_event {action : FlushAction} (fired : flushStep config s action = some t) :
    LogEvent s t := by
  cases flush_effect fired with
  | mark _ phase idle => exact .marked phase idle rfl
  | _ => exact .kept rfl

theorem log_event (fired : step config s action = some t) : LogEvent s t := by
  cases step_effect fired with
  | write fired => exact write_log_event fired
  | rotate fired => exact rotation_log_event fired
  | flush fired => exact flush_log_event fired
  | _ => exact .kept rfl

theorem LogEvent.logged (event : LogEvent s t) (wf : s.wal.Wf)
    (bounded : ∀ number, s.wal.logNumber < number → s.wal.files number = none) :
    t.wal.logged.Sublist s.wal.logged ∨ ∃ batch, s.write = .allocated batch ∧
      (∀ other, t.write ≠ .allocated other) ∧ t.wal.logged = s.wal.logged ++ [batch] := by
  cases event with
  | kept wal =>
    rw [wal]
    exact .inl (List.Sublist.refl _)
  | @appended batch phase after wal =>
    rw [wal, after]
    exact .inr ⟨batch, phase, by simp, WalManager.append_logged _ _⟩
  | @reached batch phase after wal =>
    rw [wal, after]
    exact .inr ⟨batch, phase, by simp, WalManager.addRecord_logged _ _⟩
  | rotated _ _ wal =>
    rw [wal, WalManager.rotate_logged wf bounded]
    exact .inl (List.Sublist.refl _)
  | marked _ _ wal =>
    rw [wal]
    exact .inl (WalManager.markFlushedSeq_logged _ _ _)

theorem LogEvent.wf (event : LogEvent s t) (wf : s.wal.Wf) : t.wal.Wf := by
  cases event with
  | kept wal => exact wal ▸ wf
  | appended _ _ wal => exact wal ▸ wf.append _
  | reached _ _ wal => exact wal ▸ wf.addRecord _
  | rotated _ _ wal => exact wal ▸ wf.rotate
  | marked _ _ wal => exact wal ▸ wf.markFlushedSeq _ _

theorem LogEvent.bounded (event : LogEvent s t) (wf : s.wal.Wf)
    (bounded : ∀ number, s.wal.logNumber < number → s.wal.files number = none) :
    ∀ number, t.wal.logNumber < number → t.wal.files number = none := by
  have added (batch : WriteBatch) : ∀ number, s.wal.logNumber < number →
      (s.wal.addRecord batch).files number = none := by
    intro number larger
    exact (Function.update_of_ne (ne_of_gt larger) _ _).trans (bounded number larger)
  cases event with
  | kept wal =>
    rw [wal]
    exact bounded
  | @appended batch _ _ wal | @reached batch _ _ wal =>
    rw [wal]
    exact added batch
  | rotated _ _ wal =>
    rw [wal]
    intro number larger
    have old : s.wal.logNumber < number := lt_trans wf.next larger
    exact (Function.update_of_ne (ne_of_gt larger) _ _).trans (bounded number old)
  | marked _ _ wal =>
    rw [wal]
    intro number larger
    change (if _ then none else s.wal.files number) = none
    split
    · rfl
    · exact bounded number larger

/-- Where the rows of the manifest come from: the manifest before, the flushed memtable, or the live
rows a job has read. -/
theorem current_rows (base : s.Base config) (fired : step config s action = some t)
    {ref : DataFileMeta} (present : ref ∈ t.catalog.current.live) {row : Entry}
    (member : row ∈ ref.file.rows) :
    (∃ old ∈ s.catalog.current.live, row ∈ old.file.rows) ∨
      (∃ memtable, s.flush.memtable? = some memtable ∧
        ∃ entry ∈ memtable.iter seqnumMax, row = entry.persist config) ∨
      ∃ job plan, (s.jobs job).plan? = some plan ∧
        ∃ source ∈ plan.sources, row ∈ source.liveRows := by
  rcases live_step base.stored fired present with ⟨old, listed, sameFile, _⟩ |
      ⟨_, _, memtable, deltas, phase⟩ | ⟨_, job, plan, readSeq, firstPath, _, phase, written⟩
  · rw [sameFile] at member
    exact .inl ⟨old, listed, member⟩
  · rw [(base.resolved memtable ref.file deltas phase).rows, Flush.rows] at member
    obtain ⟨entry, listed, rfl⟩ := List.mem_map.mp member
    exact .inr (.inl ⟨memtable, by rw [phase]; rfl, entry, listed, rfl⟩)
  · obtain ⟨source, inSources, live⟩ := mem_mergedRows ((mem_outputs written).2.2.2 row member)
    exact .inr (.inr ⟨job, plan, by rw [phase]; rfl, source, inSources, live⟩)

theorem write_globalSeq {action : WriteAction} (fired : writeStep config s action = some t) :
    s.globalSeq ≤ t.globalSeq ∧ ∀ batch, t.write = .allocated batch → t.wal = s.wal ∧
      batch.sequence = s.globalSeq := by
  cases write_effect fired with
  | allocate _ _ own sequence =>
    refine ⟨Nat.le_add_right _ _, ?_⟩
    intro batch phase
    injection phase with same
    exact ⟨rfl, same ▸ sequence⟩
  | _ => exact ⟨le_rfl, by simp⟩

theorem globalSeq_step (fired : step config s action = some t) :
    s.globalSeq ≤ t.globalSeq ∧ ∀ batch, t.write = .allocated batch → s.write = .allocated batch ∨
      t.wal = s.wal ∧ batch.sequence = s.globalSeq := by
  cases step_effect fired with
  | write fired =>
    obtain ⟨grows, numbered⟩ := write_globalSeq fired
    exact ⟨grows, fun batch phase => .inr (numbered batch phase)⟩
  | _ => exact ⟨le_rfl, fun _ phase => .inl phase⟩

theorem System.Base.flushed_seq (base : s.Base config) {memtable : Memtable}
    (phase : s.flush.memtable? = some memtable) {entry : Entry}
    (listed : entry ∈ memtable.iter seqnumMax) : entry.seq < s.globalSeq := by
  have member := base.front phase
  have newest := (Memtable.mem_iter_all (base.increasing member) (base.seq_le member)).mp listed
  obtain ⟨batch, inHeld, inBatch⟩ := mem_entriesOf.mp (newest_mem newest).1
  apply base.numbered.seq_lt
  exact mem_entriesOf.mpr ⟨batch, (base.queued.memtable_batches member).subset inHeld, inBatch⟩

theorem System.Durable.current_below (inv : s.Durable) (base : s.Base config)
    (fired : Merutable.step config s action = some t) :
    t.catalog.current.toVersion.Below s.globalSeq := by
  intro ref present row member
  rcases current_rows base fired present member with
    ⟨old, listed, inOld⟩ | ⟨memtable, phase, entry, listed, rfl⟩ |
      ⟨job, plan, busy, source, inSources, live⟩
  · exact inv.current old listed row inOld
  · rw [Entry.persist_seq]
    exact base.flushed_seq phase listed
  · have planned := (base.locked.planned job plan busy).1
    exact inv.versions plan.version (.planned busy) source (mem_sources planned inSources).1 row
      (source.liveRows_sublist.subset live)

theorem catalog_next (next : s.catalog.current.snapshotId < s.catalog.nextVersion)
    (fired : step config s action = some t) :
    t.catalog.current.snapshotId < t.catalog.nextVersion := by
  rcases catalog_step fired with catalog | ⟨_, _, _, committed, _⟩
  · rw [catalog]
    exact next
  · rw [Catalog.commit_snapshotId committed, (Catalog.commit_ok committed).2.1]
    exact Nat.lt_succ_self _

theorem System.Durable.step {action : Action} (inv : s.Durable) (base : s.Base config)
    (fired : Merutable.step config s action = some t) : t.Durable := by
  obtain ⟨grows, numbered⟩ := globalSeq_step fired
  have event := log_event fired
  have current := (inv.current_below base fired).mono grows
  refine ⟨event.wf inv.wf, event.bounded inv.wf inv.bounded, ?_, ?_, ?_, ?_, current, ?_⟩
  · rcases event.logged inv.wf inv.bounded with part | ⟨batch, phase, _, logged⟩
    · exact inv.increasing.sublist part
    · rw [logged]
      refine List.pairwise_append.mpr ⟨inv.increasing, List.pairwise_singleton _ _, ?_⟩
      intro earlier member last only
      rw [List.mem_singleton.mp only]
      exact inv.coming batch phase earlier member
  · intro batch member
    refine lt_of_lt_of_le ?_ grows
    rcases event.logged inv.wf inv.bounded with part | ⟨last, phase, _, logged⟩
    · exact inv.below batch (part.subset member)
    · rw [logged] at member
      rcases List.mem_append.mp member with old | new
      · exact inv.below batch old
      · rw [List.mem_singleton.mp new]
        exact (base.numbered.coming last (.inl phase)).2.1
  · intro batch phase earlier member
    rcases numbered batch phase with before | ⟨wal, sequence⟩
    · rcases event.logged inv.wf inv.bounded with part | ⟨_, _, other, _⟩
      · exact inv.coming batch before earlier (part.subset member)
      · exact absurd phase (other batch)
    · rw [wal] at member
      rw [sequence]
      exact inv.below earlier member
  · exact catalog_next inv.next fired
  · intro version mentioned
    rcases step_mentions fired mentioned with before | rfl
    · exact (inv.versions version before).mono grows
    · exact current

end Durable

theorem MemtableManager.foldl_applyBatch (encodedLen : Row → Nat) (batches : List WriteBatch)
    (manager : MemtableManager) :
    (batches.foldl (applyBatch encodedLen) manager).immutable = manager.immutable ∧
      (batches.foldl (applyBatch encodedLen) manager).nextId = manager.nextId ∧
      (batches.foldl (applyBatch encodedLen) manager).active.id = manager.active.id ∧
      (batches.foldl (applyBatch encodedLen) manager).active.firstSeq = manager.active.firstSeq ∧
      (batches.foldl (applyBatch encodedLen) manager).active.batches =
        manager.active.batches ++ batches := by
  induction batches generalizing manager with
  | nil => simp
  | cons batch rest ih =>
    obtain ⟨immutable, nextId, id, firstSeq, applied⟩ := ih (manager.applyBatch encodedLen batch)
    refine ⟨immutable, nextId, id, firstSeq, applied.trans ?_⟩
    simp [applyBatch, Memtable.applyBatch]

theorem MemtableManager.replayed_batches (encodedLen : Row → Nat) (batches : List WriteBatch)
    (firstSeq : Nat) : (batches.foldl (applyBatch encodedLen) (.new firstSeq)).batches
      = batches := by
  obtain ⟨immutable, _, _, _, applied⟩ := foldl_applyBatch encodedLen batches (.new firstSeq)
  have none : (batches.foldl (applyBatch encodedLen) (.new firstSeq)).immutable = [] := immutable
  have active : (batches.foldl (applyBatch encodedLen) (.new firstSeq)).active.batches = batches :=
    applied
  rw [MemtableManager.batches, MemtableManager.queue, none, List.nil_append, List.flatMap_singleton,
    active]

/-- What a crash leaves. -/
structure Disk.Consistent (disk : Disk) : Prop where
  bounded : ∀ number, disk.logs.limit < number → disk.logs.files number = none
  increasing : Increasing disk.logs.batches
  below : ∀ batch ∈ disk.logs.batches, batch.lastSeq < seqnumMax
  rows : disk.catalog.current.toVersion.Below seqnumMax
  next : disk.catalog.current.snapshotId < disk.catalog.nextVersion
  fresh : ∀ file ∈ disk.store, file.path < disk.nextUuid
  distinct : (disk.store.map DataFile.path).Nodup
  unique : (disk.catalog.current.live.map DataFileMeta.path).Nodup
  tracked : ∀ ref ∈ disk.catalog.current.live, ref.file ∈ disk.store

theorem System.Durable.crash {config : Config} {s : System} (durable : s.Durable)
    (base : s.Base config) (stray : Bool) : (s.crash stray).Consistent where
  bounded := durable.bounded
  increasing := durable.increasing
  below batch member := lt_of_lt_of_le (durable.below batch member) base.numbered.bound
  rows := durable.current.mono base.numbered.bound
  next := durable.next
  fresh := base.stored.fresh
  distinct := base.stored.distinct
  unique := base.stored.unique
  tracked := base.stored.tracked

section Opened

variable {config : Config} {disk : Disk}

theorem Disk.batch_lt_initSeq {batch : WriteBatch} (member : batch ∈ disk.logs.batches) :
    batch.lastSeq < disk.initSeq :=
  Nat.lt_succ_of_le ((LogDir.le_maxSeq member).trans (le_max_left _ _))

theorem Disk.row_lt_initSeq {ref : DataFileMeta} {row : Entry}
    (present : ref ∈ disk.catalog.current.live) (member : row ∈ ref.file.rows) :
    row.seq < disk.initSeq := by
  have file : ref.file.seqMax ≤ disk.icebergMaxSeq :=
    (foldl_max_spec id _ 0).2.1 _ (List.mem_map_of_mem present)
  exact Nat.lt_succ_of_le (((DataFile.le_seqMax member).trans file).trans (le_max_right _ _))

theorem Disk.initSeq_attained (disk : Disk) : disk.initSeq = 1 ∨
    (∃ batch ∈ disk.logs.batches, batch.lastSeq + 1 = disk.initSeq) ∨
      ∃ ref ∈ disk.catalog.current.live, ∃ row ∈ ref.file.rows, row.seq + 1 = disk.initSeq := by
  unfold Disk.initSeq
  rcases Nat.le_total disk.icebergMaxSeq disk.logs.maxSeq with logs | files
  · rw [Nat.max_eq_left logs]
    rcases disk.logs.maxSeq_mem with none | ⟨batch, member, same⟩
    · exact .inl (by rw [none])
    · exact .inr (.inl ⟨batch, member, by rw [same]⟩)
  · rw [Nat.max_eq_right files]
    rcases (foldl_max_spec id (disk.catalog.current.live.map fun ref => ref.file.seqMax) 0).2.2 with
      none | ⟨_, member, same⟩
    · exact .inl (congrArg (· + 1) none)
    · obtain ⟨ref, present, rfl⟩ := List.mem_map.mp member
      obtain ⟨row, inFile, top⟩ := ref.file.seqMax_mem
      exact .inr (.inr ⟨ref, present, row, inFile, congrArg (· + 1) (top.trans same)⟩)

theorem Disk.Consistent.initSeq_le (consistent : disk.Consistent) : disk.initSeq ≤ seqnumMax := by
  rcases disk.initSeq_attained with one | ⟨batch, member, same⟩ | ⟨ref, present, row, member, same⟩
  · rw [one]
    decide
  · rw [← same]
    exact consistent.below batch member
  · rw [← same]
    exact consistent.rows ref present row member

theorem Disk.memtable_queue (config : Config) (disk : Disk) :
    (disk.memtable config).immutable = [] ∧ (disk.memtable config).nextId = 1 ∧
      (disk.memtable config).active.id = 0 ∧
      (disk.memtable config).active.firstSeq = disk.initSeq ∧
      (disk.memtable config).batches = disk.logs.batches := by
  obtain ⟨immutable, nextId, id, firstSeq, _⟩ :=
    MemtableManager.foldl_applyBatch config.encodedLen disk.logs.batches (.new disk.initSeq)
  exact ⟨immutable, nextId, id, firstSeq, MemtableManager.replayed_batches _ _ _⟩

theorem opened_mentions {version : Version}
    (mentioned : (System.opened config disk).Mentions version) :
    version = disk.catalog.current.toVersion := by
  cases mentioned with
  | installed => rfl
  | pending waiting => rcases waiting with ⟨_, phase⟩ | ⟨_, _, phase⟩ <;> cases phase
  | planned busy => cases busy
  | pinned member => cases member

theorem Disk.Consistent.numbered (consistent : disk.Consistent) :
    (System.opened config disk).Numbered where
  bound := consistent.initSeq_le
  visible := Nat.lt_succ_self _
  increasing := consistent.increasing
  below _ member := Disk.batch_lt_initSeq member
  published _ member := .inr (Nat.lt_succ_iff.mp (Disk.batch_lt_initSeq member))
  coming := by rintro batch (phase | phase) <;> cases phase
  applied := by intro batch phase; cases phase

theorem opened_queued (config : Config) (disk : Disk) : (System.opened config disk).Queued := by
  obtain ⟨immutable, nextId, id, _, batches⟩ := disk.memtable_queue config
  have queue : (disk.memtable config).queue = [(disk.memtable config).active] := by
    rw [MemtableManager.queue, immutable]
    rfl
  change Merutable.Queued (disk.memtable config) .idle disk.logs.batches
  refine ⟨batches ▸ List.Sublist.refl _, ?_, ?_, ?_⟩
  · intro oldest phase
    cases phase
  · rw [queue]
    exact List.pairwise_singleton _ _
  · intro held member
    rw [queue, List.mem_singleton] at member
    rw [member, id, nextId]
    exact Nat.zero_lt_one

section

variable (consistent : disk.Consistent)
include consistent

theorem Disk.Consistent.stored :
    (System.opened config disk).Stored config where
  fresh := consistent.fresh
  distinct := consistent.distinct
  unique := consistent.unique
  tracked := consistent.tracked
  written _ _ held := absurd held (not_writes rfl fun _ => rfl)
  apart _ _ _ _ held := absurd held (not_writes rfl fun _ => rfl)

theorem Disk.Consistent.base :
    (System.opened config disk).Base config where
  numbered := consistent.numbered
  queued := opened_queued config disk
  answered := by
    refine ⟨?_, ?_⟩
    · intro post member
      cases member
    · intro batch member
      cases member
  stored := consistent.stored
  locked := by
    refine ⟨?_, ?_, ?_⟩
    · intro job plan busy
      cases busy
    · intro job plan busy
      cases busy
    · intro job plan job' plan' busy
      cases busy
  keeps := by
    intro version mentioned
    rw [opened_mentions mentioned]
    exact ⟨consistent.unique, consistent.tracked⟩
  resolved := by intro memtable file deltas phase; cases phase

theorem Disk.Consistent.above {number : Nat} (larger : disk.logs.maxLogNumber < number) :
    disk.logs.files number = none := by
  cases file : disk.logs.files number with
  | none => rfl
  | some log =>
    rcases Nat.lt_or_ge disk.logs.limit number with outside | inside
    · rw [consistent.bounded number outside] at file
      cases file
    · have := LogDir.le_maxLogNumber inside file
      omega

theorem Disk.Consistent.logged :
    disk.wal.logged = disk.logs.batches := by
  have other {number : Nat} (different : number ≠ disk.logs.maxLogNumber + 1) :
      disk.wal.files number = disk.logs.files number := by
    simp [Disk.wal, different]
  have own : disk.wal.files (disk.logs.maxLogNumber + 1) = some [] := by simp [Disk.wal]
  have above : ∀ number, disk.logs.maxLogNumber + 1 < number → disk.wal.files number = none ∨
      disk.wal.files number = some [] := by
    intro number larger
    rw [other (by omega)]
    exact .inl (consistent.above (by omega))
  have same : ∀ number ≤ max disk.logs.limit (disk.logs.maxLogNumber + 1),
      (disk.wal.files number).getD [] = (disk.logs.files number).getD [] := by
    intro number _
    by_cases new : number = disk.logs.maxLogNumber + 1
    · rw [new, own, consistent.above (Nat.lt_succ_self _)]
      rfl
    · rw [other new]
  calc disk.wal.logged = LogDir.batches ⟨disk.wal.files, max disk.logs.limit
          (disk.logs.maxLogNumber + 1)⟩ := (LogDir.batches_extend (le_max_right _ _) above).symm
    _ = LogDir.batches ⟨disk.logs.files, max disk.logs.limit (disk.logs.maxLogNumber + 1)⟩ :=
        LogDir.batches_congr same
    _ = disk.logs.batches := LogDir.batches_extend (le_max_left _ _)
        fun number larger => .inl (consistent.bounded number larger)

end

theorem LogDir.numbers_nodup (dir : LogDir) : dir.numbers.Nodup :=
  List.nodup_range.sublist List.filter_sublist

theorem Disk.wal_wf (disk : Disk) : disk.wal.Wf where
  next := Nat.lt_succ_self _
  closed := by
    intro log member
    obtain ⟨number, listed, rfl⟩ := List.mem_map.mp member
    exact Nat.lt_succ_of_le ((foldl_max_spec id disk.logs.numbers 0).2.1 number listed)
  distinct := by
    change ((disk.logs.numbers.map _).map ClosedLog.logNumber).Nodup
    rw [List.map_map]
    exact (List.map_id _).symm ▸ disk.logs.numbers_nodup

theorem Disk.Consistent.durable (consistent : disk.Consistent) :
    (System.opened config disk).Durable := by
  have logged : (System.opened config disk).wal.logged = disk.logs.batches := consistent.logged
  have rows : disk.catalog.current.toVersion.Below disk.initSeq :=
    fun ref present row member => Disk.row_lt_initSeq present member
  refine ⟨disk.wal_wf, ?_, ?_, ?_, ?_, consistent.next, rows, ?_⟩
  · intro number larger
    have different : number ≠ disk.logs.maxLogNumber + 1 := ne_of_gt larger
    have none := consistent.above (lt_trans (Nat.lt_succ_self _) larger)
    exact (Function.update_of_ne different _ _).trans none
  · rw [logged]
    exact consistent.increasing
  · rw [logged]
    exact fun batch member => Disk.batch_lt_initSeq member
  · intro batch phase
    cases phase
  · intro version mentioned
    rw [opened_mentions mentioned]
    exact rows

end Opened

/-- What holds over the whole life of a table, whatever the order of its steps. -/
def Table.Consistent (table : Table) : Prop :=
  match table.host with
  | .running s => s.Base table.config ∧ s.Durable
  | .down disk => disk.Consistent

theorem created_consistent (config : Config) : (Table.created config).Consistent :=
  ⟨initial_base config, initial_durable config⟩

theorem Table.Consistent.step {table next : Table} {action : TableAction}
    (consistent : table.Consistent) (fired : tableStep table action = some next) :
    next.Consistent := by
  cases table_event fired with
  | act host stepped made =>
    rw [Table.Consistent, host] at consistent
    subst made
    exact ⟨consistent.1.step stepped, consistent.2.step consistent.1 stepped⟩
  | crash host made =>
    rw [Table.Consistent, host] at consistent
    subst made
    exact consistent.2.crash consistent.1 _
  | reopen host _ made =>
    rw [Table.Consistent, host] at consistent
    subst made
    exact ⟨Disk.Consistent.base consistent, Disk.Consistent.durable consistent⟩

end Merutable
