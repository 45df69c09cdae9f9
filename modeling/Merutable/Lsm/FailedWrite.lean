import Merutable.Lsm.Lookup
import Merutable.Lsm.Reopen
import Merutable.Wal.Recover

/-! Writes that return an error. A call fails before it is given sequence numbers, while its record
is appended to the log, or after the record has been published, when the rotation it triggers cannot
open the next log. What is left of a failed append is read off the bytes of the log file. -/

namespace Merutable

open Foundation ReadPath

/-- How a log is written: its checksum, and the batches as the bytes are encoded from and decoded
to. -/
structure LogCode where
  crc : Bytes → UInt32
  encode : WriteBatch → Wire.WriteBatch
  decode : Wire.WriteBatch → WriteBatch

/-- The step of `put`, `delete` or `apply_batch` that fails: the checks and lookups before the WAL
lock, a sink call of `add_record` or the sync after it, or the rotation of the log once the memtable
is over its threshold. -/
inductive WriteFault where
  | early
  | append (fault : Wal.AppendFault)
  | rotate
  deriving DecidableEq

namespace LogCode

variable (code : LogCode)

def recover (file : Bytes) : List WriteBatch := (Wal.recoverFile code.crc file).map code.decode

/-- The open log once the record of the batch is in it. -/
def appended (writer : Wal.LogWriter) (batch : WriteBatch) : Wal.LogWriter :=
  writer.run (Wal.appendWrites code.crc writer (code.encode batch)) none

/-- The open log when the call fails; `none` if the call that should fail is not made. -/
def leaves (writer : Wal.LogWriter) (batch : WriteBatch) : WriteFault → Option Wal.LogWriter
  | .early => some writer
  | .append fault => (writer.append code.crc (code.encode batch) (some fault)).map Prod.fst
  | .rotate => some (code.appended writer batch)

/-- The bytes hold the batches, and these come back from them. -/
structure Holds (writer : Wal.LogWriter) (log : List WriteBatch) : Prop where
  bytes : writer = Wal.writeAll code.crc .empty (log.map code.encode)
  loggable : ∀ batch ∈ log, (code.encode batch).Loggable
  lossless : ∀ batch ∈ log, code.decode (code.encode batch).present = batch

variable {code} {writer : Wal.LogWriter} {log : List WriteBatch} {batch : WriteBatch}

theorem Holds.recovered (holds : code.Holds writer log) : code.recover writer.file = log := by
  have loggable : ∀ other ∈ log.map code.encode, other.Loggable := by
    intro other member
    obtain ⟨own, inLog, rfl⟩ := List.mem_map.mp member
    exact holds.loggable own inLog
  rw [recover, holds.bytes, Wal.recoverFile_clean loggable, List.map_map, List.map_map]
  exact (List.map_congr_left holds.lossless).trans (List.map_id _)

theorem Holds.appended (holds : code.Holds writer log) (loggable : (code.encode batch).Loggable)
    (lossless : code.decode (code.encode batch).present = batch) :
    code.Holds (code.appended writer batch) (log ++ [batch]) where
  bytes := by
    rw [List.map_append, List.map_singleton, Wal.writeAll_append, ← holds.bytes]
    rfl
  loggable := List.forall_mem_append.mpr ⟨holds.loggable, List.forall_mem_singleton.mpr loggable⟩
  lossless := List.forall_mem_append.mpr ⟨holds.lossless, List.forall_mem_singleton.mpr lossless⟩

end LogCode

namespace System

/-- The engine once the batch is published and the row cache has forgotten its keys. -/
def published (config : Config) (s : System) (batch : WriteBatch) : System :=
  { s with
    globalSeq := batch.lastSeq + 1
    visibleSeq := max s.visibleSeq batch.lastSeq
    wal := s.wal.append batch
    memtable := s.memtable.applyBatch config.encodedLen batch
    rowCache := s.rowCache.map fun cache =>
      (batch.records.map Prod.fst).foldl (fun cache key => cache.bump.pop key) cache
    history := s.history ++ [batch] }

/-- The engine when the call that writes `batch` returns the error, with the open log as the call
has left it. The rotation has sealed the memtable and taken the number of the next log. -/
def failedWrite (config : Config) (code : LogCode) (s : System) (batch : WriteBatch)
    (left : Wal.LogWriter) : WriteFault → System
  | .early => s
  | .append _ =>
    { s with
      globalSeq := batch.lastSeq + 1
      wal := { s.wal with
        files := Function.update s.wal.files s.wal.logNumber (some (code.recover left.file)) } }
  | .rotate =>
    { s.published config batch with
      wal := { s.wal.append batch with nextLog := s.wal.nextLog + 1 }
      memtable := (s.memtable.applyBatch config.encodedLen batch).rotate (batch.lastSeq + 2) }

/-- The engine without the call: at most its sequence numbers are used up. -/
def withoutWrite (s : System) (batch : WriteBatch) : WriteFault → System
  | .early => s
  | _ => { s with globalSeq := batch.lastSeq + 1 }

/-- The call fails with nothing or all of its record in the open log, which was whole before. -/
structure FailsWhole (code : LogCode) (s : System) (batch : WriteBatch) (fault : WriteFault)
    (writer left : Wal.LogWriter) : Prop where
  holds : ∃ log, s.wal.files s.wal.logNumber = some log ∧ code.Holds writer log
  loggable : (code.encode batch).Loggable
  lossless : code.decode (code.encode batch).present = batch
  leaves : code.leaves writer batch fault = some left
  whole : left = writer ∨ left = code.appended writer batch

/-- A read in this state is answered with the record. -/
def Reads (config : Config) (s : System) (entry : Entry) : Prop :=
  (∃ key, s.answer config key = some entry) ∨
    ∃ start stop, entry ∈ rangeScan s.memtable s.version start stop s.visibleSeq

end System

/-- Whatever happens after the call, crashes and reopens included, a read that is answered with one
of its records is answered with it without the call, too: another call has written it. -/
def NoEffect (table : Table) (failed without : System) (batch : WriteBatch) : Prop :=
  ∀ (later : List TableAction) (after : Table) (s : System) (record found : Entry),
    execute tableStep { table with host := .running failed } later = some after →
    after.host = .running s → record ∈ batch.entries →
    found = record ∨ found = record.persist after.config → s.Reads after.config found →
    ∃ (after' : Table) (s' : System),
      execute tableStep { table with host := .running without } later = some after' ∧
        after'.host = .running s' ∧ s'.Reads after'.config found

section Steps

variable {config : Config} {s : System} {batch : WriteBatch}

theorem allocated_batch (first : batch.sequence = s.globalSeq) :
    (⟨s.globalSeq, batch.records, batch.nonempty⟩ : WriteBatch) = batch ∧
      s.globalSeq + batch.records.length = batch.lastSeq + 1 := by
  have := batch.records_length_pos
  constructor
  · rw [← first]
  · rw [WriteBatch.lastSeq, first]
    omega

section Left

variable {code : LogCode} {fault : WriteFault} {writer left : Wal.LogWriter}

theorem System.FailsWhole.appended_ne (fails : s.FailsWhole code batch fault writer left) :
    code.appended writer batch ≠ writer := by
  obtain ⟨log, _, holds⟩ := fails.holds
  intro same
  have longer := (holds.appended fails.loggable fails.lossless).recovered
  rw [same, holds.recovered] at longer
  simpa using congrArg List.length longer

/-- What recovery finds in the bytes is what the engine's step takes for the log. -/
theorem failedWrite_wal {cause : Wal.AppendFault}
    (fails : s.FailsWhole code batch (.append cause) writer left) :
    s.failedWrite config code batch left (.append cause) =
      { s with
        globalSeq := batch.lastSeq + 1
        wal := s.wal.appendFailed batch (decide (left ≠ writer)) } := by
  obtain ⟨log, file, holds⟩ := fails.holds
  rcases fails.whole with rfl | rfl
  · have same : Function.update s.wal.files s.wal.logNumber (some log) = s.wal.files :=
      Function.update_eq_self_iff.mpr file.symm
    simp [System.failedWrite, holds.recovered, same, WalManager.appendFailed]
  · have found := (holds.appended fails.loggable fails.lossless).recovered
    simp [System.failedWrite, found, WalManager.appendFailed, WalManager.addRecord, file,
      fails.appended_ne]

theorem failedWrite_append {cause : Wal.AppendFault} (idle : s.write = .idle)
    (first : batch.sequence = s.globalSeq) (room : batch.lastSeq < seqnumMax)
    (fails : s.FailsWhole code batch (.append cause) writer left) :
    execute (step config) s [.write (.allocate batch.records),
        .write (.appendFailed (decide (left ≠ writer)))] =
      some (s.failedWrite config code batch left (.append cause)) := by
  obtain ⟨same, last⟩ := allocated_batch first
  rw [failedWrite_wal fails]
  simp [execute, step, writeStep, idle, batch.nonempty, same, last, Nat.succ_le_of_lt room]

end Left

/-- The steps by which a waiting writer invalidates its keys. -/
def invalidations (index keys : Nat) : List Action :=
  (List.replicate keys [.post (.bump index), .post (.pop index)]).flatten

theorem invalidations_execute (config : Config) (s : System) (others : List PostWrite)
    (batch : WriteBatch) (keys : List UserKey) :
    execute (step config) { s with posts := others ++ [⟨batch, keys, false⟩] }
        (invalidations others.length keys.length) =
      some { s with
        rowCache := s.rowCache.map fun cache =>
          keys.foldl (fun cache key => cache.bump.pop key) cache
        posts := others ++ [⟨batch, [], false⟩] } := by
  induction keys generalizing s with
  | nil => simp [invalidations, execute]
  | cons key rest ih =>
    have next := ih { s with rowCache := s.rowCache.map fun cache => cache.bump.pop key }
    have split : invalidations others.length (key :: rest).length =
        .post (.bump others.length) :: .post (.pop others.length) ::
          invalidations others.length rest.length := rfl
    rw [split]
    simp only [execute, step, postStep, System.setCache]
    simpa [Function.comp_def] using next

theorem published_execute (idle : s.write = .idle) (first : batch.sequence = s.globalSeq)
    (room : batch.lastSeq < seqnumMax) :
    execute (step config) s (Calls.write batch.records ++
        invalidations s.posts.length (if s.rowCache.isSome then batch.records.length else 0)) =
      some { s.published config batch with posts := s.posts ++ [⟨batch, [], false⟩] } := by
  obtain ⟨same, last⟩ := allocated_batch first
  cases enabled : s.rowCache with
  | none =>
    simp [execute, Calls.write, step, writeStep, idle, batch.nonempty, same, last,
      Nat.succ_le_of_lt room, enabled, invalidations, System.published]
  | some cache =>
    have wrote : execute (step config) s (Calls.write batch.records) =
        some { s.published config batch with
          rowCache := some cache
          posts := s.posts ++ [⟨batch, batch.records.map Prod.fst, false⟩] } := by
      simp [execute, Calls.write, step, writeStep, idle, batch.nonempty, same, last,
        Nat.succ_le_of_lt room, enabled, System.published]
    have invalidated := invalidations_execute config
      { s.published config batch with rowCache := some cache } s.posts batch
      (batch.records.map Prod.fst)
    rw [List.length_map] at invalidated
    rw [execute_append, wrote, Option.bind_some]
    simpa [System.published, enabled] using invalidated

theorem failedWrite_rotate (code : LogCode) (left : Wal.LogWriter) (free : s.rotation = .idle) :
    ∃ t, execute (step config) { s.published config batch with posts := s.posts ++
      [⟨batch, [], false⟩] }
          [.rotate .lock, .rotate .readSeq, .rotate .sealActive] = some t ∧
        s.failedWrite config code batch left .rotate =
          { t with
            wal := { t.wal with nextLog := t.wal.nextLog + 1 }
            posts := s.posts
            rotation := .idle } := by
  have idle : (s.published config batch).rotation = .idle := free
  simp only [execute, step, rotationStep, idle]
  refine ⟨_, rfl, ?_⟩
  simp [System.failedWrite, System.published, WalManager.append, WalManager.addRecord, free]

end Steps

section Opened

variable {config : Config} {disk : Disk} {batch : WriteBatch} {entry : Entry}

theorem opened_batches (config : Config) (disk : Disk) :
    (System.opened config disk).memtable.batches = disk.logs.batches :=
  MemtableManager.replayed_batches _ _ _

theorem Disk.Consistent.opened_increasing (consistent : disk.Consistent) (config : Config) :
    Increasing (System.opened config disk).memtable.batches :=
  (opened_batches config disk).symm ▸ consistent.increasing

theorem opened_reads (consistent : disk.Consistent)
    (reads : (System.opened config disk).Reads config entry) :
    entry ∈ entriesOf disk.logs.batches ∨ disk.catalog.current.toVersion.Live entry := by
  have increasing := consistent.opened_increasing config
  rcases reads with ⟨key, answered⟩ | ⟨start, stop, listed⟩
  · rcases Option.or_eq_some_iff.mp answered with held | ⟨_, rest⟩
    · rw [MemtableManager.get_eq increasing, opened_batches] at held
      exact .inl ((newestUpTo_eq_some consistent.increasing).mp held).1
    · rcases Option.or_eq_some_iff.mp rest with cached | ⟨_, found⟩
      · obtain ⟨cache, enabled, looked⟩ := Option.bind_eq_some_iff.mp cached
        have member := (RowCache.lookup_mem looked).1
        rw [RowCache.entries_of_new enabled] at member
        cases member
      · exact .inr (probeFiles_live found).1
  · rcases (mem_harvest (mem_rangeScan listed).1).2 with ⟨memtable, queued, inMemtable⟩ | ⟨live, _⟩
    · left
      have held := (MemtableManager.mem_of_iter increasing queued inMemtable).1
      rwa [opened_batches] at held
    · exact .inr live

theorem opened_answer (config : Config) (consistent : disk.Consistent) {earlier : List WriteBatch}
    (logs : disk.logs.batches = earlier ++ [batch]) :
    ∃ record ∈ batch.entries,
      (System.opened config disk).answer config record.key = some record := by
  obtain ⟨record, member, last⟩ := batch.exists_lastSeq
  refine ⟨record, member, ?_⟩
  have increasing := consistent.opened_increasing config
  have listed : batch ∈ disk.logs.batches := by
    rw [logs]
    exact List.mem_append_right _ (List.mem_singleton.mpr rfl)
  have newest : newestUpTo disk.logs.batches (disk.initSeq - 1) record.key = some record := by
    refine (newestUpTo_eq_some consistent.increasing).mpr
      ⟨mem_entriesOf.mpr ⟨batch, listed, member⟩, rfl, ?_, ?_⟩
    · have := Disk.batch_lt_initSeq listed
      omega
    · intro other inLogs _ _
      obtain ⟨source, inSource, inBatch⟩ := mem_entriesOf.mp inLogs
      have upper := (WriteBatch.seq_bounds inBatch).2
      have ordered := consistent.increasing
      rw [logs] at inSource ordered
      rcases List.mem_append.mp inSource with old | new
      · have before := (List.pairwise_append.mp ordered).2.2 source old batch
          (List.mem_singleton.mpr rfl)
        have := batch.sequence_le_lastSeq
        omega
      · rw [List.mem_singleton.mp new] at upper
        omega
  have held : (System.opened config disk).memtable.get record.key
      (System.opened config disk).visibleSeq = some record := by
    rw [MemtableManager.get_eq increasing, opened_batches]
    exact newest
  rw [System.answer, held, Option.some_or]

end Opened

section Effect

variable {config : Config} {code : LogCode} {s : System} {batch : WriteBatch} {fault : WriteFault}
  {writer left : Wal.LogWriter}

theorem failedWrite_crash (fails : s.FailsWhole code batch fault writer left)
    (complete : left ≠ writer) :
    (s.failedWrite config code batch left fault).crash false =
      { s.crash false with logs := (s.wal.addRecord batch).directory } := by
  cases fault with
  | early => exact absurd (Option.some.inj fails.leaves).symm complete
  | append cause =>
    rw [failedWrite_wal fails, decide_eq_true complete]
    rfl
  | rotate => rfl

theorem withoutWrite_crash : (s.withoutWrite batch fault).crash false = s.crash false := by
  cases fault with
  | early | append | rotate => rfl

theorem crash_consistent (base : s.Base config) (durable : s.Durable)
    (first : batch.sequence = s.globalSeq) (room : batch.lastSeq < seqnumMax) :
    Disk.Consistent { s.crash false with logs := (s.wal.addRecord batch).directory } := by
  have crashed := durable.crash base false
  have logs : (s.wal.addRecord batch).directory.batches = s.wal.logged ++ [batch] :=
    s.wal.addRecord_logged batch
  refine { crashed with bounded := ?_, increasing := ?_, below := ?_ }
  · intro number larger
    have different : number ≠ s.wal.logNumber := ne_of_gt larger
    exact (Function.update_of_ne different _ _).trans (durable.bounded number larger)
  · change Increasing (s.wal.addRecord batch).directory.batches
    rw [logs]
    refine List.pairwise_append.mpr ⟨durable.increasing, List.pairwise_singleton _ _, ?_⟩
    intro earlier member last same
    rw [List.mem_singleton.mp same, first]
    exact durable.below earlier member
  · intro other member
    change other ∈ (s.wal.addRecord batch).directory.batches at member
    rw [logs] at member
    rcases List.mem_append.mp member with old | new
    · exact crashed.below other old
    · rw [List.mem_singleton.mp new]
      exact room

theorem crash_reopen (table : Table) (s : System) (tuning : Tuning) :
    execute tableStep { table with host := .running s } [.crash false, .reopen tuning] =
      some ⟨table.config.tuned tuning, table.calls ++ s.outcomes,
        .running (.opened (table.config.tuned tuning) (s.crash false))⟩ := by
  simp [execute, tableStep, Disk.readable, System.crash]

theorem NoEffect.untouched {table : Table} (base : s.Base config) (durable : s.Durable)
    (first : batch.sequence = s.globalSeq) (room : batch.lastSeq < seqnumMax)
    (fails : s.FailsWhole code batch fault writer left)
    (none : NoEffect table (s.failedWrite config code batch left fault)
      (s.withoutWrite batch fault) batch) : left = writer := by
  by_contra complete
  obtain ⟨record, member, answered⟩ := opened_answer (table.config.tuned table.config.tuning)
    (crash_consistent base durable first room) (s.wal.addRecord_logged batch)
  have crashed : (s.failedWrite config code batch left fault).crash false = _ :=
    failedWrite_crash fails complete
  rw [← crashed] at answered
  obtain ⟨after, system, executed, host, reads⟩ := none _ _ _ record record
    (crash_reopen table _ table.config.tuning) rfl member (.inl rfl) (.inl ⟨_, answered⟩)
  rw [crash_reopen, withoutWrite_crash] at executed
  cases executed
  cases host
  have own := (WriteBatch.seq_bounds member).1
  rcases opened_reads (durable.crash base false) reads with logged | ⟨ref, present, live⟩
  · obtain ⟨earlier, inLogs, inBatch⟩ := mem_entriesOf.mp logged
    have below := durable.below earlier inLogs
    have := (WriteBatch.seq_bounds inBatch).2
    omega
  · have below := durable.current ref present record (ref.liveRows_sublist.subset live)
    omega

end Effect

namespace FailedWrite.Sample

/-- A first put of a one-byte key. -/
def firstPut : WriteBatch := ⟨1, [putByte 1 1], List.cons_ne_nil _ _⟩

/-- The log of a table with this put only. -/
def code : LogCode := ⟨Wal.crc32, fun _ => Wal.smallBatch 1 1 1, fun _ => firstPut⟩

def synced : Wal.LogWriter := code.appended .empty firstPut

end FailedWrite.Sample

end Merutable
