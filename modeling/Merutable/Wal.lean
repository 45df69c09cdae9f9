import Mathlib.Logic.Function.Basic
import Merutable.Types

/-! Write batches and the write-ahead log: `wal::batch` and `wal::manager`. -/

namespace Merutable

/-- One log record. A batch without records never reaches the log. -/
structure WriteBatch where
  sequence : Nat
  records : List (UserKey × EntryValue)
  nonempty : records ≠ []
  deriving DecidableEq

namespace WriteBatch

def lastSeq (batch : WriteBatch) : Nat := batch.sequence + (batch.records.length - 1)

def entriesFrom : Nat → List (UserKey × EntryValue) → List Entry
  | _, [] => []
  | seq, (key, value) :: rest => ⟨key, seq, value⟩ :: entriesFrom (seq + 1) rest

/-- The records with their sequence numbers, consecutive from `sequence`. -/
def entries (batch : WriteBatch) : List Entry := entriesFrom batch.sequence batch.records

variable {records : List (UserKey × EntryValue)} {entry : Entry} {first : Nat}

theorem entriesFrom_bounds (member : entry ∈ entriesFrom first records) :
    first ≤ entry.seq ∧ entry.seq < first + records.length := by
  induction records generalizing first with
  | nil => cases member
  | cons record rest ih =>
    rcases List.mem_cons.mp member with rfl | later
    · simp
    · have bounds := ih later
      simp only [List.length_cons]
      omega

theorem entriesFrom_key (member : entry ∈ entriesFrom first records) :
    entry.key ∈ records.map Prod.fst := by
  induction records generalizing first with
  | nil => cases member
  | cons record rest ih =>
    rcases List.mem_cons.mp member with rfl | later
    · exact List.mem_cons_self
    · exact List.mem_cons_of_mem _ (ih later)

theorem entriesFrom_increasing (first : Nat) (records : List (UserKey × EntryValue)) :
    (entriesFrom first records).Pairwise (fun a b => a.seq < b.seq) := by
  induction records generalizing first with
  | nil => exact List.Pairwise.nil
  | cons record rest ih =>
    refine List.pairwise_cons.mpr ⟨fun entry member => ?_, ih (first + 1)⟩
    exact (entriesFrom_bounds member).1

theorem records_length_pos (batch : WriteBatch) : 0 < batch.records.length :=
  List.length_pos_iff.mpr batch.nonempty

theorem seq_bounds {batch : WriteBatch} (member : entry ∈ batch.entries) :
    batch.sequence ≤ entry.seq ∧ entry.seq ≤ batch.lastSeq := by
  have bounds := entriesFrom_bounds member
  have := batch.records_length_pos
  unfold lastSeq
  omega

theorem sequence_le_lastSeq (batch : WriteBatch) : batch.sequence ≤ batch.lastSeq := by
  unfold lastSeq
  omega

theorem exists_seq (batch : WriteBatch) {seq : Nat} (lower : batch.sequence ≤ seq)
    (upper : seq ≤ batch.lastSeq) : ∃ entry ∈ batch.entries, entry.seq = seq := by
  have general : ∀ (first : Nat) (records : List (UserKey × EntryValue)), first ≤ seq →
      seq < first + records.length → ∃ entry ∈ entriesFrom first records, entry.seq = seq := by
    intro first records
    induction records generalizing first with
    | nil =>
      intro low high
      simp only [List.length_nil] at high
      omega
    | cons record rest ih =>
      intro low high
      rcases Nat.eq_or_lt_of_le low with same | less
      · exact ⟨⟨record.1, first, record.2⟩, List.mem_cons_self, same⟩
      · simp only [List.length_cons] at high
        obtain ⟨entry, member, same⟩ := ih (first + 1) less (by omega)
        exact ⟨entry, List.mem_cons_of_mem _ member, same⟩
  have := batch.records_length_pos
  unfold lastSeq at upper
  exact general batch.sequence batch.records lower (by omega)

theorem exists_lastSeq (batch : WriteBatch) :
    ∃ entry ∈ batch.entries, entry.seq = batch.lastSeq :=
  batch.exists_seq batch.sequence_le_lastSeq le_rfl

theorem entriesFrom_take (first count : Nat) (records : List (UserKey × EntryValue)) :
    entriesFrom first (records.take count) = (entriesFrom first records).take count := by
  induction records generalizing first count with
  | nil => simp [entriesFrom]
  | cons record rest ih =>
    cases count with
    | zero => rfl
    | succ count => simp [entriesFrom, ih]

theorem entriesFrom_length (first : Nat) (records : List (UserKey × EntryValue)) :
    (entriesFrom first records).length = records.length := by
  induction records generalizing first with
  | nil => rfl
  | cons record rest ih => simp [entriesFrom, ih]

end WriteBatch

/-- All records of a sequence of batches, in write order. -/
def entriesOf (batches : List WriteBatch) : List Entry := batches.flatMap WriteBatch.entries

@[simp] theorem entriesOf_nil : entriesOf [] = [] := rfl

@[simp] theorem entriesOf_append (first second : List WriteBatch) :
    entriesOf (first ++ second) = entriesOf first ++ entriesOf second := by
  simp [entriesOf]

@[simp] theorem entriesOf_singleton (batch : WriteBatch) : entriesOf [batch] = batch.entries := by
  simp [entriesOf]

variable {batches : List WriteBatch}

@[simp] theorem mem_entriesOf {entry : Entry} :
    entry ∈ entriesOf batches ↔ ∃ batch ∈ batches, entry ∈ batch.entries := by
  simp [entriesOf]

/-- The batches carry increasing, non-overlapping sequence numbers. -/
def Increasing (batches : List WriteBatch) : Prop :=
  batches.Pairwise fun a b => a.lastSeq < b.sequence

theorem Increasing.entries (increasing : Increasing batches) :
    (entriesOf batches).Pairwise (fun a b => a.seq < b.seq) := by
  refine List.pairwise_flatMap.mpr ⟨fun batch _ => ?_, increasing.imp fun {a b} before => ?_⟩
  · exact WriteBatch.entriesFrom_increasing batch.sequence batch.records
  · intro first inFirst second inSecond
    have := (WriteBatch.seq_bounds inFirst).2
    have := (WriteBatch.seq_bounds inSecond).1
    omega

theorem Increasing.eq_of_seq (increasing : Increasing batches) {a b : WriteBatch}
    (first : a ∈ batches) (second : b ∈ batches) {seq : Nat}
    (inFirst : a.sequence ≤ seq ∧ seq ≤ a.lastSeq) (inSecond : b.sequence ≤ seq ∧ seq ≤ b.lastSeq) :
    a = b := by
  induction batches with
  | nil => cases first
  | cons head rest ih =>
    obtain ⟨front, tail⟩ := List.pairwise_cons.mp increasing
    rcases List.mem_cons.mp first with rfl | later
    · rcases List.mem_cons.mp second with rfl | later'
      · rfl
      · have := front b later'
        omega
    · rcases List.mem_cons.mp second with rfl | later'
      · have := front a later
        omega
      · exact ih tail later later'

/-- A rotated-out log file that waits for its records to be flushed. -/
structure ClosedLog where
  logNumber : Nat
  maxSeq : Nat
  deriving DecidableEq

/-- The log manager, with the contents of the log directory under `files`. -/
structure WalManager where
  logNumber : Nat
  nextLog : Nat
  currentLogMaxSeq : Nat
  closedLogs : List ClosedLog
  flushedSeq : Nat
  files : Nat → Option (List WriteBatch)

namespace WalManager

def openLog (initialLogNumber : Nat) : WalManager where
  logNumber := initialLogNumber
  nextLog := initialLogNumber + 1
  currentLogMaxSeq := 0
  closedLogs := []
  flushedSeq := 0
  files := Function.update (fun _ => none) initialLogNumber (some [])

/-- `add_record` on the open log file. -/
def addRecord (wal : WalManager) (batch : WriteBatch) : WalManager :=
  { wal with
    files := Function.update wal.files wal.logNumber
      (some ((wal.files wal.logNumber).getD [] ++ [batch])) }

def append (wal : WalManager) (batch : WriteBatch) : WalManager :=
  { wal.addRecord batch with currentLogMaxSeq := max wal.currentLogMaxSeq batch.lastSeq }

/-- An `append` that returns an error with nothing or all of its record in the file. The counter of
the open log is not advanced. A part of a record stays in the file, too, and the next one is written
right behind it: the bytes are in `Wal.Recover`. -/
def appendFailed (wal : WalManager) (batch : WriteBatch) (reached : Bool) : WalManager :=
  if reached then wal.addRecord batch else wal

def rotate (wal : WalManager) : WalManager :=
  { wal with
    logNumber := wal.nextLog
    nextLog := wal.nextLog + 1
    currentLogMaxSeq := 0
    closedLogs := wal.closedLogs ++ [⟨wal.logNumber, wal.currentLogMaxSeq⟩]
    files := Function.update wal.files wal.nextLog (some []) }

/-- Closed logs up to `seq` are deleted. The ones in `failed` could not be removed and go back into
the queue. -/
def markFlushedSeq (wal : WalManager) (seq : Nat) (failed : List Nat) : WalManager :=
  let toDelete := wal.closedLogs.filter fun log => log.maxSeq ≤ seq
  let keep := wal.closedLogs.filter fun log => ¬ log.maxSeq ≤ seq
  { wal with
    flushedSeq := max wal.flushedSeq seq
    closedLogs := keep ++ toDelete.filter fun log => log.logNumber ∈ failed
    files := fun number =>
      if ∃ log ∈ toDelete, log.logNumber = number ∧ log.logNumber ∉ failed then none
      else wal.files number }

/-- Some log file that is still in the directory holds the record. -/
def Holds (wal : WalManager) (entry : Entry) : Prop :=
  ∃ number log, wal.files number = some log ∧ entry ∈ entriesOf log

/-- The open log has the newest number and no two closed logs share a file. -/
structure Wf (wal : WalManager) : Prop where
  next : wal.logNumber < wal.nextLog
  closed : ∀ log ∈ wal.closedLogs, log.logNumber < wal.logNumber
  distinct : (wal.closedLogs.map ClosedLog.logNumber).Nodup

/-- The open log holds the batch and its counter covers it. -/
def InOpenLog (wal : WalManager) (batch : WriteBatch) : Prop :=
  ∃ log, wal.files wal.logNumber = some log ∧ batch ∈ log ∧ batch.lastSeq ≤ wal.currentLogMaxSeq

/-- A closed log holds the batch and its counter covers it. -/
def InClosedLog (wal : WalManager) (batch : WriteBatch) : Prop :=
  ∃ closed ∈ wal.closedLogs, batch.lastSeq ≤ closed.maxSeq ∧
    ∃ log, wal.files closed.logNumber = some log ∧ batch ∈ log

def Tracked (wal : WalManager) (batch : WriteBatch) : Prop :=
  wal.InOpenLog batch ∨ wal.InClosedLog batch

variable {wal : WalManager} {batch other : WriteBatch} {failed : List Nat}

theorem Tracked.holds (tracked : wal.Tracked batch) {entry : Entry}
    (member : entry ∈ batch.entries) :
    wal.Holds entry := by
  rcases tracked with ⟨log, file, held, _⟩ | ⟨closed, _, _, log, file, held⟩
  · exact ⟨_, log, file, mem_entriesOf.mpr ⟨batch, held, member⟩⟩
  · exact ⟨_, log, file, mem_entriesOf.mpr ⟨batch, held, member⟩⟩

theorem append_inOpenLog (wal : WalManager) (batch : WriteBatch) :
    (wal.append batch).InOpenLog batch :=
  ⟨_, Function.update_self _ _ _, List.mem_append_right _ (List.mem_singleton.mpr rfl),
    le_max_right _ _⟩

theorem addRecord_open {log : List WriteBatch} (file : wal.files wal.logNumber = some log) :
    (wal.addRecord batch).files wal.logNumber = some (log ++ [batch]) := by
  simp only [addRecord, Function.update_self, file, Option.getD_some]

theorem addRecord_closed (wf : wal.Wf) {closed : ClosedLog} (member : closed ∈ wal.closedLogs) :
    (wal.addRecord batch).files closed.logNumber = wal.files closed.logNumber :=
  Function.update_of_ne (wf.closed closed member).ne _ _

theorem Tracked.append (wf : wal.Wf) (tracked : wal.Tracked other) :
    (wal.append batch).Tracked other := by
  rcases tracked with ⟨log, file, held, covered⟩ | ⟨closed, member, covered, log, file, held⟩
  · exact .inl ⟨_, addRecord_open file, List.mem_append_left _ held,
      covered.trans (le_max_left _ _)⟩
  · exact .inr ⟨closed, member, covered, log, (addRecord_closed wf member).trans file, held⟩

theorem Tracked.appendFailed (wf : wal.Wf) (reached : Bool) (tracked : wal.Tracked other) :
    (wal.appendFailed batch reached).Tracked other := by
  cases reached with
  | false => exact tracked
  | true =>
    rcases tracked with ⟨log, file, held, covered⟩ | ⟨closed, member, covered, log, file, held⟩
    · exact .inl ⟨_, addRecord_open file, List.mem_append_left _ held, covered⟩
    · exact .inr ⟨closed, member, covered, log, (addRecord_closed wf member).trans file, held⟩

theorem Tracked.rotate (wf : wal.Wf) (tracked : wal.Tracked batch) : wal.rotate.Tracked batch := by
  right
  rcases tracked with ⟨log, file, held, covered⟩ | ⟨closed, member, covered, log, file, held⟩
  · refine ⟨⟨wal.logNumber, wal.currentLogMaxSeq⟩, List.mem_append_right _ (by simp), covered,
      log, ?_, held⟩
    exact (Function.update_of_ne wf.next.ne _ _).trans file
  · refine ⟨closed, List.mem_append_left _ member, covered, log, ?_, held⟩
    exact (Function.update_of_ne ((wf.closed closed member).trans wf.next).ne _ _).trans file

theorem markFlushedSeq_files {seq : Nat} {number : Nat}
    (kept : ∀ log ∈ wal.closedLogs, log.logNumber = number → seq < log.maxSeq) :
    (wal.markFlushedSeq seq failed).files number = wal.files number := by
  apply if_neg
  intro found
  obtain ⟨log, deleted, same, _⟩ := found
  obtain ⟨member, low⟩ := List.mem_filter.mp deleted
  have := kept log member same
  have := of_decide_eq_true low
  omega

theorem Tracked.markFlushedSeq (wf : wal.Wf) {seq : Nat}
    (above : ∀ log ∈ wal.closedLogs, log.maxSeq ≤ seq → log.maxSeq < batch.lastSeq)
    (tracked : wal.Tracked batch) : (wal.markFlushedSeq seq failed).Tracked batch := by
  rcases tracked with ⟨log, file, held, covered⟩ | ⟨closed, member, covered, log, file, held⟩
  · refine .inl ⟨log, ?_, held, covered⟩
    refine (markFlushedSeq_files fun other present same => ?_).trans file
    exact absurd same (wf.closed other present).ne
  · have high : seq < closed.maxSeq := by
      by_contra low
      have := above closed member (not_lt.mp low)
      omega
    refine .inr ⟨closed, ?_, covered, log, ?_, held⟩
    · exact List.mem_append_left _ (List.mem_filter.mpr ⟨member, by simpa using high⟩)
    · refine (markFlushedSeq_files fun other present same => ?_).trans file
      have equal := List.inj_on_of_nodup_map wf.distinct present member same
      rw [equal]
      exact high

theorem openLog_wf (number : Nat) : (openLog number).Wf where
  next := Nat.lt_succ_self _
  closed := by intro log member; cases member
  distinct := List.nodup_nil

theorem Wf.addRecord (wf : wal.Wf) (batch : WriteBatch) : (wal.addRecord batch).Wf :=
  ⟨wf.next, wf.closed, wf.distinct⟩

theorem Wf.append (wf : wal.Wf) (batch : WriteBatch) : (wal.append batch).Wf :=
  ⟨wf.next, wf.closed, wf.distinct⟩

theorem Wf.appendFailed (wf : wal.Wf) (batch : WriteBatch) (reached : Bool) :
    (wal.appendFailed batch reached).Wf := by
  cases reached with
  | false => exact wf
  | true => exact wf.addRecord batch

theorem Wf.rotate (wf : wal.Wf) : wal.rotate.Wf where
  next := Nat.lt_succ_self _
  closed := by
    intro log member
    rcases List.mem_append.mp member with old | new
    · exact (wf.closed log old).trans wf.next
    · rw [List.mem_singleton.mp new]
      exact wf.next
  distinct := by
    change ((wal.closedLogs ++ [_]).map ClosedLog.logNumber).Nodup
    rw [List.map_append, List.nodup_append]
    refine ⟨wf.distinct, List.nodup_singleton _, ?_⟩
    intro number member last same
    obtain ⟨log, present, rfl⟩ := List.mem_map.mp member
    rw [List.mem_singleton.mp same]
    exact (wf.closed log present).ne

theorem Wf.markFlushedSeq (wf : wal.Wf) (seq : Nat) (failed : List Nat) :
    (wal.markFlushedSeq seq failed).Wf := by
  have members : ∀ log ∈ (wal.markFlushedSeq seq failed).closedLogs, log ∈ wal.closedLogs := by
    intro log member
    rcases List.mem_append.mp member with kept | returned
    · exact List.mem_of_mem_filter kept
    · exact List.mem_of_mem_filter (List.mem_of_mem_filter returned)
  refine ⟨wf.next, fun log member => wf.closed log (members log member), ?_⟩
  have order : (wal.markFlushedSeq seq failed).closedLogs.Sublist
      (wal.closedLogs.filter (fun log => ¬ log.maxSeq ≤ seq) ++
        wal.closedLogs.filter fun log => log.maxSeq ≤ seq) :=
    (List.Sublist.refl _).append List.filter_sublist
  have perm : (wal.closedLogs.filter (fun log => ¬ log.maxSeq ≤ seq) ++
      wal.closedLogs.filter fun log => log.maxSeq ≤ seq).Perm wal.closedLogs := by
    refine List.perm_append_comm.trans ?_
    simp only [decide_not]
    exact List.filter_append_perm _ _
  exact ((perm.map _).nodup_iff.mpr wf.distinct).sublist (order.map _)

end WalManager

end Merutable
