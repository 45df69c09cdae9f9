import Merutable.Foundation.Runs
import Merutable.Wal.Physical
import Merutable.Wal.Wire

/-! `WalManager::append` with sink calls that fail, and `WalManager::recover_from_dir`. -/

namespace Merutable.Wal

open Foundation (Run)

/-- What fails in an append: a sink call, with as many of its bytes in the file, or the sync. -/
inductive AppendFault where
  | write (call persisted : Nat)
  | sync
  deriving DecidableEq

/-- The batches of the payloads up to the first one that is none. -/
def decodeAll : List Bytes → List Wire.WriteBatch
  | [] => []
  | payload :: rest =>
    match Wire.WriteBatch.decode payload with
    | .error _ => []
    | .ok batch => batch :: decodeAll rest

def lastSeq (batch : Wire.WriteBatch) : Nat := batch.sequence + (batch.records.length - 1)

structure Recovered where
  batches : List Wire.WriteBatch
  maxSeq : Nat
  maxLogNumber : Nat
  deriving DecidableEq

section Crc

variable (crc : Bytes → UInt32)

def appendWrites (writer : LogWriter) (batch : Wire.WriteBatch) : List SinkWrite :=
  Physical.addRecord crc .legacy writer.blockOffset batch.encode true

/-- `append` and whether it returns `Ok`; `none` if the call that should fail is not made. -/
def LogWriter.append (writer : LogWriter) (batch : Wire.WriteBatch) :
    Option AppendFault → Option (LogWriter × Bool)
  | none => some (writer.run (appendWrites crc writer batch) none, true)
  | some .sync => some (writer.run (appendWrites crc writer batch) none, false)
  | some (.write call persisted) =>
    if call < (appendWrites crc writer batch).length then
      some (writer.run (appendWrites crc writer batch) (some (call, persisted)), false)
    else none

def recoverFile (file : Bytes) : List Wire.WriteBatch :=
  decodeAll (Physical.untilError (Physical.records crc .legacy (.start file)))

/-- `recover_from_dir` on the log files of the directory. -/
def recoverFromDir (files : List (Nat × Bytes)) : Recovered :=
  let logs := files.insertionSort fun a b => a.1 ≤ b.1
  let batches := logs.flatMap fun log => recoverFile crc log.2
  ⟨batches, (batches.map lastSeq).foldl max 0, (logs.map Prod.fst).foldl max 0⟩

/-- The current log and the batches whose append has returned `Ok`. -/
structure LogState where
  writer : LogWriter
  accepted : List Wire.WriteBatch
  deriving DecidableEq

def LogState.opened : LogState := ⟨LogWriter.empty, []⟩

def appendStep (s : LogState) (call : Wire.WriteBatch × Option AppendFault) : Option LogState :=
  match s.writer.append crc call.1 call.2 with
  | none => none
  | some (writer, true) => some ⟨writer, s.accepted ++ [call.1]⟩
  | some (writer, false) => some ⟨writer, s.accepted⟩

/-- The log after the batches were appended one after the other and nothing has failed. -/
def writeAll (writer : LogWriter) : List Wire.WriteBatch → LogWriter
  | [] => writer
  | batch :: rest => writeAll (writer.run (appendWrites crc writer batch) none) rest

/-- No trace of a half-written record: failed appends have left nothing or all of theirs. -/
def LogWriter.Clean (writer : LogWriter) : Prop :=
  ∃ batches : List Wire.WriteBatch, (∀ batch ∈ batches, batch.Loggable) ∧
    writer = writeAll crc LogWriter.empty batches

/-- An append that does not fail starts on a clean log, with less than `2 ^ 32` records. -/
def AppendsClean (s : LogState) (call : Wire.WriteBatch × Option AppendFault) : Prop :=
  call.2 = none → s.writer.Clean crc ∧ call.1.Loggable

end Crc

variable {crc : Bytes → UInt32} {writer : LogWriter} {batch : Wire.WriteBatch}
  {batches : List Wire.WriteBatch} {s t : LogState}

theorem encode_ne_nil (batch : Wire.WriteBatch) : batch.encode ≠ [] :=
  List.ne_nil_of_length_pos (lt_of_lt_of_le (by decide) batch.encode_long)

theorem writeAll_records (crc : Bytes → UInt32) (writer : LogWriter)
    (batches : List Wire.WriteBatch) :
    ∃ bytes, (writeAll crc writer batches).file = writer.file ++ bytes ∧
      ∀ (reader : Physical.LogReader) tail, writer.blockOffset ≤ blockSize →
        reader.blockOffset = writer.blockOffset % blockSize → reader.rest = bytes ++ tail →
        ∃ next : Physical.LogReader, next.rest = tail ∧
          Physical.untilError (Physical.records crc .legacy reader) =
            batches.map Wire.WriteBatch.encode ++
              Physical.untilError (Physical.records crc .legacy next) := by
  induction batches generalizing writer with
  | nil =>
    refine ⟨[], (List.append_nil _).symm, ?_⟩
    intro reader tail _ _ rest
    exact ⟨reader, rest, rfl⟩
  | cons batch later ih =>
    obtain ⟨bytes, file, read⟩ := ih (writer.run (appendWrites crc writer batch) none)
    refine ⟨sunk (appendWrites crc writer batch) ++ bytes, ?_, ?_⟩
    · rw [writeAll, file, LogWriter.run_none, List.append_assoc]
    · intro reader tail bounded offset rest
      rw [List.append_assoc] at rest
      obtain ⟨next, found, behind, stands⟩ := (Physical.nextRecord_take none bounded
        (encode_ne_nil batch) offset (rest.trans (List.take_length).symm)).complete (by
          rw [List.length_append]
          exact Nat.le_add_right _ _)
      have left : next.rest = bytes ++ tail := by
        rw [behind, List.length_append]
        exact List.take_of_length_le (Nat.add_sub_cancel_left _ _).ge
      rw [LogWriter.run_none] at read
      obtain ⟨last, ends, yields⟩ := read next tail (Physical.written_le bounded) stands left
      refine ⟨last, ends, ?_⟩
      rw [Physical.records_of_some found, Physical.untilError, yields]
      rfl

theorem decodeAll_encode (payloads : List Bytes) (loggable : ∀ batch ∈ batches, batch.Loggable) :
    decodeAll (batches.map Wire.WriteBatch.encode ++ payloads) =
      batches.map Wire.WriteBatch.present ++ decodeAll payloads := by
  induction batches with
  | nil => rfl
  | cons batch rest ih =>
    have head := Wire.WriteBatch.decode_encode (loggable batch List.mem_cons_self)
    have tail := ih fun other member => loggable other (List.mem_cons_of_mem _ member)
    rw [List.map_cons, List.cons_append, decodeAll, head]
    exact congrArg (batch.present :: ·) tail

theorem recoverFile_writeAll (crc : Bytes → UInt32) (tail : Bytes)
    (loggable : ∀ batch ∈ batches, batch.Loggable) :
    ∃ next : Physical.LogReader, next.rest = tail ∧
      recoverFile crc ((writeAll crc LogWriter.empty batches).file ++ tail) =
        batches.map Wire.WriteBatch.present ++
          decodeAll (Physical.untilError (Physical.records crc .legacy next)) := by
  obtain ⟨bytes, file, read⟩ := writeAll_records crc LogWriter.empty batches
  obtain ⟨next, ends, found⟩ := read (.start (bytes ++ tail)) tail (Nat.zero_le _) rfl rfl
  refine ⟨next, ends, ?_⟩
  rw [file, recoverFile, show LogWriter.empty.file ++ bytes = bytes from rfl, found,
    decodeAll_encode _ loggable]

theorem recoverFile_clean (loggable : ∀ batch ∈ batches, batch.Loggable) :
    recoverFile crc (writeAll crc LogWriter.empty batches).file =
      batches.map Wire.WriteBatch.present := by
  obtain ⟨next, ends, found⟩ := recoverFile_writeAll crc [] loggable
  have stops := @Physical.stops_of_empty crc .legacy next ends
  rw [List.append_nil, Physical.records_of_none (Physical.nextRecord_of_stops stops none)] at found
  rw [found]
  exact List.append_nil _

theorem LogWriter.run_prefix (writer : LogWriter) (writes : List SinkWrite)
    (fault : Option (Nat × Nat)) : writer.file <+: (writer.run writes fault).file := by
  induction writes generalizing writer fault with
  | nil => exact List.prefix_rfl
  | cons write rest ih =>
    match fault with
    | none => exact (List.prefix_append _ _).trans (ih ⟨_, _⟩ none)
    | some (0, persisted) => exact List.prefix_append _ _
    | some (call + 1, persisted) =>
      exact (List.prefix_append _ _).trans (ih ⟨_, _⟩ (some (call, persisted)))

theorem writeAll_append (writer : LogWriter) (batches : List Wire.WriteBatch)
    (batch : Wire.WriteBatch) :
    writeAll crc writer (batches ++ [batch]) =
      (writeAll crc writer batches).run
        (appendWrites crc (writeAll crc writer batches) batch) none := by
  induction batches generalizing writer with
  | nil => rfl
  | cons first rest ih => exact ih _

/-- The file starts with a clean log that holds the accepted batches. -/
def LogState.Kept (crc : Bytes → UInt32) (s : LogState) : Prop :=
  ∃ batches : List Wire.WriteBatch, (∀ batch ∈ batches, batch.Loggable) ∧
    (s.accepted.map Wire.WriteBatch.present).Sublist (batches.map Wire.WriteBatch.present) ∧
    (writeAll crc LogWriter.empty batches).file <+: s.writer.file

theorem opened_kept : LogState.opened.Kept crc :=
  ⟨[], by simp, List.Sublist.refl _, List.prefix_rfl⟩

theorem clean_prefix {batches others : List Wire.WriteBatch}
    (loggable : ∀ batch ∈ batches, batch.Loggable)
    (clean : ∀ batch ∈ others, batch.Loggable)
    (starts : (writeAll crc LogWriter.empty batches).file <+:
      (writeAll crc LogWriter.empty others).file) :
    batches.map Wire.WriteBatch.present <+: others.map Wire.WriteBatch.present := by
  obtain ⟨tail, same⟩ := starts
  obtain ⟨_, _, found⟩ := recoverFile_writeAll crc tail loggable
  rw [same, recoverFile_clean clean] at found
  rw [found]
  exact List.prefix_append _ _

theorem kept_step {call : Wire.WriteBatch × Option AppendFault} (kept : s.Kept crc)
    (met : AppendsClean crc s call) (fired : appendStep crc s call = some t) : t.Kept crc := by
  obtain ⟨batches, loggable, held, starts⟩ := kept
  obtain ⟨batch, fault⟩ := call
  have failed {writes : List SinkWrite} {at_ : Option (Nat × Nat)}
      (made : t = ⟨s.writer.run writes at_, s.accepted⟩) : t.Kept crc := by
    rw [made]
    exact ⟨batches, loggable, held, starts.trans (LogWriter.run_prefix _ _ _)⟩
  cases fault with
  | none =>
    obtain ⟨⟨others, clean, same⟩, small⟩ := met rfl
    cases fired
    rw [same] at starts
    have first := clean_prefix loggable clean starts
    refine ⟨others ++ [batch], ?_, ?_, ?_⟩
    · intro other member
      rcases List.mem_append.mp member with old | new
      · exact clean other old
      · cases List.mem_singleton.mp new
        exact small
    · rw [List.map_append, List.map_append]
      exact (held.trans first.sublist).append (List.Sublist.refl _)
    · rewrite [writeAll_append, ← same]
      exact List.prefix_rfl
  | some fault =>
    cases fault with
    | sync =>
      cases fired
      exact failed rfl
    | write number persisted =>
      rw [appendStep] at fired
      simp only [LogWriter.append] at fired
      split at fired
      · cases fired
      · rename_i made
        split at made
        · cases made
        · cases made
      · rename_i made
        split at made <;> cases made
        cases fired
        exact failed rfl

theorem kept_run {calls : List (Wire.WriteBatch × Option AppendFault)} (kept : s.Kept crc)
    (run : Run (appendStep crc) (AppendsClean crc) s calls t) :
    t.Kept crc := by
  induction run with
  | nil => exact kept
  | cons met fired _ ih => exact ih (kept_step kept met fired)

theorem recoverFile_sublist {number : Nat} {file : Bytes} {files : List (Nat × Bytes)}
    (present : (number, file) ∈ files) :
    (recoverFile crc file).Sublist (recoverFromDir crc files).batches := by
  have listed : (number, file) ∈ files.insertionSort fun a b => a.1 ≤ b.1 :=
    (List.mem_insertionSort _).mpr present
  exact List.sublist_flatten_of_mem (List.mem_map_of_mem listed)

/-- As long as every append that succeeds starts on a clean log, recovery finds every batch whose
append has returned `Ok`, whatever the other log files are. -/
theorem accepted_batches_recovered {crc : Bytes → UInt32} {s : LogState}
    {calls : List (Wire.WriteBatch × Option AppendFault)} (files : List (Nat × Bytes))
    (number : Nat)
    (run : Run (appendStep crc) (AppendsClean crc) LogState.opened calls s) :
    (s.accepted.map Wire.WriteBatch.present).Sublist
      (recoverFromDir crc ((number, s.writer.file) :: files)).batches := by
  obtain ⟨batches, loggable, held, tail, same⟩ := kept_run opened_kept run
  obtain ⟨_, _, found⟩ := recoverFile_writeAll crc tail loggable
  rw [same] at found
  calc
    List.Sublist _ (batches.map Wire.WriteBatch.present) := held
    List.Sublist _ (recoverFile crc s.writer.file) := by
      rw [found]
      exact List.sublist_append_left _ _
    List.Sublist _ _ := recoverFile_sublist List.mem_cons_self

/-- The checksum of the log, bit by bit. -/
def crc32Bit (sum : UInt32) : UInt32 :=
  if sum &&& 1 = 1 then (sum >>> 1) ^^^ 0xEDB88320 else sum >>> 1

def crc32 (bytes : Bytes) : UInt32 :=
  bytes.foldl (fun sum byte => crc32Bit^[8] (sum ^^^ byte.toUInt32)) 0xFFFFFFFF ^^^ 0xFFFFFFFF

/-- A put of a one-byte key with a value of some length. -/
def smallBatch (sequence key length : UInt8) : Wire.WriteBatch :=
  ⟨sequence.toNat, [⟨.put, [key], some (List.replicate length.toNat 7)⟩]⟩

theorem smallBatch_loggable (sequence key length : UInt8) :
    (smallBatch sequence key length).Loggable where
  sequence := lt_trans (UInt8.toNat_lt sequence) (by decide)
  count := by
    rw [smallBatch, List.length_singleton]
    decide
  fits := by
    intro record member
    cases List.mem_singleton.mp member
    refine ⟨by rw [List.length_singleton]; decide, ?_⟩
    intro value found
    cases Option.mem_some.mp found
    rw [List.length_replicate]
    exact lt_trans (UInt8.toNat_lt length) (by decide)

/-- The payload of the first append does not reach the file; the second append returns `Ok`. -/
def tornHeader : List (Wire.WriteBatch × Option AppendFault) :=
  [(smallBatch 1 107 40, some (.write 1 0)),
    (smallBatch 2 108 1, none)]

theorem accepted_batch_lost :
    ∃ s, Foundation.execute (appendStep crc32) LogState.opened tornHeader = some s ∧
      s.accepted = [smallBatch 2 108 1] ∧
      (recoverFromDir crc32 [(1, s.writer.file)]).batches = [] := by
  refine ⟨Foundation.final (appendStep crc32) LogState.opened tornHeader, ?_, ?_, ?_⟩
  · exact Foundation.execute_final (by decide +kernel)
  · decide +kernel
  · decide +kernel

-- A record without its last byte is completed by the first byte of the next one: what is recovered
-- is the batch whose append has failed, and not the one that was accepted.
example : ∃ s, Foundation.execute (appendStep crc32) LogState.opened
    [(smallBatch 1 107 1, some (.write 1 16)), (smallBatch 2 232 1, none)] = some s ∧
    s.accepted = [smallBatch 2 232 1] ∧
    (recoverFromDir crc32 [(1, s.writer.file)]).batches = [smallBatch 1 107 1] :=
  ⟨Foundation.final (appendStep crc32) LogState.opened
    [(smallBatch 1 107 1, some (.write 1 16)), (smallBatch 2 232 1, none)],
    Foundation.execute_final (by decide +kernel), by decide +kernel, by decide +kernel⟩

/-- A sync that fails leaves the whole record and a write that persists nothing leaves none. -/
def quietFailures : List (Wire.WriteBatch × Option AppendFault) :=
  [(smallBatch 1 107 1, none), (smallBatch 2 108 1, some .sync),
    (smallBatch 3 109 1, some (.write 0 0))]

theorem accepted_batches_recovered_quiet :
    ∃ s, Run (appendStep crc32) (AppendsClean crc32) LogState.opened
        (quietFailures ++ [(smallBatch 4 110 1, none)]) s ∧
      s.accepted.map Wire.WriteBatch.sequence = [1, 4] ∧
      (s.accepted.map Wire.WriteBatch.present).Sublist
        (recoverFromDir crc32 [(1, s.writer.file)]).batches := by
  have failed (batch : Wire.WriteBatch) (fault : AppendFault) (s : LogState) :
      AppendsClean crc32 s (batch, some fault) := fun ok => nomatch ok
  have first : Run (appendStep crc32) (AppendsClean crc32) LogState.opened quietFailures
      (Foundation.final (appendStep crc32) LogState.opened quietFailures) := by
    apply Run.extend (.nil _) (by decide +kernel)
    · exact fun _ => ⟨⟨[], by simp, rfl⟩, smallBatch_loggable _ _ _⟩
    · intro other member s
      rcases List.mem_cons.mp member with rfl | member
      · exact failed _ _ _
      · cases List.mem_singleton.mp member
        exact failed _ _ _
  have clean : (Foundation.final (appendStep crc32) LogState.opened quietFailures).writer.Clean
      crc32 := by
    refine ⟨[smallBatch 1 107 1, smallBatch 2 108 1], ?_, ?_⟩
    · intro batch member
      rcases List.mem_cons.mp member with rfl | member
      · exact smallBatch_loggable _ _ _
      · cases List.mem_singleton.mp member
        exact smallBatch_loggable _ _ _
    · decide +kernel
  have second : Run (appendStep crc32) (AppendsClean crc32) LogState.opened
      (quietFailures ++ [(smallBatch 4 110 1, none)]) _ :=
    first.extend (by decide +kernel) (fun _ => ⟨clean, smallBatch_loggable _ _ _⟩) (by simp)
  exact ⟨_, second, by decide +kernel, accepted_batches_recovered [] 1 second⟩

end Merutable.Wal
