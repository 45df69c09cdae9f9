import Merutable.Engine.Config
import Merutable.Iceberg

/-! `engine::compaction`: the choice of input files, the merging iterator and the split of its
output into files. -/

namespace Merutable.Compaction

open Foundation

def u64Max : Nat := 2 ^ 64 - 1

def saturatingAdd (a b : Nat) : Nat := min (a + b) u64Max

/-- What a job holds after its pick: the version it was made on, the chosen files of the input level
and the files of the next level that they overlap. -/
structure JobPlan where
  inputLevel : Nat
  version : Version
  inputs : List DataFileMeta
  overlap : List DataFileMeta
  deriving DecidableEq

namespace JobPlan

def outputLevel (plan : JobPlan) : Nat := plan.inputLevel + 1

def sources (plan : JobPlan) : List DataFileMeta := plan.inputs ++ plan.overlap

end JobPlan

/-- Files are taken in order while they stay within the byte and row limits; the first one
always. -/
def takeWithin (config : Config) : Nat → Nat → Bool → List DataFileMeta → List DataFileMeta
  | _, _, _, [] => []
  | bytes, rows, picked, ref :: rest =>
    if picked ∧ (config.maxCompactionBytes < bytes + ref.file.fileSize ∨
        0 < config.maxCompactionInputRows ∧
          config.maxCompactionInputRows < rows + ref.file.numRows) then []
    else ref :: takeWithin config (bytes + ref.file.fileSize) (rows + ref.file.numRows) true rest

/-- Oldest first on level 0, by key on the other levels. -/
def pickInputs (config : Config) (version : Version) (level : Nat) : List DataFileMeta :=
  takeWithin config 0 0 false
    (if level = 0 then
      (version.filesAt 0).insertionSort fun a b => a.file.seqMin ≤ b.file.seqMin
    else version.filesAt level)

def unionMin : List DataFileMeta → Option Bytes
  | [] => none
  | ref :: rest =>
    match unionMin rest with
    | none => some ref.file.keyMin
    | some least => some (min ref.file.keyMin least)

def unionMax : List DataFileMeta → Option Bytes
  | [] => none
  | ref :: rest =>
    match unionMax rest with
    | none => some ref.file.keyMax
    | some most => some (max ref.file.keyMax most)

/-- Files of the output level that intersect the key range of the inputs. -/
def overlapping (version : Version) (outputLevel : Nat) (inputs : List DataFileMeta) :
    List DataFileMeta :=
  match unionMin inputs, unionMax inputs with
  | some low, some high => (version.filesAt outputLevel).filter fun ref =>
    (ref.file.keyMin = [] ∨ ref.file.keyMin ≤ high) ∧ (ref.file.keyMax = [] ∨ low ≤ ref.file.keyMax)
  | _, _ => []

/-- `none` when the level has no file. -/
def plan (config : Config) (version : Version) (level : Nat) : Option JobPlan :=
  let picked := (pickInputs config version level).map DataFileMeta.path
  let inputs := (version.filesAt level).filter fun ref => ref.path ∈ picked
  if inputs = [] then none
  else some ⟨level, version, inputs, overlapping version (level + 1) inputs⟩

def shouldDropTombstones (config : Config) (outputLevel : Nat) : Bool :=
  config.levelTargetBytes.length < outputLevel

/-- Of every key the first version is kept, unless it is a tombstone to be dropped; later versions
only from `oldestSnapshotSeq` on. -/
def dedupe (oldestSnapshotSeq : Nat) (dropTombstones : Bool) :
    Option UserKey → List Entry → List Entry
  | _, [] => []
  | last, entry :: rest =>
    if last = some entry.key then
      if oldestSnapshotSeq ≤ entry.seq then
        entry :: dedupe oldestSnapshotSeq dropTombstones last rest
      else dedupe oldestSnapshotSeq dropTombstones last rest
    else if dropTombstones ∧ entry.value.opType = .delete ∧ entry.seq < oldestSnapshotSeq then
      dedupe oldestSnapshotSeq dropTombstones (some entry.key) rest
    else entry :: dedupe oldestSnapshotSeq dropTombstones (some entry.key) rest

def iterator (fileEntries : List (List Entry)) (oldestSnapshotSeq : Nat) (dropTombstones : Bool) :
    List Entry :=
  dedupe oldestSnapshotSeq dropTombstones none (Entry.sort fileEntries.flatten)

/-- The tombstones the iterator drops. -/
def dedupeDropped (oldestSnapshotSeq : Nat) (dropTombstones : Bool) :
    Option UserKey → List Entry → List Entry
  | _, [] => []
  | last, entry :: rest =>
    if last = some entry.key then dedupeDropped oldestSnapshotSeq dropTombstones last rest
    else if dropTombstones ∧ entry.value.opType = .delete ∧ entry.seq < oldestSnapshotSeq then
      entry :: dedupeDropped oldestSnapshotSeq dropTombstones (some entry.key) rest
    else dedupeDropped oldestSnapshotSeq dropTombstones (some entry.key) rest

def fieldBytes : FieldValue → Nat
  | .boolean _ => 1
  | .int32 _ => 4
  | .float _ => 4
  | .int64 _ => 8
  | .double _ => 8
  | .bytes value => value.length + 8

def estimateRowBytes (row : Row) : Nat :=
  (row.fields.map fun field => (field.map fieldBytes).getD 0).sum

/-- The row stored with the entry: the row of a put, the pre-image of a delete. -/
def storedRow : EntryValue → Row
  | .put row => row
  | .delete (some row) => row
  | .delete none => ⟨[]⟩

def targetOutputFileBytes : Nat := 512 * 1024 * 1024

def estimate (entry : Entry) : Nat :=
  estimateRowBytes (storedRow entry.value) + entry.key.bytes.length + 16

/-- The output is cut where the current chunk is full and the key changes. -/
def chunksFrom (estimate : Entry → Nat) (current : List Entry) (approxBytes : Nat) :
    List Entry → List (List Entry)
  | [] => if current = [] then [] else [current]
  | entry :: rest =>
    if current ≠ [] ∧ targetOutputFileBytes < approxBytes + estimate entry ∧
        current.getLast?.map Entry.key ≠ some entry.key then
      current :: chunksFrom estimate [entry] (estimate entry) rest
    else chunksFrom estimate (current ++ [entry]) (approxBytes + estimate entry) rest

def mergedRows (config : Config) (plan : JobPlan) (readSeq : Nat) : List Entry :=
  iterator (plan.sources.map DataFileMeta.liveRows) readSeq
    (shouldDropTombstones config plan.outputLevel)

def droppedTombstones (config : Config) (plan : JobPlan) (readSeq : Nat) : List Entry :=
  dedupeDropped readSeq (shouldDropTombstones config plan.outputLevel) none
    (Entry.sort (plan.sources.map DataFileMeta.liveRows).flatten)

def chunks (config : Config) (plan : JobPlan) (readSeq : Nat) : List (List Entry) :=
  chunksFrom estimate [] 0 (mergedRows config plan readSeq)

def writeChunks (lib : ParquetLib) (level : Nat) : Nat → List (List Entry) → List DataFile
  | _, [] => []
  | path, chunk :: rest =>
    (DataFile.write lib path level chunk).toList ++ writeChunks lib level (path + 1) rest

/-- The output files, under consecutive fresh paths. -/
def outputs (config : Config) (plan : JobPlan) (readSeq firstPath : Nat) : List DataFile :=
  writeChunks config.lib plan.outputLevel firstPath (chunks config plan readSeq)

theorem dedupe_sublist (oldest : Nat) (drop : Bool) (last : Option UserKey) (entries : List Entry) :
    (dedupe oldest drop last entries).Sublist entries := by
  induction entries generalizing last with
  | nil => simp [dedupe]
  | cons entry rest ih =>
    simp only [dedupe]
    split
    · split
      · exact (ih _).cons_cons entry
      · exact (ih _).cons entry
    · split
      · exact (ih _).cons entry
      · exact (ih _).cons_cons entry

section Iterator

variable {oldest : Nat} {drop : Bool} {last : Option UserKey} {entries : List Entry} {entry : Entry}
  {key : UserKey}

theorem dedupe_recent (present : entry ∈ entries) (recent : oldest ≤ entry.seq) :
    entry ∈ dedupe oldest drop last entries := by
  induction entries generalizing last with
  | nil => cases present
  | cons first rest ih =>
    have later (last : Option UserKey) (inRest : entry ∈ rest) :
        entry ∈ dedupe oldest drop last rest := ih inRest
    rw [dedupe]
    rcases List.mem_cons.mp present with rfl | inRest
    · have kept : ¬ (drop = true ∧ entry.value.opType = .delete ∧ entry.seq < oldest) :=
        fun dropped => absurd dropped.2.2 (Nat.not_lt.mpr recent)
      rw [if_pos recent, if_neg kept]
      split
      · exact List.mem_cons_self
      · exact List.mem_cons_self
    · split
      · split
        · exact List.mem_cons_of_mem _ (later _ inRest)
        · exact later _ inRest
      · split
        · exact later _ inRest
        · exact List.mem_cons_of_mem _ (later _ inRest)

theorem newest_first {first : Entry} {rest : List Entry}
    (front : ∀ other ∈ rest, first.ikeyLe other)
    (present : entry ∈ first :: rest)
    (top : ∀ other ∈ first :: rest, other.key = entry.key → other.seq ≤ entry.seq)
    (single : ∀ other ∈ first :: rest, other.key = entry.key → other.seq = entry.seq →
      other = entry) : first = entry ∨ first.key ≠ entry.key ∧ entry ∈ rest := by
  rcases List.mem_cons.mp present with rfl | later
  · exact .inl rfl
  · by_cases sameKey : first.key = entry.key
    · have below := (front entry later).versionOrder.seq_le sameKey
      have above := top first List.mem_cons_self sameKey
      exact .inl (single first List.mem_cons_self sameKey (Nat.le_antisymm above below))
    · exact .inr ⟨sameKey, later⟩

/-- The newest version of a key is kept, or it is a tombstone that the iterator drops. -/
theorem dedupe_newest (sorted : entries.Pairwise Entry.ikeyLe) (present : entry ∈ entries)
    (fresh : last ≠ some entry.key)
    (top : ∀ other ∈ entries, other.key = entry.key → other.seq ≤ entry.seq)
    (single : ∀ other ∈ entries, other.key = entry.key → other.seq = entry.seq → other = entry) :
    if drop = true ∧ entry.value.opType = .delete ∧ entry.seq < oldest then
      entry ∈ dedupeDropped oldest drop last entries
    else entry ∈ dedupe oldest drop last entries := by
  induction entries generalizing last with
  | nil => cases present
  | cons first rest ih =>
    obtain ⟨front, tail⟩ := List.pairwise_cons.mp sorted
    have later {last : Option UserKey} (fresh : last ≠ some entry.key) (inRest : entry ∈ rest) :=
      ih tail inRest fresh (fun other member => top other (List.mem_cons_of_mem _ member))
        fun other member => single other (List.mem_cons_of_mem _ member)
    rw [dedupe, dedupeDropped]
    rcases newest_first front present top single with rfl | ⟨different, inRest⟩
    · rw [if_neg fresh, if_neg fresh]
      split <;> exact List.mem_cons_self
    · by_cases same : last = some first.key
      · have kept := later fresh inRest
        rw [if_pos same, if_pos same]
        grind
      · have kept := later (fun same => different (Option.some.inj same)) inRest
        rw [if_neg same, if_neg same]
        grind

theorem dedupe_skips (sorted : entries.Pairwise Entry.ikeyLe)
    (reached : ∀ other ∈ entries, key ≤ other.key)
    (old : ∀ other ∈ entries, other.key = key → other.seq < oldest) :
    ∀ kept ∈ dedupe oldest drop (some key) entries, kept.key ≠ key := by
  induction entries with
  | nil => simp [dedupe]
  | cons first rest ih =>
    obtain ⟨front, tail⟩ := List.pairwise_cons.mp sorted
    intro kept member
    by_cases same : first.key = key
    · have below := old first List.mem_cons_self same
      rw [dedupe, if_pos (by rw [same]), if_neg (Nat.not_le.mpr below)] at member
      exact ih tail (fun other inRest => reached other (List.mem_cons_of_mem _ inRest))
        (fun other inRest => old other (List.mem_cons_of_mem _ inRest)) kept member
    · have above : key < first.key :=
        lt_of_le_of_ne (reached first List.mem_cons_self) (Ne.symm same)
      have inEntries := (dedupe_sublist oldest drop (some key) (first :: rest)).subset member
      rcases List.mem_cons.mp inEntries with rfl | inRest
      · exact above.ne'
      · exact (above.trans_le (front kept inRest).versionOrder.key_le).ne'

theorem dedupeDropped_sublist (oldest : Nat) (drop : Bool) (last : Option UserKey)
    (entries : List Entry) : (dedupeDropped oldest drop last entries).Sublist entries := by
  induction entries generalizing last with
  | nil => simp [dedupeDropped]
  | cons entry rest ih =>
    simp only [dedupeDropped]
    split
    · exact (ih _).cons entry
    · split
      · exact (ih _).cons_cons entry
      · exact (ih _).cons entry

theorem dedupeDropped_fires (dropped : entry ∈ dedupeDropped oldest drop last entries) :
    drop = true ∧ entry.value.opType = .delete ∧ entry.seq < oldest := by
  induction entries generalizing last with
  | nil => cases dropped
  | cons first rest ih =>
    simp only [dedupeDropped] at dropped
    split at dropped
    · exact ih dropped
    · split at dropped
      · rename_i fires
        rcases List.mem_cons.mp dropped with rfl | later
        · exact fires
        · exact ih later
      · exact ih dropped

theorem dedupeDropped_fresh (sorted : entries.Pairwise Entry.ikeyLe)
    (reached : ∀ other ∈ entries, key ≤ other.key)
    (dropped : entry ∈ dedupeDropped oldest drop (some key) entries) : key < entry.key := by
  induction entries with
  | nil => cases dropped
  | cons first rest ih =>
    obtain ⟨front, tail⟩ := List.pairwise_cons.mp sorted
    by_cases same : key = first.key
    · rw [dedupeDropped, if_pos (by rw [same])] at dropped
      exact ih tail (fun other member => reached other (List.mem_cons_of_mem _ member)) dropped
    · have above : key < first.key := lt_of_le_of_ne (reached first List.mem_cons_self) same
      rcases List.mem_cons.mp ((dedupeDropped_sublist ..).subset dropped) with rfl | later
      · exact above
      · exact lt_of_lt_of_le above (front entry later).versionOrder.key_le

theorem dedupe_dropped (sorted : entries.Pairwise Entry.ikeyLe)
    (dropped : entry ∈ dedupeDropped oldest drop last entries) :
    ∀ kept ∈ dedupe oldest drop last entries, kept.key ≠ entry.key := by
  induction entries generalizing last with
  | nil => cases dropped
  | cons first rest ih =>
    obtain ⟨front, tail⟩ := List.pairwise_cons.mp sorted
    have next : ∀ other ∈ rest, first.key ≤ other.key :=
      fun other member => (front other member).versionOrder.key_le
    have onward : entry ∈ dedupeDropped oldest drop (some first.key) rest →
        ∀ kept ∈ first :: dedupe oldest drop (some first.key) rest, kept.key ≠ entry.key := by
      intro later kept member
      rcases List.mem_cons.mp member with rfl | inRest
      · exact (dedupeDropped_fresh tail next later).ne
      · exact ih tail later kept inRest
    intro kept member
    rw [dedupe] at member
    rw [dedupeDropped] at dropped
    by_cases met : last = some first.key
    · rw [if_pos met] at member dropped
      rw [met] at member dropped
      split at member
      · exact onward dropped kept member
      · exact onward dropped kept (List.mem_cons_of_mem _ member)
    · rw [if_neg met] at member dropped
      by_cases fires : drop = true ∧ first.value.opType = .delete ∧ first.seq < oldest
      · rw [if_pos fires] at member dropped
        rcases List.mem_cons.mp dropped with rfl | later
        · refine dedupe_skips tail next ?_ kept member
          intro other inRest same
          exact lt_of_le_of_lt ((front other inRest).versionOrder.seq_le same.symm) fires.2.2
        · exact ih tail later kept member
      · rw [if_neg fires] at member dropped
        exact onward dropped kept member

end Iterator

theorem mergedRows_sorted (config : Config) (plan : JobPlan) (readSeq : Nat) :
    (mergedRows config plan readSeq).Pairwise Entry.ikeyLe :=
  (Entry.sort_sorted _).sublist (dedupe_sublist _ _ _ _)

variable {config : Config} {lib : ParquetLib} {level path : Nat} {version : Version}

theorem mem_mergedRows {plan : JobPlan} {readSeq : Nat} {row : Entry}
    (member : row ∈ mergedRows config plan readSeq) :
    ∃ ref ∈ plan.sources, row ∈ ref.liveRows := by
  have inSort := (dedupe_sublist _ _ _ _).subset member
  rw [Entry.mem_sort, List.mem_flatten] at inSort
  obtain ⟨rows, listed, inRows⟩ := inSort
  obtain ⟨ref, source, rfl⟩ := List.mem_map.mp listed
  exact ⟨ref, source, inRows⟩

section Chunks

variable {estimate : Entry → Nat}

theorem chunksFrom_flatten (current : List Entry) (approxBytes : Nat) (entries : List Entry) :
    (chunksFrom estimate current approxBytes entries).flatten = current ++ entries := by
  induction entries generalizing current approxBytes with
  | nil =>
    rw [chunksFrom]
    split
    · rename_i empty
      simp [empty]
    · simp
  | cons entry rest ih =>
    rw [chunksFrom]
    split
    · rw [List.flatten_cons, ih]
      rfl
    · rw [ih, List.append_assoc]
      rfl

theorem chunksFrom_ne_nil (current : List Entry) (approxBytes : Nat) (entries : List Entry) :
    ∀ chunk ∈ chunksFrom estimate current approxBytes entries, chunk ≠ [] := by
  induction entries generalizing current approxBytes with
  | nil =>
    rw [chunksFrom]
    split
    · simp
    · rename_i nonempty
      simpa using nonempty
  | cons entry rest ih =>
    rw [chunksFrom]
    split
    · rename_i full
      intro chunk member
      rcases List.mem_cons.mp member with rfl | later
      · exact full.1
      · exact ih _ _ chunk later
    · exact ih _ _

theorem keys_below {rows rest : List Entry} {entry : Entry}
    (order : (rows ++ entry :: rest).Pairwise fun a b => a.key ≤ b.key)
    (change : rows.getLast?.map Entry.key ≠ some entry.key) :
    ∀ row ∈ rows, row.key < entry.key := by
  obtain ⟨inner, _, across⟩ := List.pairwise_append.mp order
  rcases List.eq_nil_or_concat rows with rfl | ⟨before, last, rfl⟩
  · simp
  · rw [List.concat_eq_append] at *
    rw [List.getLast?_append, List.getLast?_singleton] at change
    have boundary : last.key < entry.key :=
      lt_of_le_of_ne (across last (by simp) entry List.mem_cons_self)
        fun same => change (congrArg some same)
    intro row member
    rcases List.mem_append.mp member with early | here
    · exact lt_of_le_of_lt ((List.pairwise_append.mp inner).2.2 row early last (by simp)) boundary
    · rwa [List.mem_singleton.mp here]

theorem chunksFrom_ascending {current entries : List Entry} (approxBytes : Nat)
    (order : (current ++ entries).Pairwise fun a b => a.key ≤ b.key) :
    (chunksFrom estimate current approxBytes entries).Pairwise fun early late =>
      ∀ a ∈ early, ∀ b ∈ late, a.key < b.key := by
  induction entries generalizing current approxBytes with
  | nil =>
    rw [chunksFrom]
    split
    · exact List.Pairwise.nil
    · exact List.pairwise_singleton _ _
  | cons entry rest ih =>
    rw [chunksFrom]
    split
    · rename_i full
      have tail := (List.pairwise_append.mp order).2.1
      refine List.pairwise_cons.mpr ⟨?_, ih _ tail⟩
      intro chunk member a inCurrent b inChunk
      have inRest : b ∈ entry :: rest := by
        have flat := @chunksFrom_flatten estimate [entry] (estimate entry) rest
        have inFlat := List.mem_flatten.mpr ⟨chunk, member, inChunk⟩
        rw [flat] at inFlat
        exact inFlat
      have after : entry.key ≤ b.key := by
        rcases List.mem_cons.mp inRest with rfl | later
        · exact le_rfl
        · exact (List.pairwise_cons.mp tail).1 b later
      exact lt_of_lt_of_le (keys_below order full.2.2 a inCurrent) after
    · apply ih
      simpa using order

end Chunks

theorem mem_writeChunks {chunks : List (List Entry)} {file : DataFile}
    (written : file ∈ writeChunks lib level path chunks) :
    file.level = level ∧ file.rows ∈ chunks ∧ path ≤ file.path ∧
      file.path < path + chunks.length := by
  induction chunks generalizing path with
  | nil => cases written
  | cons chunk rest ih =>
    rw [writeChunks, List.mem_append] at written
    rcases written with here | later
    · obtain ⟨samePath, sameLevel, sameRows⟩ := DataFile.write_some (Option.mem_toList.mp here)
      rw [samePath, sameRows, List.length_cons]
      exact ⟨sameLevel, List.mem_cons_self, le_rfl, by omega⟩
    · obtain ⟨sameLevel, listed, lower, upper⟩ := ih later
      rw [List.length_cons]
      exact ⟨sameLevel, List.mem_cons_of_mem _ listed, by omega, by omega⟩

theorem writeChunks_covers {chunks : List (List Entry)} {chunk : List Entry}
    (listed : chunk ∈ chunks) (nonempty : chunk ≠ []) (sorted : chunk.Pairwise Entry.ikeyLe) :
    ∃ file ∈ writeChunks lib level path chunks, file.rows = chunk := by
  induction chunks generalizing path with
  | nil => cases listed
  | cons first rest ih =>
    rcases List.mem_cons.mp listed with rfl | later
    · refine ⟨⟨path, level, lib.fileSize chunk, chunk, nonempty, sorted⟩, ?_, rfl⟩
      rw [writeChunks, DataFile.write_eq nonempty sorted]
      exact List.mem_append_left _ List.mem_cons_self
    · obtain ⟨file, member, same⟩ := @ih (path + 1) later
      exact ⟨file, List.mem_append_right _ member, same⟩

theorem writeChunks_ascending {chunks : List (List Entry)}
    (ascending : chunks.Pairwise fun early late => ∀ a ∈ early, ∀ b ∈ late, a.key < b.key) :
    (writeChunks lib level path chunks).Pairwise fun early late =>
      early.path < late.path ∧ ∀ a ∈ early.rows, ∀ b ∈ late.rows, a.key < b.key := by
  induction chunks generalizing path with
  | nil => exact List.Pairwise.nil
  | cons chunk rest ih =>
    obtain ⟨front, tail⟩ := List.pairwise_cons.mp ascending
    rw [writeChunks, List.pairwise_append]
    refine ⟨?_, ih tail, ?_⟩
    · cases DataFile.write lib path level chunk with
      | none => exact List.Pairwise.nil
      | some file => exact List.pairwise_singleton _ _
    · intro early here late later
      obtain ⟨samePath, _, sameRows⟩ := DataFile.write_some (Option.mem_toList.mp here)
      obtain ⟨_, listed, lower, _⟩ := mem_writeChunks later
      rw [samePath, sameRows]
      exact ⟨by omega, front late.rows listed⟩

section Outputs

variable {config : Config} {plan : JobPlan} {readSeq firstPath : Nat} {file other : DataFile}

theorem chunks_flatten : (chunks config plan readSeq).flatten = mergedRows config plan readSeq := by
  rw [chunks, chunksFrom_flatten, List.nil_append]

theorem mem_outputs {file : DataFile} (written : file ∈ outputs config plan readSeq firstPath) :
    file.level = plan.outputLevel ∧ firstPath ≤ file.path ∧
      file.path < firstPath + (chunks config plan readSeq).length ∧
      ∀ row ∈ file.rows, row ∈ mergedRows config plan readSeq := by
  obtain ⟨sameLevel, listed, lower, upper⟩ := mem_writeChunks written
  refine ⟨sameLevel, lower, upper, fun row member => ?_⟩
  rw [← chunks_flatten]
  exact List.mem_flatten.mpr ⟨file.rows, listed, member⟩

theorem outputs_cover {row : Entry} (merged : row ∈ mergedRows config plan readSeq) :
    ∃ file ∈ outputs config plan readSeq firstPath, row ∈ file.rows := by
  have flat := @chunks_flatten config plan readSeq
  rw [← flat] at merged
  obtain ⟨chunk, listed, inChunk⟩ := List.mem_flatten.mp merged
  have sorted : chunk.Pairwise Entry.ikeyLe := by
    have all := mergedRows_sorted config plan readSeq
    rw [← flat, List.pairwise_flatten] at all
    exact all.1 chunk listed
  obtain ⟨file, written, same⟩ := writeChunks_covers listed (chunksFrom_ne_nil _ _ _ chunk listed)
    sorted
  exact ⟨file, written, same ▸ inChunk⟩

theorem outputs_ascending : (outputs config plan readSeq firstPath).Pairwise fun early late =>
    early.path < late.path ∧ ∀ a ∈ early.rows, ∀ b ∈ late.rows, a.key < b.key := by
  apply writeChunks_ascending
  apply chunksFrom_ascending
  rw [List.nil_append]
  exact (mergedRows_sorted config plan readSeq).imp fun ordered => ordered.versionOrder.key_le

section

variable (written : file ∈ outputs config plan readSeq firstPath)
  (written' : other ∈ outputs config plan readSeq firstPath) (different : file ≠ other)
include written written' different

theorem outputs_separate :
    file.keyMax < other.keyMin ∨ other.keyMax < file.keyMin := by
  let Apart (a b : DataFile) := a.keyMax < b.keyMin ∨ b.keyMax < a.keyMin
  have symmetric : Std.Symm Apart := ⟨fun _ _ => Or.symm⟩
  have apart : (outputs config plan readSeq firstPath).Pairwise Apart := by
    refine outputs_ascending.imp fun {early late} ordered => ?_
    obtain ⟨last, lastIn, high⟩ := early.keyMax_mem
    obtain ⟨first, firstIn, low⟩ := late.keyMin_mem
    left
    rw [← high, ← low]
    exact ordered.2 last lastIn first firstIn
  exact apart.forall written written' different

theorem outputs_apart :
    ∀ a ∈ file.rows, ∀ b ∈ other.rows, a.key ≠ b.key := by
  intro a first b second same
  have low := DataFile.keyMin_le first
  have high := DataFile.le_keyMax first
  rw [same] at low high
  rcases outputs_separate written written' different with left | right
  · exact absurd left (not_lt.mpr ((DataFile.keyMin_le second).trans high))
  · exact absurd right (not_lt.mpr (low.trans (DataFile.le_keyMax second)))

end

end Outputs

theorem takeWithin_front (config : Config) (bytes rows : Nat) (picked : Bool)
    (files : List DataFileMeta) : takeWithin config bytes rows picked files <+: files := by
  induction files generalizing bytes rows picked with
  | nil => exact List.prefix_rfl
  | cons ref rest ih =>
    rw [takeWithin]
    split
    · exact List.nil_prefix
    · exact List.cons_prefix_cons.mpr ⟨rfl, ih _ _ _⟩

theorem mem_pickInputs {level : Nat} {ref : DataFileMeta}
    (picked : ref ∈ pickInputs config version level) : ref ∈ version.filesAt level := by
  have inFiles := (takeWithin_front _ _ _ _ _).subset picked
  split at inFiles
  · rename_i zero
    rw [zero]
    simpa using inFiles
  · exact inFiles

theorem pickInputs_oldest {ref older : DataFileMeta} (picked : ref ∈ pickInputs config version 0)
    (present : older ∈ version.filesAt 0) (before : older.file.seqMin < ref.file.seqMin) :
    older ∈ pickInputs config version 0 := by
  unfold pickInputs at picked ⊢
  rw [if_pos rfl] at picked ⊢
  have sorted := List.pairwise_insertionSort
    (fun a b : DataFileMeta => a.file.seqMin ≤ b.file.seqMin) (version.filesAt 0)
  obtain ⟨others, split⟩ := takeWithin_front config 0 0 false
    ((version.filesAt 0).insertionSort fun a b => a.file.seqMin ≤ b.file.seqMin)
  have listed : older ∈ (version.filesAt 0).insertionSort fun a b =>
      a.file.seqMin ≤ b.file.seqMin := (List.mem_insertionSort _).mpr present
  rw [← split] at listed sorted
  rcases List.mem_append.mp listed with taken | left
  · exact taken
  · have above := (List.pairwise_append.mp sorted).2.2 ref picked older left
    omega

theorem unionMin_eq (inputs : List DataFileMeta) :
    unionMin inputs = (inputs.map fun ref => ref.file.keyMin).min? := by
  induction inputs with
  | nil => rfl
  | cons ref rest ih =>
    rw [unionMin, ih, List.map_cons, List.min?_cons]
    cases (rest.map fun ref => ref.file.keyMin).min? <;> rfl

theorem unionMax_eq (inputs : List DataFileMeta) :
    unionMax inputs = (inputs.map fun ref => ref.file.keyMax).max? := by
  induction inputs with
  | nil => rfl
  | cons ref rest ih =>
    rw [unionMax, ih, List.map_cons, List.max?_cons]
    cases (rest.map fun ref => ref.file.keyMax).max? <;> rfl

section Plan

variable {config : Config} {version : Version} {level : Nat} {job : JobPlan} {ref : DataFileMeta}

section

variable (planned : plan config version level = some job)
include planned

theorem plan_eq :
    job.inputLevel = level ∧ job.version = version ∧ job.inputs ≠ [] ∧
      job.inputs = (version.filesAt level).filter (fun ref =>
        ref.path ∈ (pickInputs config version level).map DataFileMeta.path) ∧
      job.overlap = overlapping version (level + 1) job.inputs := by
  unfold plan at planned
  dsimp only at planned
  split at planned <;> cases planned
  rename_i nonempty
  exact ⟨rfl, rfl, nonempty, rfl, rfl⟩

theorem mem_plan_inputs (member : ref ∈ job.inputs) : ref ∈ version.files ∧ ref.level = level := by
  rw [(plan_eq planned).2.2.2.1] at member
  exact Version.mem_filesAt.mp (List.mem_filter.mp member).1

theorem mem_plan_overlap (member : ref ∈ job.overlap) :
    ref ∈ version.files ∧ ref.level = level + 1 := by
  rw [(plan_eq planned).2.2.2.2] at member
  unfold overlapping at member
  split at member
  · exact Version.mem_filesAt.mp (List.mem_filter.mp member).1
  · cases member

end

theorem plan_sources_paths (unique : (version.files.map DataFileMeta.path).Nodup)
    (planned : plan config version level = some job) :
    (job.sources.map DataFileMeta.path).Nodup := by
  obtain ⟨_, _, _, inputs, overlap⟩ := plan_eq planned
  rw [JobPlan.sources, List.map_append, List.nodup_append]
  refine ⟨?_, ?_, ?_⟩
  · rw [inputs]
    exact (Version.filesAt_paths unique level).sublist (List.filter_sublist.map _)
  · rw [overlap, overlapping]
    split
    · exact (Version.filesAt_paths unique (level + 1)).sublist (List.filter_sublist.map _)
    · exact List.nodup_nil
  · intro path inInputs other inOverlap same
    obtain ⟨a, first, rfl⟩ := List.mem_map.mp inInputs
    obtain ⟨b, second, rfl⟩ := List.mem_map.mp inOverlap
    have left := mem_plan_inputs planned first
    have right := mem_plan_overlap planned second
    have equal := List.inj_on_of_nodup_map unique left.1 right.1 same
    subst equal
    omega

theorem plan_oldest (unique : (version.files.map DataFileMeta.path).Nodup)
    (planned : plan config version 0 = some job) {ref older : DataFileMeta}
    (member : ref ∈ job.inputs) (present : older ∈ version.files) (zero : older.level = 0)
    (before : older.file.seqMin < ref.file.seqMin) : older ∈ job.inputs := by
  have inputs := (plan_eq planned).2.2.2.1
  rw [inputs] at member ⊢
  obtain ⟨listed, chosen⟩ := List.mem_filter.mp member
  obtain ⟨picked, inPick, samePath⟩ := List.mem_map.mp (of_decide_eq_true chosen)
  have pickedIn := (Version.mem_filesAt.mp (mem_pickInputs inPick)).1
  have refIn := (Version.mem_filesAt.mp listed).1
  have same : picked = ref := List.inj_on_of_nodup_map unique pickedIn refIn samePath
  subst same
  have olderIn : older ∈ version.filesAt 0 := Version.mem_filesAt.mpr ⟨present, zero⟩
  have olderPicked := pickInputs_oldest inPick olderIn before
  exact List.mem_filter.mpr ⟨olderIn, decide_eq_true (List.mem_map.mpr ⟨older, olderPicked, rfl⟩)⟩

theorem plan_range (planned : plan config version level = some job) :
    ∃ low high, (∀ ref ∈ job.inputs, low ≤ ref.file.keyMin ∧ ref.file.keyMax ≤ high) ∧
      (∀ ref ∈ job.overlap, ref.file.keyMin ≤ high ∧ low ≤ ref.file.keyMax) ∧
      ∀ ref ∈ version.files, ref.level = level + 1 → ref ∉ job.overlap →
        ref.file.keyMax < low ∨ high < ref.file.keyMin := by
  obtain ⟨_, _, nonempty, _, overlap⟩ := plan_eq planned
  obtain ⟨first, rest, split⟩ := List.exists_cons_of_ne_nil nonempty
  obtain ⟨low, lowest⟩ : ∃ low, unionMin job.inputs = some low := by
    rw [split, unionMin]
    split <;> exact ⟨_, rfl⟩
  obtain ⟨high, highest⟩ : ∃ high, unionMax job.inputs = some high := by
    rw [split, unionMax]
    split <;> exact ⟨_, rfl⟩
  refine ⟨low, high, ?_, ?_, ?_⟩
  · intro ref member
    rw [unionMin_eq, List.min?_eq_some_iff] at lowest
    rw [unionMax_eq, List.max?_eq_some_iff] at highest
    exact ⟨lowest.2 _ (List.mem_map_of_mem member), highest.2 _ (List.mem_map_of_mem member)⟩
  · intro ref member
    rw [overlap, overlapping, lowest, highest] at member
    have meets := of_decide_eq_true (List.mem_filter.mp member).2
    exact ⟨meets.1.resolve_left ref.file.keyMin_ne_nil, meets.2.resolve_left ref.file.keyMax_ne_nil⟩
  · intro ref present onLevel outside
    rw [overlap, overlapping, lowest, highest] at outside
    by_contra touching
    obtain ⟨right, left⟩ := not_or.mp touching
    apply outside
    exact List.mem_filter.mpr ⟨Version.mem_filesAt.mpr ⟨present, onLevel⟩,
      decide_eq_true ⟨.inr (not_lt.mp left), .inr (not_lt.mp right)⟩⟩

end Plan

end Merutable.Compaction
