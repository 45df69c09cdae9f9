import Merutable.Engine.System
import Merutable.Foundation.Batches
import Merutable.Foundation.Traversal
import Merutable.Key
import Merutable.Replica

/-! The change feed: the scan of the memtables and of level 0 behind `ChangeFeedCursor`, and the
stream that `InProcessLogSource` drains from it. -/

namespace Merutable

open Foundation

/-- Every version in the memtable, not only the newest one of each key. -/
def Memtable.iterAllVersions (memtable : Memtable) (readSeq : Nat) : List Entry :=
  memtable.skiplist.filter fun entry => entry.seq ≤ readSeq

def MemtableManager.snapshotAllVersions (manager : MemtableManager) (readSeq : Nat) : List Entry :=
  (manager.active :: manager.immutable.reverse).flatMap fun memtable =>
    memtable.iterAllVersions readSeq

structure ChangeTuple where
  seq : Nat
  opType : OpType
  row : Row
  pkBytes : Bytes
  deriving DecidableEq

structure ChangeRecord where
  seq : Nat
  op : ChangeOp
  row : Row
  pkBytes : Bytes
  deriving DecidableEq

namespace ChangeTuple

/-- A delete without a pre-image has an empty row. -/
def ofEntry (entry : Entry) (pkBytes : Bytes) : ChangeTuple :=
  ⟨entry.seq, entry.value.opType, Compaction.storedRow entry.value, pkBytes⟩

def sortBySeq (tuples : List ChangeTuple) : List ChangeTuple :=
  tuples.insertionSort fun a b => a.seq ≤ b.seq

end ChangeTuple

/-- The bytes of the key after `InternalKey::decode` and `InternalKey::encode_user_key`. -/
def reencodeKey (schema : TableSchema) (key : UserKey) : Except MeruError Bytes := do
  let values ← decodePkFields key.bytes schema
  InternalKey.encodeUserKey values schema

namespace System

variable (config : Config) (schema : TableSchema) (s : System)

def scanMemtableChanges (sinceSeq readSeq : Nat) : List ChangeTuple :=
  ChangeTuple.sortBySeq (((s.memtable.snapshotAllVersions readSeq).filter fun entry =>
    sinceSeq < entry.seq).map fun entry => ChangeTuple.ofEntry entry entry.key.bytes)

/-- The file is not opened when no sequence number of it can be in the range. -/
def opensForChanges (sinceSeq readSeq : Nat) (file : DataFile) : Bool :=
  !(file.seqMax ≤ sinceSeq || readSeq < file.seqMin)

/-- Reading a file decodes the keys of all its rows, the masked ones too. -/
def scanFileChanges (sinceSeq readSeq : Nat) (ref : DataFileMeta) :
    Except MeruError (List ChangeTuple) :=
  if opensForChanges sinceSeq readSeq ref.file then do
    let _ ← ref.file.rows.mapM fun row => decodePkFields row.key.bytes schema
    (ref.liveRows.filter fun row => sinceSeq < row.seq ∧ row.seq ≤ readSeq).mapM fun row => do
      let pkBytes ← reencodeKey schema row.key
      return ChangeTuple.ofEntry row pkBytes
  else .ok []

def scanTailChanges (sinceSeq readSeq : Nat) : Except MeruError (List ChangeTuple) := do
  let files ← (s.version.filesAt 0).mapM (scanFileChanges schema sinceSeq readSeq)
  return ChangeTuple.sortBySeq (s.scanMemtableChanges sinceSeq readSeq ++ files.flatten)

/-- No record has an empty key. -/
def pointLookupAtSeq (pkBytes : Bytes) (readSeq : Nat) : Option Row :=
  if nonempty : pkBytes ≠ [] then
    ReadPath.pointLookup config s.memtable s.version ⟨pkBytes, nonempty⟩ readSeq
  else none

/-- The row of a delete is what its key had at the sequence number before, if that can still be
found. -/
def withPreImage (tuple : ChangeTuple) : ChangeTuple :=
  if tuple.opType = .delete ∧ tuple.seq ≠ 0 then
    { tuple with row := (s.pointLookupAtSeq config tuple.pkBytes (tuple.seq - 1)).getD tuple.row }
  else tuple

def scanTailChangesWithPreImage (sinceSeq readSeq : Nat) : Except MeruError (List ChangeTuple) := do
  let tuples ← s.scanTailChanges schema sinceSeq readSeq
  return tuples.map (s.withPreImage config)

def changeOp (skipUpdateDiscrimination : Bool) (tuple : ChangeTuple) : ChangeOp :=
  match tuple.opType with
  | .delete => .delete
  | .put =>
    if skipUpdateDiscrimination then .insert
    else if tuple.seq ≠ 0 ∧ (s.pointLookupAtSeq config tuple.pkBytes (tuple.seq - 1)).isSome then
      .update
    else .insert

def changeRecord (skipUpdateDiscrimination : Bool) (tuple : ChangeTuple) : ChangeRecord :=
  ⟨tuple.seq, s.changeOp config skipUpdateDiscrimination tuple, tuple.row, tuple.pkBytes⟩

/-- What a cursor with an empty buffer puts into it. -/
def refill (skipUpdateDiscrimination : Bool) (sinceSeq : Nat) :
    Except MeruError (List ChangeRecord) := do
  let raw ← s.scanTailChangesWithPreImage config schema sinceSeq s.visibleSeq
  return raw.map (s.changeRecord config skipUpdateDiscrimination)

end System

inductive CursorInner where
  | engine (sinceSeq : Nat) (buffer : List ChangeRecord)
  | belowRetention (requested lowWater : Nat)

structure ChangeFeedCursor where
  inner : CursorInner
  skipUpdateDiscrimination : Bool

/-- What one call of `next_batch` reads of the engine. -/
structure EngineView where
  readSeq : Nat
  refill : Nat → Except MeruError (List ChangeRecord)

namespace ChangeFeedCursor

def fromEngine (sinceSeq : Nat) : ChangeFeedCursor := ⟨.engine sinceSeq [], false⟩

def newBelowRetention (requested lowWater : Nat) : ChangeFeedCursor :=
  ⟨.belowRetention requested lowWater, false⟩

def sinceSeq (cursor : ChangeFeedCursor) : Nat :=
  match cursor.inner with
  | .engine sinceSeq _ => sinceSeq
  | .belowRetention requested _ => requested

/-- The records that were read and wait for the next call. -/
def buffered (cursor : ChangeFeedCursor) : List ChangeRecord :=
  match cursor.inner with
  | .engine _ buffer => buffer
  | .belowRetention _ _ => []

/-- The head of the buffer; the cursor moves to the last record served. -/
def serve (cursor : ChangeFeedCursor) (sinceSeq : Nat) (buffer : List ChangeRecord)
    (maxRows : Nat) :
    ChangeFeedCursor × List ChangeRecord :=
  let out := buffer.take maxRows
  ({ cursor with
      inner := .engine ((out.getLast?.map ChangeRecord.seq).getD sinceSeq) (buffer.drop maxRows) },
    out)

/-- `next_batch`. -/
def nextBatchOf (view : EngineView) (cursor : ChangeFeedCursor) (maxRows : Nat) :
    Except MeruError (ChangeFeedCursor × List ChangeRecord) :=
  match cursor.inner with
  | .belowRetention requested lowWater => .error (.changeFeedBelowRetention requested lowWater)
  | .engine sinceSeq [] =>
    if view.readSeq ≤ sinceSeq then .ok (cursor, [])
    else do
      let buffer ← view.refill sinceSeq
      return cursor.serve sinceSeq buffer maxRows
  | .engine sinceSeq buffer => .ok (cursor.serve sinceSeq buffer maxRows)

/-- `next_batch`, with all its reads of the engine in one state. -/
def nextBatch (config : Config) (schema : TableSchema) (s : System) (cursor : ChangeFeedCursor)
    (maxRows : Nat) : Except MeruError (ChangeFeedCursor × List ChangeRecord) :=
  cursor.nextBatchOf ⟨s.visibleSeq, s.refill config schema cursor.skipUpdateDiscrimination⟩ maxRows

end ChangeFeedCursor

/-- A log source over the engine itself; a batch has room for at least one record. -/
structure InProcessLogSource where
  batchSize : Nat
  positive : 0 < batchSize

namespace InProcessLogSource

def new : InProcessLogSource := ⟨4096, by decide⟩

def withBatchSize (_ : InProcessLogSource) (size : Nat) : InProcessLogSource :=
  ⟨max size 1, by omega⟩

/-- The loop of `stream`; `none` when the fuel runs out. A record above the bound ends it. -/
def streamLoop (config : Config) (schema : TableSchema) (s : System) (source : InProcessLogSource)
    (upper : Nat) :
    Nat → ChangeFeedCursor → List ChangeRecord → Option (Except MeruError (List ChangeRecord))
  | 0, _, _ => none
  | fuel + 1, cursor, out =>
    match cursor.nextBatch config schema s source.batchSize with
    | .error error => some (.error error)
    | .ok (next, batch) =>
      if batch = [] then some (.ok out)
      else
        let kept := batch.takeWhile fun record => record.seq ≤ upper
        if kept ≠ batch ∨ upper ≤ next.sinceSeq then some (.ok (out ++ kept))
        else streamLoop config schema s source upper fuel next (out ++ kept)

/-- `stream`, with all its reads of the engine in one state. -/
def stream (config : Config) (schema : TableSchema) (s : System) (source : InProcessLogSource)
    (since fuel : Nat) : Option (Except MeruError (List ChangeRecord)) :=
  if s.visibleSeq ≤ since then some (.ok [])
  else streamLoop config schema s source s.visibleSeq fuel (.fromEngine since) []

end InProcessLogSource

/-- The versions in the memtables that the scan is about. -/
def System.memtableTail (s : System) (sinceSeq readSeq : Nat) : List Entry :=
  (s.memtable.snapshotAllVersions readSeq).filter fun entry => sinceSeq < entry.seq

/-- The unmasked rows of the file that the scan is about. -/
def DataFileMeta.tail (ref : DataFileMeta) (sinceSeq readSeq : Nat) : List Entry :=
  ref.liveRows.filter fun row => sinceSeq < row.seq ∧ row.seq ≤ readSeq

def System.level0Tail (s : System) (sinceSeq readSeq : Nat) : List Entry :=
  (s.version.filesAt 0).flatMap fun ref => ref.tail sinceSeq readSeq

/-- Everything the scan looks at, memtables first. -/
def System.tail (s : System) (sinceSeq readSeq : Nat) : List Entry :=
  s.memtableTail sinceSeq readSeq ++ s.level0Tail sinceSeq readSeq

section Scan

variable {config : Config} {schema : TableSchema} {s : System} {sinceSeq readSeq : Nat}
  {tuples : List ChangeTuple} {tuple : ChangeTuple} {entry : Entry} {ref : DataFileMeta}

theorem ChangeTuple.sortBySeq_perm (tuples : List ChangeTuple) : (sortBySeq tuples).Perm tuples :=
  List.perm_insertionSort _ tuples

theorem ChangeTuple.sortBySeq_ascending (tuples : List ChangeTuple) :
    (sortBySeq tuples).Pairwise fun a b => a.seq ≤ b.seq := by
  have total : Std.Total fun a b : ChangeTuple => a.seq ≤ b.seq := ⟨fun a b => Nat.le_total _ _⟩
  have trans : IsTrans ChangeTuple fun a b => a.seq ≤ b.seq := ⟨fun _ _ _ => Nat.le_trans⟩
  exact List.pairwise_insertionSort _ tuples

theorem ChangeTuple.find_sortBySeq (tuples : List ChangeTuple) (seq : Nat) :
    (sortBySeq tuples).find? (fun tuple => tuple.seq = seq) =
      tuples.find? fun tuple => tuple.seq = seq := by
  have total : Std.Total fun a b : ChangeTuple => a.seq ≤ b.seq := ⟨fun a b => Nat.le_total _ _⟩
  have trans : IsTrans ChangeTuple fun a b => a.seq ≤ b.seq := ⟨fun _ _ _ => Nat.le_trans⟩
  have equal : (tuples.filter fun tuple => tuple.seq = seq).Pairwise fun a b => a.seq ≤ b.seq := by
    apply List.pairwise_of_forall_mem_list
    intro a inA b inB
    have left := (List.mem_filter.mp inA).2
    have right := (List.mem_filter.mp inB).2
    simp only [decide_eq_true_eq] at left right
    omega
  have kept := (List.sublist_insertionSort equal List.filter_sublist).filter
    fun tuple => tuple.seq = seq
  rw [List.filter_filter] at kept
  simp only [Bool.and_self] at kept
  have sizes := ((sortBySeq_perm tuples).filter fun tuple => tuple.seq = seq).length_eq
  rw [← List.head?_filter, ← List.head?_filter, kept.eq_of_length sizes.symm]
  rfl

theorem mem_memtableTail : entry ∈ s.memtableTail sinceSeq readSeq ↔
    (∃ memtable ∈ s.memtable.queue, entry ∈ memtable.skiplist) ∧ sinceSeq < entry.seq ∧
      entry.seq ≤ readSeq := by
  simp only [System.memtableTail, MemtableManager.snapshotAllVersions, Memtable.iterAllVersions,
    MemtableManager.queue, List.mem_filter, List.mem_flatMap, List.mem_cons, List.mem_reverse,
    List.mem_append, List.not_mem_nil, or_false, decide_eq_true_eq]
  constructor
  · rintro ⟨⟨memtable, queued, inList, bound⟩, above⟩
    exact ⟨⟨memtable, queued.symm, inList⟩, above, bound⟩
  · rintro ⟨⟨memtable, queued, inList⟩, above, bound⟩
    exact ⟨⟨memtable, queued.symm, inList, bound⟩, above⟩

theorem DataFileMeta.mem_tail : entry ∈ ref.tail sinceSeq readSeq ↔
    entry ∈ ref.liveRows ∧ sinceSeq < entry.seq ∧ entry.seq ≤ readSeq := by
  simp [DataFileMeta.tail, List.mem_filter]

theorem mem_level0Tail : entry ∈ s.level0Tail sinceSeq readSeq ↔
    (∃ ref ∈ s.version.filesAt 0, entry ∈ ref.liveRows) ∧ sinceSeq < entry.seq ∧
      entry.seq ≤ readSeq := by
  simp only [System.level0Tail, List.mem_flatMap, DataFileMeta.mem_tail]
  constructor
  · rintro ⟨ref, listed, live, range⟩
    exact ⟨⟨ref, listed, live⟩, range⟩
  · rintro ⟨⟨ref, listed, live⟩, range⟩
    exact ⟨ref, listed, live, range⟩

theorem tail_range (member : entry ∈ s.tail sinceSeq readSeq) :
    sinceSeq < entry.seq ∧ entry.seq ≤ readSeq := by
  rcases List.mem_append.mp member with held | stored
  · exact (mem_memtableTail.mp held).2
  · exact (mem_level0Tail.mp stored).2

theorem tail_of_closed (closed : System.opensForChanges sinceSeq readSeq ref.file = false) :
    ref.tail sinceSeq readSeq = [] := by
  apply List.eq_nil_iff_forall_not_mem.mpr
  intro row member
  obtain ⟨live, above, bound⟩ := DataFileMeta.mem_tail.mp member
  have inFile := ref.liveRows_sublist.subset live
  have least := DataFile.seqMin_le inFile
  have most := DataFile.le_seqMax inFile
  simp only [System.opensForChanges, Bool.not_eq_false', Bool.or_eq_true,
    decide_eq_true_eq] at closed
  omega

/-- A file has the values of the key columns, which are encoded again. -/
def Entry.Rereads (schema : TableSchema) (row : Entry) (tuple : ChangeTuple) : Prop :=
  ∃ pkBytes, reencodeKey schema row.key = .ok pkBytes ∧ tuple = .ofEntry row pkBytes

/-- The tuple is what the scan makes of the first version with this number: a memtable comes first
and has the bytes of its key. -/
def System.EmitsFirst (schema : TableSchema) (s : System) (sinceSeq readSeq seq : Nat)
    (tuple : ChangeTuple) : Prop :=
  match (s.memtableTail sinceSeq readSeq).find? fun entry => entry.seq = seq with
  | some entry => tuple = .ofEntry entry entry.key.bytes
  | none => ∃ row, (s.level0Tail sinceSeq readSeq).find? (fun row => row.seq = seq) = some row ∧
      row.Rereads schema tuple

/-- The tuple is made of the version; a memtable has the bytes of its key. -/
def System.Emits (schema : TableSchema) (s : System) (sinceSeq readSeq : Nat) (entry : Entry)
    (tuple : ChangeTuple) : Prop :=
  entry ∈ s.memtableTail sinceSeq readSeq ∧ tuple = .ofEntry entry entry.key.bytes ∨
    entry ∈ s.level0Tail sinceSeq readSeq ∧ entry.Rereads schema tuple

/-- What a scan returns when it returns. -/
structure System.Scanned (schema : TableSchema) (s : System) (sinceSeq readSeq : Nat)
    (tuples : List ChangeTuple) : Prop where
  ascending : tuples.Pairwise fun a b => a.seq ≤ b.seq
  seqs : (tuples.map ChangeTuple.seq).Perm ((s.tail sinceSeq readSeq).map Entry.seq)
  first : ∀ seq tuple, tuples.find? (fun tuple => tuple.seq = seq) = some tuple →
    s.EmitsFirst schema sinceSeq readSeq seq tuple
  sound : ∀ tuple ∈ tuples, ∃ entry, s.Emits schema sinceSeq readSeq entry tuple

/-- The keys of the files that the scan opens can be decoded, and the keys of the rows in the range
encoded again. -/
def System.ReadsKeys (schema : TableSchema) (s : System) (sinceSeq readSeq : Nat) : Prop :=
  (∀ ref ∈ s.version.filesAt 0, System.opensForChanges sinceSeq readSeq ref.file = true →
    ∀ row ∈ ref.file.rows, ∃ values, decodePkFields row.key.bytes schema = .ok values) ∧
  ∀ row ∈ s.level0Tail sinceSeq readSeq, ∃ pkBytes, reencodeKey schema row.key = .ok pkBytes

theorem scanFileChanges_eq_ok :
    System.scanFileChanges schema sinceSeq readSeq ref = .ok tuples ↔
      (System.opensForChanges sinceSeq readSeq ref.file = true →
        ∀ row ∈ ref.file.rows, ∃ values, decodePkFields row.key.bytes schema = .ok values) ∧
      List.Forall₂ (Entry.Rereads schema) (ref.tail sinceSeq readSeq) tuples := by
  have each : ∀ (row : Entry) (tuple : ChangeTuple), (do
      let pkBytes ← reencodeKey schema row.key
      return ChangeTuple.ofEntry row pkBytes) = Except.ok tuple ↔ row.Rereads schema tuple := by
    intro row tuple
    simp only [Except.bind_eq_ok, pure, Except.pure, Except.ok.injEq, Entry.Rereads,
      @eq_comm _ tuple]
  unfold System.scanFileChanges
  split
  · rename_i opened
    simp only [Except.bind_eq_ok, exists_and_right, mapM_isOk, opened, true_implies]
    rw [mapM_eq_ok, DataFileMeta.tail]
    simp only [each]
  · rename_i closed
    rw [Bool.not_eq_true] at closed
    simp [closed, tail_of_closed closed, eq_comm]

theorem scanMemtableChanges_perm : (s.scanMemtableChanges sinceSeq readSeq).Perm
    ((s.memtableTail sinceSeq readSeq).map fun entry => .ofEntry entry entry.key.bytes) :=
  ChangeTuple.sortBySeq_perm _

theorem scanTailChanges_isOk : (∃ tuples, s.scanTailChanges schema sinceSeq readSeq = .ok tuples) ↔
    s.ReadsKeys schema sinceSeq readSeq := by
  have files : (∃ tuples, s.scanTailChanges schema sinceSeq readSeq = .ok tuples) ↔
      ∀ ref ∈ s.version.filesAt 0, ∃ tuples,
        System.scanFileChanges schema sinceSeq readSeq ref = .ok tuples := by
    rw [← mapM_isOk]
    unfold System.scanTailChanges
    simp only [Except.bind_eq_ok]
    constructor
    · rintro ⟨_, lists, read, _⟩
      exact ⟨lists, read⟩
    · rintro ⟨lists, read⟩
      exact ⟨_, lists, read, rfl⟩
  rw [files]
  simp only [scanFileChanges_eq_ok, exists_and_left, exists_forall₂, System.ReadsKeys,
    System.level0Tail, List.mem_flatMap]
  constructor
  · intro each
    refine ⟨fun ref listed => (each ref listed).1, ?_⟩
    rintro row ⟨ref, listed, inTail⟩
    obtain ⟨_, pkBytes, encoded, _⟩ := (each ref listed).2 row inTail
    exact ⟨pkBytes, encoded⟩
  · rintro ⟨decoded, encoded⟩ ref listed
    refine ⟨decoded ref listed, fun row inTail => ?_⟩
    obtain ⟨pkBytes, again⟩ := encoded row ⟨ref, listed, inTail⟩
    exact ⟨_, pkBytes, again, rfl⟩

theorem find_raw {files : List ChangeTuple} {seq : Nat}
    (stored : List.Forall₂ (Entry.Rereads schema) (s.level0Tail sinceSeq readSeq) files)
    (found : (((s.memtableTail sinceSeq readSeq).map fun entry =>
      ChangeTuple.ofEntry entry entry.key.bytes) ++ files).find? (fun tuple => tuple.seq = seq) =
        some tuple) : s.EmitsFirst schema sinceSeq readSeq seq tuple := by
  rw [List.find?_append, List.find?_map] at found
  unfold System.EmitsFirst
  cases held : (s.memtableTail sinceSeq readSeq).find? fun entry => entry.seq = seq with
  | some entry =>
    change Option.or (Option.map _ ((s.memtableTail sinceSeq readSeq).find?
      fun entry => entry.seq = seq)) _ = _ at found
    rw [held] at found
    exact (Option.some.inj found).symm
  | none =>
    change Option.or (Option.map _ ((s.memtableTail sinceSeq readSeq).find?
      fun entry => entry.seq = seq)) _ = _ at found
    rw [held, Option.map_none, Option.none_or] at found
    refine find_of_forall₂ stored ?_ found
    rintro row tuple ⟨_, _, rfl⟩
    rfl

theorem scanTailChanges_scanned (returned : s.scanTailChanges schema sinceSeq
    readSeq = .ok tuples) :
    s.Scanned schema sinceSeq readSeq tuples := by
  obtain ⟨lists, read, same⟩ := Except.bind_eq_ok.mp returned
  have sorted := Except.ok.inj same
  have stored : List.Forall₂ (Entry.Rereads schema)
    (s.level0Tail sinceSeq readSeq) lists.flatten := by
    apply forall₂_flatten
    exact (mapM_eq_ok.mp read).imp fun ref list found => (scanFileChanges_eq_ok.mp found).2
  have perm : tuples.Perm (s.scanMemtableChanges sinceSeq readSeq ++ lists.flatten) := by
    rw [← sorted]
    exact ChangeTuple.sortBySeq_perm _
  refine ⟨?_, ?_, ?_, ?_⟩
  · rw [← sorted]
    exact ChangeTuple.sortBySeq_ascending _
  · have memtableSeqs := (@scanMemtableChanges_perm s sinceSeq readSeq).map ChangeTuple.seq
    have fileSeqs : (s.level0Tail sinceSeq readSeq).map Entry.seq =
        lists.flatten.map ChangeTuple.seq := by
      apply map_eq_of_forall₂ stored
      rintro row tuple ⟨pkBytes, _, rfl⟩
      rfl
    rw [List.map_map] at memtableSeqs
    rw [System.tail, List.map_append, fileSeqs]
    refine (perm.map ChangeTuple.seq).trans ?_
    rw [List.map_append]
    exact memtableSeqs.append_right _
  · intro seq tuple found
    apply find_raw stored
    rw [← sorted, ChangeTuple.find_sortBySeq, System.scanMemtableChanges, List.find?_append,
      ChangeTuple.find_sortBySeq] at found
    rw [List.find?_append]
    exact found
  · intro tuple member
    rcases List.mem_append.mp (perm.mem_iff.mp member) with inMemtables | inFiles
    · rw [scanMemtableChanges_perm.mem_iff, List.mem_map] at inMemtables
      obtain ⟨entry, inTail, same⟩ := inMemtables
      exact ⟨entry, .inl ⟨inTail, same.symm⟩⟩
    · obtain ⟨row, inTail, made⟩ := exists_left_of_forall₂ stored tuple inFiles
      exact ⟨row, .inr ⟨inTail, made⟩⟩

theorem System.ReadsKeys.mono {later : Nat} (reads : s.ReadsKeys schema sinceSeq readSeq)
    (moved : sinceSeq ≤ later) : s.ReadsKeys schema later readSeq := by
  obtain ⟨decoded, encoded⟩ := reads
  refine ⟨?_, ?_⟩
  · intro ref listed opened
    refine decoded ref listed ?_
    simp only [System.opensForChanges, Bool.not_eq_true', Bool.or_eq_false_iff,
      decide_eq_false_iff_not] at opened ⊢
    omega
  · intro row member
    obtain ⟨live, above, bound⟩ := mem_level0Tail.mp member
    exact encoded row (mem_level0Tail.mpr ⟨live, by omega, bound⟩)

end Scan

section Refill

variable {config : Config} {schema : TableSchema} {s : System} {sinceSeq readSeq : Nat}
  {skip : Bool}
  {tuple : ChangeTuple} {records : List ChangeRecord}

/-- The record made of a tuple of the scan. -/
def System.recordOf (config : Config) (s : System) (skip : Bool) (tuple : ChangeTuple) :
    ChangeRecord := s.changeRecord config skip (s.withPreImage config tuple)

@[simp] theorem recordOf_seq : (s.recordOf config skip tuple).seq = tuple.seq := by
  unfold System.recordOf System.changeRecord System.withPreImage
  split <;> rfl

@[simp] theorem recordOf_pkBytes : (s.recordOf config skip tuple).pkBytes = tuple.pkBytes := by
  unfold System.recordOf System.changeRecord System.withPreImage
  split <;> rfl

theorem recordOf_delete :
    (s.recordOf config skip tuple).op = .delete ↔ tuple.opType = .delete := by
  have kept : (s.withPreImage config tuple).opType = tuple.opType := by
    unfold System.withPreImage
    split <;> rfl
  change s.changeOp config skip (s.withPreImage config tuple) = .delete ↔ _
  unfold System.changeOp
  rw [kept]
  cases tuple.opType with
  | delete => simp
  | put =>
    dsimp only
    split
    · simp
    · split <;> simp

theorem recordOf_put (put : tuple.opType = .put) :
    (s.recordOf config skip tuple).row = tuple.row := by
  change (s.withPreImage config tuple).row = tuple.row
  unfold System.withPreImage
  rw [if_neg (by simp [put])]

theorem refill_eq_ok : s.refill config schema skip sinceSeq = .ok records ↔
    ∃ tuples, s.scanTailChanges schema sinceSeq s.visibleSeq = .ok tuples ∧
      records = tuples.map (s.recordOf config skip) := by
  simp only [System.refill, System.scanTailChangesWithPreImage, Except.bind_eq_ok, pure,
    Except.pure,
    Except.ok.injEq]
  constructor
  · rintro ⟨_, ⟨tuples, scanned, rfl⟩, rfl⟩
    exact ⟨tuples, scanned, List.map_map⟩
  · rintro ⟨tuples, scanned, rfl⟩
    exact ⟨_, ⟨tuples, scanned, rfl⟩, List.map_map⟩

section

variable (filled : s.refill config schema skip sinceSeq = .ok records)
include filled

theorem refill_seqs :
    records.Pairwise (fun a b => a.seq ≤ b.seq) ∧
      (records.map ChangeRecord.seq).Perm ((s.tail sinceSeq s.visibleSeq).map Entry.seq) := by
  obtain ⟨tuples, scanned, rfl⟩ := refill_eq_ok.mp filled
  have spec := scanTailChanges_scanned scanned
  refine ⟨?_, ?_⟩
  · rw [List.pairwise_map]
    simpa using spec.ascending
  · have same : (tuples.map (s.recordOf config skip)).map ChangeRecord.seq =
        tuples.map ChangeTuple.seq := by simp [Function.comp_def]
    rw [same]
    exact spec.seqs

theorem refill_range {record : ChangeRecord} (member : record ∈ records) :
    sinceSeq < record.seq ∧ record.seq ≤ s.visibleSeq := by
  have listed := (refill_seqs filled).2.mem_iff.mp (List.mem_map_of_mem member)
  obtain ⟨entry, inTail, same⟩ := List.mem_map.mp listed
  rw [← same]
  exact tail_range inTail

theorem refill_behind {later : Nat} (moved : sinceSeq ≤ later)
    (all : ∀ record ∈ records, record.seq ≤ later) :
    s.refill config schema skip later = .ok [] := by
  obtain ⟨tuples, scanned, _⟩ := refill_eq_ok.mp filled
  have reads := scanTailChanges_isOk.mp ⟨tuples, scanned⟩
  obtain ⟨next, rescanned⟩ := scanTailChanges_isOk.mpr (reads.mono moved)
  refine refill_eq_ok.mpr ⟨next, rescanned, ?_⟩
  have none : s.tail later s.visibleSeq = [] := by
    apply List.eq_nil_iff_forall_not_mem.mpr
    intro entry member
    have range := tail_range member
    have earlier : entry ∈ s.tail sinceSeq s.visibleSeq := by
      rcases List.mem_append.mp member with held | stored
      · exact List.mem_append_left _ (mem_memtableTail.mpr
          ⟨(mem_memtableTail.mp held).1, by omega, range.2⟩)
      · exact List.mem_append_right _ (mem_level0Tail.mpr
          ⟨(mem_level0Tail.mp stored).1, by omega, range.2⟩)
    have listed := (refill_seqs filled).2.mem_iff.mpr (List.mem_map_of_mem earlier)
    obtain ⟨record, inRecords, same⟩ := List.mem_map.mp listed
    have := all record inRecords
    omega
  have empty := (scanTailChanges_scanned rescanned).seqs
  rw [none, List.map_nil, List.perm_nil, List.map_eq_nil_iff] at empty
  rw [empty, List.map_nil]

end

end Refill

section Errors

variable {A B : Type} {schema : TableSchema}

/-- The call does not report a retention gap. -/
def NotBelow (outcome : Except MeruError A) : Prop :=
  ∀ requested lowWater, outcome ≠ .error (.changeFeedBelowRetention requested lowWater)

theorem NotBelow.ok (value : A) : NotBelow (.ok value) := nofun

theorem NotBelow.bind {first : Except MeruError A} {next : A → Except MeruError B}
    (head : NotBelow first) (rest : ∀ value, NotBelow (next value)) :
    NotBelow (first >>= next) := by
  cases first with
  | error error =>
    intro requested lowWater same
    exact head requested lowWater (congrArg _ (Except.error.inj same))
  | ok value => exact rest value

theorem NotBelow.mapM {f : A → Except MeruError B} (each : ∀ item, NotBelow (f item))
    (items : List A) : NotBelow (items.mapM f) := by
  induction items with
  | nil => exact .ok []
  | cons item rest ih =>
    rw [List.mapM_cons]
    exact (each item).bind fun value => ih.bind fun values => .ok (value :: values)

theorem NotBelow.okIf {condition : Prop} [Decidable condition] {error : MeruError}
    (other : ∀ requested lowWater, error ≠ .changeFeedBelowRetention requested lowWater) :
    NotBelow (okIf condition error) := by
  unfold Merutable.okIf
  split
  · exact .ok ()
  · intro requested lowWater same
    exact other requested lowWater (Except.error.inj same)

theorem unescapeByteArray_notBelow (bytes : Bytes) : NotBelow (unescapeByteArray bytes) := by
  fun_induction unescapeByteArray bytes with
  | case4 _ ih => exact ih.bind fun _ => .ok _
  | case7 _ _ _ _ ih => exact ih.bind fun _ => .ok _
  | case5 => exact .ok _
  | _ => nofun

theorem decodeField_notBelow (bytes : Bytes) (colType : ColumnType) :
    NotBelow (decodeField bytes colType) := by
  have sized : ∀ required field, NotBelow (ensureLen bytes required field) := fun _ _ => .okIf nofun
  cases colType with
  | byteArray => exact (unescapeByteArray_notBelow bytes).bind fun _ => .ok _
  | _ => exact (sized _ _).bind fun _ => .ok _

theorem decodePkFields_notBelow (bytes : Bytes) (schema : TableSchema) :
    NotBelow (decodePkFields bytes schema) := by
  have fields : ∀ (pk : List Nat) (bytes : Bytes), NotBelow (decodeFields schema pk bytes) := by
    intro pk
    induction pk with
    | nil => exact fun bytes => .ok _
    | cons idx rest ih =>
      intro bytes
      unfold decodeFields
      split
      · nofun
      · exact (decodeField_notBelow _ _).bind fun _ => (ih _).bind fun _ => .ok _
  exact (fields _ _).bind fun _ => NotBelow.bind (.okIf nofun) fun _ => .ok _

theorem encodeField_notBelow (value : FieldValue) (colType : ColumnType) :
    NotBelow (encodeField value colType) := by
  unfold encodeField
  split
  · exact .ok _
  · exact .ok _
  · exact .ok _
  · split
    · nofun
    · exact .ok _
  · split
    · nofun
    · exact .ok _
  · dsimp only
    split
    · exact .ok _
    · nofun
  · exact .ok _
  · nofun

theorem encodePkFields_notBelow (values : List FieldValue) (schema : TableSchema) :
    NotBelow (encodePkFields values schema) := by
  have fields : ∀ (values : List FieldValue) (pk : List Nat),
      NotBelow (encodeFields schema values pk) := by
    intro values
    induction values with
    | nil => exact fun pk => .ok _
    | cons value values ih =>
      intro pk
      cases pk with
      | nil => exact .ok _
      | cons idx rest =>
        unfold encodeFields
        split
        · nofun
        · exact (encodeField_notBelow _ _).bind fun _ => (ih _).bind fun _ => .ok _
  exact NotBelow.bind (.okIf nofun) fun _ => fields _ _

theorem refill_notBelow {config : Config} {s : System} {skip : Bool} {sinceSeq : Nat} :
    NotBelow (s.refill config schema skip sinceSeq) := by
  have file : ∀ ref, NotBelow (System.scanFileChanges schema sinceSeq s.visibleSeq ref) := by
    intro ref
    unfold System.scanFileChanges
    split
    · refine (NotBelow.mapM (fun row => decodePkFields_notBelow _ _) _).bind fun _ => .mapM ?_ _
      intro row
      refine NotBelow.bind ?_ fun _ => .ok _
      exact (decodePkFields_notBelow _ _).bind fun _ => encodePkFields_notBelow _ _
    · exact .ok _
  exact ((NotBelow.mapM file _).bind fun _ => .ok _).bind (fun _ => .ok _) |>.bind fun _ => .ok _

end Errors

section Stream

variable {config : Config} {schema : TableSchema} {s : System} {source : InProcessLogSource}
  {buffer out : List ChangeRecord} {fuel sinceSeq : Nat}

theorem nextBatch_buffered {sinceSeq : Nat} {buffer : List ChangeRecord} (waiting : buffer ≠ []) :
    (ChangeFeedCursor.mk (.engine sinceSeq buffer) false).nextBatch config schema s
      source.batchSize =
      .ok ((ChangeFeedCursor.mk (.engine sinceSeq buffer) false).serve sinceSeq buffer
        source.batchSize) := by
  cases buffer with
  | nil => exact absurd rfl waiting
  | cons record rest => rfl

theorem streamLoop_turn {last : ChangeRecord}
    (ends : (buffer.take source.batchSize).getLast? = some last)
    (bounded : ∀ record ∈ buffer, record.seq ≤ s.visibleSeq) :
    source.streamLoop config schema s s.visibleSeq (fuel + 1) ⟨.engine sinceSeq buffer, false⟩ out =
      if s.visibleSeq ≤ last.seq then some (.ok (out ++ buffer.take source.batchSize))
      else source.streamLoop config schema s s.visibleSeq fuel
        ⟨.engine last.seq (buffer.drop source.batchSize), false⟩
        (out ++ buffer.take source.batchSize) := by
  have nonempty : buffer.take source.batchSize ≠ [] := by
    intro empty
    rw [empty] at ends
    cases ends
  have waiting : buffer ≠ [] := by
    intro empty
    rw [empty, List.take_nil] at nonempty
    exact nonempty rfl
  have kept : (buffer.take source.batchSize).takeWhile (fun record => record.seq ≤ s.visibleSeq) =
      buffer.take source.batchSize := by
    apply List.takeWhile_eq_self_iff.mpr
    intro record member
    exact decide_eq_true (bounded record (List.mem_of_mem_take member))
  rw [InProcessLogSource.streamLoop, nextBatch_buffered waiting]
  simp only [ChangeFeedCursor.serve, nonempty, if_false, kept, ne_eq, not_true_eq_false, false_or,
    ChangeFeedCursor.sinceSeq, ends, Option.map_some, Option.getD_some]

theorem streamLoop_buffered (enough : buffer.length + 1 < fuel) (waiting : buffer ≠ [])
    (ascending : buffer.Pairwise fun a b => a.seq ≤ b.seq)
    (bounded : ∀ record ∈ buffer, record.seq ≤ s.visibleSeq)
    (behind : ∀ later, (∀ record ∈ buffer, record.seq ≤ later) →
      s.refill config schema false later = .ok []) :
    source.streamLoop config schema s s.visibleSeq fuel ⟨.engine sinceSeq buffer, false⟩ out =
      some (.ok (out ++ served ChangeRecord.seq source.batchSize s.visibleSeq buffer)) := by
  induction fuel generalizing sinceSeq buffer out with
  | zero => omega
  | succ fuel ih =>
    have positive := source.positive
    have some : 0 < buffer.length := List.length_pos_of_ne_nil waiting
    have nonempty : buffer.take source.batchSize ≠ [] := by
      apply List.ne_nil_of_length_pos
      rw [List.length_take]
      omega
    obtain ⟨last, ends⟩ := List.getLast?_isSome.mpr nonempty |> Option.isSome_iff_exists.mp
    obtain ⟨front, batch⟩ := List.getLast?_eq_some_iff.mp ends
    have lastIn : last ∈ buffer.take source.batchSize := by simp [batch]
    have before : ∀ record ∈ buffer.take source.batchSize, record.seq ≤ last.seq := by
      intro record member
      have ordered := ascending.sublist (List.take_sublist source.batchSize buffer)
      rw [batch] at ordered member
      rcases List.mem_append.mp member with early | final
      · exact (List.pairwise_append.mp ordered).2.2 record early last List.mem_cons_self
      · rw [List.mem_singleton.mp final]
    rw [streamLoop_turn ends bounded]
    split
    · rename_i reached
      rw [served_last ascending bounded ⟨last, lastIn, reached⟩]
    · rename_i open'
      have below : ∀ record ∈ buffer.take source.batchSize, record.seq < s.visibleSeq := by
        intro record member
        have := before record member
        omega
      by_cases short : buffer.length ≤ source.batchSize
      · -- the buffer is used up below the bound, and a second refill finds nothing
        have whole : buffer.take source.batchSize = buffer := List.take_of_length_le short
        have rest : buffer.drop source.batchSize = [] := List.drop_eq_nil_of_le short
        rw [whole] at below before
        obtain ⟨fuel, rfl⟩ : ∃ more, fuel = more + 1 := Nat.exists_eq_succ_of_ne_zero (by omega)
        rw [rest, whole, served_all positive below, InProcessLogSource.streamLoop]
        simp [ChangeFeedCursor.nextBatch, ChangeFeedCursor.nextBatchOf, open',
          behind last.seq before, ChangeFeedCursor.serve, bind, Except.bind, pure, Except.pure]
      · have dropped : (buffer.drop source.batchSize).length + 1 < fuel := by
          rw [List.length_drop]
          omega
        rw [ih dropped ?_ (ascending.sublist (List.drop_sublist _ _))
          (fun record member => bounded record (List.mem_of_mem_drop member)) ?_,
          served_next positive (by omega) below, List.append_assoc]
        · apply List.ne_nil_of_length_pos
          rw [List.length_drop]
          omega
        · intro later all
          apply behind later
          intro record member
          have ordered := ascending
          rw [← List.take_append_drop source.batchSize buffer] at member ordered
          rcases List.mem_append.mp member with early | late
          · obtain ⟨next, inRest⟩ := List.exists_mem_of_length_pos
              (l := buffer.drop source.batchSize)
              (by rw [List.length_drop]; omega)
            exact ((List.pairwise_append.mp ordered).2.2 record early next inRest).trans
              (all next inRest)
          · exact all record late

/-- What the stream yields: the batches of one refill up to the one that reaches the bound. -/
def InProcessLogSource.yields (config : Config) (schema : TableSchema) (s : System)
    (source : InProcessLogSource) (since : Nat) : Except MeruError (List ChangeRecord) :=
  if s.visibleSeq ≤ since then .ok []
  else (s.refill config schema false since).map
    (served ChangeRecord.seq source.batchSize s.visibleSeq)

theorem stream_yields (config : Config) (schema : TableSchema) (s : System)
    (source : InProcessLogSource) (since : Nat) : ∃ bound, ∀ fuel, bound ≤ fuel →
      source.stream config schema s since fuel = some (source.yields config schema s since) := by
  unfold InProcessLogSource.stream InProcessLogSource.yields
  by_cases done : s.visibleSeq ≤ since
  · simp [done]
  · simp only [done, if_false]
    have first : (ChangeFeedCursor.fromEngine since).nextBatch config schema s source.batchSize =
        (s.refill config schema false since).map fun buffer =>
          (ChangeFeedCursor.fromEngine since).serve since buffer source.batchSize := by
      simp only [ChangeFeedCursor.fromEngine, ChangeFeedCursor.nextBatch,
        ChangeFeedCursor.nextBatchOf, done, if_false]
      cases s.refill config schema false since with
      | error error => rfl
      | ok buffer => rfl
    cases filled : s.refill config schema false since with
    | error error =>
      refine ⟨1, fun fuel enough => ?_⟩
      obtain ⟨fuel, rfl⟩ : ∃ more, fuel = more + 1 := Nat.exists_eq_succ_of_ne_zero (by omega)
      rw [InProcessLogSource.streamLoop, first, filled]
      rfl
    | ok buffer =>
      refine ⟨buffer.length + 2, fun fuel enough => ?_⟩
      obtain ⟨fuel, rfl⟩ : ∃ more, fuel = more + 1 := Nat.exists_eq_succ_of_ne_zero (by omega)
      by_cases waiting : buffer = []
      · rw [InProcessLogSource.streamLoop, first, filled, waiting]
        simp [Except.map, ChangeFeedCursor.serve, served]
      · have same : source.streamLoop config schema s s.visibleSeq (fuel + 1)
          (.fromEngine since) [] =
            source.streamLoop config schema s s.visibleSeq (fuel + 1)
              ⟨.engine since buffer, false⟩ [] := by
          rw [InProcessLogSource.streamLoop, InProcessLogSource.streamLoop, first, filled,
            nextBatch_buffered waiting]
          rfl
        have ordered := (refill_seqs filled).1
        rw [same, streamLoop_buffered (by omega) waiting ordered
          (fun record member => (refill_range filled member).2) ?_, List.nil_append]
        · rfl
        · intro later all
          obtain ⟨record, member⟩ := List.exists_mem_of_ne_nil buffer waiting
          refine refill_behind filled ?_ all
          have range := refill_range filled member
          have := all record member
          omega

end Stream

end Merutable
