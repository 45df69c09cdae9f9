import Merutable.Engine.ChangeFeed
import Merutable.Lsm.Reopen
import Merutable.Lsm.Sequential
import Merutable.Lsm.Tree

/-! The stream of changes against the operations that were committed, over the whole life of a table
with its flushes, compactions, crashes and reopens. -/

namespace Merutable

open Foundation Compaction

/-- The two records stand for one operation. A flush may store another pre-image with a delete. -/
def Entry.SameOp (a b : Entry) : Prop :=
  a.key = b.key ∧ a.seq = b.seq ∧ a.value.row? = b.value.row?

theorem Entry.SameOp.trans {a b c : Entry} (first : a.SameOp b) (second : b.SameOp c) :
    a.SameOp c :=
  ⟨first.1.trans second.1, first.2.1.trans second.2.1, first.2.2.trans second.2.2⟩

/-- Every row in the data files stands for an operation known to have been committed. -/
def RowsFrom (known : Entry → Prop) (store : List DataFile) : Prop :=
  ∀ file ∈ store, ∀ row ∈ file.rows, ∃ entry, known entry ∧ row.SameOp entry

theorem RowsFrom.mono {known later : Entry → Prop} {store : List DataFile}
    (rows : RowsFrom known store) (grows : ∀ entry, known entry → later entry) :
    RowsFrom later store := by
  intro file present row member
  obtain ⟨entry, committed, same⟩ := rows file present row member
  exact ⟨entry, grows entry committed, same⟩

section Rows

variable {config : Config} {s t : System} {known : Entry → Prop} {action : Action}

theorem flush_store {action : FlushAction} (fired : flushStep config s action = some t) :
    t.store = s.store ∨ ∃ memtable file, s.flush = .picked memtable ∧
      Flush.file config memtable s.nextUuid = some file ∧ t.store = s.store ++ [file] := by
  cases flush_effect fired with
  | resolve memtable file phase written => exact .inr ⟨memtable, file, phase, written, rfl⟩
  | _ => exact .inl rfl

theorem job_store {job : Nat} {action : JobAction} (fired : jobStep config s job action = some t) :
    t.store = s.store ∨ ∃ plan, s.jobs job = .picked plan ∧
      t.store = s.store ++ outputs config plan s.visibleSeq s.nextUuid := by
  cases job_effect fired with
  | merge plan phase => exact .inr ⟨plan, phase, rfl⟩
  | _ => exact .inl rfl

theorem store_step (fired : step config s action = some t) :
    t.store = s.store ∨
      (∃ memtable file, s.flush = .picked memtable ∧
        Flush.file config memtable s.nextUuid = some file ∧ t.store = s.store ++ [file]) ∨
      ∃ job plan, s.jobs job = .picked plan ∧
        t.store = s.store ++ outputs config plan s.visibleSeq s.nextUuid := by
  cases step_effect fired with
  | flush fired => exact (flush_store fired).imp_right .inl
  | @job job _ _ _ _ _ _ _ _ _ fired =>
    exact (job_store fired).imp_right fun written => .inr ⟨job, written⟩
  | _ => exact .inl rfl

section

variable (base : s.Base config) (committed : ∀ entry ∈ entriesOf s.history, known entry)
  (rows : RowsFrom known s.store)
include base committed rows

theorem rowsFrom_step (fired : step config s action = some t) : RowsFrom known t.store := by
  rcases store_step fired with store | ⟨memtable, file, phase, written, store⟩ |
    ⟨job, plan, phase, store⟩
  · rw [store]
    exact rows
  · rw [store]
    intro other present row member
    rcases List.mem_append.mp present with old | new
    · exact rows other old row member
    · have picked : s.flush.memtable? = some memtable := by
        rw [phase]
        rfl
      have front := base.front picked
      rw [List.mem_singleton.mp new, (DataFile.write_some written).2.2,
        Flush.mem_rows (base.increasing front) (base.seq_le front)] at member
      obtain ⟨entry, same, top⟩ := member
      obtain ⟨batch, inMemtable, inBatch⟩ := mem_entriesOf.mp (newest_mem top).1
      have applied := (base.queued.memtable_batches front).subset inMemtable
      refine ⟨entry, committed entry (mem_entriesOf.mpr ⟨batch, applied, inBatch⟩), ?_⟩
      rw [same]
      exact ⟨entry.persist_key config, entry.persist_seq config, entry.persist_row config⟩
  · rw [store]
    intro other present row member
    rcases List.mem_append.mp present with old | new
    · exact rows other old row member
    · have busy : (s.jobs job).plan? = some plan := by
        rw [phase]
        rfl
      have planned := (base.locked.planned job plan busy).1
      obtain ⟨source, isSource, live⟩ := mem_mergedRows ((mem_outputs new).2.2.2 row member)
      have kept := (base.keeps plan.version (.planned busy)).2 source
        (mem_sources planned isSource).1
      exact rows source.file kept row (source.liveRows_sublist.subset live)

theorem tail_known {sinceSeq readSeq : Nat} {held : Entry}
    (member : held ∈ s.tail sinceSeq readSeq) :
    ∃ entry, known entry ∧ held.SameOp entry := by
  rcases List.mem_append.mp member with inMemtables | inFiles
  · obtain ⟨memtable, queued, listed⟩ := (mem_memtableTail.mp inMemtables).1
    rw [Memtable.skiplist, Memtable.entries,
      SkipList.mem_ofEntries (base.increasing queued).entries] at listed
    obtain ⟨batch, inMemtable, inBatch⟩ := mem_entriesOf.mp listed
    have applied := (base.queued.memtable_batches queued).subset inMemtable
    exact ⟨held, committed held (mem_entriesOf.mpr ⟨batch, applied, inBatch⟩), rfl, rfl, rfl⟩
  · obtain ⟨ref, listed, live⟩ := (mem_level0Tail.mp inFiles).1
    have kept := (base.keeps s.version .installed).2 ref (Version.mem_filesAt.mp listed).1
    exact rows ref.file kept held (ref.liveRows_sublist.subset live)

end

end Rows

/-- An operation that an engine applied, or replayed from the log, in some state of the run. -/
def Committed (config : Config) (actions : List TableAction) (entry : Entry) : Prop :=
  ∃ before table s, before <+: actions ∧ execute tableStep (.created config) before = some table ∧
    table.host = .running s ∧ entry ∈ entriesOf s.history

variable {config : Config} {entry : Entry} {table : Table}

theorem Committed.mono {actions later : List TableAction}
    (committed : Committed config actions entry) (grows : actions <+: later) :
    Committed config later entry := by
  obtain ⟨before, table, s, earlier, executed, running, applied⟩ := committed
  exact ⟨before, table, s, earlier.trans grows, executed, running, applied⟩

def Table.store (table : Table) : List DataFile :=
  match table.host with
  | .running s => s.store
  | .down disk => disk.store

/-- The actions lead to the table, and no data file has a row that was never committed. -/
structure Table.Traced (config : Config) (actions : List TableAction) (table : Table) : Prop where
  reached : execute tableStep (.created config) actions = some table
  consistent : table.Consistent
  rows : RowsFrom (Committed config actions) table.store

theorem Table.Traced.committed {config : Config} {actions : List TableAction} {table : Table}
    {s : System} (traced : table.Traced config actions) (running : table.host = .running s) :
    ∀ entry ∈ entriesOf s.history, Committed config actions entry := by
  intro entry applied
  exact ⟨actions, table, s, List.prefix_refl _, traced.reached, running, applied⟩

theorem Table.Traced.step {config : Config} {actions : List TableAction} {table next : Table}
    {action : TableAction} (traced : table.Traced config actions)
    (fired : tableStep table action = some next) : next.Traced config (actions ++ [action]) := by
  have grown : RowsFrom (Committed config (actions ++ [action])) table.store :=
    traced.rows.mono fun entry committed => committed.mono (List.prefix_append _ _)
  refine ⟨?_, traced.consistent.step fired, ?_⟩
  · rw [execute_append, traced.reached, Option.bind_some]
    simp [execute, fired]
  · cases table_event fired with
    | act host stepped made =>
      have consistent := traced.consistent
      rw [Table.Consistent, host] at consistent
      rw [Table.store, host] at grown
      rw [made]
      refine rowsFrom_step consistent.1 ?_ grown stepped
      intro entry applied
      exact (traced.committed host entry applied).mono (List.prefix_append _ _)
    | crash host made | reopen host _ made =>
      rw [Table.store, host] at grown
      rw [made]
      exact grown

theorem created_traced (config : Config) : (Table.created config).Traced config [] :=
  ⟨rfl, created_consistent config, by intro file present; cases present⟩

theorem traced_of_execute {actions : List TableAction}
    (executed : execute tableStep (.created config) actions = some table) :
    table.Traced config actions := by
  have run : Run tableStep (fun _ _ => True) (.created config) actions table :=
    .of_execute (fun _ _ _ => trivial) executed
  exact run.past_invariant (Table.Traced config) (fun _ _ _ _ traced _ fired => traced.step fired)
    (created_traced config)

/-- The prefixes of a fixed run can be tried one by one. -/
theorem Committed.mem_of_check {actions : List TableAction} {entries : List Entry}
    (committed : Committed config actions entry)
    (checks : ∀ n ≤ actions.length, ∀ s ∈ (execute tableStep (.created config)
      (actions.take n)).bind Table.system?, entriesOf s.history ⊆ entries) : entry ∈ entries := by
  obtain ⟨before, table, s, earlier, executed, running, applied⟩ := committed
  refine checks before.length earlier.length_le s ?_ applied
  rw [← List.prefix_iff_eq_take.mp earlier, executed]
  exact Table.system?_eq_some.mpr running

namespace ChangeRecord

/-- The record tells of this operation; the row of a delete is left open. -/
def IsFor (record : ChangeRecord) (entry : Entry) : Prop :=
  record.seq = entry.seq ∧ record.pkBytes = entry.key.bytes ∧
    match entry.value with
    | .put row => record.op ≠ .delete ∧ record.row = row
    | .delete _ => record.op = .delete

variable {record : ChangeRecord} {a b : Entry}

theorem IsFor.sameOp (first : record.IsFor a) (second : record.IsFor b) : a.SameOp b := by
  obtain ⟨seqA, keyA, valueA⟩ := first
  obtain ⟨seqB, keyB, valueB⟩ := second
  have key : a.key = b.key := by
    cases a with
    | mk key _ _ =>
      cases key
      cases b with
      | mk key _ _ =>
        cases key
        simp_all
  refine ⟨key, seqA.symm.trans seqB, ?_⟩
  cases valA : a.value with
  | put row =>
    rw [valA] at valueA
    cases valB : b.value with
    | put other =>
      rw [valB] at valueB
      exact congrArg some (valueA.2.symm.trans valueB.2)
    | delete preImage =>
      rw [valB] at valueB
      exact absurd valueB valueA.1
  | delete preImage =>
    rw [valA] at valueA
    cases valB : b.value with
    | put other =>
      rw [valB] at valueB
      exact absurd valueA valueB.1
    | delete preImage => rfl

theorem IsFor.of_sameOp (first : record.IsFor a) (same : a.SameOp b) : record.IsFor b := by
  obtain ⟨key, seq, value⟩ := same
  obtain ⟨seqA, keyA, valueA⟩ := first
  refine ⟨seqA.trans seq, by rw [keyA, key], ?_⟩
  cases valA : a.value with
  | put row =>
    rw [valA] at valueA value
    cases valB : b.value with
    | put other =>
      rw [valB] at value
      exact ⟨valueA.1, valueA.2.trans (Option.some.inj value)⟩
    | delete preImage =>
      rw [valB] at value
      cases value
  | delete preImage =>
    rw [valA] at valueA value
    cases valB : b.value with
    | put other =>
      rw [valB] at value
      cases value
    | delete preImage => exact valueA

end ChangeRecord

/-- One record for each of the operations in the range, in strictly ascending order. -/
structure Exact (known : Entry → Prop) (since upper : Nat) (records : List ChangeRecord) :
    Prop where
  ascending : records.Pairwise fun a b => a.seq < b.seq
  complete : ∀ entry, known entry → since < entry.seq → entry.seq ≤ upper →
    ∃ record ∈ records, record.IsFor entry
  sound : ∀ record ∈ records, ∃ entry, known entry ∧ since < entry.seq ∧ entry.seq ≤ upper ∧
    record.IsFor entry

/-- What a call of `stream` may return. -/
def Streamed (known : Entry → Prop) (since upper : Nat) :
    Except MeruError (List ChangeRecord) → Prop
  | .ok records => Exact known since upper records
  | .error (.changeFeedBelowRetention _ _) => True
  | .error _ => False

/-- Where the operations have to be for the stream to be exact: each in the memtables or unmasked in
level 0, only once, under a key that its file gives back. -/
structure System.HeldOnce (schema : TableSchema) (s : System) (source : InProcessLogSource)
    (known : Entry → Prop) (since : Nat) : Prop where
  held : ∀ entry, known entry → since < entry.seq → entry.seq ≤ s.visibleSeq →
    ∃ first, (s.tail since s.visibleSeq).find? (fun held => held.seq = entry.seq) = some first ∧
      first.SameOp entry
  once : (((s.tail since s.visibleSeq).map Entry.seq).filter fun seq => seq < s.visibleSeq).Nodup
  last : ((s.tail since s.visibleSeq).map Entry.seq).count s.visibleSeq ≤ 1 ∨
    source.batchSize ∣ (((s.tail since s.visibleSeq).map Entry.seq).filter fun seq =>
      seq < s.visibleSeq).length + 1
  reads : since < s.visibleSeq → s.ReadsKeys schema since s.visibleSeq
  keys : ∀ row ∈ s.level0Tail since s.visibleSeq,
    (∀ entry ∈ s.memtableTail since s.visibleSeq, entry.seq ≠ row.seq) →
      reencodeKey schema row.key = .ok row.key.bytes

section Exact

variable {config : Config} {schema : TableSchema} {s : System} {source : InProcessLogSource}
  {known : Entry → Prop} {since : Nat} {records : List ChangeRecord} {entry : Entry}
  {record : ChangeRecord} {upper : Nat}

/-- Every version the scan looks at is an operation in the range. -/
def System.TailKnown (s : System) (known : Entry → Prop) (since : Nat) : Prop :=
  ∀ held ∈ s.tail since s.visibleSeq, ∃ entry, known entry ∧ held.SameOp entry

theorem recordOf_isFor {tuple : ChangeTuple} {skip : Bool}
    (made : tuple = .ofEntry entry entry.key.bytes) :
    (s.recordOf config skip tuple).IsFor entry := by
  refine ⟨by simp [made, ChangeTuple.ofEntry], by simp [made, ChangeTuple.ofEntry], ?_⟩
  have op : tuple.opType = entry.value.opType := by rw [made]; rfl
  cases value : entry.value with
  | put row =>
    rw [value] at op
    refine ⟨?_, ?_⟩
    · rw [ne_eq, recordOf_delete, op]
      nofun
    · rw [recordOf_put op, made, ChangeTuple.ofEntry, value]
      rfl
  | delete preImage =>
    rw [value] at op
    exact recordOf_delete.mpr op

/-- The first record with a number tells of the first version with it, unless the key of a row has
not been given back. -/
theorem refill_first (filled : s.refill config schema false since = .ok records) {seq : Nat}
    (found : records.find? (fun record => record.seq = seq) = some record) :
    ∃ tuple, s.EmitsFirst schema since s.visibleSeq seq tuple ∧
      record = s.recordOf config false tuple := by
  obtain ⟨tuples, scanned, rfl⟩ := refill_eq_ok.mp filled
  rw [List.find?_map, Option.map_eq_some_iff] at found
  obtain ⟨tuple, picked, rfl⟩ := found
  refine ⟨tuple, (scanTailChanges_scanned scanned).first seq tuple ?_, rfl⟩
  rw [← picked]
  congr 1
  funext tuple
  simp

theorem find_tail (seq : Nat) :
    (s.tail since s.visibleSeq).find? (fun held => held.seq = seq) =
      ((s.memtableTail since s.visibleSeq).find? fun held => held.seq = seq).or
        ((s.level0Tail since s.visibleSeq).find? fun held => held.seq = seq) := by
  rw [System.tail, List.find?_append]

section

variable (filled : s.refill config schema false since = .ok records)
include filled

theorem refill_find (seq : Nat) :
    (∃ record, records.find? (fun record => record.seq = seq) = some record) ↔
      ∃ first, (s.tail since s.visibleSeq).find? (fun held => held.seq = seq) = some first := by
  have perm := (refill_seqs filled).2
  rw [← Option.isSome_iff_exists, ← Option.isSome_iff_exists, List.find?_isSome, List.find?_isSome]
  have member : seq ∈ records.map ChangeRecord.seq ↔
      seq ∈ (s.tail since s.visibleSeq).map Entry.seq := perm.mem_iff
  simpa [List.mem_map] using member

theorem first_isFor
    (keys : ∀ row ∈ s.level0Tail since s.visibleSeq,
      (∀ entry ∈ s.memtableTail since s.visibleSeq, entry.seq ≠ row.seq) →
      reencodeKey schema row.key = .ok row.key.bytes)
    {seq : Nat} (found : records.find? (fun record => record.seq = seq) = some record) :
    ∃ first, (s.tail since s.visibleSeq).find? (fun held => held.seq = seq) = some first ∧
      record.IsFor first := by
  obtain ⟨tuple, emits, rfl⟩ := refill_first filled found
  unfold System.EmitsFirst at emits
  rw [find_tail]
  cases held : (s.memtableTail since s.visibleSeq).find? fun entry => entry.seq = seq with
  | some entry =>
    rw [held] at emits
    exact ⟨entry, rfl, recordOf_isFor emits⟩
  | none =>
    rw [held] at emits
    obtain ⟨row, listed, pkBytes, encoded, made⟩ := emits
    have member := List.mem_of_find?_eq_some listed
    have number : row.seq = seq := by simpa using List.find?_some listed
    have absent := List.find?_eq_none.mp held
    have given := keys row member (by simpa [number] using absent)
    rw [given] at encoded
    refine ⟨row, by rw [listed]; rfl, recordOf_isFor ?_⟩
    rw [made, Except.ok.inj encoded]

theorem served_records_distinct :
    (served ChangeRecord.seq source.batchSize s.visibleSeq records).Pairwise
        (fun a b => a.seq < b.seq) ↔
      (((s.tail since s.visibleSeq).map Entry.seq).filter fun seq => seq < s.visibleSeq).Nodup ∧
      (((s.tail since s.visibleSeq).map Entry.seq).count s.visibleSeq ≤ 1 ∨
        source.batchSize ∣ (((s.tail since s.visibleSeq).map Entry.seq).filter fun seq =>
          seq < s.visibleSeq).length + 1) := by
  obtain ⟨ascending, perm⟩ := refill_seqs filled
  have below := perm.filter fun seq => seq < s.visibleSeq
  rw [served_distinct_iff source.positive ascending fun record member =>
    (refill_range filled member).2, below.nodup_iff, below.length_eq, perm.count_eq]

end

theorem Exact.isFor (exact' : Exact known since upper records) (member : record ∈ records)
    (committed : known entry) (above : since < entry.seq) (bound : entry.seq ≤ upper)
    (number : record.seq = entry.seq) : record.IsFor entry := by
  obtain ⟨own, listed, isFor⟩ := exact'.complete entry committed above bound
  rwa [eq_of_seq_eq exact'.ascending member listed (number.trans isFor.1.symm)]

section Served

variable (tailKnown : s.TailKnown known since)
  (filled : s.refill config schema false since = .ok records)

include filled in
theorem first_served (source : InProcessLogSource) {seq : Nat} {record : ChangeRecord}
    (found : records.find? (fun record => record.seq = seq) = some record) :
    record ∈ served ChangeRecord.seq source.batchSize s.visibleSeq records ∧ record.seq = seq := by
  refine ⟨find_served source.positive (refill_seqs filled).1 ?_ found, ?_⟩
  · intro record member
    exact (refill_range filled member).2
  · simpa using List.find?_some found

include tailKnown filled in
theorem exact_held
    (exact' : Exact known since s.visibleSeq
      (served ChangeRecord.seq source.batchSize s.visibleSeq records)) {entry : Entry}
    (committed : known entry) (above : since < entry.seq) (bound : entry.seq ≤ s.visibleSeq) :
    ∃ first, (s.tail since s.visibleSeq).find? (fun held => held.seq = entry.seq) = some first ∧
      first.SameOp entry := by
  obtain ⟨record, member, isFor⟩ := exact'.complete entry committed above bound
  have listed : ∃ first, records.find? (fun record => record.seq = entry.seq) = some first := by
    rw [← Option.isSome_iff_exists, List.find?_isSome]
    exact ⟨record, List.mem_of_mem_take member, by simpa using isFor.1⟩
  obtain ⟨first, found⟩ := (refill_find filled entry.seq).mp listed
  have number : first.seq = entry.seq := by simpa using List.find?_some found
  obtain ⟨other, known', same⟩ := tailKnown first (List.mem_of_find?_eq_some found)
  have numbered : other.seq = entry.seq := same.2.1.symm.trans number
  have isForOther := exact'.isFor member known' (numbered ▸ above) (numbered ▸ bound)
    (isFor.1.trans numbered.symm)
  exact ⟨first, found, same.trans (isForOther.sameOp isFor)⟩

include tailKnown filled in
theorem exact_keys
    (exact' : Exact known since s.visibleSeq
      (served ChangeRecord.seq source.batchSize s.visibleSeq records)) {row : Entry}
    (member : row ∈ s.level0Tail since s.visibleSeq)
    (alone : ∀ entry ∈ s.memtableTail since s.visibleSeq, entry.seq ≠ row.seq) :
    reencodeKey schema row.key = .ok row.key.bytes := by
  have inTail : row ∈ s.tail since s.visibleSeq := List.mem_append_right _ member
  have present : ∃ first, (s.tail since s.visibleSeq).find? (fun held => held.seq = row.seq) =
      some first := by
    rw [← Option.isSome_iff_exists, List.find?_isSome]
    exact ⟨row, inTail, by simp⟩
  obtain ⟨record, found⟩ := (refill_find filled row.seq).mpr present
  obtain ⟨listed, number⟩ := first_served filled source found
  have tells : ∀ held ∈ s.tail since s.visibleSeq, held.seq = row.seq →
      record.pkBytes = held.key.bytes := by
    intro held inTail same
    obtain ⟨entry, committed, op⟩ := tailKnown held inTail
    have range := tail_range inTail
    have isFor := exact'.isFor listed committed (op.2.1 ▸ range.1) (op.2.1 ▸ range.2)
      (number.trans (same.symm.trans op.2.1))
    rw [isFor.2.1, op.1]
  obtain ⟨tuple, emits, rfl⟩ := refill_first filled found
  have none : (s.memtableTail since s.visibleSeq).find? (fun entry => entry.seq = row.seq) = none :=
    List.find?_eq_none.mpr fun entry held => by simpa using alone entry held
  unfold System.EmitsFirst at emits
  rw [none] at emits
  obtain ⟨first, picked, pkBytes, encoded, made⟩ := emits
  have firstNumber : first.seq = row.seq := by simpa using List.find?_some picked
  have own := tells first (List.mem_append_right _ (List.mem_of_find?_eq_some picked)) firstNumber
  have given := tells row inTail rfl
  have sameKey : first.key = row.key := UserKey.eq_of_bytes (own.symm.trans given)
  rw [← sameKey, encoded, ← own, recordOf_pkBytes, made]
  rfl

end Served

theorem served_exact_iff (tailKnown : s.TailKnown known since)
    (filled : s.refill config schema false since = .ok records)
    (reads : s.ReadsKeys schema since s.visibleSeq) :
    Exact known since s.visibleSeq (served ChangeRecord.seq source.batchSize s.visibleSeq records) ↔
      s.HeldOnce schema source known since := by
  constructor
  · intro exact'
    obtain ⟨once, last⟩ := (served_records_distinct filled).mp exact'.ascending
    refine ⟨?_, once, last, fun _ => reads, ?_⟩
    · intro entry committed above bound
      exact exact_held tailKnown filled exact' committed above bound
    · intro row member alone
      exact exact_keys tailKnown filled exact' member alone
  · intro cond
    have strict := (served_records_distinct filled).mpr ⟨cond.once, cond.last⟩
    refine ⟨strict, ?_, ?_⟩
    · intro entry committed above bound
      obtain ⟨first, found, same⟩ := cond.held entry committed above bound
      obtain ⟨record, listed⟩ := (refill_find filled entry.seq).mpr ⟨first, found⟩
      obtain ⟨other, found', isFor⟩ := first_isFor filled cond.keys listed
      rw [found] at found'
      rw [← Option.some.inj found'] at isFor
      exact ⟨record, (first_served filled source listed).1, isFor.of_sameOp same⟩
    · intro record member
      have listed : ∃ first, records.find? (fun other => other.seq = record.seq) = some first := by
        rw [← Option.isSome_iff_exists, List.find?_isSome]
        exact ⟨record, List.mem_of_mem_take member, by simp⟩
      obtain ⟨other, found⟩ := listed
      obtain ⟨present, number⟩ := first_served filled source found
      rw [eq_of_seq_eq strict present member number] at found
      obtain ⟨first, picked, isFor⟩ := first_isFor filled cond.keys found
      have inTail := List.mem_of_find?_eq_some picked
      obtain ⟨entry, committed, same⟩ := tailKnown first inTail
      have range := tail_range inTail
      have numbered := same.2.1
      exact ⟨entry, committed, by omega, by omega, isFor.of_sameOp same⟩

theorem exact_done (done : upper ≤ since) : Exact known since upper [] := by
  refine ⟨.nil, ?_, ?_⟩
  · intro entry _ above bound
    omega
  · intro record member
    cases member

theorem heldOnce_done (done : s.visibleSeq ≤ since) : s.HeldOnce schema source known since := by
  have none : s.tail since s.visibleSeq = [] := by
    apply List.eq_nil_iff_forall_not_mem.mpr
    intro entry member
    have range := tail_range member
    omega
  refine ⟨?_, by simp [none], by simp [none], by omega, ?_⟩
  · intro entry _ above bound
    omega
  · intro row member
    have range := (mem_level0Tail.mp member).2
    omega

theorem stream_returns_iff (spec : Except MeruError (List ChangeRecord) → Prop) :
    (∃ bound outcome, (∀ fuel, bound ≤ fuel →
      source.stream config schema s since fuel = some outcome) ∧ spec outcome) ↔
      spec (source.yields config schema s since) := by
  obtain ⟨enough, yields⟩ := stream_yields config schema s source since
  constructor
  · rintro ⟨bound, outcome, returns, met⟩
    have same := (returns (max bound enough) (Nat.le_max_left _ _)).symm.trans
      (yields (max bound enough) (Nat.le_max_right _ _))
    rwa [← Option.some.inj same]
  · intro met
    exact ⟨enough, _, yields, met⟩

end Exact

/-- In every state that a table reaches through writes, flushes, compactions, crashes and reopens, a
stream from any number either reports the retention gap or yields one record for each committed
operation in its range, exactly when every such operation is held once. -/
theorem stream_exact_iff (config : Config) (schema : TableSchema) (source : InProcessLogSource)
    (actions : List TableAction) (table : Table) (s : System)
    (executed : execute tableStep (.created config) actions = some table)
    (running : table.host = .running s) (since : Nat) :
    (∃ bound outcome, (∀ fuel, bound ≤ fuel →
      source.stream table.config schema s since fuel = some outcome) ∧
        Streamed (Committed config actions) since s.visibleSeq outcome) ↔
      s.HeldOnce schema source (Committed config actions) since := by
  have traced := traced_of_execute executed
  have consistent := traced.consistent
  have rows := traced.rows
  rw [Table.Consistent, running] at consistent
  rw [Table.store, running] at rows
  have tailKnown : s.TailKnown (Committed config actions) since := fun held member =>
    tail_known consistent.1 (traced.committed running) rows member
  rw [stream_returns_iff]
  unfold InProcessLogSource.yields
  by_cases done : s.visibleSeq ≤ since
  · rw [if_pos done]
    exact ⟨fun _ => heldOnce_done done, fun _ => exact_done done⟩
  · rw [if_neg done]
    cases filled : s.refill table.config schema false since with
    | error error =>
      constructor
      · intro streamed
        cases error with
        | changeFeedBelowRetention requested lowWater =>
          exact absurd filled (refill_notBelow requested lowWater)
        | _ => cases streamed
      · intro cond
        obtain ⟨tuples, scanned⟩ := scanTailChanges_isOk.mpr (cond.reads (Nat.lt_of_not_le done))
        have fills : s.refill table.config schema false since =
            .ok (tuples.map (s.recordOf table.config false)) :=
          refill_eq_ok.mpr ⟨tuples, scanned, rfl⟩
        rw [filled] at fills
        cases fills
    | ok records =>
      obtain ⟨tuples, scanned, _⟩ := refill_eq_ok.mp filled
      exact served_exact_iff tailKnown filled (scanTailChanges_isOk.mp ⟨tuples, scanned⟩)

namespace Feed.Sample

/-- A table whose key is one byte. -/
def schema : TableSchema := ⟨"t", [⟨"id", .fixedLenByteArray 1, false, some 1, none, none⟩],
    [0], 0, 1⟩

def first : Entry := ⟨(putByte 1 1).1, 1, (putByte 1 1).2⟩

def second : Entry := ⟨(putByte 2 2).1, 2, (putByte 2 2).2⟩

/-- Two keys, of which the first is flushed. -/
def flushedAndHeld : List Action :=
  Calls.write [putByte 1 1] ++ Calls.rotate ++ Calls.runFlush ++ Calls.write [putByte 2 2]

/-- Two versions of one key, flushed together. -/
def overwritten : List Action :=
  Calls.write [putByte 1 1] ++ Calls.write [putByte 1 1] ++ Calls.rotate ++ Calls.runFlush

end Feed.Sample

open Feed.Sample in
theorem stream_exact_flushed_and_held :
    ∃ s, (final tableStep (.created .plain) (acts flushedAndHeld)).host = .running s ∧
      ∃ bound outcome, (∀ fuel, bound ≤ fuel →
        InProcessLogSource.new.stream .plain schema s 0 fuel = some outcome) ∧
        Streamed (Committed .plain (acts flushedAndHeld)) 0 s.visibleSeq outcome := by
  have executed : execute tableStep (.created .plain) (acts flushedAndHeld) =
      some (final tableStep (.created .plain) (acts flushedAndHeld)) :=
    execute_final (by decide +kernel)
  have state : (final tableStep (.created .plain) (acts flushedAndHeld)).system?.map (fun s =>
      (s.visibleSeq, s.memtableTail 0 2, s.level0Tail 0 2,
        (s.scanTailChanges schema 0 2).toOption.isSome)) =
      some (2, [second], [first], true) := by decide +kernel
  obtain ⟨s, found, facts⟩ := Option.map_eq_some_iff.mp state
  simp only [Prod.mk.injEq] at facts
  obtain ⟨visible, held, stored, scanned⟩ := facts
  have host := Table.system?_eq_some.mp found
  have tail : s.tail 0 s.visibleSeq = [second, first] := by
    rw [System.tail, visible, held, stored]
    rfl
  refine ⟨s, host, (stream_exact_iff .plain schema .new _ _ s executed host 0).mpr
    ⟨?_, ?_, ?_, ?_, ?_⟩⟩
  · intro entry committed _ _
    have listed : entry ∈ [first, second] := committed.mem_of_check (by decide +kernel)
    rw [tail]
    rcases List.mem_cons.mp listed with rfl | later
    · exact ⟨first, by decide, rfl, rfl, rfl⟩
    · rw [List.mem_singleton.mp later]
      exact ⟨second, by decide, rfl, rfl, rfl⟩
  · rw [tail, visible]
    decide
  · rw [tail, visible]
    decide
  · intro _
    rw [visible]
    apply scanTailChanges_isOk.mp
    cases read : s.scanTailChanges schema 0 2 with
    | error error =>
      rw [read] at scanned
      cases scanned
    | ok tuples => exact ⟨tuples, rfl⟩
  · intro row member _
    rw [visible, stored] at member
    rw [List.mem_singleton.mp member]
    decide +kernel

open Feed.Sample in
/-- Of two versions that are flushed together only the newer one is streamed. -/
theorem stream_misses_overwritten :
    ∃ table s, execute tableStep (.created .plain) (acts Feed.Sample.overwritten) = some table ∧
      table.host = .running s ∧
      ∃ bound outcome, (∀ fuel, bound ≤ fuel →
        InProcessLogSource.new.stream table.config schema s 0 fuel = some outcome) ∧
        ¬ Streamed (Committed .plain (acts Feed.Sample.overwritten)) 0 s.visibleSeq outcome := by
  have executed : execute tableStep (.created .plain) (acts Feed.Sample.overwritten) =
      some (final tableStep (.created .plain) (acts Feed.Sample.overwritten)) :=
    execute_final (by decide +kernel)
  have state : (final tableStep (.created .plain) (acts Feed.Sample.overwritten)).system?.map
    (fun s =>
      (s.visibleSeq, entriesOf s.history, InProcessLogSource.new.yields
        (final tableStep (.created .plain) (acts Feed.Sample.overwritten)).config schema s 0)) =
      some (2, [first, ⟨(putByte 1 1).1, 2, (putByte 1 1).2⟩],
        .ok [⟨2, .insert, ⟨[some (.bytes [1])]⟩, [1]⟩]) := by decide +kernel
  obtain ⟨s, found, facts⟩ := Option.map_eq_some_iff.mp state
  simp only [Prod.mk.injEq] at facts
  obtain ⟨visible, history, yielded⟩ := facts
  have host := Table.system?_eq_some.mp found
  obtain ⟨bound, returns⟩ := stream_yields
    (final tableStep (.created .plain) (acts Feed.Sample.overwritten)).config schema s .new 0
  refine ⟨_, s, executed, host, bound, _, returns, ?_⟩
  rw [yielded, visible]
  intro exact'
  have committed : Committed .plain (acts Feed.Sample.overwritten) first :=
    ⟨_, _, s, List.prefix_refl _, executed, host, by rw [history]; exact List.mem_cons_self⟩
  obtain ⟨record, member, isFor⟩ := exact'.complete first committed (by decide) (by decide)
  rw [List.mem_singleton.mp member] at isFor
  exact absurd isFor.1 (by decide)

end Merutable
