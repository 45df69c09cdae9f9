import Merutable.Lsm.Labels

/-! The batches of a cursor, one after the other, while the engine writes and rotates its memtables
and flushes nothing. -/

namespace Merutable

open Foundation

/-- Nothing is flushed, so there is nothing to compact. -/
def FeedAction.unflushed : FeedAction → Bool
  | .engine (.flush _) | .engine (.job _ _) => false
  | _ => true

/-- A reader and what its calls have returned so far. -/
structure PagedReader where
  reader : FeedReader
  output : List ChangeRecord

namespace PagedReader

def start (config : Config) (since : Nat) : PagedReader := ⟨.start config since, []⟩

def returned (config : Config) (schema : TableSchema) (reader : FeedReader) :
    FeedAction → List ChangeRecord
  | .engine _ => []
  | .nextBatch maxRows =>
    match reader.cursor.nextBatch config schema reader.system maxRows with
    | .ok (_, batch) => batch
    | .error _ => []

def step (config : Config) (schema : TableSchema) (paged : PagedReader) (action : FeedAction) :
    Option PagedReader :=
  (paged.reader.step config schema action).map fun next =>
    ⟨next, paged.output ++ returned config schema paged.reader action⟩

end PagedReader

/-- Every operation is still in the memtables. -/
structure System.Unflushed (config : Config) (s : System) : Prop where
  base : s.Base config
  held : s.memtable.batches = s.history
  bare : s.version.files = []

section Unflushed

variable {config : Config} {s t : System}

theorem System.Unflushed.step {action : Action} (inv : s.Unflushed config)
    (unflushed : FeedAction.unflushed (.engine action) = true)
    (fired : Merutable.step config s action = some t) : t.Unflushed config := by
  have base := inv.base.step fired
  cases step_effect fired with
  | write fired =>
    obtain ⟨more, history, batches, _⟩ := write_batches inv.base.numbered fired
    exact ⟨base, by rw [batches, history, inv.held], inv.bare⟩
  | rotate fired => exact ⟨base, (rotation_batches fired).trans inv.held, inv.bare⟩
  | flush | job => cases unflushed
  | _ => exact ⟨base, inv.held, inv.bare⟩

theorem memtableTail_perm (base : s.Base config) (since readSeq : Nat) :
    (s.memtableTail since readSeq).Perm ((entriesOf s.memtable.batches).filter fun entry =>
      since < entry.seq ∧ entry.seq ≤ readSeq) := by
  have queue : (s.memtable.active :: s.memtable.immutable.reverse).Perm s.memtable.queue :=
    (s.memtable.immutable.reverse_perm.cons _).trans (List.perm_append_singleton _ _).symm
  have lists : (s.memtable.queue.flatMap Memtable.skiplist).Perm
      (entriesOf s.memtable.batches) := by
    rw [entriesOf, MemtableManager.batches, List.flatMap_assoc]
    exact List.Perm.flatMap_left _ fun memtable queued =>
      SkipList.ofEntries_perm (base.increasing queued).entries
  have versions : s.memtableTail since readSeq =
      ((s.memtable.active :: s.memtable.immutable.reverse).flatMap Memtable.skiplist).filter
        fun entry => since < entry.seq ∧ entry.seq ≤ readSeq := by
    simp [System.memtableTail, MemtableManager.snapshotAllVersions, Memtable.iterAllVersions,
      List.filter_flatMap]
  rw [versions]
  exact ((queue.flatMap_right _).trans lists).filter _

theorem System.Unflushed.refill (inv : s.Unflushed config) (schema : TableSchema) (since : Nat) :
    ∃ records, s.refill config schema false since = .ok records ∧
      Exact (· ∈ entriesOf s.history) since s.visibleSeq records := by
  have tail := inv.held ▸ memtableTail_perm inv.base since s.visibleSeq
  have files : s.version.filesAt 0 = [] := by simp [Version.filesAt, inv.bare]
  have bare : s.level0Tail since s.visibleSeq = [] := by simp [System.level0Tail, files]
  have increasing := inv.base.numbered.increasing.entries
  have reads : s.ReadsKeys schema since s.visibleSeq := by simp [System.ReadsKeys, files, bare]
  obtain ⟨tuples, scanned⟩ := scanTailChanges_isOk.mpr reads
  have filled : s.refill config schema false since = .ok (tuples.map (s.recordOf config false)) :=
    refill_eq_ok.mpr ⟨tuples, scanned, rfl⟩
  obtain ⟨ascending, seqs⟩ := refill_seqs filled
  rw [System.tail, bare, List.append_nil] at seqs
  have distinct : (tuples.map (s.recordOf config false)).Pairwise fun a b => a.seq ≠ b.seq := by
    rw [← List.pairwise_map, (seqs.trans (tail.map _)).pairwise_iff fun different => different.symm,
      List.pairwise_map]
    exact (increasing.imp fun less => less.ne).filter _
  have isFor : ∀ record ∈ tuples.map (s.recordOf config false), ∃ entry ∈ entriesOf s.history,
      since < entry.seq ∧ entry.seq ≤ s.visibleSeq ∧ record.IsFor entry := by
    intro record member
    obtain ⟨tuple, listed, rfl⟩ := List.mem_map.mp member
    obtain ⟨entry, ⟨inTail, made⟩ | ⟨stored, _⟩⟩ :=
      (scanTailChanges_scanned scanned).sound tuple listed
    · obtain ⟨known, range⟩ := List.mem_filter.mp (tail.mem_iff.mp inTail)
      exact ⟨entry, known, (of_decide_eq_true range).1, (of_decide_eq_true range).2,
        recordOf_isFor made⟩
    · rw [bare] at stored
      cases stored
  refine ⟨_, filled, (ascending.and distinct).imp fun both => lt_of_le_of_ne both.1 both.2, ?_,
    isFor⟩
  intro entry known above bound
  have inTail := tail.mem_iff.mpr (List.mem_filter.mpr ⟨known, decide_eq_true ⟨above, bound⟩⟩)
  obtain ⟨record, member, number⟩ := List.mem_map.mp (seqs.mem_iff.mpr (List.mem_map_of_mem inTail))
  obtain ⟨other, inHistory, _, _, ofOther⟩ := isFor record member
  cases eq_of_seq_eq increasing inHistory known (ofOther.1.symm.trans number)
  exact ⟨record, member, ofOther⟩

end Unflushed

section Exact

variable {known later : Entry → Prop} {since middle upper visible : Nat}
  {records others : List ChangeRecord}

/-- Operations that become known behind what was visible are out of range. -/
theorem Exact.grow (exact' : Exact known since upper records)
    (keeps : ∀ entry, known entry → later entry)
    (behind : ∀ entry, later entry → known entry ∨ visible < entry.seq)
    (bound : upper ≤ since ∨ upper ≤ visible) : Exact later since upper records := by
  refine ⟨exact'.ascending, ?_, ?_⟩
  · intro entry known above below
    rcases behind entry known with old | new
    · exact exact'.complete entry old above below
    · omega
  · intro record member
    obtain ⟨entry, known, rest⟩ := exact'.sound record member
    exact ⟨entry, keeps entry known, rest⟩

theorem Exact.range (exact' : Exact known since upper records) {record : ChangeRecord}
    (member : record ∈ records) : since < record.seq ∧ record.seq ≤ upper := by
  obtain ⟨entry, _, above, below, number, _⟩ := exact'.sound record member
  omega

theorem Exact.append (first : Exact known since middle records)
    (second : Exact known middle upper others) (low : since ≤ middle) (high : middle ≤ upper) :
    Exact known since upper (records ++ others) := by
  refine ⟨List.pairwise_append.mpr ⟨first.ascending, second.ascending, ?_⟩, ?_, ?_⟩
  · intro a inFirst b inSecond
    exact (first.range inFirst).2.trans_lt (second.range inSecond).1
  · intro entry known above below
    rcases Nat.lt_or_ge middle entry.seq with behind | before
    · obtain ⟨record, member, isFor⟩ := second.complete entry known behind below
      exact ⟨record, List.mem_append_right _ member, isFor⟩
    · obtain ⟨record, member, isFor⟩ := first.complete entry known above before
      exact ⟨record, List.mem_append_left _ member, isFor⟩
  · intro record member
    rcases List.mem_append.mp member with inFirst | inSecond
    · obtain ⟨entry, known, above, below, isFor⟩ := first.sound record inFirst
      exact ⟨entry, known, above, by omega, isFor⟩
    · obtain ⟨entry, known, above, below, isFor⟩ := second.sound record inSecond
      exact ⟨entry, known, by omega, below, isFor⟩

/-- The records up to a number are exact up to it. -/
theorem Exact.cut (exact' : Exact known since upper (records ++ others)) (high : middle ≤ upper)
    (front : ∀ record ∈ records, record.seq ≤ middle)
    (back : ∀ record ∈ others, middle < record.seq) : Exact known since middle records := by
  refine ⟨(List.pairwise_append.mp exact'.ascending).1, ?_, ?_⟩
  · intro entry known above below
    obtain ⟨record, member, isFor⟩ := exact'.complete entry known above (by omega)
    rcases List.mem_append.mp member with inFront | inBack
    · exact ⟨record, inFront, isFor⟩
    · have := back record inBack
      have := isFor.1
      omega
  · intro record member
    obtain ⟨entry, known, above, _, isFor⟩ := exact'.sound record (List.mem_append_left _ member)
    exact ⟨entry, known, above, isFor.1 ▸ front record member, isFor⟩

end Exact

/-- What was returned and what waits in the buffer are exact together, and the position of the
cursor is between them. -/
structure PagedReader.At (known : Entry → Prop) (visible since last : Nat)
    (output buffer : List ChangeRecord) : Prop where
  low : since ≤ last
  front : ∀ record ∈ output, record.seq ≤ last
  back : ∀ record ∈ buffer, last < record.seq
  exact : ∃ upper, last ≤ upper ∧ (upper ≤ since ∨ upper ≤ visible) ∧
    Exact known since upper (output ++ buffer)

namespace PagedReader.At

variable {known later : Entry → Prop} {since last visible : Nat} {output buffer : List ChangeRecord}

theorem grow {now : Nat} (at' : At known visible since last output buffer)
    (advanced : visible ≤ now) (keeps : ∀ entry, known entry → later entry)
    (behind : ∀ entry, later entry → known entry ∨ visible < entry.seq) :
    At later now since last output buffer := by
  obtain ⟨low, front, back, upper, high, bound, exact'⟩ := at'
  exact ⟨low, front, back, upper, high, by omega, exact'.grow keeps behind bound⟩

theorem refill {records : List ChangeRecord} (at' : At known visible since last output [])
    (fresh : last ≤ visible) (filled : Exact known last visible records) :
    At known visible since last output records := by
  obtain ⟨low, front, back, upper, high, _, exact'⟩ := at'
  exact ⟨low, front, fun record member => (filled.range member).1, visible, fresh, .inr le_rfl,
    (exact'.cut high front back).append filled low fresh⟩

/-- A page ends at the number of its last record. -/
theorem serve (at' : At known visible since last output buffer) (maxRows : Nat) :
    At known visible since (((buffer.take maxRows).getLast?.map ChangeRecord.seq).getD last)
      (output ++ buffer.take maxRows) (buffer.drop maxRows) := by
  obtain ⟨low, front, back, upper, high, bound, exact'⟩ := at'
  have whole : output ++ buffer.take maxRows ++ buffer.drop maxRows = output ++ buffer := by
    rw [List.append_assoc, List.take_append_drop]
  rcases List.eq_nil_or_concat' (buffer.take maxRows) with none | ⟨page, final, page_eq⟩
  · have rest : buffer.drop maxRows = buffer := by
      simpa [none] using List.take_append_drop maxRows buffer
    rw [none, rest, List.append_nil]
    exact ⟨low, front, back, upper, high, bound, exact'⟩
  · have inBuffer : final ∈ buffer := List.mem_of_mem_take (page_eq ▸ List.mem_concat_self)
    have above := back final inBuffer
    have ordered := exact'.ascending
    rw [← whole, page_eq, List.pairwise_append] at ordered
    obtain ⟨upTo, _, across⟩ := ordered
    rw [← List.append_assoc, List.pairwise_append] at upTo
    have middle : ((buffer.take maxRows).getLast?.map ChangeRecord.seq).getD last = final.seq := by
      simp [page_eq]
    rw [middle]
    refine ⟨by omega, fun record member => ?_, fun record member => ?_, upper,
      (exact'.range (List.mem_append_right _ inBuffer)).2, bound, whole ▸ exact'⟩
    · rw [page_eq, ← List.append_assoc, List.mem_append, List.mem_singleton] at member
      rcases member with earlier | rfl
      · exact (upTo.2.2 record earlier final (List.mem_singleton.mpr rfl)).le
      · exact le_rfl
    · exact across final (by simp) record member

end PagedReader.At

namespace PagedReader

variable {config : Config} {schema : TableSchema} {since : Nat} {paged next : PagedReader}

structure Sound (config : Config) (since : Nat) (paged : PagedReader) : Prop where
  unflushed : paged.reader.system.Unflushed config
  placed : ∃ last buffer, paged.reader.cursor = ⟨.engine last buffer, false⟩ ∧
    At (· ∈ entriesOf paged.reader.system.history) paged.reader.system.visibleSeq since last
      paged.output buffer

theorem nextBatch_at {s : System} {last : Nat} {output buffer : List ChangeRecord}
    (schema : TableSchema) (quiet : s.Unflushed config)
    (placed : At (· ∈ entriesOf s.history) s.visibleSeq since last output buffer) (maxRows : Nat) :
    ∃ last' buffer' batch, ChangeFeedCursor.nextBatch config schema s ⟨.engine last buffer, false⟩
        maxRows = .ok (⟨.engine last' buffer', false⟩, batch) ∧
      At (· ∈ entriesOf s.history) s.visibleSeq since last' (output ++ batch) buffer' := by
  cases buffer with
  | nil =>
    by_cases done : s.visibleSeq ≤ last
    · refine ⟨last, [], [], if_pos done, ?_⟩
      rw [List.append_nil]
      exact placed
    · obtain ⟨records, filled, exact'⟩ := quiet.refill schema last
      refine ⟨_, _, _, ?_, (placed.refill (by omega) exact').serve maxRows⟩
      simp only [ChangeFeedCursor.nextBatch, ChangeFeedCursor.nextBatchOf, if_neg done, filled]
      rfl
  | cons first rest => exact ⟨_, _, _, rfl, placed.serve maxRows⟩

theorem Sound.step {action : FeedAction} (sound : paged.Sound config since)
    (unflushed : action.unflushed = true)
    (fired : PagedReader.step config schema paged action = some next) :
    next.Sound config since := by
  obtain ⟨⟨s, cursor⟩, output⟩ := paged
  obtain ⟨quiet, last, buffer, rfl, placed⟩ := sound
  obtain ⟨reader, moved, rfl⟩ := Option.map_eq_some_iff.mp fired
  cases action with
  | engine action =>
    obtain ⟨t, stepped, rfl⟩ := Option.map_eq_some_iff.mp moved
    obtain ⟨more, grown, above⟩ := history_more quiet.base.numbered stepped
    refine ⟨quiet.step unflushed stepped, last, buffer, rfl, ?_⟩
    rw [returned, List.append_nil]
    refine placed.grow (visible_step stepped) (fun entry known => ?_) fun entry known => ?_
    · rw [grown, entriesOf_append]
      exact List.mem_append_left _ known
    · rw [grown, entriesOf_append] at known
      exact (List.mem_append.mp known).imp_right (above entry)
  | nextBatch maxRows =>
    obtain ⟨last', buffer', batch, served, placed'⟩ := nextBatch_at schema quiet placed maxRows
    simp only [FeedReader.step, served, Option.some.injEq] at moved
    subst moved
    refine ⟨quiet, last', buffer', rfl, ?_⟩
    simpa only [returned, served] using placed'

/-- The outputs of a cursor's calls are together the operations behind its start up to where it has
come, each one once and in their order. -/
theorem cursor_output_exact (config : Config) (schema : TableSchema) (since : Nat)
    (actions : List FeedAction) (paged : PagedReader)
    (run : Run (PagedReader.step config schema) (fun _ action => action.unflushed = true)
      (.start config since) actions paged) :
    Exact (· ∈ entriesOf paged.reader.system.history) since paged.reader.cursor.sinceSeq
      paged.output := by
  have initially : (start config since).Sound config since :=
    ⟨⟨initial_base config, rfl, rfl⟩, since, [], rfl, le_rfl, nofun, nofun, since, le_rfl,
      .inl le_rfl, exact_done le_rfl⟩
  obtain ⟨_, last, buffer, cursor, low, front, back, upper, high, _, exact'⟩ :=
    run.invariant _ (fun _ _ _ sound unflushed fired => sound.step unflushed fired) initially
  rw [cursor]
  exact exact'.cut high front back

/-- The second batch is served from the buffer, the third after another write. -/
def paging : List FeedAction :=
  (Calls.write [putByte 1 1, putByte 2 2]).map .engine ++ [.nextBatch 1] ++
    (Calls.rotate ++ Calls.write [putByte 1 3]).map .engine ++ [.nextBatch 9, .nextBatch 9]

def drained : PagedReader := final (step .plain Feed.Sample.schema) (.start .plain 0) paging

theorem cursor_output_exact_drained : drained.output.map ChangeRecord.seq = [1, 2, 3] ∧
    Exact (· ∈ entriesOf drained.reader.system.history) 0 drained.reader.cursor.sinceSeq
      drained.output :=
  ⟨by decide +kernel, cursor_output_exact .plain Feed.Sample.schema 0 paging drained
    (.of_decided (by decide +kernel))⟩

end PagedReader

end Merutable
