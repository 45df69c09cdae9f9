import Merutable.Lsm.Feed
import Merutable.Lsm.Order

/-! The labels and pre-images of the change feed against the history, for operations that are
executed one at a time while a cursor is read. -/

namespace Merutable

open Foundation Compaction ReadPath

/-- The row the key had before the sequence number, if it was live. -/
def liveBefore (history : List WriteBatch) (key : UserKey) (seq : Nat) : Option Row :=
  (newest Entry.key key ((entriesOf history).filter fun entry => entry.seq < seq)).bind fun entry =>
    entry.value.row?

/-- The record says what it should of an operation on a key with this row before it. -/
def ChangeRecord.Right (record : ChangeRecord) (live : Option Row) : EntryValue → Prop
  | .put _ => record.op = if live.isSome then .update else .insert
  | .delete _ => record.op = .delete ∧ record.row = live.getD ⟨[]⟩

/-- The newest version of the key below the number that is still held is a put of the row. -/
def System.ShowsBelow (s : System) (pkBytes : Bytes) (seq : Nat) (row : Row) : Prop :=
  ∃ held, s.Holds held ∧ held.key.bytes = pkBytes ∧ held.seq < seq ∧
    (∀ other, s.Holds other → other.key.bytes = pkBytes → other.seq < seq → other.seq ≤ held.seq) ∧
    held.value.row? = some row

/-- A scan reads the version, and gives its key these bytes: its own in a memtable, and those of the
decoded key columns in a file. -/
def System.ReadUnder (schema : TableSchema) (s : System) (sinceSeq : Nat) (held : Entry)
    (pkBytes : Bytes) : Prop :=
  held ∈ s.memtableTail sinceSeq s.visibleSeq ∧ pkBytes = held.key.bytes ∨
    held ∈ s.level0Tail sinceSeq s.visibleSeq ∧ reencodeKey schema held.key = .ok pkBytes

/-- What is still held below the version says of its key what the history says: a row or none, and
for a delete the same row, or the delete itself has kept it. -/
def System.Recalls (s : System) (pkBytes : Bytes) (version : Entry) (live : Option Row) : Prop :=
  match version.value with
  | .put _ => (∃ row, s.ShowsBelow pkBytes version.seq row) ↔ live.isSome
  | .delete preImage => s.ShowsBelow pkBytes version.seq (live.getD ⟨[]⟩) ∨
      (∀ row, ¬ s.ShowsBelow pkBytes version.seq row) ∧ preImage.getD ⟨[]⟩ = live.getD ⟨[]⟩

/-- What holds while operations are executed one at a time. -/
structure System.Feeding (config : Config) (s : System) : Prop where
  base : s.Base config
  durable : s.Durable
  sequential : s.Sequential config
  ordered : s.Ordered
  rows : RowsFrom (· ∈ entriesOf s.history) s.store

theorem initial_feeding (config : Config) : (System.initial config).Feeding config where
  base := initial_base config
  durable := initial_durable config
  sequential := initial_sequential config
  ordered := initial_ordered config
  rows := by intro file present; cases present

section Feeding

variable {config : Config} {schema : TableSchema} {s t : System} {pkBytes : Bytes} {row : Row}
  {entry : Entry}

theorem System.Feeding.step {action : Action} (inv : s.Feeding config) (alone : Alone s action)
    (fired : Merutable.step config s action = some t) : t.Feeding config where
  base := inv.base.step fired
  durable := inv.durable.step inv.base fired
  sequential := inv.sequential.step alone fired
  ordered := inv.ordered.step inv.base inv.durable (inv.sequential.installs action) fired
  rows := by
    obtain ⟨more, grown, _⟩ := history_more inv.base.numbered fired
    refine (rowsFrom_step inv.base (fun entry applied => applied) inv.rows fired).mono ?_
    intro entry applied
    rw [grown, entriesOf_append]
    exact List.mem_append_left _ applied

theorem System.Feeding.holds_known (inv : s.Feeding config) {held : Entry} (holds : s.Holds held) :
    ∃ entry ∈ entriesOf s.history, held.SameOp entry := by
  rcases holds with inMemtables | ⟨ref, present, live⟩
  · obtain ⟨batch, listed, inBatch⟩ := mem_entriesOf.mp inMemtables
    exact ⟨held, mem_entriesOf.mpr ⟨batch, inv.base.queued.held.subset listed, inBatch⟩,
      rfl, rfl, rfl⟩
  · have kept := (inv.base.keeps s.version .installed).2 ref present
    exact inv.rows ref.file kept held (ref.liveRows_sublist.subset live)

theorem System.Feeding.holds_agree (inv : s.Feeding config) {a b : Entry} (first : s.Holds a)
    (second : s.Holds b) (same : a.seq = b.seq) : a.value.row? = b.value.row? := by
  obtain ⟨opA, inA, sameA⟩ := inv.holds_known first
  obtain ⟨opB, inB, sameB⟩ := inv.holds_known second
  have equal := eq_of_seq_eq inv.base.numbered.increasing.entries inA inB
    (sameA.2.1.symm.trans (same.trans sameB.2.1))
  rw [sameA.2.2, equal, ← sameB.2.2]

theorem pointLookup_eq_bind {memtables : MemtableManager} {version : Version} {key : UserKey}
    {readSeq : Nat} : pointLookup config memtables version key readSeq =
      ((memtables.get key readSeq).or (probeFiles config version key readSeq)).bind fun entry =>
        entry.value.row? := by
  unfold pointLookup
  cases memtables.get key readSeq with
  | some entry => rfl
  | none => rfl

theorem System.Feeding.pointLookupAtSeq_eq_some (inv : s.Feeding config) {seq : Nat}
    (positive : seq ≠ 0) :
    s.pointLookupAtSeq config pkBytes (seq - 1) = some row ↔ s.ShowsBelow pkBytes seq row := by
  unfold System.pointLookupAtSeq
  split
  · rename_i nonempty
    have newest := inv.ordered.hitAt_newest inv.base ⟨pkBytes, nonempty⟩ (seq - 1)
    rw [pointLookup_eq_bind]
    change (s.hitAt config ⟨pkBytes, nonempty⟩ (seq - 1)).bind _ = some row ↔ _
    have keyed : ∀ {entry : Entry}, entry.key.bytes = pkBytes ↔
        entry.key = ⟨pkBytes, nonempty⟩ :=
      ⟨fun bytes => UserKey.eq_of_bytes (b := ⟨pkBytes, nonempty⟩) bytes, congrArg UserKey.bytes⟩
    cases hit : s.hitAt config ⟨pkBytes, nonempty⟩ (seq - 1) with
    | none =>
      rw [hit] at newest
      constructor
      · intro found
        cases found
      · rintro ⟨held, holds, bytes, below, _⟩
        have := newest held holds (keyed.mp bytes)
        omega
    | some entry =>
      rw [hit] at newest
      obtain ⟨holds, key, bound, top⟩ := newest
      rw [Option.bind_some]
      constructor
      · intro found
        refine ⟨entry, holds, keyed.mpr key, by omega, ?_, found⟩
        intro other held bytes below
        exact top other held (keyed.mp bytes) (by omega)
      · rintro ⟨held, holds', bytes, below, most, found⟩
        have upper := top held holds' (keyed.mp bytes) (by omega)
        have lower := most entry holds (keyed.mpr key) (by omega)
        rw [inv.holds_agree holds holds' (by omega)]
        exact found
  · rename_i empty
    constructor
    · intro found
      cases found
    · rintro ⟨held, _, bytes, _⟩
      exact absurd (bytes ▸ held.key.nonempty) empty

theorem System.Feeding.label_put (inv : s.Feeding config) (put : entry.value = .put row)
    (positive : entry.seq ≠ 0) :
    (s.recordOf config false (.ofEntry entry pkBytes)).op = .update ↔
      ∃ row, s.ShowsBelow pkBytes entry.seq row := by
  have same : s.withPreImage config (.ofEntry entry pkBytes) = .ofEntry entry pkBytes := by
    unfold System.withPreImage
    rw [if_neg]
    simp [ChangeTuple.ofEntry, put, EntryValue.opType]
  change s.changeOp config false (s.withPreImage config _) = _ ↔ _
  rw [same]
  simp only [System.changeOp, ChangeTuple.ofEntry, put, EntryValue.opType,
    Bool.false_eq_true, if_false,
    ne_eq, positive, not_false_eq_true, true_and]
  cases found : s.pointLookupAtSeq config pkBytes (entry.seq - 1) with
  | some live =>
    simp only [Option.isSome_some, if_true, true_iff]
    exact ⟨live, (inv.pointLookupAtSeq_eq_some positive).mp found⟩
  | none =>
    simp only [Option.isSome_none, Bool.false_eq_true, if_false, reduceCtorEq, false_iff]
    rintro ⟨live, shows⟩
    rw [(inv.pointLookupAtSeq_eq_some positive).mpr shows] at found
    cases found

theorem System.Feeding.row_delete (inv : s.Feeding config) {preImage : Option Row}
    (delete : entry.value = .delete preImage) (positive : entry.seq ≠ 0) :
    (s.recordOf config false (.ofEntry entry pkBytes)).row = row ↔
      s.ShowsBelow pkBytes entry.seq row ∨
        (∀ row, ¬ s.ShowsBelow pkBytes entry.seq row) ∧ preImage.getD ⟨[]⟩ = row := by
  have made : (s.recordOf config false (.ofEntry entry pkBytes)).row =
      (s.pointLookupAtSeq config pkBytes (entry.seq - 1)).getD (preImage.getD ⟨[]⟩) := by
    change (s.withPreImage config (.ofEntry entry pkBytes)).row = _
    unfold System.withPreImage
    rw [if_pos (by simp [ChangeTuple.ofEntry, delete, EntryValue.opType, positive])]
    cases preImage with
    | none => simp [ChangeTuple.ofEntry, delete, storedRow]
    | some stored => simp [ChangeTuple.ofEntry, delete, storedRow]
  rw [made]
  have shown : ∀ row, s.pointLookupAtSeq config pkBytes (entry.seq - 1) = some row ↔
      s.ShowsBelow pkBytes entry.seq row := fun row => inv.pointLookupAtSeq_eq_some positive
  cases found : s.pointLookupAtSeq config pkBytes (entry.seq - 1) with
  | some live =>
    have only : ∀ row, s.ShowsBelow pkBytes entry.seq row ↔ live = row := by
      intro row
      rw [← shown, found, Option.some.injEq]
    simp [only]
  | none =>
    have never : ∀ row, ¬ s.ShowsBelow pkBytes entry.seq row := by
      intro row shows
      rw [(shown row).mpr shows] at found
      cases found
    simp [never]

/-- In one state: a record that a refill reads is right exactly when what is still held recalls the
history. -/
theorem System.Feeding.refill_right_iff (inv : s.Feeding config) {sinceSeq : Nat}
    {records : List ChangeRecord} (filled : s.refill config schema false sinceSeq = .ok records)
    {record : ChangeRecord} (member : record ∈ records) :
    ∃ held pkBytes, s.ReadUnder schema sinceSeq held pkBytes ∧ record.seq = held.seq ∧
      ∃ entry ∈ entriesOf s.history, held.SameOp entry ∧
        ∀ live, record.Right live entry.value ↔ s.Recalls pkBytes held live := by
  have above := refill_range filled member
  obtain ⟨tuples, scanned, rfl⟩ := refill_eq_ok.mp filled
  obtain ⟨tuple, inTuples, rfl⟩ := List.mem_map.mp member
  obtain ⟨held, emits⟩ := (scanTailChanges_scanned scanned).sound tuple inTuples
  obtain ⟨pkBytes, rfl, source⟩ : ∃ pkBytes, tuple = .ofEntry held pkBytes ∧
      s.ReadUnder schema sinceSeq held pkBytes := by
    rcases emits with ⟨inMemtables, made⟩ | ⟨inFiles, pkBytes, encoded, made⟩
    · exact ⟨_, made, .inl ⟨inMemtables, rfl⟩⟩
    · exact ⟨pkBytes, made, .inr ⟨inFiles, encoded⟩⟩
  have number : (s.recordOf config false (.ofEntry held pkBytes)).seq = held.seq := by
    rw [recordOf_seq]
    rfl
  have positive : held.seq ≠ 0 := by
    rw [number] at above
    omega
  have inTail : held ∈ s.tail sinceSeq s.visibleSeq := by
    rcases source with ⟨inMemtables, _⟩ | ⟨inFiles, _⟩
    · exact List.mem_append_left _ inMemtables
    · exact List.mem_append_right _ inFiles
  obtain ⟨entry, applied, same⟩ := tail_known inv.base (fun entry applied => applied)
    inv.rows inTail
  refine ⟨held, pkBytes, source, number, entry, applied, same, fun live => ?_⟩
  have rows := same.2.2
  cases stored : held.value with
  | put row =>
    rw [stored] at rows
    cases value : entry.value with
    | delete preImage =>
      rw [value] at rows
      cases rows
    | put other =>
      have updates : _ ↔ ∃ row, s.ShowsBelow pkBytes held.seq row := inv.label_put stored positive
      have kept : (s.recordOf config false (.ofEntry held pkBytes)).op ≠ .delete := by
        rw [ne_eq, recordOf_delete]
        simp [ChangeTuple.ofEntry, stored, EntryValue.opType]
      simp only [ChangeRecord.Right, System.Recalls, stored, ← updates]
      generalize (s.recordOf config false (.ofEntry held pkBytes)).op = op at kept ⊢
      cases op with
      | delete => exact absurd rfl kept
      | insert | update => cases live <;> simp
  | delete preImage =>
    rw [stored] at rows
    cases value : entry.value with
    | put other =>
      rw [value] at rows
      cases rows
    | delete other =>
      have deletes : (s.recordOf config false (.ofEntry held pkBytes)).op = .delete :=
        recordOf_delete.mpr (by simp [ChangeTuple.ofEntry, stored, EntryValue.opType])
      simp only [ChangeRecord.Right, System.Recalls, stored, deletes, true_and]
      exact inv.row_delete stored positive

end Feeding

/-- An engine and a cursor that reads it. -/
structure FeedReader where
  system : System
  cursor : ChangeFeedCursor

inductive FeedAction where
  | engine (action : Action)
  | nextBatch (maxRows : Nat)

namespace FeedReader

def start (config : Config) (sinceSeq : Nat) : FeedReader := ⟨.initial config, .fromEngine sinceSeq⟩

/-- A call of `next_batch` that fails leaves the cursor as it was. -/
def step (config : Config) (schema : TableSchema) (reader : FeedReader) :
    FeedAction → Option FeedReader
  | .engine action =>
    (Merutable.step config reader.system action).map fun next => { reader with system := next }
  | .nextBatch maxRows =>
    match reader.cursor.nextBatch config schema reader.system maxRows with
    | .ok (cursor, _) => some { reader with cursor := cursor }
    | .error _ => some reader

/-- The operations are executed one at a time; the cursor may be read between any two steps. -/
def Alone (reader : FeedReader) : FeedAction → Prop
  | .engine action => Merutable.Alone reader.system action
  | .nextBatch _ => True

/-- The later history goes on behind what was visible. -/
def Precedes (earlier later : System) : Prop :=
  earlier.visibleSeq ≤ later.visibleSeq ∧ ∃ more, later.history = earlier.history ++ more ∧
    ∀ entry ∈ entriesOf more, earlier.visibleSeq < entry.seq

/-- The record was read by a refill in an earlier state of the run. -/
def Fetched (config : Config) (schema : TableSchema) (since : Nat) (past : List FeedAction)
    (reader : FeedReader) (record : ChangeRecord) : Prop :=
  ∃ before origin records, before <+: past ∧
    Run (step config schema) Alone (start config since) before origin ∧
    origin.system.refill config schema false origin.cursor.sinceSeq = .ok records ∧
    record ∈ records ∧ Precedes origin.system reader.system

/-- What holds of a cursor along a run. -/
structure Fed (config : Config) (schema : TableSchema) (since : Nat) (past : List FeedAction)
    (reader : FeedReader) : Prop where
  run : Run (step config schema) Alone (start config since) past reader
  feeding : reader.system.Feeding config
  discriminates : reader.cursor.skipUpdateDiscrimination = false
  fetched : ∀ record ∈ reader.cursor.buffered, Fetched config schema since past reader record

section Fed

variable {config : Config} {schema : TableSchema} {since : Nat} {past : List FeedAction}
  {reader next : FeedReader} {record : ChangeRecord}

theorem Fetched.now {records : List ChangeRecord}
    (run : Run (step config schema) Alone (start config since) past reader)
    (filled : reader.system.refill config schema false reader.cursor.sinceSeq = .ok records)
    (member : record ∈ records) : Fetched config schema since past reader record :=
  ⟨past, reader, records, List.prefix_refl _, run, filled, member, le_rfl, [], by simp, by simp⟩

theorem Precedes.trans {first second third : System} (early : Precedes first second)
    (late : Precedes second third) : Precedes first third := by
  obtain ⟨visible, more, grown, above⟩ := early
  obtain ⟨visible', rest, grown', above'⟩ := late
  refine ⟨visible.trans visible', more ++ rest, by rw [grown', grown, List.append_assoc], ?_⟩
  intro entry member
  rw [entriesOf_append] at member
  rcases List.mem_append.mp member with inMore | inRest
  · exact above entry inMore
  · exact visible.trans_lt (above' entry inRest)

theorem Fetched.mono {action : FeedAction}
    (fetched : Fetched config schema since past reader record)
    (later : Precedes reader.system next.system) :
    Fetched config schema since (past ++ [action]) next record := by
  obtain ⟨before, origin, records, earlier, run, filled, member, precedes⟩ := fetched
  exact ⟨before, origin, records, earlier.trans (List.prefix_append _ _), run, filled, member,
    precedes.trans later⟩

theorem nextBatch_sound {cursor after : ChangeFeedCursor} {s : System} {maxRows : Nat}
    {batch : List ChangeRecord}
    (returned : cursor.nextBatch config schema s maxRows = .ok (after, batch)) :
    after.skipUpdateDiscrimination = cursor.skipUpdateDiscrimination ∧
      ∀ record, record ∈ batch ∨ record ∈ after.buffered → record ∈ cursor.buffered ∨
        ∃ records, s.refill config schema cursor.skipUpdateDiscrimination cursor.sinceSeq =
          .ok records ∧ record ∈ records := by
  obtain ⟨inner, skip⟩ := cursor
  have served : ∀ (since : Nat) (buffer : List ChangeRecord) (record : ChangeRecord),
      (ChangeFeedCursor.mk inner skip).serve since buffer maxRows = (after, batch) →
        record ∈ batch ∨ record ∈ after.buffered → record ∈ buffer := by
    intro since buffer record same
    obtain ⟨rfl, rfl⟩ := Prod.mk.inj same
    rintro (inBatch | kept)
    · exact List.mem_of_mem_take inBatch
    · exact List.mem_of_mem_drop kept
  have skipped : ∀ (since : Nat) (buffer : List ChangeRecord),
      (ChangeFeedCursor.mk inner skip).serve since buffer maxRows = (after, batch) →
        after.skipUpdateDiscrimination = skip := by
    intro since buffer same
    obtain ⟨rfl, rfl⟩ := Prod.mk.inj same
    rfl
  unfold ChangeFeedCursor.nextBatch ChangeFeedCursor.nextBatchOf at returned
  split at returned
  · cases returned
  · rename_i since same
    dsimp only at same
    split at returned
    · obtain ⟨rfl, rfl⟩ := Prod.mk.inj (Except.ok.inj returned)
      refine ⟨rfl, ?_⟩
      rintro record (inBatch | kept)
      · cases inBatch
      · exact .inl kept
    · obtain ⟨buffer, filled, rest⟩ := Except.bind_eq_ok.mp returned
      have same' := Except.ok.inj rest
      refine ⟨skipped _ _ same', fun record shown =>
        .inr ⟨buffer, ?_, served _ _ record same' shown⟩⟩
      rw [← filled]
      simp [ChangeFeedCursor.sinceSeq, same]
  · rename_i since buffer _ same
    have same' := Except.ok.inj returned
    refine ⟨skipped _ _ same', fun record shown => .inl ?_⟩
    have listed := served _ _ record same' shown
    dsimp only at same
    simpa [ChangeFeedCursor.buffered, same] using listed

theorem Fed.step {action : FeedAction} (fed : Fed config schema since past reader)
    (alone : Alone reader action)
    (fired : FeedReader.step config schema reader action = some next) :
    Fed config schema since (past ++ [action]) next := by
  have run := fed.run.append (.cons alone fired (.nil next))
  cases action with
  | engine action =>
    obtain ⟨t, stepped, rfl⟩ := Option.map_eq_some_iff.mp fired
    obtain ⟨more, grown, above⟩ := history_more fed.feeding.base.numbered stepped
    refine ⟨run, fed.feeding.step alone stepped, fed.discriminates, fun record member => ?_⟩
    exact (fed.fetched record member).mono ⟨visible_step stepped, more, grown, above⟩
  | nextBatch maxRows =>
    have still : Precedes reader.system reader.system := ⟨le_rfl, [], by simp, by simp⟩
    unfold FeedReader.step at fired
    dsimp only at fired
    split at fired
    · rename_i cursor batch returned
      obtain ⟨skip, sound⟩ := nextBatch_sound returned
      rw [fed.discriminates] at skip sound
      have same := Option.some.inj fired
      rw [← same] at run ⊢
      refine ⟨run, fed.feeding, skip, fun record member => ?_⟩
      rcases sound record (.inr member) with buffered | ⟨records, filled, inRecords⟩
      · exact (fed.fetched record buffered).mono still
      · exact (Fetched.now fed.run filled inRecords).mono still
    · have same := Option.some.inj fired
      rw [← same] at run ⊢
      exact ⟨run, fed.feeding, fed.discriminates, fun record member =>
        (fed.fetched record member).mono still⟩

theorem fed_of_run
    (run : Run (FeedReader.step config schema) Alone (start config since) past reader) :
    Fed config schema since past reader := by
  have initially : Fed config schema since [] (start config since) :=
    ⟨.nil _, initial_feeding config, rfl, by intro record member; cases member⟩
  exact run.past_invariant (Fed config schema since)
    (fun _ _ _ _ fed met fired => fed.step met fired)
    initially

end Fed

/-- `Alone` for runs in which job 0 is the only one, as a test. -/
def aloneCheck (reader : FeedReader) : FeedAction → Bool
  | .engine action => Merutable.aloneCheck reader.system action
  | .nextBatch _ => true

theorem run_of_check {config : Config} {schema : TableSchema} {since : Nat}
    {actions : List FeedAction}
    (passed : (execute (checked (step config schema) aloneCheck) (start config since)
      actions).isSome) :
    Run (step config schema) Alone (start config since) actions
      (final (step config schema) (start config since) actions) := by
  refine (Run.of_checked (fun reader => reader.system.OneJob) ?_ ?_ ?_ passed).1
  · intro reader action one good
    cases action with
    | engine action => exact aloneCheck_alone one good
    | nextBatch maxRows => trivial
  · intro reader action next one good fired
    cases action with
    | engine action =>
      obtain ⟨t, stepped, rfl⟩ := Option.map_eq_some_iff.mp fired
      exact aloneCheck_oneJob one good stepped
    | nextBatch maxRows =>
      unfold step at fired
      dsimp only at fired
      split at fired
      · rw [← Option.some.inj fired]
        exact one
      · rw [← Option.some.inj fired]
        exact one
  · intro job busy
    exact absurd rfl busy

end FeedReader

theorem liveBefore_grows {history more : List WriteBatch} {key : UserKey} {seq bound : Nat}
    (above : ∀ entry ∈ entriesOf more, bound < entry.seq) (within : seq ≤ bound) :
    liveBefore (history ++ more) key seq = liveBefore history key seq := by
  have none : (entriesOf more).filter (fun entry => entry.seq < seq) = [] := by
    apply List.filter_eq_nil_iff.mpr
    intro entry member
    have := above entry member
    simp only [decide_eq_true_eq]
    omega
  rw [liveBefore, entriesOf_append, List.filter_append, none, List.append_nil]
  rfl

/-- In every run of operations one at a time and of reads of a cursor, a record that `next_batch`
returns has the right label and row exactly when, in the state in which the cursor read it, what was
still held below its operation recalled what the history says. -/
theorem change_record_right_iff (config : Config) (schema : TableSchema) (since : Nat)
    (actions : List FeedAction) (reader : FeedReader)
    (run :
      Run (FeedReader.step config schema) FeedReader.Alone (.start config since) actions reader)
    (maxRows : Nat) (cursor : ChangeFeedCursor) (batch : List ChangeRecord)
    (returned : reader.cursor.nextBatch config schema reader.system maxRows = .ok (cursor, batch))
    (record : ChangeRecord) (member : record ∈ batch) :
    ∃ before origin records held pkBytes, before <+: actions ∧
      Run (FeedReader.step config schema) FeedReader.Alone (.start config since) before origin ∧
      origin.system.refill config schema false origin.cursor.sinceSeq = .ok records ∧
      record ∈ records ∧ record.seq = held.seq ∧
      origin.system.ReadUnder schema origin.cursor.sinceSeq held pkBytes ∧
      ∃ entry ∈ entriesOf reader.system.history, held.SameOp entry ∧
        (record.Right (liveBefore reader.system.history entry.key entry.seq) entry.value ↔
          origin.system.Recalls pkBytes held
            (liveBefore origin.system.history entry.key entry.seq)) := by
  have fed := FeedReader.fed_of_run run
  have fetched : FeedReader.Fetched config schema since actions reader record := by
    obtain ⟨_, sound⟩ := FeedReader.nextBatch_sound returned
    rw [fed.discriminates] at sound
    rcases sound record (.inl member) with buffered | ⟨records, filled, inRecords⟩
    · exact fed.fetched record buffered
    · exact .now run filled inRecords
  obtain ⟨before, origin, records, earlier, reached, filled, inRecords, _, more, grown,
    above⟩ := fetched
  have feeding := (FeedReader.fed_of_run reached).feeding
  obtain ⟨held, pkBytes, source, number, entry, applied, same, right⟩ :=
    feeding.refill_right_iff filled inRecords
  have bound : entry.seq ≤ origin.system.visibleSeq := by
    rw [← same.2.1, ← number]
    exact (refill_range filled inRecords).2
  refine ⟨before, origin, records, held, pkBytes, earlier, reached, filled, inRecords, number,
    source, entry, ?_, same, ?_⟩
  · rw [grown, entriesOf_append]
    exact List.mem_append_left _ applied
  · rw [grown, liveBefore_grows above bound]
    exact right _

namespace Feed.Sample

/-- Two versions of one key in the memtable. -/
def heldTwice : List FeedAction :=
  (Calls.write [putByte 1 1] ++ Calls.write [putByte 1 1]).map .engine

def flushedTwice : List FeedAction := overwritten.map .engine

def overwrite : ChangeRecord := ⟨2, .update, ⟨[some (.bytes [1])]⟩, [1]⟩

end Feed.Sample

open Feed.Sample in
theorem change_record_right_held_twice :
    let reader := final (FeedReader.step .plain schema) (.start .plain 0) heldTwice
    ∃ cursor batch, reader.cursor.nextBatch .plain schema reader.system 10 = .ok (cursor, batch) ∧
      overwrite ∈ batch ∧ ∃ before origin records held pkBytes, before <+: heldTwice ∧
        Run (FeedReader.step .plain schema) FeedReader.Alone (.start .plain 0) before origin ∧
        origin.system.refill .plain schema false origin.cursor.sinceSeq = .ok records ∧
        overwrite ∈ records ∧ overwrite.seq = held.seq ∧
        origin.system.ReadUnder schema origin.cursor.sinceSeq held pkBytes ∧
        ∃ entry ∈ entriesOf reader.system.history, held.SameOp entry ∧
          (overwrite.Right (liveBefore reader.system.history entry.key entry.seq) entry.value ↔
            origin.system.Recalls pkBytes held
              (liveBefore origin.system.history entry.key entry.seq)) := by
  intro reader
  have returned : (reader.cursor.nextBatch .plain schema reader.system 10).map Prod.snd =
      .ok [⟨1, .insert, ⟨[some (.bytes [1])]⟩, [1]⟩, overwrite] := by decide +kernel
  cases result : reader.cursor.nextBatch .plain schema reader.system 10 with
  | error error =>
    rw [result] at returned
    cases returned
  | ok pair =>
    obtain ⟨cursor, batch⟩ := pair
    rw [result] at returned
    have listed : batch = [⟨1, .insert, ⟨[some (.bytes [1])]⟩, [1]⟩, overwrite] :=
      Except.ok.inj returned
    have member : overwrite ∈ batch := by simp [listed]
    exact ⟨cursor, batch, rfl, member, change_record_right_iff .plain schema 0 heldTwice reader
      (FeedReader.run_of_check (by decide +kernel)) 10 cursor batch result overwrite member⟩

open Feed.Sample in
/-- The second put of a key is labelled as an insert once the first one has been flushed away. -/
theorem change_record_mislabelled :
    ∃ reader, execute (FeedReader.step .plain schema) (.start .plain 0)
      Feed.Sample.flushedTwice = some reader ∧
      Run (FeedReader.step .plain schema) FeedReader.Alone (.start .plain 0)
        Feed.Sample.flushedTwice reader ∧
      (reader.cursor.nextBatch .plain schema reader.system 10).map Prod.snd =
        .ok [⟨2, .insert, ⟨[some (.bytes [1])]⟩, [1]⟩] ∧
      entriesOf reader.system.history = [first, ⟨(putByte 1 1).1, 2, (putByte 1 1).2⟩] ∧
      ¬ ChangeRecord.Right ⟨2, .insert, ⟨[some (.bytes [1])]⟩, [1]⟩
        (liveBefore reader.system.history (putByte 1 1).1 2) (putByte 1 1).2 := by
  refine ⟨final (FeedReader.step .plain schema) (.start .plain 0) Feed.Sample.flushedTwice,
    execute_final (by decide +kernel), FeedReader.run_of_check (by decide +kernel),
    by decide +kernel, by decide +kernel, ?_⟩
  have live : liveBefore (final (FeedReader.step .plain schema) (.start .plain 0)
      Feed.Sample.flushedTwice).system.history (putByte 1 1).1 2 = some
        ⟨[some (.bytes [1])]⟩ := by decide +kernel
  rw [live]
  intro right
  change ChangeOp.insert = .update at right
  cases right

end Merutable
