import Merutable.Memtable.Wire
import Merutable.Writer

/-! From the rows that `MeruDB::put` and `put_batch` accept to the bytes that `run_flush` writes for
the memtable that holds them. -/

namespace Merutable

open Foundation

def MeruError.display : MeruError → String
  | .io message => s!"IO error: {message}"
  | .invalidArgument message => s!"invalid argument: {message}"
  | .schemaMismatch message => s!"schema mismatch: {message}"
  | .corruption message => s!"corruption: {message}"
  | .parquet message => s!"parquet error: {message}"
  | .iceberg message => s!"iceberg error: {message}"
  | .objectStore message => s!"object store error: {message}"
  | .changeFeedBelowRetention requested lowWater =>
    s!"change feed below retention: requested {requested}, low_water {lowWater} — " ++
      "escalate to Iceberg snapshot scan"
  | .panicked => ""

/-- A put with the key values that were taken from its padded row. -/
structure PutMutation where
  pkValues : List FieldValue
  row : Row

namespace PutMutation

def ofRow (schema : TableSchema) (row : Row) : Except MeruError PutMutation := do
  let row ← row.padWithDefaults schema
  let pkValues ← row.pkValues schema.primaryKey
  return ⟨pkValues, row⟩

def ofRows (schema : TableSchema) : List Row → Except MeruError (List PutMutation)
  | [] => .ok []
  | row :: rest => do
      let mutation ← ofRow schema row
      let later ← ofRows schema rest
      return mutation :: later

/-- The check of a batch before any I/O. -/
def validateAll (schema : TableSchema) : Nat → List PutMutation → Except MeruError Unit
  | _, [] => .ok ()
  | idx, mutation :: rest =>
    match mutation.row.validate schema with
    | .error error => .error (.schemaMismatch s!"batch entry {idx}: {error.display}")
    | .ok () => validateAll schema (idx + 1) rest

/-- The key and value bytes of the record. -/
def encode (postcard : RowCodec) (schema : TableSchema) (mutation : PutMutation) :
    Except MeruError (Bytes × Bytes) := do
  let userKey ← InternalKey.encodeUserKey mutation.pkValues schema
  return (userKey, encodeRow postcard mutation.row)

def encodeAll (postcard : RowCodec) (schema : TableSchema) :
    List PutMutation → Except MeruError (List (Bytes × Bytes))
  | [] => .ok []
  | mutation :: rest => do
      let record ← mutation.encode postcard schema
      let later ← encodeAll postcard schema rest
      return record :: later

end PutMutation

inductive PutCall where
  | put (row : Row)
  | putBatch (rows : List Row)

/-- The records that an accepted call appends. -/
def PutCall.records (postcard : RowCodec) (schema : TableSchema) :
    PutCall → Except MeruError (List (Bytes × Bytes))
  | .put row => do
      let mutation ← PutMutation.ofRow schema row
      mutation.row.validate schema
      let record ← mutation.encode postcard schema
      return [record]
  | .putBatch rows => do
      let mutations ← PutMutation.ofRows schema rows
      PutMutation.validateAll schema 0 mutations
      PutMutation.encodeAll postcard schema mutations

/-- The memtable as the skip map from encoded internal keys, and the next sequence number. -/
structure ByteMemtable where
  nextSeq : Nat
  skiplist : List (Bytes × StoredValue)

namespace ByteMemtable

/-- A number above 56 bits makes the tag underflow. -/
def applyRecords (memtable : ByteMemtable) : List (Bytes × Bytes) → Except MeruError ByteMemtable
  | [] => .ok memtable
  | record :: rest => do
      okIf (memtable.nextSeq ≤ seqnumMax) .panicked
      applyRecords ⟨memtable.nextSeq + 1, OrderedMap.insert
        (record.1 ++ keyTag memtable.nextSeq .put) ⟨.put, record.2⟩ memtable.skiplist⟩ rest

def putAll (postcard : RowCodec) (schema : TableSchema) (memtable : ByteMemtable) :
    List PutCall → Except MeruError ByteMemtable
  | [] => .ok memtable
  | call :: rest => do
      let records ← call.records postcard schema
      let memtable ← memtable.applyRecords records
      putAll postcard schema memtable rest

def iter (memtable : ByteMemtable) (readSeq : Nat) : List MemEntry :=
  iterate readSeq none memtable.skiplist

end ByteMemtable

/-- The row of a tombstone without a pre-image: the key columns and NULL. -/
def tombstoneRow (schema : TableSchema) (pkValues : List FieldValue) : Row :=
  ⟨(schema.primaryKey.zip pkValues).foldl (fun fields pk => fields.set pk.1 (some pk.2))
    (List.replicate schema.columns.length none)⟩

def flushRow (postcard : RowCodec) (schema : TableSchema) (entry : MemEntry) :
    Except MeruError (InternalKey × Row) := do
  let ikey ← InternalKey.decode entry.wire schema
  if entry.stored.value ≠ [] then do
    let row ← decodeRow postcard entry.stored.value
    return (ikey, row)
  else return (ikey, tombstoneRow schema ikey.pkValues)

def flushRows (postcard : RowCodec) (schema : TableSchema) :
    List MemEntry → Except MeruError (List (InternalKey × Row))
  | [] => .ok []
  | entry :: rest => do
      let pair ← flushRow postcard schema entry
      let later ← flushRows postcard schema rest
      return pair :: later

/-- `run_flush` up to the bytes of the file; there is none for an empty memtable. -/
def ByteMemtable.flushFile (postcard : RowCodec) (schema : TableSchema) (format : FileFormat)
    (memtable : ByteMemtable) (offsetIndex : Option (List RowGroupIndex)) :
    Except MeruError (Option WrittenFile) :=
  if (memtable.iter seqnumMax).isEmpty then .ok none
  else do
    let rows ← flushRows postcard schema (memtable.iter seqnumMax)
    let file ← writeSortedRows postcard rows schema format offsetIndex
    return some file

section Accepted

variable {postcard : RowCodec} {schema : TableSchema} {memtable next : ByteMemtable}
  {mutations : List PutMutation} {records : List (Bytes × Bytes)} {calls : List PutCall}
  {groups : List RowGroupIndex} {format : FileFormat}

/-- What an accepted put leaves in the skip map: an encoded key with its tag, and a valid row. -/
def AcceptedPut (postcard : RowCodec) (schema : TableSchema) (entry : Bytes × StoredValue) : Prop :=
  ∃ (values : List FieldValue) (userKey : Bytes) (seq : Nat) (row : Row),
    InternalKey.encodeUserKey values schema = .ok userKey ∧ seq ≤ seqnumMax ∧
      row.validate schema = .ok () ∧
      entry = (userKey ++ keyTag seq .put, ⟨.put, encodeRow postcard row⟩)

def AcceptedRecord (postcard : RowCodec) (schema : TableSchema) (record : Bytes × Bytes) : Prop :=
  ∃ (values : List FieldValue) (row : Row),
    InternalKey.encodeUserKey values schema = .ok record.1 ∧ row.validate schema = .ok () ∧
      record.2 = encodeRow postcard row

theorem PutMutation.encode_accepted {mutation : PutMutation} {record : Bytes × Bytes}
    (valid : mutation.row.validate schema = .ok ())
    (encoded : mutation.encode postcard schema = .ok record) :
    AcceptedRecord postcard schema record := by
  obtain ⟨userKey, key, made⟩ := Except.bind_eq_ok.mp encoded
  cases made
  exact ⟨_, _, key, valid, rfl⟩

theorem PutMutation.validateAll_eq_ok {idx : Nat}
    (valid : PutMutation.validateAll schema idx mutations = .ok ()) :
    ∀ mutation ∈ mutations, mutation.row.validate schema = .ok () := by
  induction mutations generalizing idx with
  | nil => intro mutation member; cases member
  | cons first rest ih =>
    simp only [validateAll] at valid
    cases checked : first.row.validate schema with
    | error error =>
      rw [checked] at valid
      cases valid
    | ok done =>
      rw [checked] at valid
      intro mutation member
      rcases List.mem_cons.mp member with rfl | later
      · exact checked
      · exact ih valid mutation later

theorem PutMutation.encodeAll_accepted
    (valid : ∀ mutation ∈ mutations, mutation.row.validate schema = .ok ())
    (encoded : PutMutation.encodeAll postcard schema mutations = .ok records) :
    ∀ record ∈ records, AcceptedRecord postcard schema record := by
  induction mutations generalizing records with
  | nil =>
    cases encoded
    intro record member
    cases member
  | cons first rest ih =>
    obtain ⟨record, here, encoded⟩ := Except.bind_eq_ok.mp encoded
    obtain ⟨later, there, encoded⟩ := Except.bind_eq_ok.mp encoded
    cases encoded
    intro other member
    rcases List.mem_cons.mp member with rfl | inLater
    · exact encode_accepted (valid first List.mem_cons_self) here
    · exact ih (fun mutation member => valid mutation (List.mem_cons_of_mem _ member)) there
        other inLater

theorem PutCall.records_accepted {call : PutCall}
    (accepted : call.records postcard schema = .ok records) :
    ∀ record ∈ records, AcceptedRecord postcard schema record := by
  cases call with
  | put row =>
    obtain ⟨mutation, _, accepted⟩ := Except.bind_eq_ok.mp accepted
    obtain ⟨valid, accepted⟩ := Except.seq_eq_ok.mp accepted
    obtain ⟨record, encoded, accepted⟩ := Except.bind_eq_ok.mp accepted
    cases accepted
    intro other member
    cases List.mem_singleton.mp member
    exact PutMutation.encode_accepted valid encoded
  | putBatch rows =>
    obtain ⟨mutations, _, accepted⟩ := Except.bind_eq_ok.mp accepted
    obtain ⟨valid, encoded⟩ := Except.seq_eq_ok.mp accepted
    exact PutMutation.encodeAll_accepted (PutMutation.validateAll_eq_ok valid) encoded

/-- The skip map has its keys in order and only accepted puts. -/
structure ByteMemtable.Accepted (postcard : RowCodec) (schema : TableSchema)
    (memtable : ByteMemtable) : Prop where
  ascending : OrderedMap.Ascending memtable.skiplist
  puts : ∀ entry ∈ memtable.skiplist, AcceptedPut postcard schema entry

theorem ByteMemtable.Accepted.applyRecords (kept : memtable.Accepted postcard schema)
    (accepted : ∀ record ∈ records, AcceptedRecord postcard schema record)
    (applied : memtable.applyRecords records = .ok next) : next.Accepted postcard schema := by
  induction records generalizing memtable with
  | nil =>
    cases applied
    exact kept
  | cons record rest ih =>
    obtain ⟨bounded, applied⟩ := Except.seq_eq_ok.mp applied
    obtain ⟨values, row, encoded, valid, bytes⟩ := accepted record List.mem_cons_self
    refine ih ⟨OrderedMap.insert_ascending kept.ascending, ?_⟩
      (fun record member => accepted record (List.mem_cons_of_mem _ member)) applied
    intro entry member
    rcases mem_of_mem_sortedInsert member with rfl | before
    · exact ⟨values, record.1, memtable.nextSeq, row, encoded, okIf_eq_ok.mp bounded, valid,
        by rw [bytes]⟩
    · exact kept.puts entry before

theorem ByteMemtable.Accepted.putAll (kept : memtable.Accepted postcard schema)
    (accepted : memtable.putAll postcard schema calls = .ok next) :
    next.Accepted postcard schema := by
  induction calls generalizing memtable with
  | nil =>
    cases accepted
    exact kept
  | cons call rest ih =>
    obtain ⟨records, made, accepted⟩ := Except.bind_eq_ok.mp accepted
    obtain ⟨middle, applied, accepted⟩ := Except.bind_eq_ok.mp accepted
    exact ih (kept.applyRecords (PutCall.records_accepted made) applied) accepted

theorem ByteMemtable.iterate_sublist {entries : List (Bytes × StoredValue)} {readSeq : Nat}
    {lastUserKey : Option Bytes} (puts : ∀ entry ∈ entries, AcceptedPut postcard schema entry) :
    ((iterate readSeq lastUserKey entries).map fun entry => (entry.wire, entry.stored)).Sublist
      entries := by
  induction entries generalizing lastUserKey with
  | nil => exact List.Sublist.refl _
  | cons entry rest ih =>
    have later := fun last => @ih last fun entry member =>
      puts entry (List.mem_cons_of_mem _ member)
    unfold iterate
    split
    · exact (later _).cons _
    · split
      · exact (later _).cons _
      · obtain ⟨values, userKey, seq, row, _, bounded, _, rfl⟩ := puts entry List.mem_cons_self
        simp only [List.map_cons, MemEntry.wire, userKeyOf_tag, decodeSeqFromKey_tag _ _ bounded]
        exact (later _).cons_cons _

theorem flushRow_ok {entry : MemEntry}
    (accepted : AcceptedPut postcard schema (entry.wire, entry.stored)) :
    ∃ pair, flushRow postcard schema entry = .ok pair ∧ pair.1.encoded = entry.wire ∧
      pair.2.validate schema = .ok () := by
  obtain ⟨values, userKey, seq, row, key, bounded, valid, same⟩ := accepted
  obtain ⟨wire, stored⟩ := Prod.mk.inj same
  have encoded : InternalKey.encode values seq .put schema =
      .ok ⟨userKey ++ keyTag seq .put, seq, .put, values⟩ :=
    InternalKey.encode_eq_ok.mpr ⟨userKey, key, bounded, rfl⟩
  have decodes := InternalKey.decode_encode encoded
  refine ⟨(⟨userKey ++ keyTag seq .put, seq, .put, values.map .reread⟩, row), ?_, wire.symm, valid⟩
  have present : encodeRow postcard row ≠ [] := List.cons_ne_nil _ _
  simp only [flushRow, wire, stored, decodes, Except.bind_ok, if_pos present, decodeRow_encodeRow]
  rfl

theorem flushRows_ok {entries : List MemEntry}
    (accepted : ∀ entry ∈ entries, AcceptedPut postcard schema (entry.wire, entry.stored)) :
    ∃ rows, flushRows postcard schema entries = .ok rows ∧
      List.Forall₂ (fun entry pair => pair.1.encoded = entry.wire ∧
        pair.2.validate schema = .ok ()) entries rows := by
  induction entries with
  | nil => exact ⟨[], rfl, .nil⟩
  | cons entry rest ih =>
    obtain ⟨pair, here, good⟩ := flushRow_ok (accepted entry List.mem_cons_self)
    obtain ⟨rows, later, all⟩ := ih fun entry member =>
      accepted entry (List.mem_cons_of_mem _ member)
    refine ⟨pair :: rows, ?_, .cons good all⟩
    simp only [flushRows, here, later, Except.bind_ok]
    rfl

/-- The file of a memtable of accepted puts is built exactly if no data page of the key column
starts with a key that is too long for the index. -/
theorem ByteMemtable.Accepted.flushFile_ok_iff (kept : memtable.Accepted postcard schema)
    (covers : Covers groups (memtable.iter seqnumMax).length) :
    (∃ file, memtable.flushFile postcard schema format (some groups) = .ok file) ↔
      ∀ first ∈ firstRows 0 groups, ∀ entry, (memtable.iter seqnumMax)[first]? = some entry →
        entry.userKey.length + 8 ≤ KvIndex.maxKeyLen := by
  have sublist : ((memtable.iter seqnumMax).map fun entry => (entry.wire, entry.stored)).Sublist
      memtable.skiplist := iterate_sublist kept.puts
  have accepted : ∀ entry ∈ memtable.iter seqnumMax,
      AcceptedPut postcard schema (entry.wire, entry.stored) := fun entry member =>
    kept.puts _ (sublist.subset (List.mem_map.mpr ⟨entry, member, rfl⟩))
  obtain ⟨rows, flushed, all⟩ := flushRows_ok accepted
  have keys : (memtable.iter seqnumMax).map MemEntry.wire =
      rows.map fun pair => pair.1.encoded := by
    rw [← List.forall₂_eq_eq_eq, List.forall₂_map_left_iff, List.forall₂_map_right_iff]
    exact all.imp fun _ _ good => good.1.symm
  have ascending : rows.Pairwise fun a b => a.1.encoded < b.1.encoded := by
    have ordered := List.pairwise_map.mp (kept.ascending.sublist sublist)
    rw [← List.pairwise_map, ← keys, List.pairwise_map]
    exact ordered
  have fits : ∀ pair ∈ rows, pair.2.Fits schema := by
    intro pair member
    obtain ⟨entry, _, _, valid⟩ := exists_left_of_forall₂ all pair member
    exact Row.fits_of_validate valid
  have built : (∃ file, memtable.flushFile postcard schema format (some groups) = .ok file) ↔
      ∃ file, writeSortedRows postcard rows schema format (some groups) = .ok file := by
    unfold flushFile
    split
    · rename_i empty
      rw [List.isEmpty_iff.mp empty] at all
      cases all
      exact iff_of_true ⟨none, rfl⟩ ⟨_, rfl⟩
    · rw [flushed, Except.bind_ok]
      constructor
      · rintro ⟨file, done⟩
        obtain ⟨made, written, _⟩ := Except.bind_eq_ok.mp done
        exact ⟨made, written⟩
      · rintro ⟨made, written⟩
        exact ⟨some made, Except.bind_eq_ok.mpr ⟨made, written, rfl⟩⟩
  have wireLength : ∀ entry : MemEntry, entry.wire.length = entry.userKey.length + 8 := by
    intro entry
    rw [MemEntry.wire, List.length_append, keyTag_length]
  have covers' := covers
  rw [all.length_eq] at covers'
  rw [built, writeSortedRows_ok_iff covers' fits ascending]
  refine forall₂_congr fun first _ => ?_
  have same := congrArg (fun keys => keys[first]?) keys
  simp only [List.getElem?_map] at same
  constructor
  · intro short entry found
    rw [found, Option.map_some] at same
    obtain ⟨pair, found', key⟩ := Option.map_eq_some_iff.mp same.symm
    rw [← wireLength, ← key]
    exact short pair found'
  · intro short pair found
    rw [found, Option.map_some] at same
    obtain ⟨entry, found', key⟩ := Option.map_eq_some_iff.mp same
    rw [← key, wireLength]
    exact short entry found'

theorem ByteMemtable.accepted_of_putAll {base : Nat}
    (accepted : ByteMemtable.putAll postcard schema ⟨base, []⟩ calls = .ok memtable) :
    memtable.Accepted postcard schema :=
  ByteMemtable.Accepted.putAll ⟨.nil, fun _ member => by cases member⟩ accepted

section

variable (kept : memtable.Accepted postcard schema)
  (covers : Covers groups (memtable.iter seqnumMax).length)
include kept covers

theorem ByteMemtable.Accepted.flushFile_of_short_keys
    (short : ∀ entry ∈ memtable.iter seqnumMax, entry.userKey.length + 8 ≤ KvIndex.maxKeyLen) :
    ∃ file, memtable.flushFile postcard schema format (some groups) = .ok file := by
  refine (kept.flushFile_ok_iff covers).mpr fun first _ entry found => ?_
  exact short entry (List.mem_of_getElem? found)

theorem ByteMemtable.Accepted.not_flushFile_of_long_first_key {first : MemEntry}
    (found : (memtable.iter seqnumMax)[0]? = some first)
    (long : KvIndex.maxKeyLen < first.userKey.length + 8) :
    ¬ ∃ file, memtable.flushFile postcard schema format (some groups) = .ok file := by
  intro built
  have filled : 0 < (memtable.iter seqnumMax).length := (List.getElem?_eq_some_iff.mp found).1
  have begins : 0 ∈ firstRows 0 groups :=
    firstRows_begins covers.paged (by rw [covers.total]; exact filled)
  have short := (kept.flushFile_ok_iff covers).mp built 0 begins first found
  omega

end

/-- For every sequence of accepted puts and batches and every page index of the library, the file
of the memtable that holds them is built exactly if no data page of the key column starts with an
internal key of more than 65535 bytes. -/
theorem flush_file_built_iff {base : Nat} {calls : List PutCall} {format : FileFormat}
    {groups : List RowGroupIndex}
    (accepted : ByteMemtable.putAll postcard schema ⟨base, []⟩ calls = .ok memtable)
    (covers : Covers groups (memtable.iter seqnumMax).length) :
    (∃ file, memtable.flushFile postcard schema format (some groups) = .ok file) ↔
      ∀ first ∈ firstRows 0 groups, ∀ entry, (memtable.iter seqnumMax)[first]? = some entry →
        entry.userKey.length + 8 ≤ KvIndex.maxKeyLen :=
  (ByteMemtable.accepted_of_putAll accepted).flushFile_ok_iff covers

end Accepted

namespace FlushFile.Sample

/-- A table with one byte-string column, its key. -/
def schema : TableSchema := ⟨"t", [⟨"k", .byteArray, false, some 1, none, none⟩], [0], 0, 1⟩

theorem schema_valid : schema.validate = (schema, .ok ()) := by decide +kernel

def row (key : Bytes) : Row := ⟨[some (.bytes key)]⟩

def memtable (key : Bytes) : ByteMemtable :=
  ⟨2, [(escapeByteArray key ++ keyTag 1 .put, ⟨.put, encodeRow .tagged (row key)⟩)]⟩

theorem accepted (key : Bytes) :
    ByteMemtable.putAll .tagged schema ⟨1, []⟩ [.put (row key)] = .ok (memtable key) := by
  have made : PutMutation.ofRow schema (row key) = .ok ⟨[.bytes key], row key⟩ := rfl
  have valid : (row key).validate schema = .ok () :=
    Row.validate_eq_ok.mpr (.cons ⟨rfl, rfl⟩ .nil)
  have userKey : InternalKey.encodeUserKey [.bytes key] schema =
      .ok (escapeByteArray key ++ []) := rfl
  rw [List.append_nil] at userKey
  have records : PutCall.records .tagged schema (.put (row key)) =
      .ok [(escapeByteArray key, encodeRow .tagged (row key))] := by
    simp only [PutCall.records, PutMutation.encode, made, valid, userKey, Except.bind_ok]
    rfl
  simp only [ByteMemtable.putAll, records, Except.bind_ok]
  rfl

theorem iter_memtable (key : Bytes) : (memtable key).iter seqnumMax =
    [⟨escapeByteArray key, 1, ⟨.put, encodeRow .tagged (row key)⟩⟩] := by
  have seq := decodeSeqFromKey_tag (escapeByteArray key) .put (show 1 ≤ seqnumMax by decide)
  simp only [ByteMemtable.iter, memtable, ByteMemtable.iterate, userKeyOf_tag, seq]
  rfl

/-- One row group with one page. -/
def onePage : List RowGroupIndex := [⟨1, [[⟨4, 30, 0⟩]]⟩]

theorem onePage_covers : Covers onePage 1 := by
  refine ⟨?_, rfl⟩
  intro group member
  cases List.mem_singleton.mp member
  exact ⟨by decide, by decide, by decide, by decide, by decide⟩

end FlushFile.Sample

open FlushFile.Sample in
theorem flush_file_built_short :
    ∃ file, (memtable [7]).flushFile .tagged schema .dual (some onePage) = .ok file := by
  refine (flush_file_built_iff (accepted [7]) ?_).mpr ?_
  · rw [iter_memtable]
    exact onePage_covers
  · rw [iter_memtable]
    decide

theorem escapeByteArray_ones (count : Nat) :
    (escapeByteArray (List.replicate count 1)).length = count + 2 := by
  induction count with
  | zero => rfl
  | succ count ih =>
    rw [List.replicate_succ, escapeByteArray, if_neg (by decide), List.length_cons, ih]

open FlushFile.Sample in
theorem FlushFile.Sample.not_flushed {key : Bytes}
    (long : KvIndex.maxKeyLen < (escapeByteArray key).length + 8) :
    ¬ ∃ file, (memtable key).flushFile .tagged schema .dual (some onePage) = .ok file := by
  have kept := ByteMemtable.accepted_of_putAll (accepted key)
  have covers : Covers onePage ((memtable key).iter seqnumMax).length := by
    rw [iter_memtable]
    exact onePage_covers
  have found : ((memtable key).iter seqnumMax)[0]? =
      some ⟨escapeByteArray key, 1, ⟨.put, encodeRow .tagged (row key)⟩⟩ := by
    rw [iter_memtable]
    rfl
  exact kept.not_flushFile_of_long_first_key covers found long

open FlushFile.Sample in
/-- A key of 65526 bytes is accepted, and its memtable cannot be flushed. -/
theorem long_key_not_flushed :
    schema.validate = (schema, .ok ()) ∧
    ByteMemtable.putAll .tagged schema ⟨1, []⟩ [.put (row (List.replicate 65526 1))] =
      .ok (memtable (List.replicate 65526 1)) ∧
    Covers onePage 1 ∧
    ¬ ∃ file, (memtable (List.replicate 65526 1)).flushFile .tagged schema .dual (some onePage) =
      .ok file := by
  have long : KvIndex.maxKeyLen < (escapeByteArray (List.replicate 65526 1)).length + 8 := by
    rw [escapeByteArray_ones]
    decide
  exact ⟨schema_valid, accepted _, onePage_covers, not_flushed long⟩

end Merutable
