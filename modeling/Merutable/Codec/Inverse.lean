import Merutable.Evolution.Forms
import Merutable.Key.Canonical

/-! A batch of rows decoded with all the columns it was built with, in both formats. -/

namespace Merutable

open Foundation

section Inverse

variable {postcard : RowCodec} {rows : List (InternalKey × Row)} {schema : TableSchema}
  {format : FileFormat} {pair : InternalKey × Row} {out : List (InternalKey × Row)}

theorem blobCell_eq_cellNamed :
    blobCell schema schema pair = cellNamed schema pair valueBlobColumnName := by
  unfold blobCell
  split
  · rfl
  · rename_i absent
    have user := @userCells_find_none pair.2 schema.columns 0 valueBlobColumnName absent
    simp only [cellNamed, columnarCells, List.cons_append, List.nil_append, List.find?_cons, user]
    rfl

theorem recordBatchToRows_fileColumns :
    recordBatchToRows postcard ⟨rows.length, fileColumns postcard rows schema format⟩ schema =
        .ok out ↔
      List.Forall₂ (fun pair result => InternalKey.decode pair.1.encoded schema = .ok result.1 ∧
        ReadsBack postcard schema schema format pair result.2) rows out := by
  cases format with
  | dual =>
    refine recordBatchToRows_eq_ok rfl rfl ?_ nofun
    rintro blob ⟨⟩ idx pair present row
    rw [decodeBlob_eq_ok]
    simp [ArrowColumn.cell, present, FileCell.bytes, postcard.decode_encode, ReadsBack]
  | columnar =>
    refine columnarRows_eq_ok rfl ?_ ?_
    · intro idx pair present
      rw [columnar_column present, blobCell_eq_cellNamed]
    · intro idx pair present col _
      exact columnar_column present col.name

/-- The decoded pair equals the one it was built from, the keys as the source compares them (by
their bytes), with their sequence number and operation. -/
def SameStored (pair result : InternalKey × Row) : Prop :=
  result.1.encoded = pair.1.encoded ∧ result.1.seq = pair.1.seq ∧
    result.1.opType = pair.1.opType ∧ result.2 = pair.2

theorem readsBack_self (valid : pair.2.validate schema = .ok ()) :
    ReadsBack postcard schema schema format pair pair.2 ↔
      (format = .columnar → OwnCells postcard schema schema pair.1 pair.2) := by
  cases format with
  | dual =>
    have full : schema.columns.length ≤ pair.2.fields.length :=
      (Row.validate_eq_ok.mp valid).length_eq.ge
    exact iff_of_true (padInitial_full full).symm nofun
  | columnar => simp [ownCells_iff valid rfl]

/-- The key of a write. -/
def InternalKey.Encoded (schema : TableSchema) (key : InternalKey) : Prop :=
  ∃ values seq op, InternalKey.encode values seq op schema = .ok key

/-- The key of a row on its way through a flush or a compaction. -/
def InternalKey.Decoded (schema : TableSchema) (key : InternalKey) : Prop :=
  ∃ raw, InternalKey.decode raw schema = .ok key

theorem InternalKey.decoded_iff {key : InternalKey} :
    key.Decoded schema ↔ InternalKey.decode key.encoded schema = .ok key := by
  constructor
  · rintro ⟨raw, decoded⟩
    obtain ⟨_, _, _, _, _, rfl, _, rfl⟩ := InternalKey.decode_parts decoded
    exact decoded
  · exact fun decoded => ⟨_, decoded⟩

theorem stored_of_key {key : InternalKey} {row : Row}
    (made : key.Encoded schema ∨ key.Decoded schema) :
    (∃ result : InternalKey × Row, (InternalKey.decode key.encoded schema = .ok result.1 ∧
      ReadsBack postcard schema schema format (key, row) result.2) ∧ SameStored (key, row) result) ↔
      ReadsBack postcard schema schema format (key, row) row := by
  constructor
  · rintro ⟨result, ⟨_, reads⟩, _, _, _, same⟩
    rwa [same] at reads
  · intro reads
    rcases made with ⟨values, seq, op, encoded⟩ | decoded
    · have decodes := InternalKey.decode_encode encoded
      obtain ⟨fields, _, _, rfl⟩ := InternalKey.encode_eq_ok.mp encoded
      exact ⟨(_, row), ⟨decodes, reads⟩, rfl, rfl, rfl, rfl⟩
    · exact ⟨(key, row), ⟨InternalKey.decoded_iff.mp decoded, reads⟩, rfl, rfl, rfl, rfl⟩

theorem decode_self_iff {key : InternalKey} (made : key.Encoded schema ∨ key.Decoded schema) :
    InternalKey.decode key.encoded schema = .ok key ↔
      (key.Encoded schema → schema.FloatFree schema.primaryKey) := by
  have of_encoded : key.Encoded schema → (InternalKey.decode key.encoded schema = .ok key ↔
      schema.FloatFree schema.primaryKey) := by
    rintro ⟨values, seq, op, encoded⟩
    rw [InternalKey.decode_encode encoded]
    obtain ⟨fields, written, _, rfl⟩ := InternalKey.encode_eq_ok.mp encoded
    obtain ⟨sized, written⟩ := encodePkFields_eq_ok.mp written
    rw [← map_reread_eq_self_iff sized written]
    simp
  constructor
  · exact fun decodes encoded => (of_encoded encoded).mp decodes
  · intro free
    rcases made with encoded | decoded
    · exact (of_encoded encoded).mpr (free encoded)
    · exact InternalKey.decoded_iff.mp decoded

/-- A batch of valid rows can be built. The keys and rows that come back are the ones it was built
from exactly if, in the columnar format, each column's name leads to the row's own value; the values
that the key of a write carries next to its bytes are only right without a float among the key
columns. -/
theorem record_batch_read_back_iff (postcard : RowCodec) (rows : List (InternalKey × Row))
    (schema : TableSchema) (format : FileFormat)
    (valid : ∀ pair ∈ rows, pair.2.validate schema = .ok ())
    (keys : ∀ pair ∈ rows, pair.1.Encoded schema ∨ pair.1.Decoded schema) :
    ∃ batch, rowsToRecordBatch postcard rows schema format = .ok batch ∧
      ((∃ out, recordBatchToRows postcard batch schema = .ok out ∧
        List.Forall₂ SameStored rows out) ↔
        ∀ pair ∈ rows, format = .columnar → OwnCells postcard schema schema pair.1 pair.2) ∧
      (recordBatchToRows postcard batch schema = .ok rows ↔
        ∀ pair ∈ rows, (pair.1.Encoded schema → schema.FloatFree schema.primaryKey) ∧
          (format = .columnar → OwnCells postcard schema schema pair.1 pair.2)) := by
  have fits : ∀ pair ∈ rows, pair.2.Fits schema := fun pair member =>
    Row.fits_of_validate (valid pair member)
  refine ⟨⟨rows.length, fileColumns postcard rows schema format⟩,
    rowsToRecordBatch_eq_ok.mpr ⟨rfl, fits⟩, ?_, ?_⟩
  · simp only [recordBatchToRows_fileColumns, ← Foundation.forall₂_and, exists_forall₂]
    refine forall₂_congr fun pair member => ?_
    rw [← readsBack_self (valid pair member)]
    exact stored_of_key (keys pair member)
  · rw [recordBatchToRows_fileColumns, List.forall₂_same]
    refine forall₂_congr fun pair member => ?_
    rw [readsBack_self (valid pair member), decode_self_iff (keys pair member)]

open Evolution.Sample in
theorem record_batch_read_back_columnar :
    ∃ batch, rowsToRecordBatch .tagged [(key, row)] older .columnar = .ok batch ∧
      recordBatchToRows .tagged batch older = .ok [(key, row)] := by
  have valid : row.validate older = .ok () := by decide +kernel
  have plain : older.PlainNames := ⟨by decide, by decide⟩
  have continues : older.Continues older := ⟨List.prefix_rfl, rfl⟩
  have own : OwnCells .tagged older older key row :=
    ownCells_of_plain_names continues plain valid rfl
  have free : older.FloatFree older.primaryKey := by
    intro idx member col found
    cases List.mem_singleton.mp member
    cases found
    rfl
  obtain ⟨batch, built, _, exact⟩ := record_batch_read_back_iff .tagged [(key, row)] older .columnar
    (by simpa using valid) (by simpa using .inl ⟨_, _, _, key_encoded⟩)
  refine ⟨batch, built, exact.mpr ?_⟩
  intro pair member
  cases List.mem_singleton.mp member
  exact ⟨fun _ => free, fun _ => own⟩

namespace Evolution.Sample

/-- Two columns of one name, which the validator lets through. -/
def twins : TableSchema :=
  ⟨"t", [idColumn, { idColumn with fieldId := some 2 }], [0], 0, 2⟩

end Evolution.Sample

open Evolution.Sample in
/-- The second of two columns of one name is read back as the first; with the blob both are. -/
theorem columnar_twin_columns_differ :
    twins.validate = (twins, .ok ()) ∧
    InternalKey.encode [.int64 5] 1 .put twins = .ok key ∧
    (⟨[some (.int64 5), some (.int64 6)]⟩ : Row).validate twins = .ok () ∧
    (do recordBatchToRows .tagged (← rowsToRecordBatch .tagged
        [(key, ⟨[some (.int64 5), some (.int64 6)]⟩)] twins .columnar) twins) =
      .ok [(key, ⟨[some (.int64 5), some (.int64 5)]⟩)] ∧
    (do recordBatchToRows .tagged (← rowsToRecordBatch .tagged
        [(key, ⟨[some (.int64 5), some (.int64 6)]⟩)] twins .dual) twins) =
      .ok [(key, ⟨[some (.int64 5), some (.int64 6)]⟩)] := by
  decide +kernel

end Inverse

end Merutable
