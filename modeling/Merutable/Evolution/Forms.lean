import Merutable.Evolution

/-! One record in the forms it takes after a reopen with a longer schema: in the memtable that was
replayed from the WAL, in a file from before the reopen, and in the files that flushes and
compactions write under the new schema. -/

namespace Merutable

open Foundation

/-- Where the record is: the value of a memtable entry, or a row of a file. -/
inductive Placement where
  | memtable (value : Bytes)
  | file (written : TableSchema) (format : FileFormat) (rows : List (InternalKey × Row))
      (position : Nat)

/-- What a lookup that ends at this entry returns: `decode_row` of a memtable value, the row of a
file as the reader of the open schema decodes it. -/
def Placement.read (postcard : RowCodec) (schema : TableSchema) :
    Placement → Except MeruError (Option Row)
  | .memtable value => do
      let row ← decodeRow postcard value
      return some row
  | .file written format rows position => do
      let file ← rowsToRecordBatch postcard rows written format
      let out ← readAllRows postcard file schema format
      return out[position]?.map Prod.snd

/-- A file that was written and has the record at a position. Its other rows can be anything that
can be read. -/
structure HoldsRecord (postcard : RowCodec) (reading written : TableSchema) (format : FileFormat)
    (rows : List (InternalKey × Row)) (position : Nat) (key : InternalKey) (row : Row) : Prop where
  built : ∀ pair ∈ rows, pair.2.Fits written
  record : ∃ values, rows[position]? = some ({ key with pkValues := values }, row)
  others : ∀ idx pair, rows[idx]? = some pair → idx ≠ position →
    ∃ result : InternalKey × Row, InternalKey.decode pair.1.encoded reading = .ok result.1 ∧
      ReadsBack postcard written reading format pair result.2

/-- The placements of a record written under the older schema once the newer one is open. A flush
decodes the memtable value, a compaction reads the row of its input; both write under the newer
schema in either format. -/
inductive Reaches (postcard : RowCodec) (older newer : TableSchema) (key : InternalKey)
  (row : Row) :
    Placement → Prop
  | replayed : Reaches postcard older newer key row (.memtable (encodeRow postcard row))
  | written {format rows position} :
      HoldsRecord postcard newer older format rows position key row →
      Reaches postcard older newer key row (.file older format rows position)
  | flushed {value stored format rows position} :
      Reaches postcard older newer key row (.memtable value) →
      decodeRow postcard value = .ok stored →
      HoldsRecord postcard newer newer format rows position key stored →
      Reaches postcard older newer key row (.file newer format rows position)
  | compacted {schema format rows position stored format' rows' position'} :
      Reaches postcard older newer key row (.file schema format rows position) →
      Placement.read postcard newer (.file schema format rows position) = .ok (some stored) →
      HoldsRecord postcard newer newer format' rows' position' key stored →
      Reaches postcard older newer key row (.file newer format' rows' position')

section Forms

variable {postcard : RowCodec} {older newer written reading : TableSchema} {format : FileFormat}
  {key : InternalKey} {row shown : Row} {rows : List (InternalKey × Row)} {position : Nat}
  {pair : InternalKey × Row}

theorem ColumnDef.reads_unique {cell : ColumnDef → Option FileCell} :
    Relator.LeftUnique fun field col => ColumnDef.Reads (cell col) col field := by
  intro left right col first second
  unfold ColumnDef.Reads at first second
  cases found : cell col with
  | none =>
    rw [found] at first second
    exact first.trans second.symm
  | some held =>
    rw [found] at first second
    exact first.1.trans second.1.symm

theorem readsBack_unique {other : Row} (first : ReadsBack postcard written reading format pair row)
    (second : ReadsBack postcard written reading format pair other) : row = other := by
  cases format with
  | dual => exact first.trans second.symm
  | columnar =>
    unfold ReadsBack at first second
    cases found : blobCell written reading pair with
    | some cell =>
      rw [found] at first second
      obtain ⟨_, stored, decoded, rfl⟩ := first
      obtain ⟨_, stored', decoded', rfl⟩ := second
      cases decoded.symm.trans decoded'
      rfl
    | none =>
      rw [found] at first second
      exact congrArg Row.mk (List.left_unique_forall₂' ColumnDef.reads_unique first second)

theorem HoldsRecord.read {values : List FieldValue} {seq : Nat} {op : OpType}
    (holds : HoldsRecord postcard reading written format rows position key row)
    (continues : reading.Continues older)
    (encoded : InternalKey.encode values seq op older = .ok key) :
    Placement.read postcard reading (.file written format rows position) = .ok (some shown) ↔
      ReadsBack postcard written reading format (key, row) shown := by
  obtain ⟨decoded, decodes⟩ := continues.decode encoded
  obtain ⟨own, record⟩ := holds.record
  have built : rowsToRecordBatch postcard rows written format =
      .ok ⟨rows.length, fileColumns postcard rows written format⟩ :=
    rowsToRecordBatch_eq_ok.mpr ⟨rfl, holds.built⟩
  have at' : ∀ {out}, readAllRows postcard ⟨rows.length, fileColumns postcard rows written format⟩
      reading format = .ok out →
      ∃ result : InternalKey × Row, out[position]? = some result ∧
        ReadsBack postcard written reading format (key, row) result.2 := by
    intro out read
    have all := readAllRows_eq_ok.mp read
    have inside := (List.getElem?_eq_some_iff.mp record).1
    have inside' : position < out.length := all.length_eq ▸ inside
    have reads := (all.get inside inside').2
    simp only [List.get_eq_getElem, (List.getElem?_eq_some_iff.mp record).2] at reads
    exact ⟨_, List.getElem?_eq_getElem inside', reads⟩
  simp only [Placement.read, built, Except.bind_ok]
  constructor
  · intro returned
    obtain ⟨out, read, chosen⟩ := Except.bind_eq_ok.mp returned
    obtain ⟨result, found, reads⟩ := at' read
    rw [found] at chosen
    cases chosen
    exact reads
  · intro reads
    have each : ∀ pair ∈ rows, ∃ result : InternalKey × Row,
        InternalKey.decode pair.1.encoded reading = .ok result.1 ∧
          ReadsBack postcard written reading format pair result.2 := by
      intro pair member
      obtain ⟨idx, found⟩ := List.mem_iff_getElem?.mp member
      by_cases same : idx = position
      · rw [same, record] at found
        cases found
        exact ⟨(_, shown), decodes, reads⟩
      · exact holds.others idx pair found same
    obtain ⟨out, all⟩ := (exists_forall₂ rows).mpr each
    have read := readAllRows_eq_ok.mpr all
    obtain ⟨result, found, reads'⟩ := at' read
    rw [read, Except.bind_ok, found, readsBack_unique reads reads']
    rfl

theorem userCells_of_shape {news olds : List ColumnDef} {first : Nat}
    (same : news.map ColumnDef.shape = olds.map ColumnDef.shape) :
    userCells row first news = userCells row first olds := by
  induction news generalizing olds first with
  | nil =>
    cases olds with
    | nil => rfl
    | cons => cases same
  | cons new news ih =>
    cases olds with
    | nil => cases same
    | cons old olds =>
      obtain ⟨head, tail⟩ := List.cons.inj same
      simp only [ColumnDef.shape, Prod.mk.injEq] at head
      simp only [userCells, ColumnDef.cellOf, head, ih tail]

theorem TableSchema.Continues.cellNamed (continues : newer.Continues older)
    (same : newer.columns.length = older.columns.length) (name : String) :
    Merutable.cellNamed newer pair name = Merutable.cellNamed older pair name := by
  have shapes := continues.shape_take
  rw [← same, List.take_length] at shapes
  rw [Merutable.cellNamed, Merutable.cellNamed, columnarCells, columnarCells,
    userCells_of_shape shapes]

/-- What a columnar file must give back of a row that has all columns: each column's name leads to
the row's own value in an array of the column's class. -/
def OwnCells (postcard : RowCodec) (older newer : TableSchema) (key : InternalKey) (row : Row) :
    Prop :=
  match blobCell older newer (key, row) with
  | some cell => cell.dataType = .binary ∧
      ∃ stored, postcard.decode cell.bytes = some stored ∧ padInitial stored newer = row
  | none => ∀ (idx : Nat) (col : ColumnDef), newer.columns[idx]? = some col →
      ColumnDef.Reads (cellNamed older (key, row) col.name) col (row.get idx)

theorem ownCells_iff (valid : row.validate older = .ok ())
    (same : newer.columns.length = older.columns.length) :
    OwnCells postcard older newer key row ↔
      ReadsBack postcard older newer .columnar (key, row) row := by
  have arity : row.fields.length = newer.columns.length :=
    (Row.validate_eq_ok.mp valid).length_eq.trans same.symm
  unfold OwnCells ReadsBack
  cases blobCell older newer (key, row) with
  | some cell => simp only [eq_comm]
  | none =>
    rw [List.forall₂_iff_get]
    constructor
    · intro all
      refine ⟨arity, fun idx inside inside' => ?_⟩
      have reads := all idx newer.columns[idx] (List.getElem?_eq_getElem inside')
      rwa [Row.get, List.getElem?_eq_getElem inside] at reads
    · rintro ⟨_, all⟩ idx col found
      obtain ⟨inside', rfl⟩ := List.getElem?_eq_some_iff.mp found
      have inside : idx < row.fields.length := arity ▸ inside'
      have reads := all idx inside inside'
      rwa [Row.get, List.getElem?_eq_getElem inside]

theorem ownCells_of_plain_names (continues : newer.Continues older) (plain : newer.PlainNames)
    (valid : row.validate older = .ok ())
    (same : newer.columns.length = older.columns.length) :
    OwnCells postcard older newer key row := by
  simp only [OwnCells, plain.blobCell]
  intro idx col found
  have inside : idx < older.columns.length := same ▸ (List.getElem?_eq_some_iff.mp found).1
  have present := List.getElem?_eq_getElem inside
  obtain ⟨new, found', shape⟩ := continues.column present
  cases found.symm.trans found'
  simp only [ColumnDef.shape, Prod.mk.injEq] at shape
  have cell := @userCells_find row _ (continues.distinct plain) 0 idx _ present
  rw [Nat.zero_add, (Row.cellOf_get valid present).1] at cell
  rw [plain.cellNamed (List.mem_map.mpr ⟨col, List.mem_of_getElem? found, rfl⟩), shape.1, cell]
  refine ⟨rfl, fun _ => ?_⟩
  rw [shape.2.1]
  exact DataType.sameArray_self _

theorem padInitial_full (full : newer.columns.length ≤ row.fields.length) :
    padInitial row newer = row := by
  rw [padInitial, List.drop_eq_nil_of_le full, List.map_nil, List.append_nil]

theorem full_of_padInitial (unchanged : row = padInitial row newer) :
    newer.columns.length ≤ row.fields.length := by
  have lengths := congrArg (fun row => row.fields.length) unchanged
  simp only [padInitial, List.length_append, List.length_map, List.length_drop] at lengths
  omega

theorem HoldsRecord.single (valid : row.validate written = .ok ()) :
    HoldsRecord postcard reading written format [(key, row)] 0 key row where
  built := by
    intro pair member
    cases List.mem_singleton.mp member
    exact Row.fits_of_validate valid
  record := ⟨key.pkValues, rfl⟩
  others := by
    intro idx pair found other
    cases idx with
    | zero => exact absurd rfl other
    | succ idx => simp at found

/-- Every placement that a record can reach shows the same row exactly if the reopen added no
column and a columnar file gives each column its own value. -/
theorem storage_forms_agree_iff {values : List FieldValue} {seq : Nat}
    (accepted : checkSchemaCompatible older newer = .ok ())
    (encoded : InternalKey.encode values seq .put older = .ok key)
    (valid : row.validate older = .ok ()) :
    (∃ shown, ∀ place, Reaches postcard older newer key row place →
      place.read postcard newer = .ok (some shown)) ↔
    newer.columns.length = older.columns.length ∧ OwnCells postcard older newer key row := by
  have continues := (checkSchemaCompatible_eq_ok.mp accepted).continues
  have arity := (Row.validate_eq_ok.mp valid).length_eq
  have inMemory : Placement.read postcard newer (.memtable (encodeRow postcard row)) =
      .ok (some row) := by
    rw [Placement.read, decodeRow_encodeRow]
    rfl
  constructor
  · rintro ⟨shown, agree⟩
    have replayed := agree _ .replayed
    rw [inMemory] at replayed
    cases replayed
    have inFile : ∀ format, ReadsBack postcard older newer format (key, row) row := by
      intro format
      have holds : HoldsRecord postcard newer older format [(key, row)] 0 key row := .single valid
      exact (holds.read continues encoded).mp (agree _ (.written holds))
    have full := full_of_padInitial (inFile .dual)
    have same : newer.columns.length = older.columns.length :=
      Nat.le_antisymm (full.trans_eq arity) continues.length_le
    exact ⟨same, (ownCells_iff valid same).mpr (inFile .columnar)⟩
  · rintro ⟨same, own⟩
    have full : newer.columns.length ≤ row.fields.length := by omega
    have fromOlder : ∀ format, ReadsBack postcard older newer format (key, row) row := by
      intro format
      cases format with
      | dual => exact (padInitial_full full).symm
      | columnar => exact (ownCells_iff valid same).mp own
    have fromNewer : ∀ format, ReadsBack postcard newer newer format (key, row) row := by
      intro format
      have older' := fromOlder format
      unfold ReadsBack blobCell at older' ⊢
      simpa only [continues.cellNamed same] using older'
    refine ⟨row, fun place reached => ?_⟩
    induction reached with
    | replayed => exact inMemory
    | written holds => exact (holds.read continues encoded).mpr (fromOlder _)
    | flushed _ decoded holds ih =>
      rw [Placement.read, decoded] at ih
      cases ih
      exact (holds.read continues encoded).mpr (fromNewer _)
    | compacted _ returned holds ih =>
      cases returned.symm.trans ih
      exact (holds.read continues encoded).mpr (fromNewer _)

end Forms

namespace Evolution.Sample

/-- The older schema with a nullable column. -/
def annotated : TableSchema :=
  ⟨"t", [idColumn, ⟨"note", .int64, true, some 2, none, none⟩], [0], 0, 2⟩

end Evolution.Sample

open Evolution.Sample in
theorem storage_forms_agree_reopened :
    ∃ shown, ∀ place, Reaches .tagged older older key row place →
      place.read .tagged older = .ok (some shown) := by
  have accepted : checkSchemaCompatible older older = .ok () := by decide +kernel
  have valid : row.validate older = .ok () := by decide +kernel
  have plain : older.PlainNames := ⟨by decide, by decide⟩
  have continues := (checkSchemaCompatible_eq_ok.mp accepted).continues
  exact (storage_forms_agree_iff accepted key_encoded valid).mpr
    ⟨rfl, ownCells_of_plain_names continues plain valid rfl⟩

open Evolution.Sample in
/-- A nullable column is enough: the replayed memtable shows the row without it, the file with
it. -/
theorem storage_forms_differ_after_added_column :
    checkSchemaCompatible older annotated = .ok () ∧ row.validate older = .ok () ∧
    (Reaches .tagged older annotated key row (.memtable (encodeRow .tagged row)) ∧
      Placement.read .tagged annotated (.memtable (encodeRow .tagged row)) =
        .ok (some ⟨[some (.int64 5)]⟩)) ∧
    (Reaches .tagged older annotated key row (.file older .dual [(key, row)] 0) ∧
      Placement.read .tagged annotated (.file older .dual [(key, row)] 0) =
        .ok (some ⟨[some (.int64 5), none]⟩)) := by
  have valid : row.validate older = .ok () := by decide +kernel
  refine ⟨by decide +kernel, valid, ⟨.replayed, by decide +kernel⟩, ⟨.written (.single valid), ?_⟩⟩
  decide +kernel

end Merutable
