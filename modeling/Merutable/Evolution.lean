import Mathlib.Logic.Relation
import Merutable.Codec
import Merutable.Iceberg

/-! Additive schema evolution: `MeruDB::add_column`, reopening with a longer schema, and rows that
were stored before the schema grew. -/

namespace Merutable

open Foundation

section Shape

variable {written reading : TableSchema} {values : List FieldValue}

/-- The columns of the old schema stand in front, with the same names, types and nullability, and
the key is the same. -/
structure TableSchema.Continues (reading written : TableSchema) : Prop where
  kept : written.columns.map ColumnDef.shape <+: reading.columns.map ColumnDef.shape
  primaryKey : written.primaryKey = reading.primaryKey

theorem TableSchema.Extends.continues (extended : reading.Extends written) :
    reading.Continues written := ⟨extended.kept, extended.primaryKey⟩

/-- One schema follows another through any number of accepted reopens. -/
abbrev TableSchema.Evolves : TableSchema → TableSchema → Prop :=
  Relation.ReflTransGen fun persisted provided => checkSchemaCompatible persisted provided = .ok ()

theorem TableSchema.Evolves.continues (evolves : written.Evolves reading) :
    reading.Continues written := by
  induction evolves with
  | refl => exact ⟨List.prefix_rfl, rfl⟩
  | tail _ accepted ih =>
    have next := (checkSchemaCompatible_eq_ok.mp accepted).continues
    exact ⟨ih.kept.trans next.kept, ih.primaryKey.trans next.primaryKey⟩

theorem TableSchema.Continues.length_le (continues : reading.Continues written) :
    written.columns.length ≤ reading.columns.length := by
  simpa using continues.kept.length_le

theorem TableSchema.Continues.shape_take (continues : reading.Continues written) :
    (reading.columns.take written.columns.length).map ColumnDef.shape =
      written.columns.map ColumnDef.shape := by
  rw [List.map_take]
  have front := List.prefix_iff_eq_take.mp continues.kept
  rw [List.length_map] at front
  exact front.symm

theorem TableSchema.Continues.column (continues : reading.Continues written) {idx : Nat}
    {old : ColumnDef} (found : written.columns[idx]? = some old) :
    ∃ new, reading.columns[idx]? = some new ∧ new.shape = old.shape := by
  obtain ⟨more, split⟩ := continues.kept
  have at' : (reading.columns.map ColumnDef.shape)[idx]? = some old.shape := by
    rw [← split, List.getElem?_append_left (by simpa using (List.getElem?_eq_some_iff.mp found).1)]
    simp [found]
  rw [List.getElem?_map] at at'
  simpa using at'

theorem ColumnDef.admits_of_shape {old new : ColumnDef} (same : new.shape = old.shape)
    {field : Option FieldValue} : new.Admits field ↔ old.Admits field := by
  simp only [ColumnDef.shape, Prod.mk.injEq] at same
  cases field with
  | none => rw [ColumnDef.Admits, ColumnDef.Admits, same.2.2]
  | some value => rw [ColumnDef.Admits, ColumnDef.Admits, same.2.1]

theorem admitted_of_shape {news olds : List ColumnDef} {fields : List (Option FieldValue)}
    (same : news.map ColumnDef.shape = olds.map ColumnDef.shape) :
    List.Forall₂ (fun field col => ColumnDef.Admits col field) fields news ↔
      List.Forall₂ (fun field col => ColumnDef.Admits col field) fields olds := by
  induction news generalizing olds fields with
  | nil =>
    cases olds with
    | nil => rfl
    | cons old olds => cases same
  | cons new news ih =>
    cases olds with
    | nil => cases same
    | cons old olds =>
      obtain ⟨head, tail⟩ := List.cons.inj same
      simp only [List.forall₂_cons_right_iff, ColumnDef.admits_of_shape head, ih tail]

theorem TableSchema.Continues.encodeFields (continues : reading.Continues written)
    {columns : List Nat} {bytes : Bytes}
    (encoded : encodeFields written values columns = .ok bytes) :
    Merutable.encodeFields reading values columns = .ok bytes := by
  induction columns generalizing values bytes with
  | nil => cases values <;> exact encoded
  | cons idx columns ih =>
    cases values with
    | nil => exact encoded
    | cons value values =>
      obtain ⟨old, front, later, found, encodedFront, encodedLater, rfl⟩ :=
        encodeFields_cons.mp encoded
      obtain ⟨new, present, same⟩ := continues.column found
      simp only [ColumnDef.shape, Prod.mk.injEq] at same
      rw [← same.2.1] at encodedFront
      exact encodeFields_cons.mpr ⟨new, front, later, present, encodedFront, ih encodedLater, rfl⟩

theorem TableSchema.Continues.decode (continues : reading.Continues written) {seq : Nat}
    {op : OpType} {key : InternalKey}
    (encoded : InternalKey.encode values seq op written = .ok key) :
    ∃ decoded, InternalKey.decode key.encoded reading = .ok ⟨key.encoded, seq, op, decoded⟩ := by
  refine ⟨values.map .reread, InternalKey.decode_encode ?_⟩
  obtain ⟨fields, encodedFields, bounded, rfl⟩ := InternalKey.encode_eq_ok.mp encoded
  obtain ⟨sized, encodedFields⟩ := encodePkFields_eq_ok.mp encodedFields
  refine InternalKey.encode_eq_ok.mpr ⟨fields, encodePkFields_eq_ok.mpr ?_, bounded, rfl⟩
  rw [← continues.primaryKey]
  exact ⟨sized, continues.encodeFields encodedFields⟩

end Shape

section Filling

variable {postcard : RowCodec} {written reading : TableSchema} {format : FileFormat}
  {pair : InternalKey × Row} {row : Row}

theorem padInitial_valid (continues : reading.Continues written)
    (valid : row.validate written = .ok ()) :
    (padInitial row reading).validate reading = .ok () ↔
      ∀ col ∈ reading.columns.drop written.columns.length, col.Admits col.initialDefault := by
  have fits := Row.validate_eq_ok.mp valid
  have arity := fits.length_eq
  have defaults : List.Forall₂ (fun field col => ColumnDef.Admits col field)
        ((reading.columns.drop row.fields.length).map ColumnDef.initialDefault)
        (reading.columns.drop row.fields.length) ↔
      ∀ col ∈ reading.columns.drop written.columns.length, col.Admits col.initialDefault := by
    rw [List.forall₂_map_left_iff, List.forall₂_same, arity]
  rw [Row.validate_eq_ok, ← defaults]
  constructor
  · intro all
    have later := List.forall₂_drop row.fields.length all
    rwa [padInitial, List.drop_left] at later
  · intro later
    have front : List.Forall₂ (fun field col => ColumnDef.Admits col field) row.fields
        (reading.columns.take row.fields.length) := by
      rw [arity]
      exact (admitted_of_shape continues.shape_take).mpr fits
    have whole := List.rel_append front later
    change List.Forall₂ _ (row.fields ++ _) (_ ++ _) at whole
    rwa [List.take_append_drop] at whole

/-- What the columns of the reading schema find in the file: a column that is not there admits its
own default for reading, another one the value its name leads to. -/
def Fills (postcard : RowCodec) (written reading : TableSchema) (format : FileFormat)
    (pair : InternalKey × Row) : Prop :=
  match format with
  | .dual => ∀ col ∈ reading.columns.drop written.columns.length, col.Admits col.initialDefault
  | .columnar =>
    match blobCell written reading pair with
    | some cell => cell.dataType = .binary ∧ ∃ stored, postcard.decode cell.bytes = some stored ∧
        (padInitial stored reading).validate reading = .ok ()
    | none => ∀ col ∈ reading.columns,
        match cellNamed written pair col.name with
        | none => col.Admits col.initialDefault
        | some cell => col.Admits cell.value ∧
            (cell.value.isSome = true → cell.dataType.sameArray col.colType.toArrow = true)

theorem readsBack_valid (continues : reading.Continues written)
    (valid : pair.2.validate written = .ok ()) :
    (∃ row, ReadsBack postcard written reading format pair row ∧
      row.validate reading = .ok ()) ↔ Fills postcard written reading format pair := by
  cases format with
  | dual =>
    have padded := padInitial_valid continues valid
    constructor
    · rintro ⟨row, rfl, good⟩
      exact padded.mp good
    · exact fun fills => ⟨_, rfl, padded.mpr fills⟩
  | columnar =>
    simp only [ReadsBack, Fills]
    cases blobCell written reading pair with
    | some cell =>
      constructor
      · rintro ⟨row, ⟨binary, stored, decoded, rfl⟩, good⟩
        exact ⟨binary, stored, decoded, good⟩
      · rintro ⟨binary, stored, decoded, good⟩
        exact ⟨_, ⟨binary, stored, decoded, rfl⟩, good⟩
    | none =>
      have column : ∀ col : ColumnDef,
          (∃ field, ColumnDef.Reads (cellNamed written pair col.name) col field ∧
            col.Admits field) ↔
          match cellNamed written pair col.name with
          | none => col.Admits col.initialDefault
          | some cell => col.Admits cell.value ∧
              (cell.value.isSome = true →
                cell.dataType.sameArray col.colType.toArrow = true) := by
        intro col
        cases cellNamed written pair col.name with
        | none => exact ⟨by rintro ⟨_, rfl, good⟩; exact good, fun good => ⟨_, rfl, good⟩⟩
        | some cell =>
          constructor
          · rintro ⟨_, ⟨rfl, same⟩, good⟩
            exact ⟨good, same⟩
          · rintro ⟨good, same⟩
            exact ⟨_, ⟨rfl, same⟩, good⟩
      have chosen := exists_forall₂ (r := fun col field =>
        ColumnDef.Reads (cellNamed written pair col.name) col field ∧ col.Admits field)
        reading.columns
      simp only [← column, Row.validate_eq_ok, ← chosen]
      constructor
      · rintro ⟨row, reads, admits⟩
        exact ⟨row.fields, (forall₂_and.mpr ⟨reads, admits⟩).flip⟩
      · rintro ⟨fields, all⟩
        exact ⟨⟨fields⟩, forall₂_and.mp all.flip⟩

theorem userCells_find {cols : List ColumnDef} (distinct : (cols.map ColumnDef.name).Nodup)
    {first idx : Nat} {col : ColumnDef} (found : cols[idx]? = some col) :
    (userCells row first cols).find? (fun cell => cell.name = col.name) =
      some ⟨col.name, col.colType.toArrow, col.cellOf (row.get (first + idx))⟩ := by
  induction cols generalizing first idx with
  | nil => cases found
  | cons head rest ih =>
    obtain ⟨fresh, distinct⟩ := List.nodup_cons.mp distinct
    cases idx with
    | zero =>
      cases found
      simp [userCells]
    | succ idx =>
      have later : rest[idx]? = some col := by simpa using found
      have other : head.name ≠ col.name := by
        intro same
        exact fresh (List.mem_map.mpr ⟨col, List.mem_of_getElem? later, same.symm⟩)
      have tail := @ih distinct (first + 1) idx later
      rw [Nat.add_right_comm, Nat.add_assoc] at tail
      simpa [userCells, other] using tail

theorem userCells_find_none {cols : List ColumnDef} {first : Nat} {name : String}
    (absent : name ∉ cols.map ColumnDef.name) :
    (userCells row first cols).find? (fun cell => cell.name = name) = none := by
  induction cols generalizing first with
  | nil => rfl
  | cons head rest ih =>
    simp only [List.map_cons, List.mem_cons, not_or] at absent
    simpa [userCells, Ne.symm absent.1] using ih absent.2

theorem TableSchema.PlainNames.cellNamed (plain : reading.PlainNames) {name : String}
    (user : name ∈ reading.columns.map ColumnDef.name) :
    Merutable.cellNamed written pair name =
      (userCells pair.2 0 written.columns).find? fun cell => cell.name = name := by
  obtain ⟨notIkey, notSeq, notOp, _⟩ := plain.visible name user
  simp [Merutable.cellNamed, columnarCells, Ne.symm notIkey, Ne.symm notSeq, Ne.symm notOp]

theorem TableSchema.PlainNames.blobCell (plain : reading.PlainNames) :
    Merutable.blobCell written reading pair = none := by
  unfold Merutable.blobCell
  split
  · rename_i user
    exact absurd rfl (plain.visible _ user).2.2.2
  · rfl

theorem DataType.sameArray_self (type : DataType) : type.sameArray type = true := by
  cases type <;> rfl

section

variable (continues : reading.Continues written)
include continues

theorem TableSchema.Continues.names :
    (reading.columns.take written.columns.length).map ColumnDef.name =
      written.columns.map ColumnDef.name := by
  have shapes := congrArg (List.map Prod.fst) continues.shape_take
  rwa [List.map_map, List.map_map] at shapes

theorem TableSchema.Continues.names_nodup (plain : reading.PlainNames) :
    (written.columns.map ColumnDef.name ++
      (reading.columns.drop written.columns.length).map ColumnDef.name).Nodup := by
  rw [← continues.names, ← List.map_append, List.take_append_drop]
  exact plain.distinct

theorem TableSchema.Continues.distinct (plain : reading.PlainNames) :
    (written.columns.map ColumnDef.name).Nodup :=
  (List.nodup_append.mp (continues.names_nodup plain)).1

theorem TableSchema.Continues.added_fresh (plain : reading.PlainNames) :
    ∀ col ∈ reading.columns.drop written.columns.length,
      col.name ∉ written.columns.map ColumnDef.name := by
  intro col member old
  exact (List.nodup_append.mp (continues.names_nodup plain)).2.2 col.name old col.name
    (List.mem_map.mpr ⟨col, member, rfl⟩) rfl

theorem TableSchema.Continues.kept_column {col : ColumnDef}
    (member : col ∈ reading.columns.take written.columns.length) :
    ∃ (idx : Nat) (old : ColumnDef), written.columns[idx]? = some old ∧ col.shape = old.shape := by
  obtain ⟨idx, found⟩ := List.mem_iff_getElem?.mp member
  have shape := congrArg (fun shapes => shapes[idx]?) continues.shape_take
  simp only [List.getElem?_map, found, Option.map_some] at shape
  obtain ⟨old, present, same⟩ := Option.map_eq_some_iff.mp shape.symm
  exact ⟨idx, old, present, same.symm⟩

theorem fills_of_plain_names (plain : reading.PlainNames)
    (valid : pair.2.validate written = .ok ()) :
    Fills postcard written reading format pair ↔
      ∀ col ∈ reading.columns.drop written.columns.length, col.Admits col.initialDefault := by
  cases format with
  | dual => exact Iff.rfl
  | columnar =>
    have named := fun col (member : col ∈ reading.columns) =>
      @TableSchema.PlainNames.cellNamed written reading pair plain col.name
        (List.mem_map.mpr ⟨col, member, rfl⟩)
    have fresh := continues.added_fresh plain
    simp only [Fills, plain.blobCell]
    constructor
    · intro all col member
      have admits := all col (List.mem_of_mem_drop member)
      rw [named col (List.mem_of_mem_drop member), userCells_find_none (fresh col member)] at admits
      exact admits
    · intro later col member
      rw [named col member]
      rw [← List.take_append_drop written.columns.length reading.columns] at member
      rcases List.mem_append.mp member with old | new
      · obtain ⟨idx, col', found, same⟩ := continues.kept_column old
        obtain ⟨own, admits⟩ := Row.cellOf_get valid found
        simp only [ColumnDef.shape, Prod.mk.injEq] at same
        have cell := @userCells_find pair.2 _ (continues.distinct plain) 0 idx col' found
        rw [Nat.zero_add, own] at cell
        rw [same.1, cell]
        refine ⟨?_, fun _ => ?_⟩
        · exact (ColumnDef.admits_of_shape (by simp [ColumnDef.shape, same])).mpr admits
        · rw [same.2.1]
          exact DataType.sameArray_self _
      · rw [userCells_find_none (fresh col new)]
        exact later col new

end

/-- Every chain of accepted schemas, every file written under one of them and read under a later
one: the rows come back valid exactly if each column finds what it admits. -/
theorem decoded_rows_valid_iff (evolves : written.Evolves reading)
    (rows : List (InternalKey × Row)) (file : RecordBatch)
    (keys : ∀ pair ∈ rows, ∃ values seq op, InternalKey.encode values seq op written = .ok pair.1)
    (valid : ∀ pair ∈ rows, pair.2.validate written = .ok ())
    (stored : rowsToRecordBatch postcard rows written format = .ok file) :
    (∃ out, readAllRows postcard file reading format = .ok out ∧
      ∀ result ∈ out, result.2.validate reading = .ok ()) ↔
    ∀ pair ∈ rows, Fills postcard written reading format pair := by
  have continues := evolves.continues
  obtain ⟨rfl, _⟩ := rowsToRecordBatch_eq_ok.mp stored
  have read := fun out => @readAllRows_eq_ok postcard rows written reading format out
  simp only [fileColumns] at read
  simp only [read]
  have each : ∀ pair ∈ rows, (∃ result : InternalKey × Row,
      (InternalKey.decode pair.1.encoded reading = .ok result.1 ∧
        ReadsBack postcard written reading format pair result.2) ∧
      result.2.validate reading = .ok ()) ↔ Fills postcard written reading format pair := by
    intro pair member
    rw [← readsBack_valid continues (valid pair member)]
    obtain ⟨values, seq, op, encoded⟩ := keys pair member
    obtain ⟨decoded, decodes⟩ := continues.decode encoded
    constructor
    · rintro ⟨result, ⟨_, reads⟩, good⟩
      exact ⟨result.2, reads, good⟩
    · rintro ⟨row, reads, good⟩
      exact ⟨(_, row), ⟨decodes, reads⟩, good⟩
  rw [← forall₂_congr each]
  rw [← exists_forall₂]
  refine exists_congr fun out => ?_
  constructor
  · rintro ⟨all, good⟩
    exact forall₂_and.mpr ⟨all, (forall₂_right all.length_eq).mpr good⟩
  · intro all
    obtain ⟨reads, good⟩ := forall₂_and.mp all
    exact ⟨reads, (forall₂_right reads.length_eq).mp good⟩

end Filling

namespace Evolution.Sample

def idColumn : ColumnDef := ⟨"id", .int64, false, some 1, none, none⟩

def older : TableSchema := ⟨"t", [idColumn], [0], 0, 1⟩

/-- The older schema with a NOT NULL column that has a default for new rows only. -/
def newer : TableSchema :=
  ⟨"t", [idColumn, ⟨"score", .int64, false, some 2, none, some (.int64 7)⟩], [0], 0, 2⟩

/-- The same with a default for old rows. -/
def backfilled : TableSchema :=
  ⟨"t", [idColumn, ⟨"score", .int64, false, some 2, some (.int64 7), none⟩], [0], 0, 2⟩

def key : InternalKey :=
  ⟨toBe 8 (5#64 ^^^ 0x8000000000000000#64).toNat ++ keyTag 1 .put, 1, .put, [.int64 5]⟩

theorem key_encoded : InternalKey.encode [.int64 5] 1 .put older = .ok key := rfl

def row : Row := ⟨[some (.int64 5)]⟩

end Evolution.Sample

open Evolution.Sample in
theorem decoded_rows_valid_backfilled :
    ∃ out, readAllRows .tagged ⟨1, fileColumns .tagged [(key, row)] older .columnar⟩ backfilled
        .columnar = .ok out ∧ ∀ result ∈ out, result.2.validate backfilled = .ok () := by
  have evolves : older.Evolves backfilled := .single (by decide +kernel)
  have valid : row.validate older = .ok () := by decide +kernel
  have plain : backfilled.PlainNames := ⟨by decide, by decide⟩
  refine (decoded_rows_valid_iff evolves [(key, row)] _ ?_ ?_ rfl).mpr ?_
  · intro pair member
    cases List.mem_singleton.mp member
    exact ⟨_, _, _, key_encoded⟩
  · intro pair member
    cases List.mem_singleton.mp member
    exact valid
  · intro pair member
    cases List.mem_singleton.mp member
    refine (fills_of_plain_names evolves.continues plain valid).mpr ?_
    decide

open Evolution.Sample in
/-- The new column is read as NULL although it is NOT NULL. -/
theorem decoded_row_null_in_not_null :
    checkSchemaCompatible older newer = .ok () ∧ row.validate older = .ok () ∧
      (readAllRows .tagged ⟨1, fileColumns .tagged [(key, row)] older .dual⟩ newer .dual).map
        (fun out => out.map Prod.snd) = .ok [⟨[some (.int64 5), none]⟩] ∧
      Row.validate ⟨[some (.int64 5), none]⟩ newer ≠ .ok () := by
  decide +kernel

end Merutable
