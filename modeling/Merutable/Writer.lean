import Merutable.Codec
import Merutable.KvIndex

/-! Writing the rows of a file: `parquet::writer`. What the Parquet library reports about the pages
of the written file is a parameter. -/

namespace Merutable

open Foundation

/-- `PageLocation` of the library, with its signed fields. -/
structure PageLoc where
  offset : Int
  compressedPageSize : Int
  firstRowIndex : Int
  deriving DecidableEq

/-- A row group with the pages of each of its columns. -/
structure RowGroupIndex where
  numRows : Int
  columns : List (List PageLoc)
  deriving DecidableEq

def pageEntries (rows : List (InternalKey × Row)) (rgIdx rowGroupStart : Nat) :
    List PageLoc → Except MeruError (List (Bytes × PageLocation))
  | [] => .ok []
  | page :: rest => do
      okIf (0 ≤ page.firstRowIndex) (.corruption
        s!"negative first_row_index {page.firstRowIndex} in row group {rgIdx}")
      okIf (0 ≤ page.offset) (.corruption
        s!"negative page offset {page.offset} in row group {rgIdx}")
      okIf (0 ≤ page.compressedPageSize) (.corruption
        s!"negative compressed_page_size {page.compressedPageSize} in row group {rgIdx}")
      let first := rowGroupStart + page.firstRowIndex.toNat
      match rows[first]? with
      | none =>
        let count := rows.length
        .error (.parquet (s!"OffsetIndex first_row_index {first} " ++
          s!"out of bounds for input row count {count}"))
      | some row => do
          let later ← pageEntries rows rgIdx rowGroupStart rest
          return (row.1.encoded,
            ⟨page.offset.toNat, page.compressedPageSize.toNat, first⟩) :: later

/-- The key column is the first one. -/
def rowGroupEntries (rows : List (InternalKey × Row)) :
    Nat → Nat → List RowGroupIndex → Except MeruError (List (Bytes × PageLocation))
  | _, _, [] => .ok []
  | rgIdx, rowGroupStart, group :: rest =>
    match group.columns.head? with
    | none => .error (.parquet
        s!"OffsetIndex missing _merutable_ikey column for row group {rgIdx}")
    | some pages => do
        let entries ← pageEntries rows rgIdx rowGroupStart pages
        okIf (0 ≤ group.numRows) (.corruption
          s!"negative num_rows {group.numRows} in row group {rgIdx}")
        let later ← rowGroupEntries rows (rgIdx + 1) (rowGroupStart + group.numRows.toNat) rest
        return entries ++ later

def extractKvIndexEntries (rows : List (InternalKey × Row))
    (offsetIndex : Option (List RowGroupIndex)) : Except MeruError (List (Bytes × PageLocation)) :=
  match offsetIndex with
  | none => .error (.parquet
      "OffsetIndex missing from pass-1 Parquet file (expected ArrowWriter to emit it)")
  | some groups => rowGroupEntries rows 0 0 groups

structure ParquetFileMeta where
  seqMin : Nat
  seqMax : Nat
  keyMin : Bytes
  keyMax : Bytes
  numRows : Nat
  deriving DecidableEq

def u64Max : Nat := 2 ^ 64 - 1

def ParquetFileMeta.ofRows (rows : List (InternalKey × Row)) : ParquetFileMeta where
  seqMin :=
    let least := rows.foldl (fun least pair => min least pair.1.seq) u64Max
    if least = u64Max then 0 else least
  seqMax := rows.foldl (fun most pair => max most pair.1.seq) 0
  keyMin := (rows.head?.map fun pair => pair.1.userKeyBytes).getD []
  keyMax := (rows.getLast?.map fun pair => pair.1.userKeyBytes).getD []
  numRows := rows.length

/-- A written file: the table in it, the index in its footer, and its metadata. -/
structure WrittenFile where
  batch : RecordBatch
  kvIndex : Bytes
  fileMeta : ParquetFileMeta

/-- Both passes write the same batch; the second one adds the index over the pages of the first. -/
def writeSortedRows (postcard : RowCodec) (rows : List (InternalKey × Row)) (schema : TableSchema)
    (format : FileFormat) (offsetIndex : Option (List RowGroupIndex)) :
    Except MeruError WrittenFile :=
  if rows = [] then .ok ⟨⟨0, []⟩, [], .ofRows []⟩
  else do
    let batch ← rowsToRecordBatch postcard rows schema format
    let entries ← extractKvIndexEntries rows offsetIndex
    let kvIndex ← KvIndex.build entries KvIndex.defaultRestartInterval
    return ⟨batch, kvIndex, .ofRows rows⟩

/-- The rows that start a page, numbered through all row groups. -/
def firstRows : Nat → List RowGroupIndex → List Nat
  | _, [] => []
  | rowGroupStart, group :: rest =>
    ((group.columns.head?.getD []).map fun page => rowGroupStart + page.firstRowIndex.toNat) ++
      firstRows (rowGroupStart + group.numRows.toNat) rest

/-- The pages of a row group: the first starts at its first row, each later one behind the one
before, and all inside the group. -/
structure RowGroupIndex.Paged (group : RowGroupIndex) : Prop where
  counted : 0 ≤ group.numRows
  indexed : group.columns ≠ []
  ascending : (group.columns.head?.getD []).Pairwise fun a b => a.firstRowIndex < b.firstRowIndex
  inside : ∀ page ∈ group.columns.head?.getD [],
    0 ≤ page.firstRowIndex ∧ page.firstRowIndex < group.numRows ∧ 0 ≤ page.offset ∧
      0 ≤ page.compressedPageSize
  begins : 0 < group.numRows → (group.columns.head?.getD []).head?.map
    PageLoc.firstRowIndex = some 0

/-- The page index of a file with this many rows, as the library writes it. -/
structure Covers (groups : List RowGroupIndex) (count : Nat) : Prop where
  paged : ∀ group ∈ groups, group.Paged
  total : (groups.map fun group => group.numRows.toNat).sum = count

section Pages

variable {postcard : RowCodec} {rows : List (InternalKey × Row)} {groups : List RowGroupIndex}
  {rowGroupStart rgIdx : Nat}

/-- The page's entry has the key of the page's first row. -/
def StartsWith (rows : List (InternalKey × Row)) (first : Nat) (entry : Bytes × PageLocation) :
    Prop :=
  ∃ pair, rows[first]? = some pair ∧ entry.1 = pair.1.encoded

theorem pageEntries_ok {pages : List PageLoc} {numRows : Int}
    (room : rowGroupStart + numRows.toNat ≤ rows.length)
    (inside : ∀ page ∈ pages, 0 ≤ page.firstRowIndex ∧ page.firstRowIndex < numRows ∧
      0 ≤ page.offset ∧ 0 ≤ page.compressedPageSize) :
    ∃ entries, pageEntries rows rgIdx rowGroupStart pages = .ok entries ∧
      List.Forall₂ (StartsWith rows)
        (pages.map fun page => rowGroupStart + page.firstRowIndex.toNat) entries := by
  induction pages with
  | nil => exact ⟨[], rfl, .nil⟩
  | cons page rest ih =>
    have here := inside page List.mem_cons_self
    obtain ⟨later, done, starts⟩ := ih fun page member =>
      inside page (List.mem_cons_of_mem _ member)
    have bound : rowGroupStart + page.firstRowIndex.toNat < rows.length := by omega
    have found := List.getElem?_eq_getElem bound
    have head : StartsWith rows (rowGroupStart + page.firstRowIndex.toNat)
        (rows[rowGroupStart + page.firstRowIndex.toNat].1.encoded,
          ⟨page.offset.toNat, page.compressedPageSize.toNat,
            rowGroupStart + page.firstRowIndex.toNat⟩) := ⟨_, found, rfl⟩
    refine ⟨_, ?_, .cons head starts⟩
    simp only [pageEntries, Except.seq_eq_ok, okIf_eq_ok]
    refine ⟨here.1, here.2.2.1, here.2.2.2, ?_⟩
    rw [found, done]
    rfl

theorem rowGroupEntries_ok (paged : ∀ group ∈ groups, group.Paged)
    (room : rowGroupStart + (groups.map fun group => group.numRows.toNat).sum = rows.length) :
    ∃ entries, rowGroupEntries rows rgIdx rowGroupStart groups = .ok entries ∧
      List.Forall₂ (StartsWith rows) (firstRows rowGroupStart groups) entries := by
  induction groups generalizing rgIdx rowGroupStart with
  | nil => exact ⟨[], rfl, .nil⟩
  | cons group rest ih =>
    have here := paged group List.mem_cons_self
    rw [List.map_cons, List.sum_cons] at room
    obtain ⟨pages, found⟩ : ∃ pages, group.columns.head? = some pages := by
      cases columns : group.columns with
      | nil => exact absurd columns here.indexed
      | cons pages _ => exact ⟨pages, rfl⟩
    have inside := here.inside
    rw [found, Option.getD_some] at inside
    obtain ⟨front, doneFront, startsFront⟩ :=
      @pageEntries_ok rows rowGroupStart rgIdx pages group.numRows (by omega) inside
    obtain ⟨later, doneLater, startsLater⟩ :=
      @ih (rowGroupStart + group.numRows.toNat) (rgIdx + 1)
        (fun group member => paged group (List.mem_cons_of_mem _ member)) (by omega)
    refine ⟨front ++ later, ?_, ?_⟩
    · have counted : okIf (0 ≤ group.numRows) (.corruption
          s!"negative num_rows {group.numRows} in row group {rgIdx}") = .ok () :=
        okIf_eq_ok.mpr here.counted
      simp only [rowGroupEntries, found, doneFront, doneLater, counted, Except.bind_ok]
      rfl
    · rw [firstRows, found, Option.getD_some]
      exact List.rel_append startsFront startsLater

section

variable (paged : ∀ group ∈ groups, group.Paged)
include paged

theorem firstRows_bound {first : Nat} (member : first ∈ firstRows rowGroupStart groups) :
    rowGroupStart ≤ first ∧
      first < rowGroupStart + (groups.map fun group => group.numRows.toNat).sum := by
  induction groups generalizing rowGroupStart with
  | nil => cases member
  | cons group rest ih =>
    have here := paged group List.mem_cons_self
    rw [List.map_cons, List.sum_cons]
    rcases List.mem_append.mp member with front | later
    · obtain ⟨page, inPages, rfl⟩ := List.mem_map.mp front
      have inside := here.inside page inPages
      omega
    · have bounds := ih (fun group member => paged group (List.mem_cons_of_mem _ member)) later
      omega

theorem firstRows_ascending :
    (firstRows rowGroupStart groups).Pairwise (· < ·) := by
  induction groups generalizing rowGroupStart with
  | nil => exact .nil
  | cons group rest ih =>
    have here := paged group List.mem_cons_self
    have others : ∀ group ∈ rest, group.Paged := fun group member =>
      paged group (List.mem_cons_of_mem _ member)
    refine List.pairwise_append.mpr ⟨?_, ih others, ?_⟩
    · refine List.pairwise_map.mpr (here.ascending.imp_of_mem ?_)
      intro a b inA inB less
      have insideA := here.inside a inA
      have insideB := here.inside b inB
      omega
    · intro a inFront b inLater
      obtain ⟨page, inPages, rfl⟩ := List.mem_map.mp inFront
      have inside := here.inside page inPages
      have bounds := firstRows_bound others inLater
      omega

theorem firstRows_begins (positive : 0 < (groups.map fun group => group.numRows.toNat).sum) :
    rowGroupStart ∈ firstRows rowGroupStart groups := by
  induction groups generalizing rowGroupStart with
  | nil => cases positive
  | cons group rest ih =>
    have here := paged group List.mem_cons_self
    rw [List.map_cons, List.sum_cons] at positive
    rw [firstRows, List.mem_append]
    by_cases filled : 0 < group.numRows
    · obtain ⟨page, head, zero⟩ := Option.map_eq_some_iff.mp (here.begins filled)
      refine .inl (List.mem_map.mpr ⟨page, List.mem_of_head? head, ?_⟩)
      rw [zero]
      rfl
    · have none : group.numRows.toNat = 0 := by omega
      rw [none, Nat.add_zero]
      exact .inr (ih (fun group member => paged group (List.mem_cons_of_mem _ member)) (by omega))

end

theorem starts_ascending {firsts : List Nat} {entries : List (Bytes × PageLocation)}
    (starts : List.Forall₂ (StartsWith rows) firsts entries) (ordered : firsts.Pairwise (· < ·))
    (ascending : rows.Pairwise fun a b => a.1.encoded < b.1.encoded) :
    (entries.map Prod.fst).Pairwise (· < ·) := by
  rw [List.pairwise_map]
  induction starts with
  | nil => exact .nil
  | cons here later ih =>
    obtain ⟨front, tail⟩ := List.pairwise_cons.mp ordered
    refine List.pairwise_cons.mpr ⟨?_, ih tail⟩
    intro entry member
    obtain ⟨first, inFirsts, pair, found, key⟩ := exists_left_of_forall₂ later entry member
    obtain ⟨pair', found', key'⟩ := here
    have less := front first inFirsts
    obtain ⟨inside, rfl⟩ := List.getElem?_eq_some_iff.mp found
    obtain ⟨inside', rfl⟩ := List.getElem?_eq_some_iff.mp found'
    rw [key, key']
    exact List.pairwise_iff_getElem.mp ascending _ _ inside' inside less

/-- With ascending keys a file is written exactly if the rows fit the schema and no page starts
with a key that is too long for the index. -/
theorem writeSortedRows_ok_iff {schema : TableSchema} {format : FileFormat}
    (covers : Covers groups rows.length) (fits : ∀ pair ∈ rows, pair.2.Fits schema)
    (ascending : rows.Pairwise fun a b => a.1.encoded < b.1.encoded) :
    (∃ file, writeSortedRows postcard rows schema format (some groups) = .ok file) ↔
      ∀ first ∈ firstRows 0 groups, ∀ pair, rows[first]? = some pair →
        pair.1.encoded.length ≤ KvIndex.maxKeyLen := by
  by_cases empty : rows = []
  · subst empty
    exact ⟨fun _ _ _ _ found => by simp at found, fun _ => ⟨_, rfl⟩⟩
  have built : rowsToRecordBatch postcard rows schema format = .ok _ :=
    rowsToRecordBatch_eq_ok.mpr ⟨rfl, fits⟩
  obtain ⟨entries, extracted, starts⟩ :=
    @rowGroupEntries_ok rows groups 0 0 covers.paged (by rw [Nat.zero_add]; exact covers.total)
  have keys := starts_ascending starts (firstRows_ascending covers.paged) ascending
  have written : (∃ file, writeSortedRows postcard rows schema format (some groups) = .ok file) ↔
      ∃ bytes, KvIndex.build entries KvIndex.defaultRestartInterval = .ok bytes := by
    simp only [writeSortedRows, if_neg empty, built, extractKvIndexEntries, extracted,
      Except.bind_ok]
    constructor
    · rintro ⟨file, done⟩
      obtain ⟨bytes, index, _⟩ := Except.bind_eq_ok.mp done
      exact ⟨bytes, index⟩
    · rintro ⟨bytes, index⟩
      exact ⟨_, Except.bind_eq_ok.mpr ⟨bytes, index, rfl⟩⟩
  rw [written, KvIndex.build_ok_iff]
  constructor
  · rintro ⟨short, _⟩ first member pair found
    obtain ⟨entry, inEntries, pair', found', key⟩ := exists_left_of_forall₂ starts.flip first member
    cases found.symm.trans found'
    exact key ▸ short entry inEntries
  · intro short
    refine ⟨fun entry member => ?_, keys⟩
    obtain ⟨first, inFirsts, pair, found, key⟩ := exists_left_of_forall₂ starts entry member
    exact key ▸ short first inFirsts pair found

end Pages

end Merutable
