import Mathlib.Order.Bounds.Defs
import Merutable.Engine.Compaction

/-! The split of the compaction output into chunks: `OutputChunk` and its loop in
`engine::compaction::job`. -/

namespace Merutable.Compaction

/-- The rows of one output file, with the bounds and the size kept while they are added. -/
structure OutputChunk where
  rows : List Entry
  seqMin : Nat
  seqMax : Nat
  keyMin : Bytes
  keyMax : Bytes
  approxBytes : Nat
  lastUserKey : Bytes

namespace OutputChunk

def empty : OutputChunk := ⟨[], u64Max, 0, [], [], 0, []⟩

def push (chunk : OutputChunk) (entry : Entry) (estBytes : Nat) : OutputChunk where
  rows := chunk.rows ++ [entry]
  seqMin := if entry.seq < chunk.seqMin then entry.seq else chunk.seqMin
  seqMax := if chunk.seqMax < entry.seq then entry.seq else chunk.seqMax
  keyMin := if chunk.keyMin = [] ∨ entry.key.bytes < chunk.keyMin then entry.key.bytes
    else chunk.keyMin
  keyMax := if chunk.keyMax < entry.key.bytes then entry.key.bytes else chunk.keyMax
  approxBytes := saturatingAdd chunk.approxBytes estBytes
  lastUserKey := entry.key.bytes

end OutputChunk

/-- The loop over the iterator, `current` being the open chunk. -/
def splitFrom (estimate : Entry → Nat) (current : OutputChunk) : List Entry → List OutputChunk
  | [] => if current.rows = [] then [] else [current]
  | entry :: rest =>
    if current.rows ≠ [] ∧
        targetOutputFileBytes < saturatingAdd current.approxBytes (estimate entry) ∧
        current.lastUserKey ≠ entry.key.bytes then
      current :: splitFrom estimate (OutputChunk.empty.push entry (estimate entry)) rest
    else splitFrom estimate (current.push entry (estimate entry)) rest

def outputChunks (estimate : Entry → Nat) (stream : List Entry) : List OutputChunk :=
  splitFrom estimate .empty stream

/-- The bounds of the chunk are those of its rows. -/
structure OutputChunk.Bounds (chunk : OutputChunk) : Prop where
  keyMin : IsLeast {key | ∃ row ∈ chunk.rows, row.key.bytes = key} chunk.keyMin
  keyMax : IsGreatest {key | ∃ row ∈ chunk.rows, row.key.bytes = key} chunk.keyMax
  seqMin : IsLeast {seq | ∃ row ∈ chunk.rows, row.seq = seq} chunk.seqMin
  seqMax : IsGreatest {seq | ∃ row ∈ chunk.rows, row.seq = seq} chunk.seqMax

/-- One key only, or the rows through the first one of the last key stay within the target. -/
def WithinTarget (estimate : Entry → Nat) (rows : List Entry) : Prop :=
  (∀ a ∈ rows, ∀ b ∈ rows, a.key = b.key) ∨
    ∃ before row after, rows = before ++ row :: after ∧ (∀ other ∈ before, other.key ≠ row.key) ∧
      (∀ other ∈ after, other.key = row.key) ∧
      ((before ++ [row]).map estimate).sum ≤ targetOutputFileBytes

section Loop

variable {estimate : Entry → Nat} {chunk : OutputChunk} {entry : Entry} {current : OutputChunk}
  {entries : List Entry}

/-- What holds of the open chunk: no row yet, or bounds, size and last key are those of its rows. -/
structure OutputChunk.Accurate (estimate : Entry → Nat) (chunk : OutputChunk) : Prop where
  fresh : chunk.rows = [] → chunk = .empty
  bounds : chunk.rows ≠ [] → chunk.Bounds
  approx : chunk.approxBytes = min (chunk.rows.map estimate).sum u64Max
  last : chunk.rows ≠ [] → chunk.rows.getLast?.map (fun row => row.key.bytes) =
    some chunk.lastUserKey

theorem OutputChunk.empty_accurate : Accurate estimate .empty where
  fresh _ := rfl
  bounds nonempty := absurd rfl nonempty
  approx := rfl
  last nonempty := absurd rfl nonempty

theorem isLeast_insert {A : Type} [LinearOrder A] [DecidableLT A] {key : Entry → A}
    {rows : List Entry} {low : A}
    (least : IsLeast {value | ∃ row ∈ rows, key row = value} low) (entry : Entry) :
    IsLeast {value | ∃ row ∈ rows ++ [entry], key row = value}
      (if key entry < low then key entry else low) := by
  obtain ⟨⟨row, member, attained⟩, lower⟩ := least
  split
  · rename_i less
    refine ⟨⟨entry, by simp, rfl⟩, ?_⟩
    rintro value ⟨other, listed, rfl⟩
    rcases List.mem_append.mp listed with old | new
    · exact le_trans less.le (lower ⟨other, old, rfl⟩)
    · rw [List.mem_singleton.mp new]
  · rename_i above
    refine ⟨⟨row, List.mem_append_left _ member, attained⟩, ?_⟩
    rintro value ⟨other, listed, rfl⟩
    rcases List.mem_append.mp listed with old | new
    · exact lower ⟨other, old, rfl⟩
    · rw [List.mem_singleton.mp new]
      exact not_lt.mp above

theorem isGreatest_insert {A : Type} [LinearOrder A] [decided : DecidableLT A] {key : Entry → A}
    {rows : List Entry} {high : A}
    (greatest : IsGreatest {value | ∃ row ∈ rows, key row = value} high) (entry : Entry) :
    IsGreatest {value | ∃ row ∈ rows ++ [entry], key row = value}
      (if high < key entry then key entry else high) :=
  @isLeast_insert Aᵒᵈ _ (fun a b => decided b a) key rows high greatest entry

theorem OutputChunk.bounds_single (fits : entry.seq ≤ u64Max) (estBytes : Nat) :
    (OutputChunk.empty.push entry estBytes).Bounds := by
  have low : (empty.push entry estBytes).seqMin = entry.seq := by
    change (if entry.seq < u64Max then entry.seq else u64Max) = entry.seq
    split <;> omega
  have high : (empty.push entry estBytes).seqMax = entry.seq := by
    change (if 0 < entry.seq then entry.seq else 0) = entry.seq
    split <;> omega
  have first : ([] : Bytes) < entry.key.bytes := by
    obtain ⟨byte, rest, same⟩ := List.exists_cons_of_ne_nil entry.key.nonempty
    rw [same]
    exact List.nil_lt_cons byte rest
  constructor
  · simp [push, empty, IsLeast, lowerBounds]
  · simp [push, empty, first, IsGreatest, upperBounds]
  · rw [low]
    simp [push, empty, IsLeast, lowerBounds]
  · rw [high]
    simp [push, empty, IsGreatest, upperBounds]

theorem OutputChunk.Bounds.push (bounds : chunk.Bounds) (estBytes : Nat) :
    (chunk.push entry estBytes).Bounds where
  keyMin := by
    obtain ⟨row, _, attained⟩ := bounds.keyMin.1
    have present : chunk.keyMin ≠ [] := attained ▸ row.key.nonempty
    have least := isLeast_insert bounds.keyMin entry
    simpa only [OutputChunk.push, present, false_or] using least
  keyMax := isGreatest_insert bounds.keyMax entry
  seqMin := isLeast_insert bounds.seqMin entry
  seqMax := isGreatest_insert bounds.seqMax entry

theorem OutputChunk.Accurate.push (accurate : chunk.Accurate estimate) (fits : entry.seq ≤ u64Max) :
    (chunk.push entry (estimate entry)).Accurate estimate where
  fresh none := by simp [OutputChunk.push] at none
  bounds _ := by
    by_cases first : chunk.rows = []
    · rw [accurate.fresh first]
      exact bounds_single fits _
    · exact (accurate.bounds first).push _
  approx := by
    simp only [OutputChunk.push, saturatingAdd, accurate.approx, List.map_append, List.map_cons,
      List.map_nil, List.sum_append, List.sum_singleton]
    omega
  last _ := by simp [OutputChunk.push]

theorem OutputChunk.Accurate.lastUserKey_ne (accurate : chunk.Accurate estimate)
    (nonempty : chunk.rows ≠ []) : chunk.lastUserKey ≠ entry.key.bytes ↔
      chunk.rows.getLast?.map Entry.key ≠ some entry.key := by
  have last := accurate.last nonempty
  rw [List.getLast?_eq_getLast_of_ne_nil nonempty, Option.map_some, Option.some.injEq] at last
  rw [List.getLast?_eq_getLast_of_ne_nil nonempty, Option.map_some, ← last, ne_eq, ne_eq,
    Option.some.injEq]
  exact not_congr ⟨UserKey.eq_of_bytes, congrArg UserKey.bytes⟩

theorem target_lt_saturatingAdd (sum est : Nat) :
    targetOutputFileBytes < saturatingAdd (min sum u64Max) est ↔ targetOutputFileBytes <
      sum + est := by
  have room : targetOutputFileBytes < u64Max := by decide
  unfold saturatingAdd
  omega

theorem withinTarget_push {rest : List Entry} (accurate : chunk.Accurate estimate)
    (order : (chunk.rows ++ entry :: rest).Pairwise fun a b => a.key ≤ b.key)
    (within : WithinTarget estimate chunk.rows)
    (open' : ¬ (chunk.rows ≠ [] ∧
      targetOutputFileBytes < saturatingAdd chunk.approxBytes (estimate entry) ∧
      chunk.lastUserKey ≠ entry.key.bytes)) :
    WithinTarget estimate (chunk.rows ++ [entry]) := by
  by_cases first : chunk.rows = []
  · left
    simp [first]
  · have last := accurate.last first
    obtain ⟨final, isLast⟩ : ∃ final, chunk.rows.getLast? = some final :=
      ⟨_, List.getLast?_eq_getLast_of_ne_nil first⟩
    rw [isLast, Option.map_some, Option.some.injEq] at last
    have finalIn := List.mem_of_getLast? isLast
    by_cases change : final.key = entry.key
    · rcases within with single | ⟨before, row, after, split, apart, same, small⟩
      · left
        have all : ∀ a ∈ chunk.rows ++ [entry], a.key = entry.key := by
          intro a member
          rcases List.mem_append.mp member with old | new
          · exact (single a old final finalIn).trans change
          · rw [List.mem_singleton.mp new]
        intro a firstIn b secondIn
        exact (all a firstIn).trans (all b secondIn).symm
      · right
        have lastKey : final.key = row.key := by
          rw [split] at isLast
          have inTail : final ∈ row :: after := List.mem_of_getLast? (by simpa using isLast)
          rcases List.mem_cons.mp inTail with rfl | later
          · rfl
          · exact same final later
        refine ⟨before, row, after ++ [entry], by simp [split], apart, ?_, small⟩
        intro other member
        rcases List.mem_append.mp member with old | new
        · exact same other old
        · rw [List.mem_singleton.mp new, ← change, lastKey]
    · right
      have newKey : chunk.lastUserKey ≠ entry.key.bytes := by
        rw [← last]
        intro same
        exact change (UserKey.eq_of_bytes same)
      have room : (chunk.rows.map estimate).sum + estimate entry ≤ targetOutputFileBytes := by
        by_contra full
        rw [accurate.approx, target_lt_saturatingAdd] at open'
        exact open' ⟨first, by omega, newKey⟩
      have below := keys_below order (by simpa [isLast] using change)
      refine ⟨chunk.rows, entry, [], rfl, fun other member => (below other member).ne, by simp, ?_⟩
      simpa using room

theorem splitFrom_spec (accurate : current.Accurate estimate)
    (within : WithinTarget estimate current.rows)
    (order : (current.rows ++ entries).Pairwise fun a b => a.key ≤ b.key)
    (fits : ∀ entry ∈ entries, entry.seq ≤ u64Max) :
    ∀ chunk ∈ splitFrom estimate current entries,
      chunk.rows ≠ [] ∧ chunk.Bounds ∧ WithinTarget estimate chunk.rows := by
  induction entries generalizing current with
  | nil =>
    rw [splitFrom]
    split
    · simp
    · rename_i nonempty
      intro chunk member
      rw [List.mem_singleton.mp member]
      exact ⟨nonempty, accurate.bounds nonempty, within⟩
  | cons entry rest ih =>
    have here := fits entry List.mem_cons_self
    have later := fun entry member => fits entry (List.mem_cons_of_mem _ member)
    rw [splitFrom]
    split
    · rename_i full
      intro chunk member
      rcases List.mem_cons.mp member with rfl | others
      · exact ⟨full.1, accurate.bounds full.1, within⟩
      · refine ih (OutputChunk.empty_accurate.push here) ?_ (List.pairwise_append.mp order).2.1
          later chunk others
        left
        simp [OutputChunk.push, OutputChunk.empty]
    · rename_i open'
      apply ih (accurate.push here) (withinTarget_push accurate order within open') ?_ later
      simpa [OutputChunk.push] using order

/-- The rows of the chunks are those of the loop that keeps no bounds. -/
theorem splitFrom_rows (accurate : current.Accurate estimate)
    (fits : ∀ entry ∈ entries, entry.seq ≤ u64Max) :
    (splitFrom estimate current entries).map OutputChunk.rows =
      chunksFrom estimate current.rows (current.rows.map estimate).sum entries := by
  induction entries generalizing current with
  | nil =>
    rw [splitFrom, chunksFrom]
    split <;> rfl
  | cons entry rest ih =>
    have here := fits entry List.mem_cons_self
    have later := fun entry member => fits entry (List.mem_cons_of_mem _ member)
    have cut : (current.rows ≠ [] ∧
        targetOutputFileBytes < saturatingAdd current.approxBytes (estimate entry) ∧
        current.lastUserKey ≠ entry.key.bytes) ↔ (current.rows ≠ [] ∧ targetOutputFileBytes <
          (current.rows.map estimate).sum + estimate entry ∧
        current.rows.getLast?.map Entry.key ≠ some entry.key) := by
      rw [accurate.approx, target_lt_saturatingAdd]
      exact and_congr_right fun nonempty =>
        and_congr_right fun _ => accurate.lastUserKey_ne nonempty
    have single := ih (OutputChunk.empty_accurate.push here) later
    have longer := ih (accurate.push here) later
    rw [splitFrom, chunksFrom]
    by_cases full : current.rows ≠ [] ∧
        targetOutputFileBytes < saturatingAdd current.approxBytes (estimate entry) ∧
        current.lastUserKey ≠ entry.key.bytes
    · rw [if_pos full, if_pos (cut.mp full), List.map_cons, single]
      simp [OutputChunk.push, OutputChunk.empty]
    · rw [if_neg full, if_neg fun closed => full (cut.mpr closed), longer]
      simp [OutputChunk.push]

theorem outputChunks_rows {config : Config} {plan : JobPlan} {readSeq : Nat}
    (fits : ∀ entry ∈ mergedRows config plan readSeq, entry.seq ≤ u64Max) :
    (outputChunks Compaction.estimate (mergedRows config plan readSeq)).map OutputChunk.rows =
      chunks config plan readSeq :=
  splitFrom_rows OutputChunk.empty_accurate fits

end Loop

/-- The chunks are the stream cut between keys, each with exact bounds and within the target. -/
theorem output_chunks_exact (estimate : Entry → Nat) (fileEntries : List (List Entry))
    (oldest : Nat)
    (drop : Bool) (fits : ∀ entries ∈ fileEntries, ∀ entry ∈ entries, entry.seq ≤ u64Max) :
    (outputChunks estimate (iterator fileEntries oldest drop)).flatMap OutputChunk.rows =
        iterator fileEntries oldest drop ∧
      (outputChunks estimate (iterator fileEntries oldest drop)).Pairwise (fun early late =>
        (∀ a ∈ early.rows, ∀ b ∈ late.rows, a.key ≠ b.key) ∧ early.keyMax < late.keyMin) ∧
      ∀ chunk ∈ outputChunks estimate (iterator fileEntries oldest drop),
        chunk.Bounds ∧ WithinTarget estimate chunk.rows := by
  have sorted : (iterator fileEntries oldest drop).Pairwise Entry.ikeyLe :=
    (Entry.sort_sorted _).sublist (dedupe_sublist _ _ _ _)
  have order : (OutputChunk.empty.rows ++ iterator fileEntries oldest drop).Pairwise
      fun a b => a.key ≤ b.key := sorted.imp fun ordered => ordered.versionOrder.key_le
  have small : ∀ entry ∈ iterator fileEntries oldest drop, entry.seq ≤ u64Max := by
    intro entry member
    have listed := (dedupe_sublist _ _ _ _).subset member
    rw [Entry.mem_sort, List.mem_flatten] at listed
    obtain ⟨entries, file, inFile⟩ := listed
    exact fits entries file entry inFile
  have closed := splitFrom_spec (@OutputChunk.empty_accurate estimate)
    (.inl (by simp [OutputChunk.empty])) order small
  have rows := splitFrom_rows (@OutputChunk.empty_accurate estimate) small
  have ascending := @chunksFrom_ascending estimate _ _ 0 order
  refine ⟨?_, ?_, fun chunk member => (closed chunk member).2⟩
  · rw [outputChunks, List.flatMap_def, rows, chunksFrom_flatten]
    rfl
  rw [show 0 = (OutputChunk.empty.rows.map estimate).sum from rfl, ← rows,
    List.pairwise_map] at ascending
  refine ascending.imp_of_mem ?_
  intro early late first second ascending
  refine ⟨fun a inEarly b inLate => (ascending a inEarly b inLate).ne, ?_⟩
  obtain ⟨a, inEarly, high⟩ := (closed early first).2.1.keyMax.1
  obtain ⟨b, inLate, low⟩ := (closed late second).2.1.keyMin.1
  rw [← high, ← low]
  exact ascending a inEarly b inLate

/-- Two files with versions of one key and a row of another one. -/
def sampleFiles : List (List Entry) :=
  [[⟨⟨[7], by decide⟩, 3, .put ⟨[]⟩⟩], [⟨⟨[7], by decide⟩, 8, .delete none⟩,
    ⟨⟨[9], by decide⟩, 4, .put ⟨[]⟩⟩]]

/-- Every row is estimated as large as a file: the output is cut between the two keys. -/
theorem output_chunks_exact_sample :
    let chunks := outputChunks (fun _ => targetOutputFileBytes) (iterator sampleFiles 2 false)
    chunks.length = 2 ∧ chunks.flatMap OutputChunk.rows = iterator sampleFiles 2 false ∧
      chunks.Pairwise (fun early late =>
        (∀ a ∈ early.rows, ∀ b ∈ late.rows, a.key ≠ b.key) ∧ early.keyMax < late.keyMin) ∧
      ∀ chunk ∈ chunks, chunk.Bounds ∧
        WithinTarget (fun _ => targetOutputFileBytes) chunk.rows :=
  ⟨by decide +kernel, output_chunks_exact (fun _ => targetOutputFileBytes) sampleFiles 2 false
    (by decide)⟩

end Merutable.Compaction
