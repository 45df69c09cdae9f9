import Mathlib.Data.Finset.Card
import Mathlib.Data.Finset.Range
import Mathlib.Data.List.TakeWhile
import Merutable.Iceberg
import Merutable.Reader

/-! `engine::dv_resolve`: the positions a flush marks as superseded in the files of a version. -/

namespace Merutable.DvResolve

open Reader

def fileOverlapsMemtable (ref : DataFileMeta) (low high : UserKey) : Bool :=
  if ref.file.keyMin = [] ∨ ref.file.keyMax = [] then false
  else !(ref.file.keyMax < low.bytes ∨ high.bytes < ref.file.keyMin)

/-- The merge of the file's keys with the sorted keys of the memtable. The cursor stays on a match,
so every version of the key is marked. -/
def markMatches (existing : Finset Nat) : List (UserKey × Nat) → List UserKey → Finset Nat
  | [], _ => ∅
  | (fileKey, position) :: rest, keys =>
    match keys.dropWhile (· < fileKey) with
    | [] => ∅
    | key :: others =>
      (if key = fileKey ∧ position ∉ existing then {position} else ∅) ∪
        markMatches existing rest (key :: others)

def resolveFile (lib : ParquetLib) (keys : List UserKey) (low high : UserKey)
    (ref : DataFileMeta) : Finset Nat :=
  if fileOverlapsMemtable ref low high = false then ∅
  else if ref.deletedRows.card = ref.file.numRows then ∅
  else
    let lo := max low.bytes ref.file.keyMin
    let hi := min high.bytes ref.file.keyMax
    markMatches ref.deletedRows (iterUserKeysInRange lib ref.file lo hi)
      (keys.dropWhile (·.bytes < lo))

def resolveDvForFlush (lib : ParquetLib) (keys : List UserKey) (version : Version) :
    List (Nat × Finset Nat) :=
  match keys.head?, keys.getLast? with
  | some low, some high =>
    ((List.range (version.maxLevel + 1)).flatMap version.filesAt).foldl (fun deltas ref =>
      let bitmap := resolveFile lib keys low high ref
      if bitmap = ∅ then deltas else SnapshotTransaction.addDv deltas ref.path bitmap) []
  | _, _ => []

section Cursor

theorem mem_dropWhile {A : Type} {passed : A → Bool} {keys : List A} {key : A}
    (ahead : passed key = false) : key ∈ keys.dropWhile passed ↔ key ∈ keys := by
  refine ⟨fun member => (List.dropWhile_suffix _).subset member, fun member => ?_⟩
  have parts := @List.takeWhile_append_dropWhile A passed keys
  rw [← parts] at member
  rcases List.mem_append.mp member with early | late
  · rw [List.mem_takeWhile_imp early] at ahead
    cases ahead
  · exact late

variable {A : Type} [LinearOrder A] [DecidableLT A] {keys : List A} {bound : A}

theorem head_dropWhile_eq_iff {head : A} {others : List A} (sorted : keys.Pairwise (· < ·))
    (cursor : keys.dropWhile (· < bound) = head :: others) : head = bound ↔ bound ∈ keys := by
  have survives : bound ∈ keys.dropWhile (· < bound) ↔ bound ∈ keys := mem_dropWhile (by simp)
  rw [← survives, cursor]
  constructor
  · rintro rfl
    exact List.mem_cons_self
  · intro member
    have above : bound ≤ head := by
      have stop := List.head?_dropWhile_not (p := (· < bound)) (l := keys)
      simpa [cursor] using stop
    have tail : (head :: others).Pairwise (· < ·) :=
      cursor ▸ sorted.sublist (List.dropWhile_suffix _).sublist
    rcases List.mem_cons.mp member with same | later
    · exact same.symm
    · exact absurd above (not_le.mpr ((List.pairwise_cons.mp tail).1 bound later))

end Cursor

variable {keys : List UserKey} {position : Nat} {items : List (UserKey × Nat)}
  {existing : Finset Nat} {lib : ParquetLib} {low high : UserKey} {ref : DataFileMeta}

theorem markMatches_sound (marked : position ∈ markMatches existing items keys) :
    ∃ key ∈ keys, (key, position) ∈ items := by
  induction items generalizing keys with
  | nil => simp [markMatches] at marked
  | cons item rest ih =>
    obtain ⟨fileKey, first⟩ := item
    simp only [markMatches] at marked
    cases cursor : keys.dropWhile (· < fileKey) with
    | nil => simp [cursor] at marked
    | cons key others =>
      have suffix : ∀ other ∈ key :: others, other ∈ keys := by
        intro other member
        rw [← cursor] at member
        exact (List.dropWhile_suffix _).subset member
      simp only [cursor, Finset.mem_union] at marked
      rcases marked with here | later
      · split at here
        · rename_i matched
          rw [Finset.mem_singleton.mp here]
          exact ⟨key, suffix key List.mem_cons_self, by simp [matched.1]⟩
        · simp at here
      · obtain ⟨other, member, listed⟩ := ih later
        exact ⟨other, suffix other member, List.mem_cons_of_mem _ listed⟩

theorem markMatches_complete (itemsSorted : items.Pairwise fun a b => a.1 ≤ b.1)
    (keysSorted : keys.Pairwise (· < ·)) {key : UserKey} (listed : (key, position) ∈ items)
    (member : key ∈ keys) (fresh : position ∉ existing) :
    position ∈ markMatches existing items keys := by
  induction items generalizing keys with
  | nil => cases listed
  | cons item rest ih =>
    obtain ⟨fileKey, first⟩ := item
    obtain ⟨front, tail⟩ := List.pairwise_cons.mp itemsSorted
    have reached : fileKey ≤ key := by
      rcases List.mem_cons.mp listed with same | later
      · exact (congrArg Prod.fst same).symm.le
      · exact front _ later
    have survives : key ∈ keys.dropWhile (· < fileKey) :=
      (mem_dropWhile (by simpa using reached)).mpr member
    have sorted : (keys.dropWhile (· < fileKey)).Pairwise (· < ·) :=
      keysSorted.sublist (List.dropWhile_suffix _).sublist
    simp only [markMatches]
    cases cursor : keys.dropWhile (· < fileKey) with
    | nil => simp [cursor] at survives
    | cons head others =>
      rw [cursor] at survives sorted
      simp only [Finset.mem_union]
      rcases List.mem_cons.mp listed with same | later
      · left
        injection same with sameKey samePosition
        subst sameKey samePosition
        simp [(head_dropWhile_eq_iff keysSorted cursor).mpr member, fresh]
      · right
        exact ih tail sorted later survives

theorem resolveFile_sound (marked : position ∈ resolveFile lib keys low high ref) :
    ∃ row, ref.file.rows[position]? = some row ∧ row.key ∈ keys := by
  unfold resolveFile at marked
  split at marked
  · simp at marked
  · split at marked
    · simp at marked
    · obtain ⟨key, member, listed⟩ := markMatches_sound marked
      obtain ⟨row, found, rfl⟩ := Option.map_eq_some_iff.mp (iterUserKeysInRange_sound listed).1
      exact ⟨row, found, (List.dropWhile_suffix _).subset member⟩

theorem resolveFile_complete (unique : ref.file.rows.Pairwise fun a b => a.key < b.key)
    (bounded : ∀ position ∈ ref.deletedRows, position < ref.file.rows.length)
    (sorted : keys.Pairwise (· < ·)) (lowest : ∀ key ∈ keys, low ≤ key)
    (highest : ∀ key ∈ keys, key ≤ high) {row : Entry} (found : ref.file.rows[position]? = some row)
    (member : row.key ∈ keys) :
    position ∈ ref.deletedRows ∪ resolveFile lib keys low high ref := by
  rw [Finset.mem_union]
  by_cases masked : position ∈ ref.deletedRows
  · exact .inl masked
  right
  have present := List.mem_of_getElem? found
  have above := lowest _ member
  have below := highest _ member
  have overlaps : ¬ fileOverlapsMemtable ref low high = false := by
    have left := le_trans (DataFile.keyMin_le present) (UserKey.bytes_le.mpr below)
    have right := le_trans (UserKey.bytes_le.mpr above) (DataFile.le_keyMax present)
    simp [fileOverlapsMemtable, ref.file.keyMin_ne_nil, ref.file.keyMax_ne_nil, not_lt.mpr left,
      not_lt.mpr right]
  have partly : ¬ ref.deletedRows.card = ref.file.numRows := by
    intro full
    have subset : ref.deletedRows ⊆ Finset.range ref.file.rows.length := fun other inside =>
      Finset.mem_range.mpr (bounded other inside)
    have all := Finset.eq_of_subset_of_card_le subset (by
      rw [Finset.card_range, full, DataFile.numRows])
    apply masked
    rw [all, Finset.mem_range]
    exact (List.getElem?_eq_some_iff.mp found).1
  unfold resolveFile
  rw [if_neg overlaps, if_neg partly]
  have lower : max low.bytes ref.file.keyMin ≤ row.key.bytes :=
    max_le (UserKey.bytes_le.mpr above) (DataFile.keyMin_le present)
  have upper : row.key.bytes ≤ min high.bytes ref.file.keyMax :=
    le_min (UserKey.bytes_le.mpr below) (DataFile.le_keyMax present)
  have inCursor : row.key ∈ keys.dropWhile (·.bytes < max low.bytes ref.file.keyMin) :=
    (mem_dropWhile (by simpa using lower)).mpr member
  exact markMatches_complete (iterUserKeysInRange_ascending lib ref.file _ _)
    (sorted.sublist (List.dropWhile_suffix _).sublist)
    (iterUserKeysInRange_complete unique found ⟨lower, upper⟩) inCursor masked

theorem lookup_addDv_self (deltas : List (Nat × Finset Nat)) (path : Nat) (bitmap : Finset Nat) :
    (SnapshotTransaction.addDv deltas path bitmap).lookup path =
      some ((deltas.lookup path).getD ∅ ∪ bitmap) := by
  induction deltas with
  | nil => simp [SnapshotTransaction.addDv]
  | cons delta rest ih =>
    obtain ⟨known, old⟩ := delta
    rw [SnapshotTransaction.addDv]
    by_cases here : known = path
    · simp [here]
    · have other : (path == known) = false := beq_eq_false_iff_ne.mpr (Ne.symm here)
      simp [here, List.lookup_cons, other, ih]

theorem lookup_addDv_other (deltas : List (Nat × Finset Nat)) {path other : Nat}
    (bitmap : Finset Nat) (different : other ≠ path) :
    (SnapshotTransaction.addDv deltas path bitmap).lookup other = deltas.lookup other := by
  have apart : (other == path) = false := beq_eq_false_iff_ne.mpr different
  induction deltas with
  | nil => simp [SnapshotTransaction.addDv, List.lookup_cons, apart]
  | cons delta rest ih =>
    obtain ⟨known, old⟩ := delta
    rw [SnapshotTransaction.addDv]
    split
    · rename_i here
      simp [List.lookup_cons, here, apart]
    · simp [List.lookup_cons, ih]

theorem lookup_addDv (deltas : List (Nat × Finset Nat)) (path other : Nat) (bitmap : Finset Nat) :
    ((SnapshotTransaction.addDv deltas path bitmap).lookup other).getD ∅ =
      (deltas.lookup other).getD ∅ ∪ if other = path then bitmap else ∅ := by
  by_cases same : other = path
  · rw [same, lookup_addDv_self, if_pos rfl, Option.getD_some]
  · rw [lookup_addDv_other deltas bitmap same, if_neg same, Finset.union_empty]

theorem mem_foldl_addDv (resolve : DataFileMeta → Finset Nat) (refs : List DataFileMeta)
    (deltas : List (Nat × Finset Nat)) (path position : Nat) :
    position ∈ ((refs.foldl (fun deltas ref =>
        let bitmap := resolve ref
        if bitmap = ∅ then deltas else SnapshotTransaction.addDv deltas ref.path bitmap)
          deltas).lookup path).getD ∅ ↔
      position ∈ (deltas.lookup path).getD ∅ ∨
        ∃ ref ∈ refs, ref.path = path ∧ position ∈ resolve ref := by
  induction refs generalizing deltas with
  | nil => simp
  | cons ref rest ih =>
    rw [List.foldl_cons, ih]
    simp only [List.mem_cons, exists_eq_or_imp]
    split
    · rename_i empty
      simp [empty]
    · rw [lookup_addDv, Finset.mem_union]
      by_cases same : path = ref.path
      · simp [same, or_assoc]
      · simp [same, Ne.symm same]

theorem mem_resolveDvForFlush {version : Version} {path position : Nat} :
    position ∈ ((resolveDvForFlush lib keys version).lookup path).getD ∅ ↔
      ∃ low high, keys.head? = some low ∧ keys.getLast? = some high ∧
        ∃ ref ∈ version.files, ref.path = path ∧ position ∈ resolveFile lib keys low high ref := by
  unfold resolveDvForFlush
  cases keys.head? with
  | none => simp
  | some low =>
    cases keys.getLast? with
    | none => simp
    | some high =>
      have listed : ∀ ref, ref ∈ (List.range (version.maxLevel + 1)).flatMap version.filesAt ↔
          ref ∈ version.files := by
        intro ref
        simp only [List.mem_flatMap, List.mem_range, Version.mem_filesAt]
        constructor
        · rintro ⟨_, _, present, _⟩
          exact present
        · intro present
          exact ⟨ref.level, Nat.lt_succ_of_le (Version.level_le_maxLevel present), present, rfl⟩
      have fold := mem_foldl_addDv (resolveFile lib keys low high)
        ((List.range (version.maxLevel + 1)).flatMap version.filesAt) [] path position
      simp only [listed] at fold
      simpa using fold

end Merutable.DvResolve
