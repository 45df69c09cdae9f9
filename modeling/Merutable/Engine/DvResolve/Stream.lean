import Mathlib.Order.Bounds.Defs
import Merutable.Engine.DvResolve
import Merutable.Schema

/-! `resolve_dv_for_flush` over the manifest entries, the deletion vectors on disk and the key
streams of the files, with the errors of each. -/

namespace Merutable.DvResolve.Stream

open TableSchema (u32Max)

/-- What the resolver reads of the entry of a file. -/
structure FileMeta where
  path : Nat
  keyMin : Bytes
  keyMax : Bytes
  numRows : Nat
  dvPath : Option Nat
  dvOffset : Option Int
  dvLength : Option Int

/-- The files under the base path, and what their formats make of them. -/
structure Storage where
  read : Nat → Except MeruError Bytes
  fromPuffinBlob : Bytes → Except MeruError (Finset Nat)
  iterUserKeysInRange : Nat → Bytes → Bytes →
    Except MeruError (List (Except MeruError (Bytes × Nat)))

structure Levels where
  levels : List (Nat × List FileMeta)

namespace Levels

def filesAt (version : Levels) (level : Nat) : List FileMeta :=
  (version.levels.lookup level).getD []

def maxLevel (version : Levels) : Nat :=
  version.levels.foldl (fun most level => max most level.1) 0

def Lists (version : Levels) (file : FileMeta) : Prop := ∃ level, file ∈ version.filesAt level

end Levels

def debugOption {A : Type} [ToString A] : Option A → String
  | none => "None"
  | some value => s!"Some({value})"

def loadExistingDv (storage : Storage) (file : FileMeta) : Except MeruError (Option (Finset Nat)) :=
  let name := file.path
  match file.dvPath, file.dvOffset, file.dvLength with
  | some path, some offset, some length =>
    if offset < 0 ∨ length < 0 then
      .error (.corruption
        s!"DV has negative offset ({offset}) or length ({length}) on file {name}")
    else do
      let bytes ← storage.read path
      let stop := offset.toNat + length.toNat
      let available := bytes.length
      if available < stop then
        .error (.corruption
          s!"DV blob out of range on file {name}: end={stop} puffin_len={available}")
      else
        let dv ← storage.fromPuffinBlob ((bytes.drop offset.toNat).take length.toNat)
        return some dv
  | none, none, none => .ok none
  | path, offset, length =>
    let path := debugOption path
    let offset := debugOption offset
    let length := debugOption length
    .error (.corruption
      (s!"inconsistent DV coords on file {name}: dv_path={path} " ++
        s!"dv_offset={offset} dv_length={length}"))

def fileOverlapsMemtable (file : FileMeta) (low high : Bytes) : Bool :=
  if file.keyMin = [] ∨ file.keyMax = [] then false
  else !(file.keyMax < low ∨ high < file.keyMin)

/-- The merge of the stream with the keys from the cursor on. -/
def markMatches (path : Nat) (existing : Option (Finset Nat)) :
    Finset Nat → List (Except MeruError (Bytes × Nat)) → List Bytes → Except MeruError (Finset Nat)
  | bitmap, [], _ => .ok bitmap
  | bitmap, item :: rest, keys => do
      let (fileKey, position) ← item
      match keys.dropWhile (· < fileKey) with
      | [] => return bitmap
      | key :: others =>
        if key = fileKey then
          if u32Max < position then
            .error (.corruption s!"row position {position} exceeds u32::MAX in file {path}")
          else if existing.any (position ∈ ·) then
            markMatches path existing bitmap rest (key :: others)
          else markMatches path existing (insert position bitmap) rest (key :: others)
        else markMatches path existing bitmap rest (key :: others)

section Resolver

variable (storage : Storage) (keys : List Bytes) (low high : Bytes)

def resolveFile (file : FileMeta) : Except MeruError (Finset Nat) :=
  if fileOverlapsMemtable file low high = false then .ok ∅
  else do
    let lo := max low file.keyMin
    let hi := min high file.keyMax
    let existing ← loadExistingDv storage file
    if existing.any (fun dv => dv.card = file.numRows) then return ∅
    else
      let items ← storage.iterUserKeysInRange file.path lo hi
      markMatches file.path existing ∅ items (keys.dropWhile (· < lo))

def resolveFiles : List (Nat × Finset Nat) → List FileMeta →
    Except MeruError (List (Nat × Finset Nat))
  | deltas, [] => .ok deltas
  | deltas, file :: rest => do
      let bitmap ← resolveFile storage keys low high file
      resolveFiles
        (if bitmap = ∅ then deltas else SnapshotTransaction.addDv deltas file.path bitmap) rest

end Resolver

def resolveDvForFlush (storage : Storage) (keys : List Bytes) (version : Levels) :
    Except MeruError (List (Nat × Finset Nat)) :=
  match keys.head?, keys.getLast? with
  | some low, some high => resolveFiles storage keys low high []
      ((List.range (version.maxLevel + 1)).flatMap version.filesAt)
  | _, _ => .ok []

/-- The file has these keys, row by row, and these rows are masked already. -/
structure Exact (storage : Storage) (file : FileMeta) (rows : List Bytes) (masked : Finset Nat) :
    Prop where
  sorted : rows.Pairwise (· ≤ ·)
  iterated : ∀ lo hi, storage.iterUserKeysInRange file.path lo hi =
    .ok ((rows.zipIdx.filter fun item => lo ≤ item.1 ∧ item.1 ≤ hi).map .ok)
  keyMin : IsLeast {key | key ∈ rows} file.keyMin
  keyMax : IsGreatest {key | key ∈ rows} file.keyMax
  bounds_ne : file.keyMin ≠ [] ∧ file.keyMax ≠ []
  count : file.numRows = rows.length
  loaded : ∃ existing, loadExistingDv storage file = .ok existing ∧ existing.getD ∅ = masked
  bounded : ∀ position ∈ masked, position < file.numRows ∧ position ≤ u32Max

/-- The row has a key of the list and is not masked. -/
def Fresh (keys : List Bytes) (contents : List Bytes × Finset Nat) (position : Nat) : Prop :=
  (∃ key ∈ keys, contents.1[position]? = some key) ∧ position ∉ contents.2

section Merge

variable {path : Nat} {existing : Option (Finset Nat)} {bitmap : Finset Nat}
  {pairs : List (Bytes × Nat)} {keys : List Bytes}

theorem markMatches_cons {fileKey : Bytes} {position : Nat} (keysSorted : keys.Pairwise (· < ·)) :
    markMatches path existing bitmap (((fileKey, position) :: pairs).map .ok) keys =
      if keys.dropWhile (· < fileKey) = [] then .ok bitmap
      else if fileKey ∈ keys then
        if u32Max < position then
          .error (.corruption s!"row position {position} exceeds u32::MAX in file {path}")
        else markMatches path existing
          (if position ∈ existing.getD ∅ then bitmap else insert position bitmap)
          (pairs.map .ok) (keys.dropWhile (· < fileKey))
      else markMatches path existing bitmap (pairs.map .ok) (keys.dropWhile (· < fileKey)) := by
  have known : existing.any (position ∈ ·) = true ↔ position ∈ existing.getD ∅ := by
    cases existing <;> simp
  rw [List.map_cons, markMatches]
  cases cursor : keys.dropWhile (· < fileKey) with
  | nil => simp [cursor, pure, Except.pure, bind, Except.bind]
  | cons key others =>
    have onKey := head_dropWhile_eq_iff keysSorted cursor
    simp only [bind, Except.bind, cursor, onKey, known, reduceCtorEq, if_false]
    split
    · split
      · rfl
      · split <;> rfl
    · rfl

theorem mem_cursor {fileKey key : Bytes} {first position : Nat}
    (order : (((fileKey, first) :: pairs).map Prod.fst).Pairwise (· ≤ ·))
    (listed : (key, position) ∈ (fileKey, first) :: pairs) :
    key ∈ keys.dropWhile (· < fileKey) ↔ key ∈ keys := by
  have reached : fileKey ≤ key := by
    rcases List.mem_cons.mp listed with same | later
    · exact (congrArg Prod.fst same).ge
    · exact (List.pairwise_cons.mp order).1 key (List.mem_map_of_mem later)
  exact mem_dropWhile (by simpa using reached)

theorem markMatches_spec (pairsSorted : (pairs.map Prod.fst).Pairwise (· ≤ ·))
    (keysSorted : keys.Pairwise (· < ·))
    (small : ∀ pair ∈ pairs, pair.1 ∈ keys → pair.2 ≤ u32Max) :
    ∃ marked, markMatches path existing bitmap (pairs.map .ok) keys = .ok marked ∧
      ∀ position, position ∈ marked ↔ position ∈ bitmap ∨
        ((∃ key ∈ keys, (key, position) ∈ pairs) ∧ position ∉ existing.getD ∅) := by
  induction pairs generalizing bitmap keys with
  | nil => exact ⟨bitmap, rfl, by simp⟩
  | cons pair rest ih =>
    obtain ⟨fileKey, first⟩ := pair
    have ahead : ∀ key position, (key, position) ∈ (fileKey, first) :: rest →
        (key ∈ keys.dropWhile (· < fileKey) ↔ key ∈ keys) :=
      fun key position => mem_cursor pairsSorted
    have further := fun bits => @ih bits (keys.dropWhile (· < fileKey))
      (List.pairwise_cons.mp pairsSorted).2
      (keysSorted.sublist (List.dropWhile_suffix _).sublist)
      (fun pair listed member => small pair (List.mem_cons_of_mem _ listed)
        ((ahead pair.1 pair.2 (List.mem_cons_of_mem _ listed)).mp member))
    have split : ∀ position, (∃ key ∈ keys, (key, position) ∈ (fileKey, first) :: rest) ↔
        (fileKey ∈ keys ∧ position = first) ∨
          ∃ key ∈ keys.dropWhile (· < fileKey), (key, position) ∈ rest := by
      intro position
      constructor
      · rintro ⟨key, member, listed⟩
        rcases List.mem_cons.mp listed with same | later
        · obtain ⟨rfl, rfl⟩ := Prod.mk.inj same
          exact .inl ⟨member, rfl⟩
        · exact .inr ⟨key, (ahead key position listed).mpr member, later⟩
      · rintro (⟨member, rfl⟩ | ⟨key, member, later⟩)
        · exact ⟨fileKey, member, List.mem_cons_self⟩
        · have listed := List.mem_cons_of_mem (fileKey, first) later
          exact ⟨key, (ahead key position listed).mp member, listed⟩
    rw [markMatches_cons keysSorted]
    by_cases exhausted : keys.dropWhile (· < fileKey) = []
    · have absent : fileKey ∉ keys := by
        rw [← ahead fileKey first List.mem_cons_self, exhausted]
        exact List.not_mem_nil
      refine ⟨bitmap, if_pos exhausted, fun position => ?_⟩
      rw [split, exhausted]
      simp [absent]
    · rw [if_neg exhausted]
      by_cases member : fileKey ∈ keys
      · have fits := small (fileKey, first) List.mem_cons_self member
        rw [if_pos member, if_neg (Nat.not_lt.mpr fits)]
        obtain ⟨marked, returned, spec⟩ :=
          further (if first ∈ existing.getD ∅ then bitmap else insert first bitmap)
        refine ⟨marked, returned, fun position => ?_⟩
        rw [spec, split]
        split <;> grind
      · rw [if_neg member]
        obtain ⟨marked, returned, spec⟩ := further bitmap
        refine ⟨marked, returned, fun position => ?_⟩
        rw [spec, split]
        simp [member]

theorem markMatches_overflow (pairsSorted : (pairs.map Prod.fst).Pairwise (· ≤ ·))
    (keysSorted : keys.Pairwise (· < ·)) {pair : Bytes × Nat} (listed : pair ∈ pairs)
    (matched : pair.1 ∈ keys) (large : u32Max < pair.2) :
    ∃ message, markMatches path existing bitmap (pairs.map .ok) keys =
      .error (.corruption message) := by
  induction pairs generalizing bitmap keys with
  | nil => cases listed
  | cons head rest ih =>
    obtain ⟨fileKey, first⟩ := head
    have survives : pair.1 ∈ keys.dropWhile (· < fileKey) :=
      (mem_cursor pairsSorted listed).mpr matched
    have sorted := keysSorted.sublist (List.dropWhile_suffix (· < fileKey)).sublist
    have order := (List.pairwise_cons.mp pairsSorted).2
    rw [markMatches_cons keysSorted, if_neg (List.ne_nil_of_mem survives)]
    rcases List.mem_cons.mp listed with rfl | later
    · rw [if_pos matched, if_pos large]
      exact ⟨_, rfl⟩
    · split
      · split
        · exact ⟨_, rfl⟩
        · exact ih order sorted later survives
      · exact ih order sorted later survives

end Merge

section File

variable {storage : Storage} {file : FileMeta} {contents : List Bytes × Finset Nat}
  {keys : List Bytes} {low high : Bytes} {position : Nat} {rows : List Bytes} {key : Bytes}

theorem mem_window {lo hi key : Bytes} :
    (key, position) ∈ rows.zipIdx.filter (fun item => lo ≤ item.1 ∧ item.1 ≤ hi) ↔
      rows[position]? = some key ∧ lo ≤ key ∧ key ≤ hi := by
  rw [List.mem_filter, List.mem_zipIdx_iff_getElem?, decide_eq_true_eq]

theorem window_sorted (sorted : rows.Pairwise (· ≤ ·)) (lo hi : Bytes) :
    ((rows.zipIdx.filter fun item => lo ≤ item.1 ∧ item.1 ≤ hi).map Prod.fst).Pairwise (· ≤ ·) := by
  refine List.Pairwise.sublist (List.filter_sublist.map _) ?_
  rwa [List.zipIdx_map_fst]

theorem Exact.inside (exact : Exact storage file contents.1 contents.2)
    (lowest : ∀ key ∈ keys, low ≤ key) (highest : ∀ key ∈ keys, key ≤ high) (member : key ∈ keys)
    (found : contents.1[position]? = some key) :
    max low file.keyMin ≤ key ∧ key ≤ min high file.keyMax := by
  have inFile := List.mem_of_getElem? found
  exact ⟨max_le (lowest key member) (exact.keyMin.2 inFile),
    le_min (highest key member) (exact.keyMax.2 inFile)⟩

theorem Exact.window_match (exact : Exact storage file contents.1 contents.2)
    (lowest : ∀ key ∈ keys, low ≤ key) (highest : ∀ key ∈ keys, key ≤ high) {key : Bytes}
    {position : Nat} : (key ∈ keys.dropWhile (· < max low file.keyMin) ∧
        (key, position) ∈ contents.1.zipIdx.filter fun item =>
          max low file.keyMin ≤ item.1 ∧ item.1 ≤ min high file.keyMax) ↔
      key ∈ keys ∧ contents.1[position]? = some key := by
  rw [mem_window]
  constructor
  · rintro ⟨member, found, _⟩
    exact ⟨(List.dropWhile_suffix _).subset member, found⟩
  · rintro ⟨member, found⟩
    have within := exact.inside lowest highest member found
    exact ⟨(mem_dropWhile (by simpa using within.1)).mpr member, found, within⟩

section

variable (exact : Exact storage file contents.1 contents.2)
include exact

theorem Exact.masked_of_full (full : contents.2.card = file.numRows)
    (found : contents.1[position]? = some key) :
    position ∈ contents.2 := by
  have subset : contents.2 ⊆ Finset.range file.numRows := fun other inside =>
    Finset.mem_range.mpr (exact.bounded other inside).1
  have all := Finset.eq_of_subset_of_card_le subset (by rw [Finset.card_range, full])
  rw [all, Finset.mem_range, exact.count]
  exact (List.getElem?_eq_some_iff.mp found).1

theorem resolveFile_cases (lowest : ∀ key ∈ keys, low ≤ key) (highest : ∀ key ∈ keys, key ≤ high) :
    (resolveFile storage keys low high file = .ok ∅ ∧ ∀ position, ¬ Fresh keys contents position) ∨
      ∃ existing, existing.getD ∅ = contents.2 ∧ resolveFile storage keys low high file =
        markMatches file.path existing ∅ ((contents.1.zipIdx.filter fun item =>
          max low file.keyMin ≤ item.1 ∧ item.1 ≤ min high file.keyMax).map .ok)
          (keys.dropWhile (· < max low file.keyMin)) := by
  unfold resolveFile
  split
  · rename_i apart
    refine .inl ⟨rfl, ?_⟩
    rintro position ⟨⟨key, member, found⟩, _⟩
    obtain ⟨lower, upper⟩ := exact.inside lowest highest member found
    have left := (le_max_left _ _).trans (lower.trans (upper.trans (min_le_right _ _)))
    have right := (le_max_right _ _).trans (lower.trans (upper.trans (min_le_left _ _)))
    simp [fileOverlapsMemtable, exact.bounds_ne, not_lt.mpr left, not_lt.mpr right] at apart
  · obtain ⟨existing, loaded, same⟩ := exact.loaded
    simp only [loaded, exact.iterated, bind, Except.bind]
    split
    · rename_i full
      refine .inl ⟨rfl, ?_⟩
      rintro position ⟨⟨key, member, found⟩, fresh⟩
      refine fresh (exact.masked_of_full ?_ found)
      cases existing with
      | none => simp at full
      | some dv =>
        rw [← same]
        simpa using full
    · exact .inr ⟨existing, same, rfl⟩

section

variable (sorted : keys.Pairwise (· < ·)) (lowest : ∀ key ∈ keys, low ≤ key)
  (highest : ∀ key ∈ keys, key ≤ high)
include sorted lowest highest

theorem resolveFile_spec (small : ∀ position, Fresh keys contents position → position ≤ u32Max) :
    ∃ bitmap, resolveFile storage keys low high file = .ok bitmap ∧
      ∀ position, position ∈ bitmap ↔ Fresh keys contents position := by
  rcases resolveFile_cases exact lowest highest with ⟨returned, none⟩ | ⟨existing, same, merged⟩
  · exact ⟨∅, returned, fun position => by simp [none position]⟩
  · have window := fun key position => @Exact.window_match _ _ _ _ _ _ exact lowest highest
      key position
    obtain ⟨marked, returned, spec⟩ := @markMatches_spec file.path existing ∅ _ _
      (window_sorted exact.sorted (max low file.keyMin) (min high file.keyMax))
      (sorted.sublist (List.dropWhile_suffix (· < max low file.keyMin)).sublist) (by
        rintro ⟨key, position⟩ listed member
        obtain ⟨inKeys, found⟩ := (window key position).mp ⟨member, listed⟩
        by_cases masked : position ∈ contents.2
        · exact (exact.bounded position masked).2
        · exact small position ⟨⟨key, inKeys, found⟩, masked⟩)
    refine ⟨marked, merged.trans returned, fun position => ?_⟩
    rw [spec, same, Fresh]
    simp only [window, Finset.notMem_empty, false_or]

theorem resolveFile_overflow (fresh : Fresh keys contents position) (large : u32Max < position) :
    ∃ message, resolveFile storage keys low high file = .error (.corruption message) := by
  rcases resolveFile_cases exact lowest highest with ⟨_, none⟩ | ⟨existing, same, merged⟩
  · exact absurd fresh (none position)
  · obtain ⟨⟨key, member, found⟩, _⟩ := fresh
    obtain ⟨inCursor, listed⟩ := (exact.window_match lowest highest).mpr ⟨member, found⟩
    rw [merged]
    exact markMatches_overflow (window_sorted exact.sorted _ _)
      (sorted.sublist (List.dropWhile_suffix _).sublist) listed inCursor large

end

end

end File

section Files

variable {storage : Storage} {contents : FileMeta → List Bytes × Finset Nat} {keys : List Bytes}
  {low high : Bytes} {deltas : List (Nat × Finset Nat)} {files : List FileMeta}

theorem lookup_addDv_ne {path other : Nat} {bitmap : Finset Nat} (marks : bitmap ≠ ∅)
    (nonempty : ∀ path, deltas.lookup path ≠ some ∅) :
    (SnapshotTransaction.addDv deltas path bitmap).lookup other ≠ some ∅ := by
  by_cases same : other = path
  · rw [same, lookup_addDv_self, Ne, Option.some.injEq, Finset.union_eq_empty]
    exact fun empty => marks empty.2
  · rw [lookup_addDv_other deltas bitmap same]
    exact nonempty other

theorem resolveFiles_spec
    (exact : ∀ file ∈ files, Exact storage file (contents file).1 (contents file).2)
    (sorted : keys.Pairwise (· < ·)) (lowest : ∀ key ∈ keys, low ≤ key)
    (highest : ∀ key ∈ keys, key ≤ high)
    (small : ∀ file ∈ files, ∀ position, Fresh keys (contents file) position → position ≤ u32Max)
    (nonempty : ∀ path, deltas.lookup path ≠ some ∅) :
    ∃ resolved, resolveFiles storage keys low high deltas files = .ok resolved ∧
      ∀ path, resolved.lookup path ≠ some ∅ ∧
        ∀ position, position ∈ (resolved.lookup path).getD ∅ ↔
          position ∈ (deltas.lookup path).getD ∅ ∨
            ∃ file ∈ files, file.path = path ∧ Fresh keys (contents file) position := by
  induction files generalizing deltas with
  | nil => exact ⟨deltas, rfl, fun path => ⟨nonempty path, by simp⟩⟩
  | cons file rest ih =>
    obtain ⟨bitmap, resolved, marks⟩ := resolveFile_spec (exact file List.mem_cons_self) sorted
      lowest highest (small file List.mem_cons_self)
    have others := fun later => @ih later
      (fun file member => exact file (List.mem_cons_of_mem _ member))
      (fun file member => small file (List.mem_cons_of_mem _ member))
    simp only [resolveFiles, resolved, bind, Except.bind, List.mem_cons, exists_eq_or_imp]
    split
    · rename_i empty
      obtain ⟨final, returned, spec⟩ := others deltas nonempty
      refine ⟨final, returned, fun path => ⟨(spec path).1, fun position => ?_⟩⟩
      have unmarked : ¬ Fresh keys (contents file) position := by
        rw [← marks, empty]
        exact Finset.notMem_empty position
      rw [(spec path).2]
      simp [unmarked]
    · rename_i marked
      obtain ⟨final, returned, spec⟩ := others _ fun path => lookup_addDv_ne marked nonempty
      refine ⟨final, returned, fun path => ⟨(spec path).1, fun position => ?_⟩⟩
      rw [(spec path).2, lookup_addDv, Finset.mem_union, or_assoc]
      by_cases same : path = file.path
      · simp [same, marks]
      · simp [same, Ne.symm same]

theorem resolveFiles_overflow
    (exact : ∀ file ∈ files, Exact storage file (contents file).1 (contents file).2)
    (sorted : keys.Pairwise (· < ·)) (lowest : ∀ key ∈ keys, low ≤ key)
    (highest : ∀ key ∈ keys, key ≤ high) {file : FileMeta} (listed : file ∈ files)
    {position : Nat} (fresh : Fresh keys (contents file) position) (large : u32Max < position) :
    ∃ message, resolveFiles storage keys low high deltas files = .error (.corruption message) := by
  induction files generalizing deltas with
  | nil => cases listed
  | cons head rest ih =>
    have here := exact head List.mem_cons_self
    rw [resolveFiles]
    by_cases overflow : ∃ position, Fresh keys (contents head) position ∧ u32Max < position
    · obtain ⟨position, fresh, large⟩ := overflow
      obtain ⟨message, failed⟩ := resolveFile_overflow here sorted lowest highest fresh large
      exact ⟨message, by rw [failed]; rfl⟩
    · have small : ∀ position, Fresh keys (contents head) position → position ≤ u32Max :=
        fun position fresh => Nat.not_lt.mp fun large => overflow ⟨position, fresh, large⟩
      obtain ⟨bitmap, resolved, _⟩ := resolveFile_spec here sorted lowest highest small
      have later : file ∈ rest := by
        rcases List.mem_cons.mp listed with rfl | later
        · exact absurd ⟨position, fresh, large⟩ overflow
        · exact later
      rw [resolved]
      exact ih (fun file member => exact file (List.mem_cons_of_mem _ member)) later

end Files

section Levels

variable {version : Levels}

theorem mem_files {file : FileMeta} :
    file ∈ (List.range (version.maxLevel + 1)).flatMap version.filesAt ↔ version.Lists file := by
  rw [List.mem_flatMap]
  constructor
  · rintro ⟨level, _, member⟩
    exact ⟨level, member⟩
  · rintro ⟨level, member⟩
    refine ⟨level, List.mem_range.mpr (Nat.lt_succ_of_le ?_), member⟩
    unfold Levels.filesAt at member
    cases found : version.levels.lookup level with
    | none => simp [found] at member
    | some files =>
      obtain ⟨before, after, listed, _⟩ := List.lookup_eq_some_iff.mp found
      exact (Foundation.foldl_max_spec Prod.fst version.levels 0).2.1 (level, files)
        (by simp [listed])

end Levels

section Connection

variable {storage : Storage} {lib : ParquetLib} {keys : List UserKey} {low high : UserKey}
  {entry : DataFileMeta → FileMeta}

/-- The entry and the storage describe the file of the engine model. -/
structure Represents (storage : Storage) (lib : ParquetLib) (ref : DataFileMeta) (file : FileMeta) :
    Prop where
  path : file.path = ref.path
  keyMin : file.keyMin = ref.file.keyMin
  keyMax : file.keyMax = ref.file.keyMax
  numRows : file.numRows = ref.file.numRows
  loaded : loadExistingDv storage file = .ok (ref.dv.map DeletionVector.bitmap)
  iterated : ∀ lo hi, storage.iterUserKeysInRange file.path lo hi =
    .ok ((Reader.iterUserKeysInRange lib ref.file lo hi).map fun item => .ok (item.1.bytes, item.2))

theorem markMatches_represents {path : Nat} {existing : Option (Finset Nat)} {bitmap : Finset Nat}
    {items : List (UserKey × Nat)} (small : ∀ item ∈ items, item.2 ≤ u32Max) :
    markMatches path existing bitmap (items.map fun item => .ok (item.1.bytes, item.2))
        (keys.map UserKey.bytes) =
      .ok (bitmap ∪ DvResolve.markMatches (existing.getD ∅) items keys) := by
  induction items generalizing bitmap keys with
  | nil => simp [markMatches, DvResolve.markMatches]
  | cons item rest ih =>
    obtain ⟨fileKey, position⟩ := item
    have fits := List.forall_mem_cons.mp small
    have known : existing.any (position ∈ ·) = true ↔ position ∈ existing.getD ∅ := by
      cases existing <;> simp
    have cursor : (keys.map UserKey.bytes).dropWhile (· < fileKey.bytes) =
        (keys.dropWhile (· < fileKey)).map UserKey.bytes := by
      have passed : ((fun key => decide (key < fileKey.bytes)) ∘ UserKey.bytes) =
          fun key => decide (key < fileKey) :=
        funext fun key => decide_eq_decide.mpr UserKey.bytes_lt
      rw [List.dropWhile_map, passed]
    simp only [List.map_cons, markMatches, DvResolve.markMatches, bind, Except.bind, cursor]
    cases keys.dropWhile (· < fileKey) with
    | nil => simp [pure, Except.pure]
    | cons key others =>
      have same : key.bytes = fileKey.bytes ↔ key = fileKey :=
        ⟨UserKey.eq_of_bytes, congrArg UserKey.bytes⟩
      have later := fun bits => @ih (key :: others) bits fits.2
      rw [List.map_cons] at later
      simp only [List.map_cons, same, known, if_neg (Nat.not_lt.mpr fits.1), later]
      by_cases onKey : key = fileKey
      · by_cases masked : position ∈ existing.getD ∅
        · simp [onKey, masked]
        · simp [onKey, masked, Finset.insert_union]
      · simp [onKey]

theorem resolveFile_represents {ref : DataFileMeta} {file : FileMeta}
    (represents : Represents storage lib ref file) (small : ref.file.rows.length ≤ u32Max + 1) :
    resolveFile storage (keys.map UserKey.bytes) low.bytes high.bytes file =
      .ok (DvResolve.resolveFile lib keys low high ref) := by
  have overlap : fileOverlapsMemtable file low.bytes high.bytes =
      DvResolve.fileOverlapsMemtable ref low high := by
    simp only [fileOverlapsMemtable, DvResolve.fileOverlapsMemtable, represents.keyMin,
      represents.keyMax]
  have full : ((ref.dv.map DeletionVector.bitmap).any fun dv => dv.card = file.numRows) = true ↔
      ref.deletedRows.card = ref.file.numRows := by
    rw [represents.numRows, DataFileMeta.deletedRows]
    cases ref.dv with
    | none =>
      have rows := List.length_pos_iff.mpr ref.file.rows_ne
      simp only [Option.map_none, Option.any_none, Option.getD_none, Finset.card_empty,
        DataFile.numRows, Bool.false_eq_true, false_iff]
      omega
    | some dv => simp
  have positions : ∀ item ∈ Reader.iterUserKeysInRange lib ref.file (max low.bytes ref.file.keyMin)
      (min high.bytes ref.file.keyMax), item.2 ≤ u32Max := by
    intro item member
    obtain ⟨row, found, _⟩ := Option.map_eq_some_iff.mp (Reader.iterUserKeysInRange_sound member).1
    have inside := (List.getElem?_eq_some_iff.mp found).1
    omega
  unfold resolveFile DvResolve.resolveFile
  rw [overlap]
  split
  · rfl
  · simp only [represents.loaded, represents.iterated, represents.keyMin, represents.keyMax, bind,
      Except.bind, full]
    split
    · rfl
    · rw [List.dropWhile_map]
      exact (markMatches_represents positions).trans (by rw [Finset.empty_union]; rfl)

theorem resolveFiles_represents {refs : List DataFileMeta}
    (represents : ∀ ref ∈ refs, Represents storage lib ref (entry ref))
    (small : ∀ ref ∈ refs, ref.file.rows.length ≤ u32Max + 1) (deltas : List (Nat × Finset Nat)) :
    resolveFiles storage (keys.map UserKey.bytes) low.bytes high.bytes deltas (refs.map entry) =
      .ok (refs.foldl (fun deltas ref =>
        let bitmap := DvResolve.resolveFile lib keys low high ref
        if bitmap = ∅ then deltas else SnapshotTransaction.addDv deltas ref.path
          bitmap) deltas) := by
  induction refs generalizing deltas with
  | nil => rfl
  | cons ref rest ih =>
    have first := List.forall_mem_cons.mp represents
    have bounds := List.forall_mem_cons.mp small
    rw [List.map_cons, resolveFiles, resolveFile_represents first.1 bounds.1, first.1.path,
      List.foldl_cons]
    exact ih first.2 bounds.2 _

theorem resolveDvForFlush_represents {version : Version} {levels : Levels}
    (represents : ∀ ref ∈ version.files, Represents storage lib ref (entry ref))
    (small : ∀ ref ∈ version.files, ref.file.rows.length ≤ u32Max + 1)
    (maxLevel : levels.maxLevel = version.maxLevel)
    (filesAt : ∀ level, levels.filesAt level = (version.filesAt level).map entry) :
    resolveDvForFlush storage (keys.map UserKey.bytes) levels =
      .ok (DvResolve.resolveDvForFlush lib keys version) := by
  have files : (List.range (levels.maxLevel + 1)).flatMap levels.filesAt =
      ((List.range (version.maxLevel + 1)).flatMap version.filesAt).map entry := by
    rw [maxLevel, List.map_flatMap, funext filesAt]
  have listed : ∀ ref ∈ (List.range (version.maxLevel + 1)).flatMap version.filesAt,
      ref ∈ version.files := by
    intro ref member
    obtain ⟨level, _, inLevel⟩ := List.mem_flatMap.mp member
    exact (Version.mem_filesAt.mp inLevel).1
  unfold resolveDvForFlush DvResolve.resolveDvForFlush
  rw [List.head?_map, List.getLast?_map, files]
  cases keys.head? with
  | none => rfl
  | some low =>
    cases keys.getLast? with
    | none => rfl
    | some high =>
      exact resolveFiles_represents (fun ref member => represents ref (listed ref member))
        (fun ref member => small ref (listed ref member)) []

end Connection

/-- The resolver marks exactly the rows of the listed keys that are not masked, path by path, and
fails exactly if such a row lies beyond the range of the bitmap. -/
theorem resolved_positions_exact (storage : Storage) (version : Levels)
    (contents : FileMeta → List Bytes × Finset Nat) (keys : List Bytes)
    (sorted : keys.Pairwise (· < ·))
    (exact : ∀ file, version.Lists file → Exact storage file (contents file).1 (contents file).2) :
    ((∀ file, version.Lists file → ∀ position, Fresh keys (contents file) position →
        position ≤ u32Max) →
      ∃ deltas, resolveDvForFlush storage keys version = .ok deltas ∧
        ∀ path, deltas.lookup path ≠ some ∅ ∧
          ∀ position, position ∈ (deltas.lookup path).getD ∅ ↔
            ∃ file, version.Lists file ∧ file.path = path ∧ Fresh keys (contents file) position) ∧
    ((∃ file, version.Lists file ∧ ∃ position, Fresh keys (contents file) position ∧
        u32Max < position) →
      ∃ message, resolveDvForFlush storage keys version = .error (.corruption message)) := by
  cases keys with
  | nil =>
    have none : ∀ file position, ¬ Fresh [] (contents file) position := by
      rintro file position ⟨⟨key, member, _⟩, _⟩
      cases member
    refine ⟨fun _ => ⟨[], rfl, fun path => ⟨by simp, by simp [none]⟩⟩, ?_⟩
    rintro ⟨file, _, position, fresh, _⟩
    exact absurd fresh (none file position)
  | cons low rest =>
    have weak : (low :: rest).Pairwise (· ≤ ·) := sorted.imp le_of_lt
    have lowest : ∀ key ∈ low :: rest, low ≤ key := fun key member => weak.rel_head member
    have highest : ∀ key ∈ low :: rest, key ≤ (low :: rest).getLast (List.cons_ne_nil _ _) :=
      fun key member => weak.rel_getLast member
    have listed : ∀ file ∈ (List.range (version.maxLevel + 1)).flatMap version.filesAt,
        Exact storage file (contents file).1 (contents file).2 :=
      fun file member => exact file (mem_files.mp member)
    rw [resolveDvForFlush, List.head?_cons,
      List.getLast?_eq_getLast_of_ne_nil (List.cons_ne_nil _ _)]
    constructor
    · intro small
      obtain ⟨deltas, returned, spec⟩ := @resolveFiles_spec _ _ _ _ _ [] _ listed sorted lowest
        highest (fun file member => small file (mem_files.mp member)) (by simp)
      simp only [mem_files, List.lookup_nil, Option.getD_none, Finset.notMem_empty,
        false_or] at spec
      exact ⟨deltas, returned, spec⟩
    · rintro ⟨file, member, position, fresh, large⟩
      exact resolveFiles_overflow listed sorted lowest highest (mem_files.mpr member) fresh large

variable {rows : List Bytes}

theorem isLeast_head (sorted : rows.Pairwise (· ≤ ·)) (nonempty : rows ≠ []) :
    IsLeast {key | key ∈ rows} (rows.head nonempty) :=
  ⟨List.head_mem nonempty, fun _ member => sorted.rel_head member⟩

theorem isGreatest_getLast (sorted : rows.Pairwise (· ≤ ·)) (nonempty : rows ≠ []) :
    IsGreatest {key | key ∈ rows} (rows.getLast nonempty) :=
  ⟨List.getLast_mem nonempty, fun _ member => sorted.rel_getLast member⟩

/-- A disk with one file of these contents. -/
def storageOf (contents : List Bytes × Finset Nat) : Storage where
  read _ := .ok [0, 0, 0, 0, 42]
  fromPuffinBlob _ := .ok contents.2
  iterUserKeysInRange _ lo hi :=
    .ok ((contents.1.zipIdx.filter fun item => lo ≤ item.1 ∧ item.1 ≤ hi).map .ok)

/-- A version of one file. -/
def single (file : FileMeta) : Levels := ⟨[(0, [file])]⟩

theorem lists_single {file other : FileMeta} : (single file).Lists other ↔ other = file := by
  constructor
  · rintro ⟨level, member⟩
    cases level with
    | zero => simpa [single, Levels.filesAt] using member
    | succ level => simp [single, Levels.filesAt, List.lookup_cons] at member
  · rintro rfl
    exact ⟨0, by simp [single, Levels.filesAt]⟩

/-- Three rows, the second of them masked. -/
def sampleContents : List Bytes × Finset Nat := ([[5], [7], [7]], {1})

def sampleFile : FileMeta := ⟨1, [5], [7], 3, some 9, some 4, some 1⟩

theorem sampleFile_exact :
    Exact (storageOf sampleContents) sampleFile sampleContents.1 sampleContents.2 where
  sorted := by decide
  iterated _ _ := rfl
  keyMin := isLeast_head (by decide) (by decide)
  keyMax := isGreatest_getLast (by decide) (by decide)
  bounds_ne := by decide
  count := rfl
  loaded := ⟨some {1}, rfl, rfl⟩
  bounded := by decide

theorem resolved_positions_sample :
    ((∀ file, (single sampleFile).Lists file → ∀ position,
        Fresh [[6], [7]] sampleContents position → position ≤ u32Max) →
      ∃ deltas, resolveDvForFlush (storageOf sampleContents) [[6], [7]] (single sampleFile) =
          .ok deltas ∧
        ∀ path, deltas.lookup path ≠ some ∅ ∧
          ∀ position, position ∈ (deltas.lookup path).getD ∅ ↔
            ∃ file, (single sampleFile).Lists file ∧ file.path = path ∧
              Fresh [[6], [7]] sampleContents position) ∧
    ((∃ file, (single sampleFile).Lists file ∧ ∃ position,
        Fresh [[6], [7]] sampleContents position ∧ u32Max < position) →
      ∃ message, resolveDvForFlush (storageOf sampleContents) [[6], [7]] (single sampleFile) =
        .error (.corruption message)) :=
  resolved_positions_exact (storageOf sampleContents) (single sampleFile) (fun _ => sampleContents)
    [[6], [7]] (by decide) fun file listed => by
      rw [lists_single.mp listed]
      exact sampleFile_exact

/-- So many rows of one key. -/
def repeated (count : Nat) : List Bytes × Finset Nat := (List.replicate count [7], ∅)

def repeatedFile (count : Nat) : FileMeta := ⟨1, [7], [7], count, none, none, none⟩

theorem repeatedFile_exact {count : Nat} (positive : 0 < count) :
    Exact (storageOf (repeated count)) (repeatedFile count) (repeated count).1
      (repeated count).2 where
  sorted := List.pairwise_replicate.mpr (.inr le_rfl)
  iterated _ _ := rfl
  keyMin := ⟨List.mem_replicate.mpr ⟨positive.ne', rfl⟩,
    fun _ member => (List.eq_of_mem_replicate member).ge⟩
  keyMax := ⟨List.mem_replicate.mpr ⟨positive.ne', rfl⟩,
    fun _ member => (List.eq_of_mem_replicate member).le⟩
  bounds_ne := ⟨List.cons_ne_nil _ _, List.cons_ne_nil _ _⟩
  count := List.length_replicate.symm
  loaded := ⟨none, rfl, rfl⟩
  bounded := by
    intro position member
    cases member

theorem large_position_rejected :
    (∀ file, (single (repeatedFile (u32Max + 2))).Lists file →
      Exact (storageOf (repeated (u32Max + 2))) file (repeated (u32Max + 2)).1
        (repeated (u32Max + 2)).2) ∧
    Fresh [[7]] (repeated (u32Max + 2)) (u32Max + 1) ∧
    ∃ message, resolveDvForFlush (storageOf (repeated (u32Max + 2))) [[7]]
      (single (repeatedFile (u32Max + 2))) = .error (.corruption message) := by
  have exact := @repeatedFile_exact (u32Max + 2) (Nat.succ_pos _)
  have fresh : Fresh [[7]] (repeated (u32Max + 2)) (u32Max + 1) := by
    refine ⟨⟨[7], List.mem_singleton_self _, ?_⟩, Finset.notMem_empty _⟩
    exact List.getElem?_replicate_of_lt (Nat.lt_succ_self _)
  refine ⟨fun file listed => by rw [lists_single.mp listed]; exact exact, fresh, ?_⟩
  exact @resolveFiles_overflow _ (fun _ => repeated (u32Max + 2)) _ _ _ _ _
    (fun file listed => by rw [lists_single.mp (mem_files.mp listed)]; exact exact)
    (List.pairwise_singleton _ _) (by simp) (by simp) _
    (mem_files.mpr (lists_single.mpr rfl)) _ fresh (Nat.lt_succ_self _)

end Merutable.DvResolve.Stream
