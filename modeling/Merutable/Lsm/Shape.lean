import Mathlib.Data.List.TakeWhile
import Merutable.Engine.ReadPath

/-! The shape of a leveled version, and what the read path returns from a version of that shape. -/

namespace Merutable

open Foundation ReadPath

/-- Files have distinct paths; a level from 1 on has disjoint key ranges and level 0 disjoint
sequence ranges; a version of a key above another is newer. -/
structure Version.Wf (version : Version) : Prop where
  paths : (version.files.map DataFileMeta.path).Nodup
  disjoint : ∀ a ∈ version.files, ∀ b ∈ version.files, a.path ≠ b.path → a.level = b.level →
    1 ≤ a.level → a.file.keyMax < b.file.keyMin ∨ b.file.keyMax < a.file.keyMin
  flushed : ∀ a ∈ version.files, ∀ b ∈ version.files, a.path ≠ b.path → a.level = 0 → b.level = 0 →
    a.file.seqMax < b.file.seqMin ∨ b.file.seqMax < a.file.seqMin
  above : ∀ a ∈ version.files, ∀ b ∈ version.files, a.level < b.level →
    ∀ x ∈ a.file.rows, ∀ y ∈ b.file.rows, x.key = y.key → y.seq < x.seq

/-- From level 1 on the files of a level have disjoint key ranges. -/
def Version.Layered (version : Version) : Prop :=
  ∀ a ∈ version.files, ∀ b ∈ version.files, a.path ≠ b.path → a.level = b.level → 1 ≤ a.level →
    a.file.keyMax < b.file.keyMin ∨ b.file.keyMax < a.file.keyMin

/-- A row some reader of the version is shown. -/
def Version.Live (version : Version) (row : Entry) : Prop :=
  ∃ ref ∈ version.files, row ∈ ref.liveRows

namespace DataFile

theorem keyMin_le_keyMax (file : DataFile) : file.keyMin ≤ file.keyMax := by
  obtain ⟨row, member, same⟩ := file.keyMax_mem
  rw [← same]
  exact keyMin_le member

theorem seqMin_le_seqMax (file : DataFile) : file.seqMin ≤ file.seqMax := by
  obtain ⟨row, member, same⟩ := file.seqMax_mem
  rw [← same]
  exact seqMin_le member

end DataFile

variable {ref : DataFileMeta} {row : Entry} {config : Config} {key : UserKey} {readSeq : Nat}

theorem getFrom_some (found : getFrom config key readSeq ref = some row) :
    row ∈ ref.liveRows ∧ row.key = key ∧ row.seq ≤ readSeq ∧
      ∀ other ∈ ref.liveRows, other.key = key → other.seq ≤ readSeq → other.seq ≤ row.seq := by
  rw [getFrom, Reader.get_eq] at found
  obtain ⟨holds, before, after, split, skipped⟩ := List.find?_eq_some_iff_append.mp found
  have member := List.mem_of_find?_eq_some found
  have facts := of_decide_eq_true holds
  refine ⟨member, facts.1, facts.2, fun other listed same bound => ?_⟩
  have sorted := ref.file.sorted.sublist ref.liveRows_sublist
  rw [DataFileMeta.liveRows] at sorted listed
  rw [split] at sorted listed
  rcases List.mem_append.mp listed with early | late
  · have miss := skipped other early
    simp [same, bound] at miss
  · rcases List.mem_cons.mp late with rfl | later
    · exact le_rfl
    · have pair := (List.pairwise_cons.mp (List.pairwise_append.mp sorted).2.1).1 other later
      exact pair.versionOrder.seq_le (facts.1.trans same.symm)

theorem getFrom_none (missed : getFrom config key readSeq ref = none) (live : row ∈ ref.liveRows)
    (same : row.key = key) : readSeq < row.seq := by
  rw [getFrom, Reader.get_eq] at missed
  have absent := List.find?_eq_none.mp missed row live
  simpa [same] using absent

theorem rangeContains_of_mem {file : DataFile} (member : row ∈ file.rows) :
    rangeContains file row.key = true := by
  have lower := DataFile.keyMin_le member
  have upper := DataFile.le_keyMax member
  simp [rangeContains, not_lt.mpr lower, not_lt.mpr upper]

section Layered

variable {version : Version} {level : Nat}

theorem filesAt_sorted (version : Version) (deep : 1 ≤ level) :
    (version.filesAt level).Pairwise fun a b => a.file.keyMin ≤ b.file.keyMin := by
  unfold Version.filesAt
  dsimp only
  rw [if_neg (by omega)]
  exact List.pairwise_insertionSort (fun a b : DataFileMeta => a.file.keyMin ≤ b.file.keyMin) _

theorem Version.Layered.separate (layered : version.Layered)
    (paths : (version.files.map DataFileMeta.path).Nodup) (deep : 1 ≤ level) :
    (version.filesAt level).Pairwise fun a b => a.file.keyMax < b.file.keyMin := by
  have distinct : (version.filesAt level).Pairwise fun a b => a.path ≠ b.path :=
    List.pairwise_map.mp (Version.filesAt_paths paths level)
  refine ((filesAt_sorted version deep).and distinct).imp_of_mem ?_
  intro a b first second ordered
  obtain ⟨present, here⟩ := Version.mem_filesAt.mp first
  obtain ⟨present', here'⟩ := Version.mem_filesAt.mp second
  have same := here.trans here'.symm
  rcases layered a present b present' ordered.2 same (by omega) with left | right
  · exact left
  · have := lt_of_le_of_lt b.file.keyMin_le_keyMax right
    exact absurd ordered.1 (not_le.mpr this)

theorem Version.Layered.of_deep {next : Version} (layered : version.Layered)
    (kept : ∀ ref ∈ next.files, 1 ≤ ref.level → ∃ old ∈ version.files, old.file = ref.file) :
    next.Layered := by
  intro a first b second different same deep
  obtain ⟨old, present, sameFile⟩ := kept a first deep
  obtain ⟨old', present', sameFile'⟩ := kept b second (same ▸ deep)
  rw [DataFileMeta.path, DataFileMeta.path, ← sameFile, ← sameFile'] at different
  rw [DataFileMeta.level, DataFileMeta.level, ← sameFile, ← sameFile'] at same
  rw [DataFileMeta.level, ← sameFile] at deep
  rw [← sameFile, ← sameFile']
  exact layered old present old' present' different same deep

theorem findFileForKey_eq (paths : (version.files.map DataFileMeta.path).Nodup)
    (layered : version.Layered) {ref : DataFileMeta} {key : UserKey}
    (present : ref ∈ version.files) (deep : 1 ≤ ref.level) (lower : ref.file.keyMin ≤ key.bytes)
    (upper : key.bytes ≤ ref.file.keyMax) : version.findFileForKey ref.level key = some ref := by
  have listed : ref ∈ version.filesAt ref.level := Version.mem_filesAt.mpr ⟨present, rfl⟩
  have sorted := filesAt_sorted version deep
  have separate := layered.separate paths deep
  obtain ⟨before, after, split⟩ := List.append_of_mem listed
  have prefixed : (version.filesAt ref.level).takeWhile (fun other =>
      other.file.keyMin ≤ key.bytes) = before ++ [ref] := by
    rw [split] at sorted separate ⊢
    have front : ∀ other ∈ before, decide (other.file.keyMin ≤ key.bytes) = true := by
      intro other member
      have below := (List.pairwise_append.mp sorted).2.2 other member ref List.mem_cons_self
      exact decide_eq_true (le_trans below lower)
    have back : ∀ other ∈ after, ¬ other.file.keyMin ≤ key.bytes := by
      intro other member
      have beyond := (List.pairwise_cons.mp (List.pairwise_append.mp separate).2.1).1 other member
      exact not_le.mpr (lt_of_le_of_lt upper beyond)
    rw [List.takeWhile_append_of_pos front, List.takeWhile_cons, if_pos (decide_eq_true lower)]
    cases after with
    | nil => rfl
    | cons next rest => simp [back next List.mem_cons_self]
  rw [Version.findFileForKey, prefixed]
  simp [upper]

end Layered

section Lookup

variable {config : Config} {version : Version} {key : UserKey} {readSeq : Nat} {row other : Entry}
  {ref : DataFileMeta}

theorem probeL0_none (missed : probeL0 config version key readSeq = none)
    (present : ref ∈ version.files) (zero : ref.level = 0) (live : other ∈ ref.liveRows)
    (same : other.key = key) : readSeq < other.seq := by
  have absent := List.findSome?_eq_none_iff.mp missed ref (Version.mem_filesAt.mpr ⟨present, zero⟩)
  have contains := rangeContains_of_mem (ref.liveRows_sublist.subset live)
  rw [same] at contains
  rw [if_pos contains] at absent
  exact getFrom_none absent live same

theorem probeL0_some (wf : version.Wf) (found : probeL0 config version key readSeq = some row) :
    version.Live row ∧ row.key = key ∧ row.seq ≤ readSeq ∧
      ∀ other, version.Live other → other.key = key → other.seq ≤ readSeq →
        other.seq ≤ row.seq := by
  obtain ⟨before, ref, after, split, hit, skipped⟩ := List.findSome?_eq_some_iff.mp found
  split at hit
  swap
  · cases hit
  obtain ⟨live, same, bound, newestHere⟩ := getFrom_some hit
  have listed : ref ∈ version.filesAt 0 := by
    rw [split]
    simp
  obtain ⟨present, zero⟩ := Version.mem_filesAt.mp listed
  refine ⟨⟨ref, present, live⟩, same, bound, ?_⟩
  rintro other ⟨source, sourceIn, otherLive⟩ sameKey otherBound
  have rowIn := ref.liveRows_sublist.subset live
  have otherIn := source.liveRows_sublist.subset otherLive
  rcases Nat.eq_zero_or_pos source.level with sourceZero | deep
  · have sourceListed : source ∈ version.filesAt 0 := Version.mem_filesAt.mpr ⟨sourceIn, sourceZero⟩
    have newestFirst : (version.filesAt 0).Pairwise fun a b => b.file.seqMax ≤ a.file.seqMax := by
      unfold Version.filesAt
      dsimp only
      rw [if_pos rfl]
      exact List.pairwise_insertionSort (fun a b : DataFileMeta => b.file.seqMax ≤ a.file.seqMax) _
    rw [split] at sourceListed newestFirst
    rcases List.mem_append.mp sourceListed with early | late
    · have missed := skipped source early
      have contains := rangeContains_of_mem otherIn
      rw [sameKey] at contains
      rw [if_pos contains] at missed
      have hidden := getFrom_none missed otherLive sameKey
      omega
    · rcases List.mem_cons.mp late with rfl | later
      · exact newestHere other otherLive sameKey otherBound
      · by_cases samePath : ref.path = source.path
        · have equal := List.inj_on_of_nodup_map wf.paths present sourceIn samePath
          rw [← equal] at otherLive
          exact newestHere other otherLive sameKey otherBound
        · have order :=
            (List.pairwise_cons.mp (List.pairwise_append.mp newestFirst).2.1).1 source later
          have upper := DataFile.le_seqMax otherIn
          have lower := DataFile.seqMin_le rowIn
          have span := source.file.seqMin_le_seqMax
          rcases wf.flushed ref present source sourceIn samePath zero sourceZero with left | right
          · omega
          · omega
  · have older := wf.above ref present source sourceIn (by omega) row rowIn other otherIn
      (same.trans sameKey.symm)
    omega

theorem probeLevels_none (paths : (version.files.map DataFileMeta.path).Nodup)
    (layered : version.Layered) (missed : probeLevels config version key readSeq = none)
    (present : ref ∈ version.files) (deep : 1 ≤ ref.level) (live : other ∈ ref.liveRows)
    (same : other.key = key) : readSeq < other.seq := by
  have member := ref.liveRows_sublist.subset live
  have covering : version.findFileForKey ref.level key = some ref :=
    findFileForKey_eq paths layered present deep (same ▸ DataFile.keyMin_le member)
      (same ▸ DataFile.le_keyMax member)
  have inRange : ref.level - 1 ∈ List.range version.maxLevel := by
    have := Version.level_le_maxLevel present
    rw [List.mem_range]
    omega
  have absent := List.findSome?_eq_none_iff.mp missed _ inRange
  rw [Nat.sub_add_cancel deep, covering, Option.bind_some] at absent
  exact getFrom_none absent live same

theorem findFileForKey_mem {level : Nat} (found : version.findFileForKey level key = some ref) :
    (ref ∈ version.files ∧ ref.level = level) ∧ ref.file.keyMin ≤ key.bytes ∧
      key.bytes ≤ ref.file.keyMax := by
  unfold Version.findFileForKey at found
  split at found
  · rename_i candidate isLast
    split at found <;> cases found
    rename_i upper
    have taken := List.mem_of_getLast? isLast
    have listed := (List.takeWhile_sublist _).subset taken
    have lower := List.mem_takeWhile_imp taken
    exact ⟨Version.mem_filesAt.mp listed, of_decide_eq_true lower, upper⟩
  · cases found

theorem probeLevels_some (wf : version.Wf) (missed : probeL0 config version key readSeq = none)
    (found : probeLevels config version key readSeq = some row) :
    version.Live row ∧ row.key = key ∧ row.seq ≤ readSeq ∧
      ∀ other, version.Live other → other.key = key → other.seq ≤ readSeq →
        other.seq ≤ row.seq := by
  obtain ⟨before, index, after, split, hit, skipped⟩ := List.findSome?_eq_some_iff.mp found
  obtain ⟨ref, covering, hit⟩ := Option.bind_eq_some_iff.mp hit
  obtain ⟨live, same, bound, newestHere⟩ := getFrom_some hit
  obtain ⟨⟨present, onLevel⟩, _⟩ := findFileForKey_mem covering
  refine ⟨⟨ref, present, live⟩, same, bound, ?_⟩
  rintro other ⟨source, sourceIn, otherLive⟩ sameKey otherBound
  have rowIn := ref.liveRows_sublist.subset live
  have otherIn := source.liveRows_sublist.subset otherLive
  rcases Nat.eq_zero_or_pos source.level with sourceZero | deep
  · have hidden := probeL0_none missed sourceIn sourceZero otherLive sameKey
    omega
  have sourceCovering : version.findFileForKey source.level key = some source :=
    findFileForKey_eq wf.paths wf.disjoint sourceIn deep (sameKey ▸ DataFile.keyMin_le otherIn)
      (sameKey ▸ DataFile.le_keyMax otherIn)
  rcases Nat.lt_trichotomy source.level ref.level with above | level | below
  · -- A shallower covering file was probed before and had nothing visible.
    have increasing := List.pairwise_lt_range (n := version.maxLevel)
    have inRange : source.level - 1 ∈ List.range version.maxLevel := by
      have := Version.level_le_maxLevel sourceIn
      rw [List.mem_range]
      omega
    rw [split] at increasing inRange
    rcases List.mem_append.mp inRange with early | late
    · have absent := skipped _ early
      rw [Nat.sub_add_cancel deep, sourceCovering, Option.bind_some] at absent
      have hidden := getFrom_none absent otherLive sameKey
      omega
    · rcases List.mem_cons.mp late with equal | later
      · omega
      · have order :=
          (List.pairwise_cons.mp (List.pairwise_append.mp increasing).2.1).1 _ later
        omega
  · have equal : source = ref := by
      rw [level, onLevel, covering] at sourceCovering
      exact (Option.some.inj sourceCovering).symm
    rw [equal] at otherLive
    exact newestHere other otherLive sameKey otherBound
  · have older := wf.above ref present source sourceIn below row rowIn other otherIn
      (same.trans sameKey.symm)
    omega

theorem probeFiles_some (wf : version.Wf)
    (found : probeFiles config version key readSeq = some row) :
    version.Live row ∧ row.key = key ∧ row.seq ≤ readSeq ∧
      ∀ other, version.Live other → other.key = key → other.seq ≤ readSeq →
        other.seq ≤ row.seq := by
  unfold probeFiles at found
  cases first : probeL0 config version key readSeq with
  | some hit =>
    rw [first, Option.some_or] at found
    injection found with same
    exact probeL0_some wf (same ▸ first)
  | none =>
    rw [first, Option.none_or] at found
    exact probeLevels_some wf first found

theorem probeFiles_live (found : probeFiles config version key readSeq = some row) :
    version.Live row ∧ row.key = key := by
  rcases Option.or_eq_some_iff.mp found with first | ⟨_, second⟩
  · obtain ⟨ref, listed, hit⟩ := List.exists_of_findSome?_eq_some first
    split at hit
    · obtain ⟨live, same, _⟩ := getFrom_some hit
      exact ⟨⟨ref, (Version.mem_filesAt.mp listed).1, live⟩, same⟩
    · cases hit
  · obtain ⟨index, _, hit⟩ := List.exists_of_findSome?_eq_some second
    obtain ⟨ref, covering, hit⟩ := Option.bind_eq_some_iff.mp hit
    obtain ⟨live, same, _⟩ := getFrom_some hit
    exact ⟨⟨ref, (findFileForKey_mem covering).1.1, live⟩, same⟩

theorem probeFiles_none (paths : (version.files.map DataFileMeta.path).Nodup)
    (layered : version.Layered) (missed : probeFiles config version key readSeq = none)
    (live : version.Live other) (same : other.key = key) : readSeq < other.seq := by
  obtain ⟨ref, present, inRef⟩ := live
  obtain ⟨first, second⟩ := Option.or_eq_none_iff.mp missed
  rcases Nat.eq_zero_or_pos ref.level with zero | deep
  · exact probeL0_none first present zero inRef same
  · exact probeLevels_none paths layered second present deep inRef same

end Lookup

section Scan

variable {memtables : MemtableManager} {version : Version} {start stop : Option UserKey}
  {readSeq : Nat} {entry : Entry} {row : Entry} {ref : DataFileMeta}

theorem scanOverlaps_of_mem {file : DataFile} (member : row ∈ file.rows)
    (within : Reader.inRange start stop row.key = true) : scanOverlaps start stop file = true := by
  have lower := DataFile.keyMin_le member
  have upper := DataFile.le_keyMax member
  simp only [Reader.inRange, Bool.and_eq_true, Bool.not_eq_true'] at within
  simp only [scanOverlaps, Bool.and_eq_true, Bool.not_eq_true']
  constructor
  · cases start with
    | none => rfl
    | some first =>
      have reached : first ≤ row.key := by simpa using within.1
      have := le_trans (UserKey.bytes_le.mpr reached) upper
      simp [not_lt.mpr this]
  · cases stop with
    | none => rfl
    | some bound =>
      have short : row.key < bound := by simpa using within.2
      have := lt_of_le_of_lt lower (UserKey.bytes_lt.mpr short)
      simp [not_le.mpr this]

theorem mem_scan_of_newest (live : row ∈ ref.liveRows) (visible : row.seq ≤ readSeq)
    (within : Reader.inRange start stop row.key = true)
    (top : ∀ other ∈ ref.liveRows, other.key = row.key → other.seq ≤ readSeq →
      other.seq ≤ row.seq) :
    ∃ found ∈ Reader.scan ref.file start stop readSeq ref.deletedRows,
      found ∈ ref.liveRows ∧ found.key = row.key ∧ found.seq = row.seq := by
  rw [Reader.scan_eq]
  have listed : row ∈ (liveFrom ref.deletedRows 0 ref.file.rows).filter fun row =>
      row.seq ≤ readSeq ∧ Reader.inRange start stop row.key := by
    exact List.mem_filter.mpr ⟨live, by simp [visible, within]⟩
  have sorted : ((liveFrom ref.deletedRows 0 ref.file.rows).filter fun row =>
      row.seq ≤ readSeq ∧ Reader.inRange start stop row.key).Pairwise
        (VersionOrder Entry.key Entry.seq) :=
    ((ref.file.sorted.sublist ref.liveRows_sublist).imp Entry.ikeyLe.versionOrder).filter _
  obtain ⟨kept, member, same⟩ := keepFirst_covers listed
    (show (none : Option UserKey) ≠ some row.key by simp)
  obtain ⟨keptLive, keptFacts⟩ := List.mem_filter.mp (keepFirst_subset member)
  have bounds := of_decide_eq_true keptFacts
  have upper := top kept keptLive same bounds.1
  have lower := keepFirst_newest sorted (by simp) member row listed same.symm
  exact ⟨kept, member, keptLive, same, Nat.le_antisymm upper lower⟩

theorem mem_harvest (member : entry ∈ harvest memtables version start stop readSeq) :
    Reader.inRange start stop entry.key = true ∧
      ((∃ memtable ∈ memtables.queue, entry ∈ memtable.iter readSeq) ∨
        version.Live entry ∧ entry.seq ≤ readSeq) := by
  rcases List.mem_append.mp member with inMemory | inFiles
  · obtain ⟨listed, within⟩ := List.mem_filter.mp inMemory
    obtain ⟨entries, source, inSource⟩ := List.mem_flatten.mp listed
    obtain ⟨memtable, inQueue, rfl⟩ := List.mem_map.mp source
    refine ⟨by simpa using within, .inl ⟨memtable, ?_, inSource⟩⟩
    simp only [MemtableManager.queue, List.mem_append, List.mem_cons, List.mem_reverse,
      List.not_mem_nil, or_false] at inQueue ⊢
    exact inQueue.symm
  · obtain ⟨ref, listed, inRef⟩ := List.mem_flatMap.mp inFiles
    obtain ⟨level, _, onLevel⟩ := List.mem_flatMap.mp listed
    split at inRef
    · rw [Reader.scan_eq] at inRef
      obtain ⟨live, facts⟩ := List.mem_filter.mp (keepFirst_subset inRef)
      have bounds := of_decide_eq_true facts
      exact ⟨bounds.2, .inr ⟨⟨ref, (Version.mem_filesAt.mp onLevel).1, live⟩, bounds.1⟩⟩
    · cases inRef

theorem harvest_memtable {memtable : Memtable} (queued : memtable ∈ memtables.queue)
    (listed : entry ∈ memtable.iter readSeq)
    (within : Reader.inRange start stop entry.key = true) :
    entry ∈ harvest memtables version start stop readSeq := by
  apply List.mem_append_left
  refine List.mem_filter.mpr ⟨?_, by simpa using within⟩
  refine List.mem_flatten.mpr ⟨memtable.iter readSeq, List.mem_map.mpr ⟨memtable, ?_, rfl⟩, listed⟩
  simp only [MemtableManager.queue, List.mem_append, List.mem_cons, List.mem_reverse,
    List.not_mem_nil, or_false] at queued ⊢
  exact queued.symm

theorem harvest_file (present : ref ∈ version.files)
    (listed : row ∈ Reader.scan ref.file start stop readSeq ref.deletedRows)
    (member : row ∈ ref.file.rows) (within : Reader.inRange start stop row.key = true) :
    row ∈ harvest memtables version start stop readSeq := by
  apply List.mem_append_right
  refine List.mem_flatMap.mpr ⟨ref, ?_, ?_⟩
  · exact List.mem_flatMap.mpr ⟨ref.level,
      List.mem_range.mpr (Nat.lt_succ_of_le (Version.level_le_maxLevel present)),
      Version.mem_filesAt.mpr ⟨present, rfl⟩⟩
  · rw [if_pos (scanOverlaps_of_mem member within)]
    exact listed

theorem rangeScan_ascending : (rangeScan memtables version start stop readSeq).Pairwise
    fun a b => a.key < b.key :=
  (keepFirst_ascending (Entry.sort_versions _) (by simp)).1.filter _

theorem mem_rangeScan (member : entry ∈ rangeScan memtables version start stop readSeq) :
    entry ∈ harvest memtables version start stop readSeq ∧ entry.value.opType = .put ∧
      ∀ other ∈ harvest memtables version start stop readSeq, other.key = entry.key →
        other.seq ≤ entry.seq := by
  obtain ⟨kept, shown⟩ := List.mem_filter.mp member
  have sorted := Entry.sort_versions (harvest memtables version start stop readSeq)
  refine ⟨Entry.mem_sort.mp (keepFirst_subset kept), ?_, fun other listed same => ?_⟩
  · cases operation : entry.value.opType with
    | put => rfl
    | delete => simp [operation] at shown
  · exact keepFirst_newest sorted (by simp) kept other (Entry.mem_sort.mpr listed) same

theorem rangeScan_covers (listed : entry ∈ harvest memtables version start stop readSeq)
    (put : entry.value.opType = .put)
    (top : ∀ other ∈ harvest memtables version start stop readSeq, other.key = entry.key →
      other.seq ≤ entry.seq)
    (single : ∀ other ∈ harvest memtables version start stop readSeq, other.key = entry.key →
      other.seq = entry.seq → other = entry) :
    entry ∈ rangeScan memtables version start stop readSeq := by
  have sorted := Entry.sort_versions (harvest memtables version start stop readSeq)
  obtain ⟨kept, member, same⟩ := keepFirst_covers (Entry.mem_sort.mpr listed)
    (show (none : Option UserKey) ≠ some entry.key by simp)
  have keptIn := Entry.mem_sort.mp (keepFirst_subset member)
  have lower := keepFirst_newest sorted (by simp) member entry (Entry.mem_sort.mpr listed) same.symm
  have equal := single kept keptIn same (Nat.le_antisymm (top kept keptIn same) lower)
  rw [equal] at member
  exact List.mem_filter.mpr ⟨member, by simp [put]⟩

end Scan

end Merutable
