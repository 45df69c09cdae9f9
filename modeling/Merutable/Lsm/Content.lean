import Merutable.Engine.Flush
import Merutable.Lsm.Shape

/-! What a version holds of the records written so far: the newest version of every key is live in
it, unless it is a tombstone that a compaction has dropped together with everything it hid. -/

namespace Merutable

open Foundation ReadPath

/-- No file has a row of the key, masked or not. -/
def Version.Lacks (version : Version) (key : UserKey) : Prop :=
  ∀ ref ∈ version.files, ∀ row ∈ ref.file.rows, row.key ≠ key

/-- A lookup of the key with this bound may see every row of the key in the version. -/
def Version.Visible (version : Version) (key : UserKey) (readSeq : Nat) : Prop :=
  ∀ ref ∈ version.files, ∀ row ∈ ref.file.rows, row.key = key → row.seq ≤ readSeq

instance (version : Version) (key : UserKey) (readSeq : Nat) :
    Decidable (version.Visible key readSeq) :=
  inferInstanceAs (Decidable (∀ ref ∈ version.files, ∀ row ∈ ref.file.rows, _ → _))

/-- The version has the shape readers rely on and stands for `records`. -/
structure Version.Sound (config : Config) (visibleSeq : Nat) (version : Version)
    (records : List Entry) : Prop where
  wf : version.Wf
  depth : ∀ ref ∈ version.files, ref.level ≤ config.levelTargetBytes.length + 1
  rows : ∀ ref ∈ version.files, ∀ row ∈ ref.file.rows, ∃ entry ∈ records, row = entry.persist config
  latest : ∀ key entry, newest Entry.key key records = some entry →
    version.Live (entry.persist config) ∨
      entry.value.opType = .delete ∧ entry.seq ≤ visibleSeq ∧ version.Lacks key

namespace Version.Sound

variable {config : Config} {visibleSeq readSeq : Nat} {version next : Version}
  {records : List Entry} {key : UserKey}

theorem empty (config : Config) : Version.Sound config 0 ⟨0, []⟩ [] := by
  refine ⟨⟨List.nodup_nil, ?_, ?_, ?_⟩, ?_, ?_, ?_⟩
  · intro a member
    cases member
  · intro a member
    cases member
  · intro a member
    cases member
  · intro ref member
    cases member
  · intro ref member
    cases member
  · intro key entry found
    cases found

section

variable (sound : version.Sound config visibleSeq records)
include sound

theorem mono {later : Nat} (grows : visibleSeq ≤ later) : version.Sound config later records := by
  refine ⟨sound.wf, sound.depth, sound.rows, ?_⟩
  intro key entry found
  rcases sound.latest key entry found with live | ⟨delete, visible, lacks⟩
  · exact .inl live
  · exact .inr ⟨delete, visible.trans grows, lacks⟩

theorem eq_latest (increasing : records.Pairwise fun a b => a.seq < b.seq) {ref : DataFileMeta}
    {row entry : Entry} (present : ref ∈ version.files) (member : row ∈ ref.file.rows)
    (found : newest Entry.key key records = some entry) (same : row.key = key)
    (above : entry.seq ≤ row.seq) : row = entry.persist config := by
  obtain ⟨source, listed, rfl⟩ := sound.rows ref present row member
  obtain ⟨inRecords, _, top⟩ := (newest_eq_some increasing).mp found
  rw [Entry.persist_key] at same
  rw [Entry.persist_seq] at above
  have equal := eq_of_seq_eq increasing listed inRecords
    (Nat.le_antisymm (top source listed same) above)
  rw [equal]

/-- A lookup that may see every row of the key is answered with the newest record of the key, or
misses a dropped tombstone. -/
theorem probeFiles_eq (increasing : records.Pairwise fun a b => a.seq < b.seq)
    (visible : version.Visible key readSeq) :
    probeFiles config version key readSeq =
        (newest Entry.key key records).map (Entry.persist config) ∨
      probeFiles config version key readSeq = none ∧
        ∃ entry, newest Entry.key key records = some entry ∧ entry.value.opType = .delete ∧
          entry.seq ≤ visibleSeq := by
  cases probed : probeFiles config version key readSeq with
  | some row =>
    left
    obtain ⟨⟨ref, present, live⟩, same, _, top⟩ := probeFiles_some sound.wf probed
    have member := ref.liveRows_sublist.subset live
    obtain ⟨source, listed, persisted⟩ := sound.rows ref present row member
    have sourceKey : source.key = key := by rw [← same, persisted, Entry.persist_key]
    obtain ⟨entry, found⟩ : ∃ entry, newest Entry.key key records = some entry :=
      sourceKey ▸ newest_isSome listed
    rcases sound.latest key entry found with shown | ⟨_, _, lacks⟩
    · have entryKey := Entry.persist_key_of_newest config found
      obtain ⟨other, inFiles, inRows⟩ := shown
      have bound := visible other inFiles _ (other.liveRows_sublist.subset inRows) entryKey
      have above := top _ ⟨other, inFiles, inRows⟩ entryKey bound
      rw [Entry.persist_seq] at above
      rw [sound.eq_latest increasing present member found same above, found]
      rfl
    · exact absurd same (lacks ref present row member)
  | none =>
    cases found : newest Entry.key key records with
    | none => exact .inl rfl
    | some entry =>
      right
      refine ⟨rfl, entry, rfl, ?_⟩
      rcases sound.latest key entry found with ⟨ref, present, live⟩ | ⟨delete, seen, _⟩
      · have entryKey := Entry.persist_key_of_newest config found
        have hidden := probeFiles_none sound.wf.paths sound.wf.disjoint probed
          ⟨ref, present, live⟩ entryKey
        have bound := visible ref present _ (ref.liveRows_sublist.subset live) entryKey
        omega
      · exact ⟨delete, seen⟩

end

end Version.Sound

section Flush

variable {config : Config} {visibleSeq : Nat} {version next : Version} {records : List Entry}
  {memtable : Memtable} {file : DataFile}

/-- What a flush commit makes of a version: a new file in front of the old ones, which only lose
live rows of the keys that are flushed. -/
structure Extends (config : Config) (memtable : Memtable) (file : DataFile)
    (version next : Version) : Prop where
  rows : file.rows = Flush.rows config memtable
  level : file.level = 0
  unique : (next.files.map DataFileMeta.path).Nodup
  files : ∀ ref ∈ next.files, (∃ old ∈ version.files, ref.file = old.file) ∨ ref.file = file
  added : ⟨file, none⟩ ∈ next.files
  kept : ∀ old ∈ version.files, ∃ ref ∈ next.files, ref.file = old.file ∧
    old.deletedRows ⊆ ref.deletedRows ∧ ∀ row ∈ old.liveRows,
      (∀ entry ∈ memtable.iter seqnumMax, entry.key ≠ row.key) → row ∈ ref.liveRows

theorem Flush.mem_rows (increasing : Increasing memtable.batches)
    (bounded : ∀ entry ∈ memtable.entries, entry.seq ≤ seqnumMax) (row : Entry) :
    row ∈ Flush.rows config memtable ↔ ∃ entry, row = entry.persist config ∧
      newest Entry.key entry.key memtable.entries = some entry := by
  rw [Flush.rows, List.mem_map]
  constructor
  · rintro ⟨entry, listed, rfl⟩
    exact ⟨entry, rfl, (Memtable.mem_iter_all increasing bounded).mp listed⟩
  · rintro ⟨entry, rfl, found⟩
    exact ⟨entry, (Memtable.mem_iter_all increasing bounded).mpr found, rfl⟩

theorem Flush.rows_newer (flushed : file.rows = Flush.rows config memtable) {older : Version}
    (sound : older.Sound config visibleSeq records) (increasing : Increasing memtable.batches)
    (bounded : ∀ entry ∈ memtable.entries, entry.seq ≤ seqnumMax)
    (order : ∀ a ∈ records, ∀ b ∈ memtable.entries, a.seq < b.seq) :
    ∀ row ∈ file.rows, ∀ ref ∈ older.files, ∀ other ∈ ref.file.rows, other.seq < row.seq := by
  intro row member ref present other inRef
  rw [flushed] at member
  obtain ⟨entry, rfl, found⟩ := (Flush.mem_rows increasing bounded row).mp member
  obtain ⟨source, listed, rfl⟩ := sound.rows ref present other inRef
  rw [Entry.persist_seq, Entry.persist_seq]
  exact order source listed entry (newest_mem found).1

theorem Extends.wf (flush : Extends config memtable file version next) (wf : version.Wf)
    (newer : ∀ row ∈ file.rows, ∀ ref ∈ version.files, ∀ other ∈ ref.file.rows,
      other.seq < row.seq) : next.Wf := by
  have newest : ∀ old ∈ version.files, old.file.seqMax < file.seqMin := by
    intro old present
    obtain ⟨row, member, low⟩ := file.seqMin_mem
    obtain ⟨other, inOld, high⟩ := old.file.seqMax_mem
    have := newer row member old present other inOld
    omega
  have level := flush.level
  refine ⟨flush.unique, ?_, ?_, ?_⟩
  · intro a first b second different same deep
    rcases flush.files a first with ⟨old, present, fileA⟩ | fileA
    · rcases flush.files b second with ⟨old', present', fileB⟩ | fileB
      · simp only [DataFileMeta.path, DataFileMeta.level, fileA, fileB] at different same deep ⊢
        exact wf.disjoint old present old' present' different same deep
      · simp only [DataFileMeta.level, fileB] at same deep
        omega
    · simp only [DataFileMeta.level, fileA] at deep
      omega
  · intro a first b second different zero zero'
    rcases flush.files a first with ⟨old, present, fileA⟩ | fileA
    · rcases flush.files b second with ⟨old', present', fileB⟩ | fileB
      · simp only [DataFileMeta.path, DataFileMeta.level, fileA, fileB] at different zero zero' ⊢
        exact wf.flushed old present old' present' different zero zero'
      · rw [fileA, fileB]
        exact .inl (newest old present)
    · rcases flush.files b second with ⟨old', present', fileB⟩ | fileB
      · rw [fileA, fileB]
        exact .inr (newest old' present')
      · simp only [DataFileMeta.path, fileA, fileB] at different
        exact absurd rfl different
  · intro a first b second deeper x inA y inB same
    rcases flush.files b second with ⟨old', present', fileB⟩ | fileB
    · rw [fileB] at inB
      rcases flush.files a first with ⟨old, present, fileA⟩ | fileA
      · simp only [DataFileMeta.level, fileA, fileB] at deeper
        rw [fileA] at inA
        exact wf.above old present old' present' deeper x inA y inB same
      · rw [fileA] at inA
        exact newer x inA old' present' y inB
    · simp only [DataFileMeta.level, fileB] at deeper
      omega

theorem Extends.sound (flush : Extends config memtable file version next)
    (sound : version.Sound config visibleSeq records) (increasing : Increasing memtable.batches)
    (bounded : ∀ entry ∈ memtable.entries, entry.seq ≤ seqnumMax)
    (order : ∀ a ∈ records, ∀ b ∈ memtable.entries, a.seq < b.seq) :
    next.Sound config visibleSeq (records ++ memtable.entries) := by
  have listed (row : Entry) :
    row ∈ file.rows ↔ _ := flush.rows ▸ Flush.mem_rows increasing bounded row
  refine ⟨flush.wf sound.wf (Flush.rows_newer flush.rows sound increasing bounded order),
    ?_, ?_, ?_⟩
  · intro ref member
    rcases flush.files ref member with ⟨old, present, same⟩ | same
    · rw [DataFileMeta.level, same]
      exact sound.depth old present
    · rw [DataFileMeta.level, same, flush.level]
      exact Nat.zero_le _
  · intro ref member row inRows
    rcases flush.files ref member with ⟨old, present, same⟩ | same
    · rw [same] at inRows
      obtain ⟨entry, inRecords, persisted⟩ := sound.rows old present row inRows
      exact ⟨entry, List.mem_append_left _ inRecords, persisted⟩
    · rw [same] at inRows
      obtain ⟨entry, persisted, found⟩ := (listed row).mp inRows
      exact ⟨entry, List.mem_append_right _ (newest_mem found).1, persisted⟩
  · intro key entry found
    rw [newest_append] at found
    cases flushed : newest Entry.key key memtable.entries with
    | some top =>
      rw [flushed, Option.some_or] at found
      injection found with same
      subst same
      have keyed := (newest_mem flushed).2
      subst keyed
      refine .inl ⟨⟨file, none⟩, flush.added, ?_⟩
      rw [DataFileMeta.liveRows_none]
      exact (listed (top.persist config)).mpr ⟨top, rfl, flushed⟩
    | none =>
      rw [flushed, Option.none_or] at found
      have absent : ∀ other ∈ memtable.iter seqnumMax, other.key ≠ key := by
        intro other member
        have top := (Memtable.mem_iter_all increasing bounded).mp member
        exact newest_eq_none.mp flushed other (newest_mem top).1
      rcases sound.latest key entry found with ⟨old, present, live⟩ | ⟨delete, seen, lacks⟩
      · obtain ⟨ref, member, _, _, keeps⟩ := flush.kept old present
        refine .inl ⟨ref, member, keeps _ live ?_⟩
        rw [Entry.persist_key, (newest_mem found).2]
        exact absent
      · refine .inr ⟨delete, seen, ?_⟩
        intro ref member row inRows
        rcases flush.files ref member with ⟨old, present, same⟩ | same
        · rw [same] at inRows
          exact lacks old present row inRows
        · rw [same, flush.rows, Flush.rows] at inRows
          obtain ⟨other, inIter, rfl⟩ := List.mem_map.mp inRows
          rw [Entry.persist_key]
          exact absent other inIter

end Flush

end Merutable
