import Merutable.Engine.Compaction
import Merutable.Lsm.Content

/-! What a compaction commit makes of the manifest. The job was planned on an older version; in the
meantime flushes may have added level-0 files and masked rows of its sources, but no other job has
touched its two levels. -/

namespace Merutable

open Foundation Compaction

/-- On this level the manifest has the files of the version, with perhaps more rows masked, and else
only level-0 files that are newer than all of the version. -/
structure Agree (version current : Version) (level : Nat) : Prop where
  forward : ∀ ref ∈ version.files, ref.level = level →
    ∃ now ∈ current.files, now.file = ref.file ∧ ref.deletedRows ⊆ now.deletedRows
  backward : ∀ now ∈ current.files, now.level = level →
    (∃ ref ∈ version.files, ref.file = now.file) ∨
      level = 0 ∧ ∀ row ∈ now.file.rows, ∀ ref ∈ version.files, ∀ other ∈ ref.file.rows,
        other.seq < row.seq

theorem Agree.refl (version : Version) (level : Nat) : Agree version version level :=
  ⟨fun ref present _ => ⟨ref, present, rfl, Finset.Subset.refl _⟩,
    fun now present _ => .inl ⟨now, present, rfl⟩⟩

theorem Agree.flush {config : Config} {memtable : Memtable} {file : DataFile}
    {version current next : Version} {level : Nat} (agrees : Agree version current level)
    (flush : Extends config memtable file current next)
    (newer : ∀ row ∈ file.rows, ∀ ref ∈ version.files, ∀ other ∈ ref.file.rows,
      other.seq < row.seq) : Agree version next level := by
  refine ⟨?_, ?_⟩
  · intro ref present onLevel
    obtain ⟨now, nowIn, same, masks⟩ := agrees.forward ref present onLevel
    obtain ⟨later, laterIn, sameLater, masksLater, _⟩ := flush.kept now nowIn
    exact ⟨later, laterIn, sameLater.trans same, masks.trans masksLater⟩
  · intro now present onLevel
    rcases flush.files now present with ⟨old, oldIn, same⟩ | same
    · rw [DataFileMeta.level, same] at onLevel
      rw [same]
      exact agrees.backward old oldIn onLevel
    · rw [DataFileMeta.level, same, flush.level] at onLevel
      rw [same]
      exact .inr ⟨onLevel.symm, newer⟩

section Ranges

variable {config : Config} {plan : JobPlan} {readSeq firstPath : Nat} {own : DataFileMeta}

theorem plan_aside (planned : Compaction.plan config plan.version plan.inputLevel = some plan)
    (paths : (plan.version.files.map DataFileMeta.path).Nodup) (layered : plan.version.Layered)
    (there : own ∈ plan.version.files) (level : own.level = plan.outputLevel)
    (outside : own ∉ plan.sources) :
    (∀ ref ∈ plan.sources, own.file.keyMax < ref.file.keyMin) ∨
      ∀ ref ∈ plan.sources, ref.file.keyMax < own.file.keyMin := by
  obtain ⟨low, high, inputs, overlap, apart⟩ := plan_range planned
  have deep : 1 ≤ own.level := by
    rw [level]
    exact Nat.succ_le_succ (Nat.zero_le _)
  have notPulled : own ∉ plan.overlap := fun pulled => outside (List.mem_append_right _ pulled)
  -- The pulled files meet the range of the inputs, so they are on the far side of `own` too.
  have separate : ∀ ref ∈ plan.overlap,
      own.file.keyMax < ref.file.keyMin ∨ ref.file.keyMax < own.file.keyMin := by
    intro ref pulled
    obtain ⟨refPresent, refLevel⟩ := mem_plan_overlap planned pulled
    have different : own.path ≠ ref.path := by
      intro samePath
      have equal := List.inj_on_of_nodup_map paths there refPresent samePath
      exact notPulled (equal ▸ pulled)
    exact layered own there ref refPresent different (level.trans refLevel.symm) deep
  rcases apart own there level notPulled with left | right
  · left
    intro ref source
    rcases List.mem_append.mp source with picked | pulled
    · exact lt_of_lt_of_le left (inputs ref picked).1
    · rcases separate ref pulled with after | before
      · exact after
      · have := lt_of_lt_of_le (lt_of_le_of_lt (overlap ref pulled).2 before)
          own.file.keyMin_le_keyMax
        exact absurd left (not_lt.mpr this.le)
  · right
    intro ref source
    rcases List.mem_append.mp source with picked | pulled
    · exact lt_of_le_of_lt (inputs ref picked).2 right
    · rcases separate ref pulled with after | before
      · have := lt_of_le_of_lt own.file.keyMin_le_keyMax
          (lt_of_lt_of_le after (overlap ref pulled).1)
        exact absurd right (not_lt.mpr this.le)
      · exact before

theorem output_aside {file : DataFile} (written : file ∈ outputs config plan readSeq firstPath)
    (aside : (∀ ref ∈ plan.sources, own.file.keyMax < ref.file.keyMin) ∨
      ∀ ref ∈ plan.sources, ref.file.keyMax < own.file.keyMin) :
    own.file.keyMax < file.keyMin ∨ file.keyMax < own.file.keyMin := by
  have merged : ∀ row ∈ file.rows, ∃ ref ∈ plan.sources, row ∈ ref.file.rows := by
    intro row member
    obtain ⟨ref, source, live⟩ := mem_mergedRows ((mem_outputs written).2.2.2 row member)
    exact ⟨ref, source, ref.liveRows_sublist.subset live⟩
  rcases aside with left | right
  · left
    obtain ⟨first, member, lowest⟩ := file.keyMin_mem
    obtain ⟨ref, source, inSource⟩ := merged first member
    rw [← lowest]
    exact lt_of_lt_of_le (left ref source) (DataFile.keyMin_le inSource)
  · right
    obtain ⟨last, member, highest⟩ := file.keyMax_mem
    obtain ⟨ref, source, inSource⟩ := merged last member
    rw [← highest]
    exact lt_of_le_of_lt (DataFile.le_keyMax inSource) (right ref source)

/-- A commit keeps the ranges disjoint if what stays on the output level is aside of the sources. -/
theorem Version.Layered.rewrite {current next : Version} (layered : current.Layered)
    (files : ∀ ref ∈ next.files,
      (ref ∈ current.files ∧ ref.path ∉ plan.sources.map DataFileMeta.path) ∨
        ∃ file ∈ outputs config plan readSeq firstPath, ref = ⟨file, none⟩)
    (aside : ∀ now ∈ current.files, now.path ∉ plan.sources.map DataFileMeta.path →
      now.level = plan.outputLevel → (∀ ref ∈ plan.sources, now.file.keyMax < ref.file.keyMin) ∨
        ∀ ref ∈ plan.sources, ref.file.keyMax < now.file.keyMin) : next.Layered := by
  intro a first b second different same deep
  rcases files a first with ⟨present, kept⟩ | ⟨file, written, rfl⟩
  · rcases files b second with ⟨present', _⟩ | ⟨file', written', rfl⟩
    · exact layered a present b present' different same deep
    · have level := same.trans (mem_outputs written').1
      exact output_aside written' (aside a present kept level)
  · rcases files b second with ⟨present', kept'⟩ | ⟨file', written', rfl⟩
    · have level := same.symm.trans (mem_outputs written).1
      exact (output_aside written (aside b present' kept' level)).symm
    · have other : file ≠ file' := fun equal => different (by rw [equal])
      exact outputs_separate written written' other

end Ranges

/-- The job replaces its sources by its outputs. -/
structure Rewrites (config : Config) (plan : JobPlan) (readSeq firstPath : Nat)
    (current next : Version) : Prop where
  planned : Compaction.plan config plan.version plan.inputLevel = some plan
  shape : plan.version.Wf
  input : Agree plan.version current plan.inputLevel
  output : Agree plan.version current plan.outputLevel
  files : ∀ ref, ref ∈ next.files ↔
    (ref ∈ current.files ∧ ref.path ∉ plan.sources.map DataFileMeta.path) ∨
      ∃ file ∈ outputs config plan readSeq firstPath, ref = ⟨file, none⟩
  unique : (next.files.map DataFileMeta.path).Nodup

namespace Rewrites

variable {config : Config} {plan : JobPlan} {readSeq firstPath visibleSeq : Nat}
  {current next : Version} {records : List Entry} {ref now : DataFileMeta} {row other : Entry}
  {key : UserKey} {entry : Entry}

section

variable (job : Rewrites config plan readSeq firstPath current next)
include job

theorem source_present (source : ref ∈ plan.sources) : ref ∈ plan.version.files ∧
      (ref ∈ plan.inputs ∧ ref.level = plan.inputLevel ∨
        ref ∈ plan.overlap ∧ ref.level = plan.outputLevel) := by
  rcases List.mem_append.mp source with picked | pulled
  · obtain ⟨present, level⟩ := mem_plan_inputs job.planned picked
    exact ⟨present, .inl ⟨picked, level⟩⟩
  · obtain ⟨present, level⟩ := mem_plan_overlap job.planned pulled
    exact ⟨present, .inr ⟨pulled, level⟩⟩

theorem source_now (source : ref ∈ plan.sources) :
    ∃ now ∈ current.files, now.file = ref.file ∧ ref.deletedRows ⊆ now.deletedRows := by
  obtain ⟨present, ⟨_, level⟩ | ⟨_, level⟩⟩ := job.source_present source
  · exact job.input.forward ref present level
  · exact job.output.forward ref present level

theorem agree (paths : (current.files.map DataFileMeta.path).Nodup) {version : Version}
    {level : Nat} (agrees : Agree version current level) (input : level ≠ plan.inputLevel)
    (output : level ≠ plan.outputLevel) : Agree version next level := by
  refine ⟨?_, ?_⟩
  · intro ref present onLevel
    obtain ⟨now, nowIn, same, masks⟩ := agrees.forward ref present onLevel
    refine ⟨now, (job.files now).mpr (.inl ⟨nowIn, ?_⟩), same, masks⟩
    intro removed
    obtain ⟨source, listed, samePath⟩ := List.mem_map.mp removed
    obtain ⟨own, ownIn, sameFile, _⟩ := job.source_now listed
    have equal : own = now := by
      apply List.inj_on_of_nodup_map paths ownIn nowIn
      rw [← samePath, DataFileMeta.path, sameFile]
      rfl
    have sourceLevel : source.level = level := by
      rw [DataFileMeta.level, ← sameFile, equal, same]
      exact onLevel
    obtain ⟨_, ⟨_, there⟩ | ⟨_, there⟩⟩ := job.source_present listed
    · exact input (sourceLevel.symm.trans there)
    · exact output (sourceLevel.symm.trans there)
  · intro now present onLevel
    rcases (job.files now).mp present with ⟨old, _⟩ | ⟨file, written, rfl⟩
    · exact agrees.backward now old onLevel
    · exact absurd (onLevel.symm.trans (mem_outputs written).1) output

section

variable (present : now ∈ current.files) (kept : now.path ∉ plan.sources.map DataFileMeta.path)
include present kept

theorem kept_present (level : now.level = plan.inputLevel ∨ now.level = plan.outputLevel) :
    (∃ ref ∈ plan.version.files, ref.file = now.file ∧ ref ∉ plan.sources) ∨
      now.level = 0 ∧ ∀ row ∈ now.file.rows, ∀ ref ∈ plan.version.files,
        ∀ other ∈ ref.file.rows, other.seq < row.seq := by
  have outside : ∀ ref : DataFileMeta, ref.file = now.file → ref ∉ plan.sources := by
    intro ref same source
    apply kept
    rw [DataFileMeta.path, ← same]
    exact List.mem_map_of_mem source
  rcases level with level | level
  · rcases job.input.backward now present level with ⟨ref, there, same⟩ | ⟨zero, newer⟩
    · exact .inl ⟨ref, there, same, outside ref same⟩
    · exact .inr ⟨level.trans zero, newer⟩
  · rcases job.output.backward now present level with ⟨ref, there, same⟩ | ⟨zero, _⟩
    · exact .inl ⟨ref, there, same, outside ref same⟩
    · cases zero

theorem kept_range (level : now.level = plan.outputLevel) :
    (∀ ref ∈ plan.sources, now.file.keyMax < ref.file.keyMin) ∨
      ∀ ref ∈ plan.sources, ref.file.keyMax < now.file.keyMin := by
  have deep : 1 ≤ now.level := by
    rw [level]
    exact Nat.succ_le_succ (Nat.zero_le _)
  rcases job.kept_present present kept (.inr level) with ⟨own, there, same, outside⟩ | ⟨zero, _⟩
  swap
  · omega
  rw [DataFileMeta.level, ← same] at level
  rw [← same]
  exact plan_aside job.planned job.shape.paths job.shape.disjoint there level outside

theorem kept_apart (level : now.level = plan.outputLevel) (source : ref ∈ plan.sources)
    (member : row ∈ now.file.rows) (inSource : other ∈ ref.file.rows) : row.key ≠ other.key := by
  intro same
  have bounds := DataFile.keyMin_le member
  have bounds' := DataFile.le_keyMax member
  have limits := DataFile.keyMin_le inSource
  have limits' := DataFile.le_keyMax inSource
  rw [same] at bounds bounds'
  rcases job.kept_range present kept level with left | right
  · exact absurd (left ref source) (not_lt.mpr (limits.trans bounds'))
  · exact absurd (right ref source) (not_lt.mpr (bounds.trans limits'))

theorem kept_newer (level : now.level = plan.inputLevel) (picked : ref ∈ plan.inputs)
    (member : row ∈ now.file.rows) (inSource : other ∈ ref.file.rows) (same : row.key = other.key) :
    other.seq < row.seq := by
  obtain ⟨refPresent, refLevel⟩ := mem_plan_inputs job.planned picked
  rcases job.kept_present present kept (.inl level) with ⟨own, there, sameFile, outside⟩ |
    ⟨_, newer⟩
  swap
  · exact newer row member ref refPresent other inSource
  rw [← sameFile] at member
  have ownLevel : own.level = plan.inputLevel := by
    rw [DataFileMeta.level, sameFile]
    exact level
  have notPicked : own ∉ plan.inputs := fun inputs => outside (List.mem_append_left _ inputs)
  have different : own.path ≠ ref.path := by
    intro samePath
    have equal := List.inj_on_of_nodup_map job.shape.paths there refPresent samePath
    exact notPicked (equal ▸ picked)
  rcases Nat.eq_zero_or_pos plan.inputLevel with zero | deep
  · have low := DataFile.seqMin_le member
    have high := DataFile.le_seqMax inSource
    have span := own.file.seqMin_le_seqMax
    rcases job.shape.flushed own there ref refPresent different (ownLevel.trans zero)
      (refLevel.trans zero) with older | younger
    · have planned := job.planned
      rw [zero] at planned
      have before : own.file.seqMin < ref.file.seqMin := by omega
      exact absurd (plan_oldest job.shape.paths planned picked there (ownLevel.trans zero) before)
        notPicked
    · omega
  · have low := DataFile.keyMin_le member
    have high := DataFile.le_keyMax member
    have low' := DataFile.keyMin_le inSource
    have high' := DataFile.le_keyMax inSource
    rw [same] at low high
    rcases job.shape.disjoint own there ref refPresent different (ownLevel.trans refLevel.symm)
      (by omega) with left | right
    · exact absurd left (not_lt.mpr (low'.trans high))
    · exact absurd right (not_lt.mpr (low.trans high'))

end

theorem kept_above (wf : current.Wf) (present : now ∈ current.files)
    (kept : now.path ∉ plan.sources.map DataFileMeta.path) (level : now.level ≤ plan.inputLevel)
    (source : ref ∈ plan.sources) (member : row ∈ now.file.rows) (inSource : other ∈ ref.file.rows)
    (same : row.key = other.key) :
    other.seq < row.seq := by
  obtain ⟨source', sourceIn, sameFile, _⟩ := job.source_now source
  have refLevel : ref.level = source'.level := by rw [DataFileMeta.level, ← sameFile]; rfl
  have outputLevel : plan.outputLevel = plan.inputLevel + 1 := rfl
  obtain ⟨_, ⟨picked, sourceLevel⟩ | ⟨_, sourceLevel⟩⟩ := job.source_present source
  · rcases Nat.lt_or_eq_of_le level with less | equal
    · exact wf.above now present source' sourceIn (by omega) row member other
        (sameFile ▸ inSource) same
    · exact job.kept_newer present kept equal picked member inSource same
  · exact wf.above now present source' sourceIn (by omega) row member other
      (sameFile ▸ inSource) same

theorem output_source {file : DataFile} (written : file ∈ outputs config plan readSeq firstPath)
    (member : row ∈ file.rows) :
    ∃ ref ∈ plan.sources, row ∈ ref.file.rows ∧
      ∃ now ∈ current.files, now.file = ref.file ∧
        (now.level = plan.inputLevel ∨ now.level = plan.outputLevel) := by
  obtain ⟨ref, source, live⟩ := mem_mergedRows ((mem_outputs written).2.2.2 row member)
  obtain ⟨now, present, same, _⟩ := job.source_now source
  refine ⟨ref, source, ref.liveRows_sublist.subset live, now, present, same, ?_⟩
  rw [DataFileMeta.level, same]
  obtain ⟨_, ⟨_, level⟩ | ⟨_, level⟩⟩ := job.source_present source
  · exact .inl level
  · exact .inr level

theorem wf (wf : current.Wf) :
    next.Wf := by
  have outputLevel : plan.outputLevel = plan.inputLevel + 1 := rfl
  have fileLevel : ∀ file ∈ outputs config plan readSeq firstPath, file.level = plan.outputLevel :=
    fun file written => (mem_outputs written).1
  refine ⟨job.unique, Version.Layered.rewrite wf.disjoint (fun ref => (job.files ref).mp)
    (fun _ present kept level => job.kept_range present kept level), ?_, ?_⟩
  · intro a first b second different zero zero'
    rcases (job.files a).mp first with ⟨present, _⟩ | ⟨file, written, rfl⟩
    · rcases (job.files b).mp second with ⟨present', _⟩ | ⟨file', written', rfl⟩
      · exact wf.flushed a present b present' different zero zero'
      · have level := (fileLevel file' written').symm.trans zero'
        omega
    · have level := (fileLevel file written).symm.trans zero
      omega
  · intro a first b second deeper x inA y inB same
    rcases (job.files a).mp first with ⟨present, kept⟩ | ⟨file, written, rfl⟩
    · rcases (job.files b).mp second with ⟨present', _⟩ | ⟨file', written', rfl⟩
      · exact wf.above a present b present' deeper x inA y inB same
      · obtain ⟨ref, source, inSource, _⟩ := job.output_source written' inB
        have level := fileLevel file' written'
        have shallow : a.level < file'.level := deeper
        exact job.kept_above wf present kept (by omega) source inA inSource same
    · have level := fileLevel file written
      have deep : file.level < b.level := deeper
      rcases (job.files b).mp second with ⟨present', _⟩ | ⟨file', written', rfl⟩
      · obtain ⟨ref, _, inSource, now, nowIn, sameFile, nowLevel⟩ := job.output_source written inA
        rw [← sameFile] at inSource
        exact wf.above now nowIn b present' (by omega) x inSource y inB same
      · have level' := fileLevel file' written'
        have : file.level < file'.level := deep
        omega

/-- The newest record of a key, live in a source, is merged unless it is a tombstone to drop, and
then no row of the key is left. -/
theorem merged_latest (sound : current.Sound config visibleSeq records)
    (increasing : records.Pairwise fun a b => a.seq < b.seq)
    (found : newest Entry.key key records = some entry) (source : ref ∈ plan.sources)
    (live : entry.persist config ∈ ref.liveRows) :
    entry.persist config ∈ mergedRows config plan readSeq ∨
      shouldDropTombstones config plan.outputLevel = true ∧ entry.value.opType = .delete ∧
        entry.seq < readSeq ∧ ∀ row ∈ mergedRows config plan readSeq, row.key ≠ key := by
  have keyed := (newest_mem found).2
  have present : entry.persist config ∈
      Entry.sort (plan.sources.map DataFileMeta.liveRows).flatten := by
    rw [Entry.mem_sort, List.mem_flatten]
    exact ⟨ref.liveRows, List.mem_map_of_mem source, live⟩
  have provenance : ∀ row ∈ Entry.sort (plan.sources.map DataFileMeta.liveRows).flatten,
      ∃ now ∈ current.files, row ∈ now.file.rows := by
    intro row member
    rw [Entry.mem_sort, List.mem_flatten] at member
    obtain ⟨rows, listed, inRows⟩ := member
    obtain ⟨other, inSources, rfl⟩ := List.mem_map.mp listed
    obtain ⟨now, nowIn, sameFile, _⟩ := job.source_now inSources
    exact ⟨now, nowIn, sameFile ▸ other.liveRows_sublist.subset inRows⟩
  have top : ∀ row ∈ Entry.sort (plan.sources.map DataFileMeta.liveRows).flatten,
      row.key = (entry.persist config).key → row.seq ≤ (entry.persist config).seq := by
    intro row member same
    obtain ⟨now, nowIn, inRows⟩ := provenance row member
    obtain ⟨record, listed, rfl⟩ := sound.rows now nowIn row inRows
    rw [Entry.persist_key, Entry.persist_key, keyed] at same
    rw [Entry.persist_seq, Entry.persist_seq]
    exact ((newest_eq_some increasing).mp found).2.2 record listed same
  have single : ∀ row ∈ Entry.sort (plan.sources.map DataFileMeta.liveRows).flatten,
      row.key = (entry.persist config).key → row.seq = (entry.persist config).seq →
        row = entry.persist config := by
    intro row member same sameSeq
    obtain ⟨now, nowIn, inRows⟩ := provenance row member
    rw [Entry.persist_key, keyed] at same
    rw [Entry.persist_seq] at sameSeq
    exact sound.eq_latest increasing nowIn inRows found same sameSeq.ge
  have sorted := Entry.sort_sorted (plan.sources.map DataFileMeta.liveRows).flatten
  have newest := @dedupe_newest readSeq (shouldDropTombstones config plan.outputLevel) none _ _
    sorted present (by simp) top single
  split at newest
  · rename_i dropped
    right
    have gone : ∀ row ∈ mergedRows config plan readSeq, row.key ≠ (entry.persist config).key :=
      dedupe_dropped sorted newest
    rw [Entry.persist_opType, Entry.persist_seq] at dropped
    rw [Entry.persist_key, keyed] at gone
    exact ⟨dropped.1, dropped.2.1, dropped.2.2, gone⟩
  · exact .inl newest

/-- Nothing of the key is left outside the sources when its newest record is live in one of them and
nothing lies below the output level. -/
theorem kept_lacks (sound : current.Sound config visibleSeq records)
    (increasing : records.Pairwise fun a b => a.seq < b.seq)
    (found : newest Entry.key key records = some entry) (source : ref ∈ plan.sources)
    (member : entry.persist config ∈ ref.file.rows)
    (bottom : shouldDropTombstones config plan.outputLevel = true) (present : now ∈ current.files)
    (kept : now.path ∉ plan.sources.map DataFileMeta.path) :
    ∀ row ∈ now.file.rows, row.key ≠ key := by
  intro row inRows same
  have keyed := Entry.persist_key_of_newest config found
  obtain ⟨record, listed, persisted⟩ := sound.rows now present row inRows
  have older : row.seq ≤ entry.seq := by
    rw [persisted, Entry.persist_key] at same
    rw [persisted, Entry.persist_seq]
    exact ((newest_eq_some increasing).mp found).2.2 record listed same
  have depth := sound.depth now present
  have lowest : config.levelTargetBytes.length < plan.outputLevel := of_decide_eq_true bottom
  have outputLevel : plan.outputLevel = plan.inputLevel + 1 := rfl
  rcases Nat.lt_or_ge plan.inputLevel now.level with below | above
  · exact job.kept_apart present kept (by omega) source inRows member (same.trans keyed.symm)
  · have newer := job.kept_above sound.wf present kept above source inRows member
      (same.trans keyed.symm)
    rw [Entry.persist_seq] at newer
    omega

theorem sound (sound : current.Sound config visibleSeq records)
    (increasing : records.Pairwise fun a b => a.seq < b.seq) (seen : readSeq ≤ visibleSeq)
    (depth : plan.inputLevel ≤ config.levelTargetBytes.length) :
    next.Sound config visibleSeq records := by
  refine ⟨job.wf sound.wf, ?_, ?_, ?_⟩
  · intro ref member
    rcases (job.files ref).mp member with ⟨present, _⟩ | ⟨file, written, rfl⟩
    · exact sound.depth ref present
    · have level : file.level = plan.inputLevel + 1 := (mem_outputs written).1
      change file.level ≤ _
      omega
  · intro ref member row inRows
    rcases (job.files ref).mp member with ⟨present, _⟩ | ⟨file, written, rfl⟩
    · exact sound.rows ref present row inRows
    · obtain ⟨ref, _, inSource, now, present, sameFile, _⟩ := job.output_source written inRows
      exact sound.rows now present row (sameFile ▸ inSource)
  · intro key entry found
    rcases sound.latest key entry found with ⟨now, present, live⟩ | ⟨delete, visible, lacks⟩
    · by_cases kept : now.path ∈ plan.sources.map DataFileMeta.path
      swap
      · exact .inl ⟨now, (job.files now).mpr (.inl ⟨present, kept⟩), live⟩
      obtain ⟨ref, source, samePath⟩ := List.mem_map.mp kept
      obtain ⟨now', present', sameFile, masks⟩ := job.source_now source
      have equal : now' = now := by
        apply List.inj_on_of_nodup_map sound.wf.paths present' present
        rw [← samePath, DataFileMeta.path, sameFile]
        rfl
      subst equal
      have liveThen : entry.persist config ∈ ref.liveRows := by
        obtain ⟨position, at', unmasked⟩ := DataFileMeta.mem_liveRows.mp live
        exact DataFileMeta.mem_liveRows.mpr
          ⟨position, sameFile ▸ at', fun masked => unmasked (masks masked)⟩
      rcases job.merged_latest sound increasing found source liveThen with
        merged | ⟨bottom, delete, old, gone⟩
      · obtain ⟨file, written, inFile⟩ := outputs_cover merged
        refine .inl ⟨⟨file, none⟩, (job.files _).mpr (.inr ⟨file, written, rfl⟩), ?_⟩
        rw [DataFileMeta.liveRows_none]
        exact inFile
      · refine .inr ⟨delete, by omega, ?_⟩
        intro ref' member row inRows
        rcases (job.files ref').mp member with ⟨there, stays⟩ | ⟨file, written, rfl⟩
        · exact job.kept_lacks sound increasing found source
            (ref.liveRows_sublist.subset liveThen) bottom there stays row inRows
        · exact gone row ((mem_outputs written).2.2.2 row inRows)
    · refine .inr ⟨delete, visible, ?_⟩
      intro ref member row inRows
      rcases (job.files ref).mp member with ⟨present, _⟩ | ⟨file, written, rfl⟩
      · exact lacks ref present row inRows
      · obtain ⟨ref, _, inSource, now, present, sameFile, _⟩ := job.output_source written inRows
        exact lacks now present row (sameFile ▸ inSource)

end

end Rewrites

end Merutable
