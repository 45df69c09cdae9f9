import Merutable.Lsm.Base

/-! One live row a key. A flush masks the older versions of its keys in the files of the installed
version, and a job rewrites the live rows of the files it has picked; both commit onto the manifest
of the moment. -/

namespace Merutable

open Foundation Compaction

/-- Every file has one version of each key, and no key is live in two files. -/
structure SingleLive (files : List DataFileMeta) : Prop where
  ascending : ∀ ref ∈ files, ref.file.rows.Pairwise fun a b => a.key < b.key
  bounded : ∀ ref ∈ files, ∀ position ∈ ref.deletedRows, position < ref.file.rows.length
  single : ∀ a ∈ files, ∀ b ∈ files, ∀ x ∈ a.liveRows, ∀ y ∈ b.liveRows, x.key = y.key →
    a.path = b.path

section Merge

variable {config : Config} {plan : JobPlan} {readSeq firstPath : Nat} {files : List DataFileMeta}

theorem SingleLive.keys_nodup (inv : SingleLive files) {some : List DataFileMeta}
    (within : ∀ ref ∈ some, ref ∈ files) (distinct : (some.map DataFileMeta.path).Nodup) :
    ((some.map DataFileMeta.liveRows).flatten.map Entry.key).Nodup := by
  rw [List.Nodup, List.pairwise_map, List.pairwise_flatten]
  constructor
  · intro rows listed
    obtain ⟨ref, source, rfl⟩ := List.mem_map.mp listed
    have ascending := (inv.ascending ref (within ref source)).sublist ref.liveRows_sublist
    exact ascending.imp fun less => less.ne
  · rw [List.pairwise_map]
    have paths : some.Pairwise fun a b => a.path ≠ b.path := List.pairwise_map.mp distinct
    refine paths.imp_of_mem ?_
    intro a b first second different x live y live' same
    exact different (inv.single a (within a first) b (within b second) x live y live' same)

theorem SingleLive.mergedRows_ascending (inv : SingleLive files)
    (within : ∀ ref ∈ plan.sources, ref ∈ files)
    (distinct : (plan.sources.map DataFileMeta.path).Nodup) :
    (mergedRows config plan readSeq).Pairwise fun a b => a.key < b.key := by
  have apart := inv.keys_nodup within distinct
  have sorted := Entry.sort_sorted (plan.sources.map DataFileMeta.liveRows).flatten
  have keys : ((Entry.sort (plan.sources.map DataFileMeta.liveRows).flatten).map Entry.key).Nodup :=
    ((List.perm_insertionSort Entry.ikeyLe _).map Entry.key).nodup_iff.mpr apart
  have ascending : (Entry.sort (plan.sources.map DataFileMeta.liveRows).flatten).Pairwise
      fun a b => a.key < b.key := by
    have different := List.pairwise_map.mp keys
    refine (sorted.and different).imp ?_
    intro a b ordered
    exact lt_of_le_of_ne ordered.1.versionOrder.key_le ordered.2
  exact ascending.sublist (dedupe_sublist _ _ _ _)

theorem output_ascending (merged : (mergedRows config plan readSeq).Pairwise fun a b =>
    a.key < b.key)
    {file : DataFile} (written : file ∈ outputs config plan readSeq firstPath) :
    file.rows.Pairwise fun a b => a.key < b.key := by
  rw [← chunks_flatten, List.pairwise_flatten] at merged
  exact merged.1 file.rows (mem_writeChunks written).2.1

end Merge

section Commits

variable {config : Config} {s t : System} {version : Version}

theorem SingleLive.job_commit {plan : JobPlan} {readSeq firstPath : Nat} {next : Catalog}
    (inv : SingleLive s.catalog.current.live) (stored : s.Stored config)
    (within : ∀ ref ∈ plan.sources, ref ∈ s.catalog.current.live)
    (distinct : (plan.sources.map DataFileMeta.path).Nodup)
    (committed : s.catalog.commit ⟨outputs config plan readSeq firstPath,
      plan.sources.map DataFileMeta.path, []⟩ = .ok (next, version)) :
    SingleLive next.current.live := by
  have merged : (mergedRows config plan readSeq).Pairwise fun a b => a.key < b.key :=
    inv.mergedRows_ascending within distinct
  have kept := fun {ref : DataFileMeta} => (@mem_rewrite_live _ _ stored _ _ _ _ committed ref).mp
  -- A live row of an output comes from a source, so a file that stays has no live row of its key.
  have across : ∀ a ∈ s.catalog.current.live, a.path ∉ plan.sources.map DataFileMeta.path →
      ∀ file ∈ outputs config plan readSeq firstPath, ∀ x ∈ a.liveRows, ∀ y ∈ file.rows,
        x.key ≠ y.key := by
    intro a listed outside file written x live y member same
    obtain ⟨source, inSources, sourceLive⟩ := mem_mergedRows ((mem_outputs written).2.2.2 y member)
    have path := inv.single a listed source (within source inSources) x live y sourceLive same
    exact outside (path ▸ List.mem_map_of_mem inSources)
  refine ⟨?_, ?_, ?_⟩
  · intro ref live
    rcases kept live with ⟨old, _⟩ | ⟨file, written, rfl⟩
    · exact inv.ascending ref old
    · exact output_ascending merged written
  · intro ref live position masked
    rcases kept live with ⟨old, _⟩ | ⟨file, written, rfl⟩
    · exact inv.bounded ref old position masked
    · cases masked
  · intro a first b second x live y live' same
    rcases kept first with ⟨old, outside⟩ | ⟨file, written, rfl⟩
    · rcases kept second with ⟨old', _⟩ | ⟨file', written', rfl⟩
      · exact inv.single a old b old' x live y live' same
      · rw [DataFileMeta.liveRows_none] at live'
        exact absurd same (across a old outside file' written' x live y live')
    · rw [DataFileMeta.liveRows_none] at live
      rcases kept second with ⟨old', outside'⟩ | ⟨file', written', rfl⟩
      · exact absurd same.symm (across b old' outside' file written y live' x live)
      · rw [DataFileMeta.liveRows_none] at live'
        by_contra different
        have other : file ≠ file' := fun equal => different (congrArg DataFile.path equal)
        exact outputs_apart written written' other x live y live' same

theorem dvDeltas_complete {memtable : Memtable} {ref : DataFileMeta}
    (enabled : config.enableFlushDvEmission = true) (inv : SingleLive version.files)
    (present : ref ∈ version.files) {position : Nat} {row : Entry}
    (found : ref.file.rows[position]? = some row) {entry : Entry}
    (flushed : entry ∈ memtable.iter seqnumMax) (same : row.key = entry.key) :
    position ∈ ref.deletedRows ∪
      ((Flush.dvDeltas config memtable version).lookup ref.path).getD ∅ := by
  have keys := Flush.dvUserKeys_eq config memtable enabled
  have member : row.key ∈ Flush.dvUserKeys config memtable := by
    rw [keys, same]
    exact List.mem_map_of_mem flushed
  have sorted : (Flush.dvUserKeys config memtable).Pairwise (· < ·) := by
    rw [keys, List.pairwise_map]
    exact memtable.iter_ascending seqnumMax
  have nonempty := List.ne_nil_of_mem member
  have weak : (Flush.dvUserKeys config memtable).Pairwise (· ≤ ·) := sorted.imp le_of_lt
  have marked : position ∈ ref.deletedRows ∪ DvResolve.resolveFile config.lib
      (Flush.dvUserKeys config memtable) ((Flush.dvUserKeys config memtable).head nonempty)
      ((Flush.dvUserKeys config memtable).getLast nonempty) ref :=
    DvResolve.resolveFile_complete (inv.ascending ref present) (inv.bounded ref present) sorted
      (fun _ listed => weak.rel_head listed) (fun _ listed => weak.rel_getLast listed) found member
  rcases Finset.mem_union.mp marked with old | new
  · exact Finset.mem_union_left _ old
  · apply Finset.mem_union_right
    exact DvResolve.mem_resolveDvForFlush.mpr ⟨_, _, List.head?_eq_some_head nonempty,
      List.getLast?_eq_getLast_of_ne_nil nonempty, ref, present, rfl, new⟩

section Flushed

variable {memtable : Memtable} {file : DataFile} {next : Catalog} {version : Version}
  {ref old : DataFileMeta} {row : Entry}

theorem DataFileMeta.live_of_masked {masks : Finset Nat} (sameFile : ref.file = old.file)
    (deleted : ref.deletedRows = old.deletedRows ∪ masks) (live : row ∈ ref.liveRows) :
    row ∈ old.liveRows := by
  obtain ⟨position, found, unmasked⟩ := DataFileMeta.mem_liveRows.mp live
  rw [deleted, Finset.mem_union, not_or] at unmasked
  exact DataFileMeta.mem_liveRows.mpr ⟨position, sameFile ▸ found, unmasked.1⟩

theorem SingleLive.flush_masks (enabled : config.enableFlushDvEmission = true)
    (inv : SingleLive s.catalog.current.live) (listed : old ∈ s.catalog.current.live)
    (sameFile : ref.file = old.file)
    (deleted : ref.deletedRows = old.deletedRows ∪
      ((Flush.dvDeltas config memtable s.catalog.current.toVersion).lookup old.path).getD ∅)
    (live : row ∈ ref.liveRows) {entry : Entry} (flushed : entry ∈ memtable.iter seqnumMax) :
    row.key ≠ entry.key := by
  intro same
  obtain ⟨position, found, unmasked⟩ := DataFileMeta.mem_liveRows.mp live
  rw [deleted] at unmasked
  exact unmasked (dvDeltas_complete enabled inv listed (sameFile ▸ found) flushed same)

theorem SingleLive.flush_commit (enabled : config.enableFlushDvEmission = true)
    (inv : SingleLive s.catalog.current.live) (stored : s.Stored config)
    (rows : file.rows = Flush.rows config memtable)
    (committed : s.catalog.commit ⟨[file], [],
      Flush.dvDeltas config memtable s.catalog.current.toVersion⟩ = .ok (next, version)) :
    SingleLive next.current.live := by
  have kept {ref : DataFileMeta} := @flush_kept _ _ _ _ _ _ stored committed ref
  have across : ∀ {ref old : DataFileMeta}, old ∈ s.catalog.current.live → ref.file = old.file →
      ref.deletedRows = old.deletedRows ∪
        ((Flush.dvDeltas config memtable s.catalog.current.toVersion).lookup old.path).getD ∅ →
      ∀ x ∈ ref.liveRows, ∀ y ∈ file.rows, x.key ≠ y.key := by
    intro ref old listed sameFile deleted x live y member
    rw [rows, Flush.rows] at member
    obtain ⟨entry, flushed, rfl⟩ := List.mem_map.mp member
    rw [Entry.persist_key]
    exact inv.flush_masks enabled listed sameFile deleted live flushed
  refine ⟨?_, ?_, ?_⟩
  · intro ref live
    rcases kept live with ⟨old, listed, sameFile, _⟩ | rfl
    · rw [sameFile]
      exact inv.ascending old listed
    · change file.rows.Pairwise _
      rw [rows]
      exact Flush.rows_ascending config memtable
  · intro ref live position masked
    rcases kept live with ⟨old, listed, sameFile, deleted⟩ | rfl
    · rw [sameFile]
      rw [deleted] at masked
      rcases Finset.mem_union.mp masked with before | new
      · exact inv.bounded old listed position before
      · obtain ⟨_, _, _, _, target, present, samePath, marked⟩ :=
          DvResolve.mem_resolveDvForFlush.mp new
        have same : target = old :=
          List.inj_on_of_nodup_map stored.unique present listed samePath
        obtain ⟨row, found, _⟩ := DvResolve.resolveFile_sound marked
        rw [same] at found
        exact (List.getElem?_eq_some_iff.mp found).1
    · cases masked
  · intro a first b second x live y live' same
    rcases kept first with ⟨old, listed, sameFile, deleted⟩ | rfl
    · rcases kept second with ⟨old', listed', sameFile', deleted'⟩ | rfl
      · have path := inv.single old listed old' listed' x
          (DataFileMeta.live_of_masked sameFile deleted live) y
          (DataFileMeta.live_of_masked sameFile' deleted' live') same
        rw [DataFileMeta.path, DataFileMeta.path, sameFile, sameFile']
        exact path
      · rw [DataFileMeta.liveRows_none] at live'
        exact absurd same (across listed sameFile deleted x live y live')
    · rcases kept second with ⟨old', listed', sameFile', deleted'⟩ | rfl
      · rw [DataFileMeta.liveRows_none] at live
        exact absurd same.symm (across listed' sameFile' deleted' y live' x live)
      · rfl

end Flushed

end Commits

/-- A flush resolves its vectors on the latest manifest, and a job commits while its sources are
files of the latest manifest with the vectors it has merged them with. -/
def MarksLatest (s : System) : Action → Prop
  | .flush .resolve => s.version = s.catalog.current.toVersion
  | .job job .commit => ∀ plan readSeq firstPath, s.jobs job = .merged plan readSeq firstPath →
      ∀ ref ∈ plan.sources, ref ∈ s.catalog.current.live
  | _ => True

structure System.Single (config : Config) (s : System) : Prop where
  live : SingleLive s.catalog.current.live
  deltas : ∀ memtable file deltas, s.flush = .resolved memtable file deltas →
    deltas = Flush.dvDeltas config memtable s.catalog.current.toVersion

theorem initial_single (config : Config) : (System.initial config).Single config where
  live := by refine ⟨?_, ?_, ?_⟩ <;> intro ref member <;> cases member
  deltas := by intro memtable file deltas phase; cases phase

section Single

variable {config : Config} {s t : System}

theorem System.Single.step {action : Action} (enabled : config.enableFlushDvEmission = true)
    (inv : s.Single config) (base : s.Base config) (latest : MarksLatest s action)
    (fired : step config s action = some t) : t.Single config := by
  rcases step_catalog fired with catalog | rfl | ⟨job, rfl⟩
  · refine ⟨by rw [catalog]; exact inv.live, ?_⟩
    intro memtable file deltas phase
    rw [catalog]
    rcases resolved_step fired phase with before | ⟨rfl, _, rfl, _⟩
    · exact inv.deltas memtable file deltas before
    · have installed : s.version = s.catalog.current.toVersion := latest
      rw [installed]
  · change flushStep config s .commit = some t at fired
    cases flush_effect fired with
    | commit memtable file deltas catalog version phase committed =>
    have resolved := base.resolved memtable file deltas phase
    rw [inv.deltas memtable file deltas phase] at committed
    exact ⟨inv.live.flush_commit enabled base.stored resolved.rows committed, by simp⟩
  · change jobStep config s job .commit = some t at fired
    cases job_effect fired with
    | commit plan readSeq firstPath catalog version phase unlocked committed =>
    have busy : (s.jobs job).plan? = some plan := by
      rw [phase]
      rfl
    have planned := (base.locked.planned job plan busy).1
    have distinct := plan_sources_paths (base.keeps plan.version (.planned busy)).1 planned
    refine ⟨inv.live.job_commit base.stored (latest plan readSeq firstPath phase) distinct
      committed,
      ?_⟩
    intro memtable file deltas resolved
    have held : s.flush.holdsCommitLock = true := by
      rw [show s.flush = .resolved memtable file deltas from resolved]
      rfl
    rw [held] at unlocked
    cases unlocked

/-- Every committed snapshot has at most one row position of each key that is not masked. -/
theorem committed_rows_single (config : Config) (enabled : config.enableFlushDvEmission = true)
    (actions : List Action) (s : System)
    (run : Run (Merutable.step config) MarksLatest (.initial config) actions s)
    (a b : DataFileMeta) (first : a ∈ s.catalog.current.live) (second : b ∈ s.catalog.current.live)
    (p q : Nat) (x y : Entry) (found : a.file.rows[p]? = some x) (unmasked : p ∉ a.deletedRows)
    (found' : b.file.rows[q]? = some y) (unmasked' : q ∉ b.deletedRows) (same : x.key = y.key) :
    a = b ∧ p = q := by
  have invariants := run.invariant (fun s => s.Base config ∧ s.Single config)
    (fun s action t inv met fired => ⟨inv.1.step fired, inv.2.step enabled inv.1 met fired⟩)
    ⟨initial_base config, initial_single config⟩
  obtain ⟨base, single⟩ := invariants
  have path := single.live.single a first b second x
    (DataFileMeta.mem_liveRows.mpr ⟨p, found, unmasked⟩)
    y (DataFileMeta.mem_liveRows.mpr ⟨q, found', unmasked'⟩) same
  have equal : a = b := List.inj_on_of_nodup_map base.stored.unique first second path
  subst equal
  refine ⟨rfl, ?_⟩
  have ascending := single.live.ascending a first
  obtain ⟨inside, rfl⟩ := List.getElem?_eq_some_iff.mp found
  obtain ⟨inside', rfl⟩ := List.getElem?_eq_some_iff.mp found'
  rcases Nat.lt_trichotomy p q with less | equal | greater
  · exact absurd same (List.pairwise_iff_getElem.mp ascending p q inside inside' less).ne
  · exact equal
  · exact absurd same.symm (List.pairwise_iff_getElem.mp ascending q p inside' inside greater).ne

/-- A key is flushed, overwritten and picked for a second flush. -/
def overwritten : List Action :=
  Calls.write [putByte 1 1] ++ Calls.rotate ++ [.flush .pick] ++ .flush .resolve ::
    ([.flush .commit, .flush .install, .flush (.mark []), .flush .drop] ++
      Calls.write [putByte 1 2] ++ Calls.rotate ++ [.flush .pick])

def overwrittenFlushed : List Action := overwritten ++ .flush .resolve :: [.flush .commit]

theorem committed_rows_single_overwritten :
    (finalPlain overwrittenFlushed).catalog.current.live.length = 2 ∧
    ∃ a ∈ (finalPlain overwrittenFlushed).catalog.current.live,
      ∃ b ∈ (finalPlain overwrittenFlushed).catalog.current.live, ∃ (p q : Nat) (x y : Entry),
        a.file.rows[p]? = some x ∧ b.file.rows[q]? = some y ∧ x.key = y.key ∧ a = b ∧ p = q := by
  have once : Run (Merutable.step .plain) MarksLatest (.initial .plain) overwritten
      (finalPlain overwritten) := by
    refine Run.extend (.of_execute ?_ (execute_final (by decide +kernel))) (by decide +kernel) ?_ ?_
    · simp [Calls.write, Calls.rotate, MarksLatest]
    · change _ = Manifest.toVersion _
      decide +kernel
    · simp [Calls.write, Calls.rotate, MarksLatest]
  have twice : Run (Merutable.step .plain) MarksLatest (.initial .plain) overwrittenFlushed
      (finalPlain overwrittenFlushed) := by
    refine once.extend (by decide +kernel) ?_ (by simp [MarksLatest])
    change _ = Manifest.toVersion _
    decide +kernel
  have listed : (finalPlain overwrittenFlushed).catalog.current.live.get ⟨1, by decide +kernel⟩ ∈
    (finalPlain overwrittenFlushed).catalog.current.live := List.get_mem _ _
  have single := committed_rows_single .plain rfl _ _ twice _ _ listed listed 0 0 _ _ rfl
    (by decide +kernel) rfl (by decide +kernel) rfl
  exact ⟨by decide +kernel, _, listed, _, listed, 0, 0, _, _, rfl, rfl, rfl, single⟩

/-- A flush masks the only row of a file after a job has merged it, and the job commits last. -/
def maskedWhileMerging : List Action :=
  Calls.write [putByte 1 1] ++ Calls.rotate ++ Calls.runFlush ++
    [.job 0 (.pick 0), .job 0 .merge] ++
    Calls.write [putByte 1 2] ++ Calls.rotate ++ Calls.runFlush ++ [.job 0 .commit]

/-- The mask goes with the file, and the key is live in the output and in the new file. -/
theorem committed_rows_doubled : ∃ s, runFrom .plain maskedWhileMerging = some s ∧
    ∃ a ∈ s.catalog.current.live, ∃ b ∈ s.catalog.current.live, ∃ (p q : Nat) (x y : Entry),
      a.file.rows[p]? = some x ∧ p ∉ a.deletedRows ∧ b.file.rows[q]? = some y ∧ q ∉ b.deletedRows ∧
        x.key = y.key ∧ a ≠ b :=
  ⟨_, execute_final (by decide +kernel),
    (finalPlain maskedWhileMerging).catalog.current.live.get ⟨0, by decide +kernel⟩,
      List.get_mem _ _,
    (finalPlain maskedWhileMerging).catalog.current.live.get ⟨1, by decide +kernel⟩,
      List.get_mem _ _,
    0, 0, _, _, rfl, by decide +kernel, rfl, by decide +kernel, by decide +kernel,
    by decide +kernel⟩

end Single

end Merutable
