import Merutable.Lsm.Sequential
import Merutable.Lsm.Single

/-! A manifest that shows exactly the newest record of every key, tombstones apart. With deletion
vectors on, flushes and compactions that follow each other keep it that way, whatever the order of
the sequence numbers in the files. -/

namespace Merutable

open Foundation Compaction ReadPath

section SingleLive

variable {files : List DataFileMeta}

theorem SingleLive.eq_of_key (inv : SingleLive files) (paths : (files.map DataFileMeta.path).Nodup)
    {a b : DataFileMeta} (first : a ∈ files) (second : b ∈ files) {x y : Entry}
    (live : x ∈ a.liveRows) (live' : y ∈ b.liveRows) (same : x.key = y.key) : x = y := by
  have path := inv.single a first b second x live y live' same
  have equal : a = b := List.inj_on_of_nodup_map paths first second path
  subst equal
  have ascending := (inv.ascending a first).sublist a.liveRows_sublist
  have keys : (a.liveRows.map Entry.key).Nodup := by
    rw [List.Nodup, List.pairwise_map]
    exact ascending.imp fun less => less.ne
  exact List.inj_on_of_nodup_map keys live live' same

theorem SingleLive.mem_mergedRows {config : Config} {plan : JobPlan} {readSeq : Nat}
    (inv : SingleLive files) (paths : (files.map DataFileMeta.path).Nodup)
    (within : ∀ ref ∈ plan.sources, ref ∈ files) {ref : DataFileMeta} (source : ref ∈ plan.sources)
    {row : Entry} (live : row ∈ ref.liveRows) (put : row.value.opType = .put) :
    row ∈ mergedRows config plan readSeq := by
  have only : ∀ other ∈ Entry.sort (plan.sources.map DataFileMeta.liveRows).flatten,
      other.key = row.key → other = row := by
    intro other member same
    obtain ⟨rows, listed, inRows⟩ := List.mem_flatten.mp (Entry.mem_sort.mp member)
    obtain ⟨origin, isSource, rfl⟩ := List.mem_map.mp listed
    exact inv.eq_of_key paths (within origin isSource) (within ref source) inRows live same
  refine (if_neg ?_).mp (dedupe_newest (Entry.sort_sorted _) ?_ (by simp) ?_ ?_)
  · simp [put]
  · exact Entry.mem_sort.mpr (List.mem_flatten.mpr ⟨_, List.mem_map_of_mem source, live⟩)
  · intro other member same
    rw [only other member same]
  · intro other member same _
    exact only other member same

end SingleLive

/-- The live rows are the newest of `records`, of each key at most one. A tombstone may be
missing. -/
structure Version.Exact (config : Config) (version : Version) (records : List Entry) : Prop where
  paths : (version.files.map DataFileMeta.path).Nodup
  layered : version.Layered
  single : SingleLive version.files
  sound : ∀ row, version.Live row →
    ∃ entry, newest Entry.key entry.key records = some entry ∧ row = entry.persist config
  complete : ∀ entry, newest Entry.key entry.key records = some entry →
    entry.value.opType = .put → version.Live (entry.persist config)

namespace Version.Exact

variable {config : Config} {version : Version} {records : List Entry}

theorem empty (config : Config) (snapshotId : Nat) : Version.Exact config ⟨snapshotId, []⟩ [] where
  paths := List.nodup_nil
  layered := by intro a member; cases member
  single := by refine ⟨?_, ?_, ?_⟩ <;> intro ref member <;> cases member
  sound := by
    intro row live
    obtain ⟨ref, member, _⟩ := live
    cases member
  complete := by intro entry found; cases found

theorem congr (exact : version.Exact config records) {others : List Entry}
    (same : ∀ key, newest Entry.key key others = newest Entry.key key records) :
    version.Exact config others where
  paths := exact.paths
  layered := exact.layered
  single := exact.single
  sound row live := by
    obtain ⟨entry, found, persisted⟩ := exact.sound row live
    exact ⟨entry, (same _).trans found, persisted⟩
  complete entry found put := exact.complete entry ((same _).symm.trans found) put

theorem probeFiles_row (exact : version.Exact config records) {key : UserKey} {readSeq : Nat}
    (visible : ∀ row, version.Live row → row.key = key → row.seq ≤ readSeq) :
    ((probeFiles config version key readSeq).bind fun row => row.value.row?) =
      (newest Entry.key key records).bind fun entry => entry.value.row? := by
  cases probed : probeFiles config version key readSeq with
  | some row =>
    obtain ⟨live, rfl⟩ := probeFiles_live probed
    obtain ⟨entry, found, rfl⟩ := exact.sound row live
    rw [Entry.persist_key, found, Option.bind_some, Option.bind_some, Entry.persist_row]
  | none =>
    cases found : newest Entry.key key records with
    | none => rfl
    | some entry =>
      cases value : entry.value with
      | delete preimage =>
        rw [Option.bind_some, value]
        rfl
      | put row =>
        have keyed := (newest_mem found).2
        have live := exact.complete entry (keyed ▸ found) (by rw [value]; rfl)
        have sameKey : (entry.persist config).key = key := by rw [Entry.persist_key, keyed]
        have hidden := probeFiles_none exact.paths exact.layered probed live sameKey
        exact absurd (visible _ live sameKey) (not_le.mpr hidden)

end Version.Exact

theorem Version.Sound.exact {config : Config} {visibleSeq : Nat} {version : Version}
    {records : List Entry} (sound : version.Sound config visibleSeq records)
    (single : SingleLive version.files) : version.Exact config records where
  paths := sound.wf.paths
  layered := sound.wf.disjoint
  single := single
  sound := by
    intro row live
    obtain ⟨ref, present, inRef⟩ := live
    have member := ref.liveRows_sublist.subset inRef
    obtain ⟨source, listed, rfl⟩ := sound.rows ref present row member
    obtain ⟨top, found⟩ : ∃ top, newest Entry.key source.key records = some top :=
      newest_isSome listed
    have keyed := (newest_mem found).2
    rcases sound.latest source.key top found with ⟨other, present', shown⟩ | ⟨_, _, lacks⟩
    · refine ⟨top, keyed ▸ found, ?_⟩
      refine single.eq_of_key sound.wf.paths present present' inRef shown ?_
      rw [Entry.persist_key, Entry.persist_key, keyed]
    · exact absurd (Entry.persist_key ..) (lacks ref present _ member)
  complete := by
    intro entry found put
    rcases sound.latest entry.key entry found with live | ⟨delete, _⟩
    · exact live
    · rw [put] at delete
      cases delete

section Commits

variable {config : Config} {s t : System} {next : Catalog} {version : Version}
  {records : List Entry}

theorem Version.Exact.flush_commit {memtable : Memtable} {file : DataFile}
    {deltas : List (Nat × Finset Nat)} (exact : s.catalog.current.toVersion.Exact config records)
    (enabled : config.enableFlushDvEmission = true) (base : s.Base config)
    (phase : s.flush = .resolved memtable file deltas)
    (resolved : deltas = Flush.dvDeltas config memtable s.catalog.current.toVersion)
    (committed : s.catalog.commit ⟨[file], [], deltas⟩ = .ok (next, version))
    (unique : (next.current.live.map DataFileMeta.path).Nodup) :
    next.current.toVersion.Exact config (records ++ memtable.entries) := by
  have extended := flush_extends base phase committed unique
  have front : memtable ∈ s.memtable.queue := base.front (by rw [phase]; rfl)
  have increasing := base.increasing front
  have bounded := base.seq_le front
  have single : SingleLive s.catalog.current.live := exact.single
  have flushed : ∀ {entry : Entry}, entry ∈ memtable.iter seqnumMax ↔
      newest Entry.key entry.key memtable.entries = some entry :=
    Memtable.mem_iter_all increasing bounded
  subst resolved
  refine ⟨unique, ?_, single.flush_commit enabled base.stored extended.rows committed, ?_, ?_⟩
  · refine exact.layered.of_deep ?_
    intro ref present deep
    rcases extended.files ref present with ⟨old, listed, same⟩ | same
    · exact ⟨old, listed, same.symm⟩
    · rw [DataFileMeta.level, same, extended.level] at deep
      omega
  · intro row live
    obtain ⟨ref, present, inRef⟩ := live
    rcases flush_kept base.stored committed present with ⟨old, listed, sameFile, deleted⟩ | rfl
    · obtain ⟨entry, found, rfl⟩ :=
        exact.sound row ⟨old, listed, DataFileMeta.live_of_masked sameFile deleted inRef⟩
      refine ⟨entry, ?_, rfl⟩
      have absent : newest Entry.key entry.key memtable.entries = none := by
        cases top : newest Entry.key entry.key memtable.entries with
        | none => rfl
        | some other =>
          have keyed := (newest_mem top).2
          have masks := single.flush_masks enabled listed sameFile deleted inRef
            (flushed.mpr (keyed ▸ top))
          rw [Entry.persist_key] at masks
          exact absurd keyed.symm masks
      rw [newest_append, absent, Option.none_or, found]
    · rw [DataFileMeta.liveRows_none, extended.rows] at inRef
      obtain ⟨entry, rfl, found⟩ := (Flush.mem_rows increasing bounded row).mp inRef
      exact ⟨entry, by rw [newest_append, found, Option.some_or], rfl⟩
  · intro entry found put
    rw [newest_append] at found
    cases top : newest Entry.key entry.key memtable.entries with
    | some other =>
      rw [top, Option.some_or] at found
      injection found with same
      subst same
      refine ⟨⟨file, none⟩, extended.added, ?_⟩
      rw [DataFileMeta.liveRows_none, extended.rows]
      exact (Flush.mem_rows increasing bounded _).mpr ⟨other, rfl, top⟩
    | none =>
      rw [top, Option.none_or] at found
      obtain ⟨old, listed, live⟩ := exact.complete entry found put
      obtain ⟨ref, present, _, _, keeps⟩ := extended.kept old listed
      refine ⟨ref, present, keeps _ live ?_⟩
      intro other member same
      rw [Entry.persist_key] at same
      have held := (newest_mem (flushed.mp member)).1
      exact newest_eq_none.mp top other held same

theorem Version.Exact.job_commit {job readSeq firstPath : Nat} {plan : JobPlan}
    (exact : s.catalog.current.toVersion.Exact config records) (base : s.Base config)
    (phase : s.jobs job = .merged plan readSeq firstPath)
    (latest : plan.version = s.catalog.current.toVersion)
    (committed : s.catalog.commit ⟨outputs config plan readSeq firstPath,
      plan.sources.map DataFileMeta.path, []⟩ = .ok (next, version))
    (unique : (next.current.live.map DataFileMeta.path).Nodup) :
    next.current.toVersion.Exact config records := by
  have single : SingleLive s.catalog.current.live := exact.single
  have busy : (s.jobs job).plan? = some plan := by
    rw [phase]
    rfl
  have planned := (base.locked.planned job plan busy).1
  have paths := (base.keeps plan.version (.planned busy)).1
  have within : ∀ ref ∈ plan.sources, ref ∈ s.catalog.current.live := by
    intro ref source
    have there := (mem_sources planned source).1
    rwa [latest] at there
  have files := @mem_rewrite_live _ _ base.stored _ _ _ _ committed
  have distinct := plan_sources_paths paths planned
  refine ⟨unique, ?_, single.job_commit base.stored within distinct committed, ?_, ?_⟩
  · refine exact.layered.rewrite (fun _ => files.mp) ?_
    intro now present kept level
    have outside : now ∉ plan.sources := fun source => kept (List.mem_map_of_mem source)
    rw [← latest] at present
    exact plan_aside planned paths (latest ▸ exact.layered) present level outside
  · intro row live
    obtain ⟨ref, present, inRef⟩ := live
    rcases files.mp present with ⟨old, _⟩ | ⟨file, written, rfl⟩
    · exact exact.sound row ⟨ref, old, inRef⟩
    · rw [DataFileMeta.liveRows_none] at inRef
      obtain ⟨source, isSource, sourceLive⟩ :=
        mem_mergedRows ((mem_outputs written).2.2.2 row inRef)
      exact exact.sound row ⟨source, within source isSource, sourceLive⟩
  · intro entry found put
    obtain ⟨ref, present, live⟩ := exact.complete entry found put
    by_cases isSource : ref.path ∈ plan.sources.map DataFileMeta.path
    · obtain ⟨source, listed, samePath⟩ := List.mem_map.mp isSource
      have same : source = ref :=
        List.inj_on_of_nodup_map exact.paths (within source listed) present samePath
      subst same
      have merged : entry.persist config ∈ mergedRows config plan readSeq :=
        single.mem_mergedRows exact.paths within listed live (by rw [Entry.persist_opType, put])
      obtain ⟨file, written, inFile⟩ := outputs_cover merged
      refine ⟨⟨file, none⟩, files.mpr (.inr ⟨file, written, rfl⟩), ?_⟩
      rwa [DataFileMeta.liveRows_none]
    · exact ⟨ref, files.mpr (.inl ⟨present, isSource⟩), live⟩

theorem System.Sequential.exact_step {action : Action} (inv : s.Sequential config)
    (base : s.Base config) (exact : s.catalog.current.toVersion.Exact config records)
    (other : action ≠ .flush .commit) (fired : Merutable.step config s action = some t) :
    t.catalog.current.toVersion.Exact config records := by
  have after := base.step fired
  rcases step_catalog fired with catalog | flushed | ⟨job, rfl⟩
  · rw [catalog]
    exact exact
  · exact absurd flushed other
  · change jobStep config s job .commit = some t at fired
    cases job_effect fired with
    | commit plan readSeq firstPath catalog new phase _ committed =>
    have latest := inv.planned job plan (by rw [phase]; rfl)
    exact exact.job_commit base phase latest committed after.stored.unique

theorem System.Sequential.exact_flush (inv : s.Sequential config) (base : s.Base config)
    (enabled : config.enableFlushDvEmission = true)
    (exact : s.catalog.current.toVersion.Exact config records)
    (fired : Merutable.step config s (.flush .commit) = some t) :
    ∃ memtable, s.flush.memtable? = some memtable ∧
      t.catalog.current.toVersion.Exact config (records ++ memtable.entries) := by
  have after := base.step fired
  change flushStep config s .commit = some t at fired
  cases flush_effect fired with
  | commit memtable file deltas catalog new phase committed =>
  refine ⟨memtable, by rw [phase]; rfl, ?_⟩
  exact exact.flush_commit enabled base phase (inv.deltas memtable file deltas phase) committed
    after.stored.unique

end Commits

end Merutable
