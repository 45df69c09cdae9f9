import Merutable.Lsm.Install
import Merutable.Lsm.Jobs

/-! The data files in the store. Every file is written under a fresh path and committed at most
once, so a path names one file in every version a task can hold. -/

namespace Merutable

open Foundation Compaction

/-- The files a task has written and not yet committed: the flush (`none`) or a job. -/
def System.Writes (config : Config) (s : System) : Option Nat → DataFile → Prop
  | none, file => ∃ memtable deltas, s.flush = .resolved memtable file deltas
  | some job, file => ∃ plan readSeq firstPath, s.jobs job = .merged plan readSeq firstPath ∧
      file ∈ outputs config plan readSeq firstPath

/-- What a step does to the store, the catalog and the uncommitted files. -/
inductive FileEvent (config : Config) (s t : System) : Prop
  | quiet (catalog : t.catalog = s.catalog) (store : t.store = s.store)
      (nextUuid : t.nextUuid = s.nextUuid)
      (writes : ∀ owner file, t.Writes config owner file → s.Writes config owner file)
  | write (owner : Option Nat) (files : List DataFile) (catalog : t.catalog = s.catalog)
      (store : t.store = s.store ++ files) (grows : s.nextUuid ≤ t.nextUuid)
      (range : ∀ file ∈ files, s.nextUuid ≤ file.path ∧ file.path < t.nextUuid)
      (distinct : (files.map DataFile.path).Nodup)
      (writes : ∀ other file, t.Writes config other file →
        s.Writes config other file ∨ other = owner ∧ file ∈ files)
  | commit (owner : Option Nat) (txn : SnapshotTransaction) (new : Version)
      (committed : s.catalog.commit txn = .ok (t.catalog, new)) (store : t.store = s.store)
      (nextUuid : t.nextUuid = s.nextUuid)
      (adds : ∀ file ∈ txn.adds, s.Writes config owner file)
      (distinct : (txn.adds.map DataFile.path).Nodup)
      (writes : ∀ other file, t.Writes config other file →
        s.Writes config other file ∧ other ≠ owner)

section Events

variable {config : Config} {s t : System} {phase : JobPhase} {job : Nat} {action : Action}

theorem FileEvent.of_frame (catalog : t.catalog = s.catalog) (store : t.store = s.store)
    (nextUuid : t.nextUuid = s.nextUuid) (flush : t.flush = s.flush) (jobs : t.jobs = s.jobs) :
    FileEvent config s t := by
  refine .quiet catalog store nextUuid fun owner file held => ?_
  cases owner with
  | none =>
    rw [System.Writes, flush] at held
    exact held
  | some job =>
    rw [System.Writes, jobs] at held
    exact held

theorem FileEvent.of_flush {flush : FlushPhase} (catalog : t.catalog = s.catalog)
    (store : t.store = s.store) (nextUuid : t.nextUuid = s.nextUuid) (phase : t.flush = flush)
    (jobs : t.jobs = s.jobs)
    (after : ∀ memtable file deltas, flush ≠ .resolved memtable file deltas) :
    FileEvent config s t := by
  refine .quiet catalog store nextUuid fun owner file held => ?_
  cases owner with
  | none =>
    obtain ⟨memtable, deltas, found⟩ := held
    exact absurd (phase.symm.trans found) (after memtable file deltas)
  | some job =>
    rw [System.Writes, jobs] at held
    exact held

theorem flush_fileEvent {action : FlushAction} (fired : flushStep config s action = some t) :
    FileEvent config s t := by
  cases flush_effect fired with
  | resolve memtable file _ written =>
    have path := (DataFile.write_some written).1
    refine .write none [file] rfl rfl (Nat.le_succ _) ?_ (List.nodup_singleton _) ?_
    · intro other member
      rw [List.mem_singleton.mp member, path]
      exact ⟨le_rfl, Nat.lt_succ_self _⟩
    · intro owner other held
      cases owner with
      | none =>
        obtain ⟨_, _, found⟩ := held
        injection found with _ same _
        exact .inr ⟨rfl, List.mem_singleton.mpr same.symm⟩
      | some job => exact .inl held
  | commit memtable file deltas catalog new phase committed =>
    refine .commit none _ new committed rfl rfl ?_ (List.nodup_singleton _) ?_
    · intro other member
      rw [List.mem_singleton.mp member]
      exact ⟨memtable, deltas, phase⟩
    · intro owner other held
      cases owner with
      | none =>
        obtain ⟨_, _, found⟩ := held
        cases found
      | some job => exact ⟨held, by simp⟩
  | _ => exact .of_flush rfl rfl rfl rfl rfl (by simp)

theorem writes_of_jobs {owner : Option Nat} {file : DataFile} (held : t.Writes config owner file)
    (flush : t.flush = s.flush) (jobs : t.jobs = Function.update s.jobs job phase) :
    (owner ≠ some job ∧ s.Writes config owner file) ∨ owner = some job ∧
      ∃ plan readSeq firstPath, phase = .merged plan readSeq firstPath ∧
        file ∈ outputs config plan readSeq firstPath := by
  cases owner with
  | none =>
    obtain ⟨memtable, deltas, found⟩ := held
    exact .inl ⟨by simp, memtable, deltas, flush ▸ found⟩
  | some other =>
    obtain ⟨plan, readSeq, firstPath, found, member⟩ := held
    rw [jobs] at found
    by_cases same : other = job
    · rw [same, Function.update_self] at found
      exact .inr ⟨congrArg some same, plan, readSeq, firstPath, found, member⟩
    · rw [Function.update_of_ne same] at found
      exact .inl ⟨by simpa using same, plan, readSeq, firstPath, found, member⟩

theorem FileEvent.of_job (catalog : t.catalog = s.catalog) (store : t.store = s.store)
    (nextUuid : t.nextUuid = s.nextUuid) (flush : t.flush = s.flush)
    (jobs : t.jobs = Function.update s.jobs job phase)
    (after : ∀ plan readSeq firstPath, phase ≠ .merged plan readSeq firstPath) :
    FileEvent config s t := by
  refine .quiet catalog store nextUuid fun owner file held => ?_
  rcases writes_of_jobs held flush jobs with ⟨_, before⟩ | ⟨_, plan, readSeq, firstPath, found, _⟩
  · exact before
  · exact absurd found (after plan readSeq firstPath)

theorem outputs_distinct (config : Config) (plan : JobPlan) (readSeq firstPath : Nat) :
    ((outputs config plan readSeq firstPath).map DataFile.path).Nodup :=
  List.pairwise_map.mpr (outputs_ascending.imp fun ordered => ordered.1.ne)

theorem job_fileEvent {action : JobAction} (fired : jobStep config s job action = some t) :
    FileEvent config s t := by
  cases job_effect fired with
  | merge plan =>
    refine .write (some job) (outputs config plan s.visibleSeq s.nextUuid) rfl rfl
      (Nat.le_add_right _ _) ?_ (outputs_distinct config plan _ _) ?_
    · intro file member
      have bounds := mem_outputs member
      exact ⟨bounds.2.1, bounds.2.2.1⟩
    · intro owner file held
      rcases writes_of_jobs (s := s) held rfl rfl with ⟨_, before⟩ | ⟨same, _, _, _, found, member⟩
      · exact .inl before
      · injection found with samePlan sameSeq samePath
        subst samePlan sameSeq samePath
        exact .inr ⟨same, member⟩
  | commit plan readSeq firstPath catalog new phase _ committed =>
    refine .commit (some job) _ new committed rfl rfl ?_
      (outputs_distinct config plan readSeq firstPath) ?_
    · intro file member
      exact ⟨plan, readSeq, firstPath, phase, member⟩
    · intro owner file held
      rcases writes_of_jobs (s := s) held rfl rfl with ⟨different, before⟩ | ⟨_, _, _, _, found, _⟩
      · exact ⟨before, different⟩
      · cases found
  | _ => exact .of_job rfl rfl rfl rfl rfl (by simp)

theorem step_fileEvent (fired : step config s action = some t) :
    FileEvent config s t := by
  cases step_effect fired with
  | flush fired => exact flush_fileEvent fired
  | job fired => exact job_fileEvent fired
  | _ => exact .of_frame rfl rfl rfl rfl rfl

theorem catalog_step (fired : step config s action = some t) :
    t.catalog = s.catalog ∨ ∃ owner txn new, s.catalog.commit txn = .ok (t.catalog, new) ∧
      ∀ file ∈ txn.adds, s.Writes config owner file := by
  cases step_fileEvent fired with
  | quiet catalog | write _ _ catalog => exact .inl catalog
  | commit owner txn new committed _ _ adds _ _ => exact .inr ⟨owner, txn, new, committed, adds⟩

end Events

/-- Files and the manifest: paths are fresh when written, and what is written is not yet live. -/
structure System.Stored (config : Config) (s : System) : Prop where
  fresh : ∀ file ∈ s.store, file.path < s.nextUuid
  distinct : (s.store.map DataFile.path).Nodup
  unique : (s.catalog.current.live.map DataFileMeta.path).Nodup
  tracked : ∀ ref ∈ s.catalog.current.live, ref.file ∈ s.store
  written : ∀ owner file, s.Writes config owner file → file ∈ s.store ∧
    file.path ∉ s.catalog.current.live.map DataFileMeta.path
  apart : ∀ owner file owner' file', s.Writes config owner file → s.Writes config owner' file' →
    file.path = file'.path → owner = owner'

theorem not_writes {config : Config} {s : System} {owner : Option Nat} {file : DataFile}
    (flush : s.flush = .idle) (jobs : ∀ job, s.jobs job = .idle) :
    ¬ s.Writes config owner file := by
  intro held
  cases owner with
  | none =>
    obtain ⟨_, _, phase⟩ := held
    cases flush.symm.trans phase
  | some job =>
    obtain ⟨_, _, _, phase, _⟩ := held
    cases (jobs job).symm.trans phase

theorem initial_stored (config : Config) : (System.initial config).Stored config where
  fresh := by intro file member; cases member
  distinct := List.nodup_nil
  unique := List.nodup_nil
  tracked := by intro ref member; cases member
  written _ _ held := absurd held (not_writes rfl fun _ => rfl)
  apart _ _ _ _ held := absurd held (not_writes rfl fun _ => rfl)

section Stored

variable {config : Config} {s t : System} {action : Action}

theorem System.Stored.eq_of_path (inv : s.Stored config) {file other : DataFile}
    (present : file ∈ s.store) (member : other ∈ s.store) (same : file.path = other.path) :
    file = other :=
  List.inj_on_of_nodup_map inv.distinct present member same

theorem commit_paths (inv : s.Stored config) {txn : SnapshotTransaction} {next : Catalog}
    {new : Version} (committed : s.catalog.commit txn = .ok (next, new)) :
    next.current.live.map DataFileMeta.path =
      (s.catalog.current.live.filter fun ref => ref.path ∉ txn.removes).map DataFileMeta.path ++
        txn.adds.map DataFile.path := by
  rw [Catalog.commit_live inv.unique committed, List.map_append, List.map_map, List.map_map]
  congr 1
  apply List.map_congr_left
  intro ref _
  exact Catalog.restamp_path _ _ _

theorem mem_commit_live (inv : s.Stored config) {txn : SnapshotTransaction} {next : Catalog}
    {new : Version} (committed : s.catalog.commit txn = .ok (next, new)) {ref : DataFileMeta} :
    ref ∈ next.current.live ↔
      (∃ old ∈ s.catalog.current.live, old.path ∉ txn.removes ∧
        ref = Catalog.restamp txn.dvs s.catalog.nextVersion old) ∨
      ∃ file ∈ txn.adds, ref = ⟨file, none⟩ := by
  rw [Catalog.commit_live inv.unique committed]
  simp only [List.mem_append, List.mem_map, List.mem_filter, decide_eq_true_eq, and_assoc,
    eq_comm (b := ref)]

theorem mem_rewrite_live (inv : s.Stored config) {adds : List DataFile} {removes : List Nat}
    {next : Catalog} {new : Version}
    (committed : s.catalog.commit ⟨adds, removes, []⟩ = .ok (next, new)) {ref : DataFileMeta} :
    ref ∈ next.current.live ↔ (ref ∈ s.catalog.current.live ∧ ref.path ∉ removes) ∨
      ∃ file ∈ adds, ref = ⟨file, none⟩ := by
  rw [mem_commit_live inv committed]
  simp only [Catalog.restamp_nil, exists_eq_right_right']

theorem flush_kept {file : DataFile} {deltas : List (Nat × Finset Nat)} {next : Catalog}
    {version : Version} (stored : s.Stored config)
    (committed : s.catalog.commit ⟨[file], [], deltas⟩ = .ok (next, version)) {ref : DataFileMeta}
    (live : ref ∈ next.current.live) :
    (∃ old ∈ s.catalog.current.live, ref.file = old.file ∧
      ref.deletedRows = old.deletedRows ∪ (deltas.lookup old.path).getD ∅) ∨
        ref = ⟨file, none⟩ := by
  rcases (mem_commit_live stored committed).mp live with ⟨old, listed, _, rfl⟩ | ⟨new, added, rfl⟩
  · exact .inl ⟨old, listed, Catalog.restamp_file _ _ _, Catalog.restamp_deletedRows _ _ _⟩
  · rw [List.mem_singleton.mp added]
    exact .inr rfl

theorem live_step (inv : s.Stored config) (fired : step config s action = some t)
    {ref : DataFileMeta} (present : ref ∈ t.catalog.current.live) :
    (∃ old ∈ s.catalog.current.live, ref.file = old.file ∧ old.deletedRows ⊆ ref.deletedRows) ∨
      (ref.dv = none ∧ action = .flush .commit ∧
        ∃ memtable deltas, s.flush = .resolved memtable ref.file deltas) ∨
      (ref.dv = none ∧ ∃ job plan readSeq firstPath, action = .job job .commit ∧
        s.jobs job = .merged plan readSeq firstPath ∧
          ref.file ∈ outputs config plan readSeq firstPath) := by
  rcases step_catalog fired with catalog | rfl | ⟨job, rfl⟩
  · rw [catalog] at present
    exact .inl ⟨ref, present, rfl, Finset.Subset.refl _⟩
  · change flushStep config s .commit = some t at fired
    cases flush_effect fired with
    | commit memtable file deltas catalog version phase committed =>
    rcases flush_kept inv committed present with ⟨old, listed, sameFile, masks⟩ | rfl
    · exact .inl ⟨old, listed, sameFile, masks ▸ Finset.subset_union_left⟩
    · exact .inr (.inl ⟨rfl, rfl, memtable, deltas, phase⟩)
  · change jobStep config s job .commit = some t at fired
    cases job_effect fired with
    | commit plan readSeq firstPath catalog version phase _ committed =>
    rcases (mem_rewrite_live inv committed).mp present with ⟨listed, _⟩ | ⟨file, written, rfl⟩
    · exact .inl ⟨ref, listed, rfl, Finset.Subset.refl _⟩
    · exact .inr (.inr ⟨rfl, job, plan, readSeq, firstPath, rfl, phase, written⟩)

theorem System.Stored.step {action : Action} (inv : s.Stored config)
    (fired : step config s action = some t) : t.Stored config := by
  cases step_fileEvent fired with
  | quiet catalog store nextUuid writes =>
    refine ⟨?_, ?_, ?_, ?_, ?_, ?_⟩
    · rw [store, nextUuid]
      exact inv.fresh
    · rw [store]
      exact inv.distinct
    · rw [catalog]
      exact inv.unique
    · rw [catalog, store]
      exact inv.tracked
    · intro owner file held
      rw [catalog, store]
      exact inv.written owner file (writes owner file held)
    · intro owner file owner' file' held held'
      exact inv.apart owner file owner' file' (writes _ _ held) (writes _ _ held')
  | write owner files catalog store grows range distinct writes =>
    have new : ∀ file ∈ files, ∀ old ∈ s.store, old.path ≠ file.path := by
      intro file member old present
      have := inv.fresh old present
      have := (range file member).1
      omega
    refine ⟨?_, ?_, ?_, ?_, ?_, ?_⟩
    · intro file member
      rw [store] at member
      rcases List.mem_append.mp member with old | added
      · exact lt_of_lt_of_le (inv.fresh file old) grows
      · exact (range file added).2
    · rw [store, List.map_append, List.nodup_append]
      refine ⟨inv.distinct, distinct, ?_⟩
      intro path before other added same
      obtain ⟨old, present, rfl⟩ := List.mem_map.mp before
      obtain ⟨file, member, rfl⟩ := List.mem_map.mp added
      exact new file member old present same
    · rw [catalog]
      exact inv.unique
    · intro ref live
      rw [catalog] at live
      rw [store]
      exact List.mem_append_left _ (inv.tracked ref live)
    · intro other file held
      rw [catalog, store]
      rcases writes other file held with before | ⟨_, member⟩
      · have old := inv.written other file before
        exact ⟨List.mem_append_left _ old.1, old.2⟩
      · refine ⟨List.mem_append_right _ member, fun live => ?_⟩
        obtain ⟨ref, listed, same⟩ := List.mem_map.mp live
        exact new file member ref.file (inv.tracked ref listed) same
    · intro first file second file' held held' same
      rcases writes first file held with before | ⟨own, member⟩
      · rcases writes second file' held' with before' | ⟨_, member'⟩
        · exact inv.apart _ _ _ _ before before' same
        · exact absurd same (new file' member' file (inv.written _ _ before).1)
      · rcases writes second file' held' with before' | ⟨own', _⟩
        · exact absurd same.symm (new file member file' (inv.written _ _ before').1)
        · exact own.trans own'.symm
  | commit owner txn new committed store nextUuid adds distinct writes =>
    have paths := commit_paths inv committed
    refine ⟨?_, ?_, ?_, ?_, ?_, ?_⟩
    · rw [store, nextUuid]
      exact inv.fresh
    · rw [store]
      exact inv.distinct
    · rw [paths, List.nodup_append]
      refine ⟨inv.unique.sublist (List.filter_sublist.map _), distinct, ?_⟩
      intro path kept other added same
      obtain ⟨ref, listed, rfl⟩ := List.mem_map.mp kept
      obtain ⟨file, member, rfl⟩ := List.mem_map.mp added
      apply (inv.written owner file (adds file member)).2
      rw [← same]
      exact List.mem_map_of_mem (List.mem_of_mem_filter listed)
    · intro ref live
      rw [store]
      rcases (mem_commit_live inv committed).mp live with ⟨old, listed, _, rfl⟩ |
        ⟨file, member, rfl⟩
      · rw [Catalog.restamp_file]
        exact inv.tracked old listed
      · exact (inv.written owner file (adds file member)).1
    · intro other file held
      obtain ⟨before, different⟩ := writes other file held
      have old := inv.written other file before
      rw [store, paths]
      refine ⟨old.1, fun live => ?_⟩
      rcases List.mem_append.mp live with kept | added
      · exact old.2 ((List.filter_sublist.map _).subset kept)
      · obtain ⟨file', member, same⟩ := List.mem_map.mp added
        exact different (inv.apart _ _ _ _ before (adds file' member) same.symm)
    · intro first file second file' held held'
      exact inv.apart _ _ _ _ (writes _ _ held).1 (writes _ _ held').1

theorem store_subset (fired : Merutable.step config s action = some t) :
    s.store ⊆ t.store := by
  cases step_fileEvent fired with
  | quiet _ store | commit _ _ _ _ store =>
    rw [store]
    exact List.Subset.refl _
  | write _ _ _ store _ _ _ _ =>
    rw [store]
    exact List.subset_append_left _ _

end Stored

/-- A version that is installed, committed and not yet installed, the base of a job, or pinned. -/
inductive System.Mentions (s : System) : Version → Prop
  | installed : s.Mentions s.version
  | pending {version : Version} (waiting : s.Pending version) : s.Mentions version
  | planned {job : Nat} {plan : JobPlan} (busy : (s.jobs job).plan? = some plan) :
      s.Mentions plan.version
  | pinned {pin : PinOwner × Version} (member : pin ∈ s.pins) : s.Mentions pin.2

section Mentions

variable {config : Config} {s t : System} {action : Action} {pin : PinOwner × Version}
  {version : Version}

theorem planned_step (fired : step config s action = some t) {job : Nat} {plan : JobPlan}
    (busy : (t.jobs job).plan? = some plan) :
    (s.jobs job).plan? = some plan ∨ plan.version = s.version := by
  cases step_effect fired with
  | job fired =>
    rcases (job_move fired).planned busy with before | ⟨_, _, _, _, planned⟩
    · exact .inl before
    · exact .inr (plan_eq planned).2.1
  | _ => exact .inl busy

theorem get_pins {thread : Nat} {action : GetAction}
    (fired : getStep config s thread action = some t) (member : pin ∈ t.pins) :
    pin ∈ s.pins ∨ pin.2 = s.version := by
  cases get_effect fired with
  | pin =>
    rcases List.mem_cons.mp member with rfl | before
    · exact .inr rfl
    · exact .inl before
  | fill | probe => exact .inl (List.mem_of_mem_filter member)
  | _ => exact .inl member

theorem pins_step (fired : step config s action = some t) (member : pin ∈ t.pins) :
    pin ∈ s.pins ∨ pin.2 = s.version := by
  cases step_effect fired with
  | get fired => exact get_pins fired member
  | pin =>
    rcases List.mem_cons.mp member with rfl | before
    · exact .inr rfl
    · exact .inl before
  | unpin => exact .inl (List.mem_of_mem_filter member)
  | _ => exact .inl member

theorem step_mentions (fired : step config s action = some t) (mentioned : t.Mentions version) :
    s.Mentions version ∨ version = t.catalog.current.toVersion := by
  cases mentioned with
  | installed =>
    cases step_event fired with
    | quiet same | commit _ _ _ same =>
      rw [same]
      exact .inl .installed
    | install waiting _ _ _ _ => exact .inl (.pending waiting)
  | pending waiting =>
    cases step_event fired with
    | quiet _ _ pending => exact .inl (.pending ((pending _).mp waiting))
    | commit _ _ committed _ pending =>
      rcases (pending _).mp waiting with before | rfl
      · exact .inl (.pending before)
      · exact .inr (Catalog.commit_ok committed).2.2
    | install _ _ pending _ _ => exact .inl (.pending (pending _ waiting))
  | planned busy =>
    rcases planned_step fired busy with before | same
    · exact .inl (.planned before)
    · rw [same]
      exact .inl .installed
  | pinned member =>
    rcases pins_step fired member with before | same
    · exact .inl (.pinned before)
    · rw [same]
      exact .inl .installed

theorem mentions_invariant {property : System → Version → Prop}
    (inv : ∀ version, s.Mentions version → property s version)
    (lasts : ∀ version, property s version → property t version)
    (latest : property t t.catalog.current.toVersion) (fired : step config s action = some t) :
    ∀ version, t.Mentions version → property t version := by
  intro version mentioned
  rcases step_mentions fired mentioned with before | rfl
  · exact lasts version (inv version before)
  · exact latest

theorem initial_mentions (mentioned : (System.initial config).Mentions version) :
    version = Catalog.empty.current.toVersion := by
  cases mentioned with
  | installed => rfl
  | pending waiting => rcases waiting with ⟨_, phase⟩ | ⟨_, _, phase⟩ <;> cases phase
  | planned busy => cases busy
  | pinned member => cases member

/-- The files of the version are in the store under distinct paths. -/
def System.Keeps (s : System) (version : Version) : Prop :=
  (version.files.map DataFileMeta.path).Nodup ∧ ∀ ref ∈ version.files, ref.file ∈ s.store

theorem step_keeps (stored : s.Stored config)
    (inv : ∀ version, s.Mentions version → s.Keeps version)
    (fired : step config s action = some t) :
    ∀ version, t.Mentions version → t.Keeps version := by
  have after := stored.step fired
  apply mentions_invariant inv ?_ ⟨after.unique, after.tracked⟩ fired
  intro version kept
  exact ⟨kept.1, fun ref member => store_subset fired (kept.2 ref member)⟩

end Mentions

end Merutable
