import Merutable.Lsm.Base

/-! How records pass from the memtables to the files. A flushed memtable is removed from the queue
by its `firstSeq`, the sequence number its rotation read; a rotation that finds the number of the
memtable it seals hands out the same one again. -/

namespace Merutable

open Foundation

/-- The drop removes nothing but the memtable of this flush. -/
def DropsOwnMemtable (s : System) : Action → Prop
  | .flush .dropEmpty => ∀ memtable, s.flush = .picked memtable →
      ∀ other ∈ s.memtable.immutable, other.firstSeq = memtable.firstSeq → other = memtable
  | .flush .drop => ∀ memtable, s.flush = .marked memtable →
      ∀ other ∈ s.memtable.immutable, other.firstSeq = memtable.firstSeq → other = memtable
  | _ => True

section Drop

variable {memtable : MemtableManager} {flush : FlushPhase} {history : List WriteBatch}
  (inv : Queued memtable flush history) {oldest : Memtable} (phase : flush.memtable? = some oldest)
  (own : ∀ other ∈ memtable.immutable, other.firstSeq = oldest.firstSeq → other = oldest)
include inv phase own

theorem Queued.drop_tail :
    memtable.immutable = oldest :: (memtable.dropFlushed oldest.firstSeq).immutable := by
  have queue := inv.queue_eq phase
  have ids := inv.ids
  rw [MemtableManager.queue, queue, List.cons_append, List.map_cons, List.pairwise_cons] at ids
  have rest : memtable.immutable.tail.filter (fun other => other.firstSeq ≠ oldest.firstSeq) =
      memtable.immutable.tail := by
    apply List.filter_eq_self.mpr
    intro other member
    apply decide_eq_true
    intro same
    have equal := own other (List.mem_of_mem_tail member) same
    have less := ids.1 other.id
      (List.mem_map_of_mem (List.mem_append_left _ member))
    rw [equal] at less
    exact less.ne rfl
  rw [MemtableManager.dropFlushed]
  dsimp only
  conv_rhs => rw [queue, List.filter_cons, if_neg (by simp), rest]
  exact queue

theorem Queued.drop_batches :
    memtable.batches = oldest.batches ++ (memtable.dropFlushed oldest.firstSeq).batches := by
  rw [MemtableManager.batches_eq, MemtableManager.batches_eq, inv.drop_tail phase own,
    List.flatMap_cons, List.append_assoc]
  rfl

end Drop

/-- The new memtable gets another `firstSeq` than the one that is sealed. -/
def RotatesForward (s : System) : Action → Prop
  | .rotate .sealActive => ∀ nextSeq, s.rotation = .read nextSeq →
      nextSeq ≠ s.memtable.active.firstSeq
  | _ => True

structure FirstSeqs (globalSeq : Nat) (rotation : RotationPhase) (memtable : MemtableManager) :
    Prop where
  increasing : (memtable.queue.map Memtable.firstSeq).Pairwise (· < ·)
  active : memtable.active.firstSeq ≤ globalSeq + 1
  read : ∀ nextSeq, rotation = .read nextSeq →
    memtable.active.firstSeq ≤ nextSeq ∧ nextSeq ≤ globalSeq + 1

def System.FirstSeqs (s : System) : Prop := Merutable.FirstSeqs s.globalSeq s.rotation s.memtable

theorem initial_firstSeqs (config : Config) : (System.initial config).FirstSeqs where
  increasing := List.pairwise_singleton _ _
  active := Nat.le_succ _
  read := by intro nextSeq phase; cases phase

section FirstSeqs

variable {config : Config} {s t : System} {action : Action}

theorem FirstSeqs.dropFlushed {globalSeq : Nat} {rotation : RotationPhase}
    {memtable : MemtableManager} (inv : Merutable.FirstSeqs globalSeq rotation memtable)
    (firstSeq : Nat) : Merutable.FirstSeqs globalSeq rotation (memtable.dropFlushed firstSeq) :=
  ⟨inv.increasing.sublist ((memtable.dropFlushed_queue firstSeq).map _), inv.active, inv.read⟩

theorem rotation_firstSeqs {action : RotationAction} (inv : s.FirstSeqs)
    (forward : RotatesForward s (.rotate action)) (fired : rotationStep s action = some t) :
    t.FirstSeqs := by
  cases rotation_effect fired with
  | readSeq =>
    refine ⟨inv.increasing, inv.active, ?_⟩
    intro nextSeq phase
    injection phase with same
    rw [← same]
    exact ⟨inv.active, le_rfl⟩
  | sealActive nextSeq phase =>
    have bounds := inv.read nextSeq phase
    have above : s.memtable.active.firstSeq < nextSeq :=
      lt_of_le_of_ne bounds.1 (Ne.symm (forward nextSeq phase))
    have queue : (s.memtable.rotate nextSeq).queue.map Memtable.firstSeq =
        s.memtable.queue.map Memtable.firstSeq ++ [nextSeq] := by
      simp [MemtableManager.queue, MemtableManager.rotate, Memtable.new]
    refine ⟨?_, bounds.2, by simp⟩
    have increasing := inv.increasing
    change ((s.memtable.rotate nextSeq).queue.map Memtable.firstSeq).Pairwise (· < ·)
    rw [queue]
    refine List.pairwise_append.mpr ⟨increasing, List.pairwise_singleton _ _, ?_⟩
    intro first member last same
    rw [List.mem_singleton.mp same]
    rw [MemtableManager.queue, List.map_append] at member increasing
    rcases List.mem_append.mp member with older | active
    · have less := (List.pairwise_append.mp increasing).2.2 first older _ List.mem_cons_self
      exact less.trans above
    · rw [List.mem_singleton.mp active]
      exact above
  | _ => exact ⟨inv.increasing, inv.active, by simp⟩

theorem write_firstSeqs {action : WriteAction} (inv : s.FirstSeqs)
    (fired : writeStep config s action = some t) : t.FirstSeqs := by
  cases write_effect fired with
  | allocate =>
    refine ⟨inv.increasing, inv.active.trans (by simp), fun nextSeq phase => ?_⟩
    have bounds := inv.read nextSeq phase
    exact ⟨bounds.1, bounds.2.trans (by simp)⟩
  | apply batch =>
    refine ⟨?_, inv.active, inv.read⟩
    have same : ((s.memtable.applyBatch config.encodedLen batch).queue.map Memtable.firstSeq) =
        s.memtable.queue.map Memtable.firstSeq := by
      simp [MemtableManager.queue, MemtableManager.applyBatch, Memtable.applyBatch]
    exact same ▸ inv.increasing
  | _ => exact inv

theorem step_firstSeqs (inv : s.FirstSeqs) (forward : RotatesForward s action)
    (fired : step config s action = some t) : t.FirstSeqs := by
  cases step_effect fired with
  | write fired => exact write_firstSeqs inv fired
  | rotate fired => exact rotation_firstSeqs inv forward fired
  | flush fired =>
    rcases flush_memtable fired with same | ⟨memtable, dropped, _⟩
    · change Merutable.FirstSeqs _ _ _
      rw [same]
      exact inv
    · cases dropped
      exact FirstSeqs.dropFlushed inv _
  | _ => exact inv

theorem dropsOwn_of_distinct (distinct : (s.memtable.immutable.map Memtable.firstSeq).Nodup)
    (queued : s.Queued) :
    DropsOwnMemtable s action := by
  have single : ∀ memtable, s.flush.memtable? = some memtable → ∀ other ∈ s.memtable.immutable,
      other.firstSeq = memtable.firstSeq → other = memtable := by
    intro memtable phase other member same
    have oldest := List.mem_of_mem_head? (queued.front memtable phase)
    exact List.inj_on_of_nodup_map distinct member oldest same
  cases action with
  | flush action =>
    cases action with
    | dropEmpty | drop =>
      intro memtable phase
      exact single memtable (by rw [phase]; rfl)
    | _ => trivial
  | _ => trivial

theorem FirstSeqs.dropsOwn (inv : s.FirstSeqs) (queued : s.Queued) :
    DropsOwnMemtable s action := by
  have all := inv.increasing
  rw [MemtableManager.queue, List.map_append] at all
  exact dropsOwn_of_distinct ((List.pairwise_append.mp all).1.imp fun less => less.ne) queued

end FirstSeqs

/-- Every version the flush of the memtable writes is in a file of the version. -/
def Flushed (config : Config) (version : Version) (memtable : Memtable) : Prop :=
  ∀ entry ∈ memtable.iter seqnumMax, ∃ ref ∈ version.files, entry.persist config ∈ ref.file.rows

/-- Every batch is in the queue or in a flushed memtable. `extra` is a further property of the
flushed memtables. No job runs. -/
structure System.HandedOver (config : Config) (extra : System → Memtable → Prop) (s : System) :
    Prop where
  idle : ∀ job, s.jobs job = .idle
  order : s.InstallOrder
  kept : ∀ batch ∈ s.history, batch ∈ s.memtable.batches ∨ ∃ memtable, batch ∈ memtable.batches ∧
    memtable.batches.Sublist s.history ∧ Flushed config s.version memtable ∧ extra s memtable
  pending : ∀ memtable version, s.flush = .committed memtable version →
    (∀ ref ∈ s.version.files, ∃ later ∈ version.files, later.file = ref.file) ∧
      Flushed config version memtable ∧ extra s memtable
  installed : ∀ memtable, s.flush = .installed memtable ∨ s.flush = .marked memtable →
    Flushed config s.version memtable ∧ extra s memtable

theorem initial_handedOver (config : Config) (extra : System → Memtable → Prop) :
    (System.initial config).HandedOver config extra where
  idle := fun _ => rfl
  order := initial_installOrder config
  kept := by intro batch member; cases member
  pending := by intro memtable version phase; cases phase
  installed := by intro memtable phase; rcases phase with phase | phase <;> cases phase

section HandedOver

variable {config : Config} {extra : System → Memtable → Prop} {s t : System} {memtable : Memtable}

theorem Flushed.carry {version later : Version}
    (carried : ∀ ref ∈ version.files, ∃ kept ∈ later.files, kept.file = ref.file)
    (flushed : Flushed config version memtable) : Flushed config later memtable := by
  intro entry member
  obtain ⟨ref, present, stored⟩ := flushed entry member
  obtain ⟨kept, inLater, same⟩ := carried ref present
  exact ⟨kept, inLater, same ▸ stored⟩

section

variable (inv : s.HandedOver config extra)
include inv

theorem System.HandedOver.of_frame (order : t.InstallOrder)
    (lasts : ∀ memtable, extra s memtable → extra t memtable) (jobs : t.jobs = s.jobs)
    (version : t.version = s.version) (flush : t.flush = s.flush)
    (history : s.history.Sublist t.history)
    (fresh : ∀ batch ∈ t.history, batch ∈ s.history ∨ batch ∈ t.memtable.batches)
    (held : ∀ batch ∈ s.memtable.batches, batch ∈ t.memtable.batches) :
    t.HandedOver config extra := by
  refine ⟨?_, order, ?_, ?_, ?_⟩
  · rw [jobs]
    exact inv.idle
  · intro batch member
    rcases fresh batch member with old | new
    · rcases inv.kept batch old with queued | ⟨memtable, inMemtable, sublist, flushed, ok⟩
      · exact .inl (held batch queued)
      · rw [version]
        exact .inr ⟨memtable, inMemtable, sublist.trans history, flushed, lasts memtable ok⟩
    · exact .inl new
  · intro memtable pending phase
    rw [flush] at phase
    rw [version]
    obtain ⟨carried, flushed, ok⟩ := inv.pending memtable pending phase
    exact ⟨carried, flushed, lasts memtable ok⟩
  · intro memtable phase
    rw [flush] at phase
    rw [version]
    obtain ⟨flushed, ok⟩ := inv.installed memtable phase
    exact ⟨flushed, lasts memtable ok⟩

theorem write_handedOver {action : WriteAction} (order : t.InstallOrder)
    (lasts : ∀ memtable, extra s memtable → extra t memtable)
    (fired : writeStep config s action = some t) : t.HandedOver config extra := by
  cases write_effect fired with
  | apply batch =>
    refine inv.of_frame order lasts rfl rfl rfl (List.sublist_append_left _ _) ?_ ?_
    · intro other member
      rcases List.mem_append.mp member with old | new
      · exact .inl old
      · exact .inr (by simpa using Or.inr (List.mem_singleton.mp new))
    · intro other member
      simpa using Or.inl member
  | _ =>
    exact inv.of_frame order lasts rfl rfl rfl (List.Sublist.refl _) (fun _ => .inl) fun _ => id

theorem rotation_handedOver {action : RotationAction} (order : t.InstallOrder)
    (lasts : ∀ memtable, extra s memtable → extra t memtable)
    (fired : rotationStep s action = some t) : t.HandedOver config extra := by
  have batches : t.memtable.batches = s.memtable.batches := by
    cases rotation_effect fired with
    | sealActive => exact MemtableManager.rotate_batches _
    | _ => rfl
  obtain ⟨_, _, _, rfl⟩ := rotation_frame fired
  refine inv.of_frame order lasts rfl rfl rfl (List.Sublist.refl _) (fun _ => .inl) ?_
  intro batch member
  rw [batches]
  exact member

theorem System.HandedOver.current
    (settled : ∀ memtable version, s.flush ≠ .committed memtable version) :
    s.version = s.catalog.current.toVersion := by
  rcases inv.order.latest with same | ⟨memtable, phase⟩ | ⟨job, plan, phase⟩
  · exact same
  · exact absurd phase (settled memtable _)
  · rw [inv.idle job] at phase
    cases phase

theorem System.HandedOver.of_flush {flush : FlushPhase} (order : t.InstallOrder)
    (lasts : ∀ memtable, extra s memtable → extra t memtable) (jobs : t.jobs = s.jobs)
    (version : t.version = s.version) (phase : t.flush = flush) (history : t.history = s.history)
    (memtable : t.memtable = s.memtable)
    (pending : ∀ memtable version, flush = .committed memtable version →
      (∀ ref ∈ s.version.files, ∃ later ∈ version.files, later.file = ref.file) ∧
      Flushed config version memtable ∧ extra t memtable)
    (installed : ∀ memtable, flush = .installed memtable ∨ flush = .marked memtable →
      Flushed config s.version memtable ∧ extra t memtable) :
    t.HandedOver config extra := by
  refine ⟨?_, order, ?_, ?_, ?_⟩
  · rw [jobs]
    exact inv.idle
  · intro batch member
    rw [history] at member
    rw [memtable, version, history]
    rcases inv.kept batch member with queued | ⟨memtable, inMemtable, sublist, flushed, ok⟩
    · exact .inl queued
    · exact .inr ⟨memtable, inMemtable, sublist, flushed, lasts memtable ok⟩
  · rw [version, phase]
    exact pending
  · rw [version, phase]
    exact installed

section

variable (base : s.Base config) (order : t.InstallOrder)
  (lasts : ∀ memtable, extra s memtable → extra t memtable)
include base order lasts

theorem commit_handedOver
    (ok : ∀ memtable file deltas, s.flush = .resolved memtable file deltas → extra t memtable)
    (fired : flushStep config s .commit = some t) : t.HandedOver config extra := by
  cases flush_effect fired with
  | commit memtable file deltas catalog new phase committed =>
  have live : (⟨file, none⟩ : DataFileMeta) ∈ catalog.current.live :=
    (mem_commit_live base.stored committed).mpr (.inr ⟨file, List.mem_singleton.mpr rfl, rfl⟩)
  have files : new.files = catalog.current.live :=
    congrArg Version.files (Catalog.commit_ok committed).2.2
  refine inv.of_flush order lasts rfl rfl rfl rfl rfl ?_ (by simp)
  intro other version same
  injection same with sameMemtable sameVersion
  subst sameMemtable sameVersion
  refine ⟨?_, ?_, ok memtable file deltas phase⟩
  · intro ref present
    rw [inv.current (by simp [phase])] at present
    rw [files]
    refine ⟨Catalog.restamp deltas s.catalog.nextVersion ref, ?_, Catalog.restamp_file _ _ _⟩
    exact (mem_commit_live base.stored committed).mpr (.inl ⟨ref, present, by simp, rfl⟩)
  · intro entry member
    rw [files]
    refine ⟨⟨file, none⟩, live, ?_⟩
    change entry.persist config ∈ file.rows
    rw [(base.resolved memtable file deltas phase).rows]
    exact List.mem_map_of_mem member

theorem drop_handedOver (phase : s.flush.memtable? = some memtable)
    (own : ∀ other ∈ s.memtable.immutable, other.firstSeq = memtable.firstSeq → other = memtable)
    (gone : memtable.batches = [] ∨ Flushed config s.version memtable ∧ extra s memtable)
    (same : t = { s with memtable := s.memtable.dropFlushed memtable.firstSeq, flush := .idle }) :
    t.HandedOver config extra := by
  subst same
  have batches := base.queued.drop_batches phase own
  have inQueue := base.front phase
  refine ⟨inv.idle, order, ?_, by simp, by simp⟩
  intro batch member
  rcases inv.kept batch member with queued | ⟨older, inOlder, sublist, flushed, ok⟩
  · rw [batches] at queued
    rcases List.mem_append.mp queued with inDropped | rest
    · rcases gone with empty | ⟨flushed, ok⟩
      · rw [empty] at inDropped
        cases inDropped
      · exact .inr ⟨memtable, inDropped, base.queued.memtable_batches inQueue, flushed,
          lasts memtable ok⟩
    · exact .inl rest
  · exact .inr ⟨older, inOlder, sublist, flushed, lasts older ok⟩

theorem flush_handedOver {action : FlushAction}
    (ok : ∀ memtable file deltas, action = .commit → s.flush = .resolved memtable file deltas →
      extra t memtable)
    (own : DropsOwnMemtable s (.flush action)) (fired : flushStep config s action = some t) :
    t.HandedOver config extra := by
  cases flush_effect fired with
  | dropEmpty memtable phase empty =>
    have working : s.flush.memtable? = some memtable := by rw [phase]; rfl
    have inQueue := base.front working
    have none := Memtable.batches_of_iter_nil (base.increasing inQueue) (base.seq_le inQueue) empty
    exact drop_handedOver inv base order lasts working (own memtable phase) (.inl none) rfl
  | commit => exact commit_handedOver inv base order lasts (fun _ _ _ => ok _ _ _ rfl) fired
  | install memtable version phase =>
    obtain ⟨carried, flushed, ok⟩ := inv.pending memtable version phase
    refine ⟨inv.idle, order, ?_, by simp, ?_⟩
    · intro batch member
      rcases inv.kept batch member with queued | ⟨older, inOlder, sublist, flushed, ok⟩
      · exact .inl queued
      · exact .inr ⟨older, inOlder, sublist, flushed.carry carried, lasts older ok⟩
    · intro other same
      have equal : memtable = other := by simpa using same
      subst equal
      exact ⟨flushed, lasts memtable ok⟩
  | mark memtable phase =>
    refine inv.of_flush order lasts rfl rfl rfl rfl rfl (by simp) ?_
    intro other same
    have equal : memtable = other := by simpa using same
    subst equal
    obtain ⟨flushed, ok⟩ := inv.installed memtable (.inl phase)
    exact ⟨flushed, lasts memtable ok⟩
  | drop memtable phase =>
    exact drop_handedOver inv base order lasts (by rw [phase]; rfl) (own memtable phase)
      (.inr (inv.installed memtable (.inr phase))) rfl
  | _ => exact inv.of_flush order lasts rfl rfl rfl rfl rfl (by simp) (by simp)

end

theorem step_handedOver {action : Action} (base : s.Base config) (own : DropsOwnMemtable s action)
    (quiet : action.isJob = false) (lasts : ∀ memtable, extra s memtable → extra t memtable)
    (ok : ∀ memtable file deltas, action = .flush .commit →
      s.flush = .resolved memtable file deltas → extra t memtable)
    (fired : step config s action = some t) : t.HandedOver config extra := by
  have ordered : InstallsInOrder s action := by
    cases action with
    | flush action =>
      cases action with
      | install =>
        intro _ _ _ job plan other busy
        rw [inv.idle job] at busy
        cases busy
      | _ => trivial
    | job job action => cases quiet
    | _ => trivial
  have order := (inv.order.step ordered fired).1
  cases step_effect fired with
  | write fired => exact write_handedOver inv order lasts fired
  | rotate fired => exact rotation_handedOver inv order lasts fired
  | flush fired =>
    exact flush_handedOver inv base order lasts
      (fun _ _ _ same => ok _ _ _ (by rw [same])) own fired
  | job => cases quiet
  | _ =>
    exact inv.of_frame order lasts rfl rfl rfl (List.Sublist.refl _) (fun _ => .inl) fun _ => id

end

/-- The record is in a memtable or in a file of the installed version. -/
def System.Present (config : Config) (s : System) (entry : Entry) : Prop :=
  (∃ memtable ∈ s.memtable.queue, entry ∈ memtable.entries) ∨
    ∃ ref ∈ s.version.files, entry.persist config ∈ ref.file.rows

instance (config : Config) (s : System) (entry : Entry) : Decidable (s.Present config entry) :=
  inferInstanceAs (Decidable (_ ∨ _))

/-- A flush commits only memtables whose writes have all returned. -/
def FlushesReturned (s : System) : Action → Prop
  | .flush .commit => ∀ memtable file deltas, s.flush = .resolved memtable file deltas →
      ∀ batch ∈ memtable.batches, batch ∈ s.returned
  | _ => True

theorem System.HandedOver.present (inv : s.HandedOver config extra) (base : s.Base config)
    {entry : Entry} (applied : entry ∈ entriesOf s.history)
    (top : ∀ memtable, extra s memtable → memtable.batches ⊆ s.history → entry ∈ memtable.entries →
      ∀ other ∈ memtable.entries, other.key = entry.key → other.seq ≤ entry.seq) :
    s.Present config entry := by
  obtain ⟨batch, member, inBatch⟩ := mem_entriesOf.mp applied
  rcases inv.kept batch member with queued | ⟨memtable, inMemtable, sublist, flushed, ok⟩
  · obtain ⟨memtable, inQueue, held⟩ := List.mem_flatMap.mp queued
    exact .inl ⟨memtable, inQueue, mem_entriesOf.mpr ⟨batch, held, inBatch⟩⟩
  · have increasing : Increasing memtable.batches := base.numbered.increasing.sublist sublist
    have inEntries : entry ∈ memtable.entries := mem_entriesOf.mpr ⟨batch, inMemtable, inBatch⟩
    have bounded : ∀ other ∈ memtable.entries, other.seq ≤ seqnumMax := by
      intro other listed
      obtain ⟨source, inSource, inOther⟩ := mem_entriesOf.mp listed
      exact base.numbered.seq_le (mem_entriesOf.mpr ⟨source, sublist.subset inSource, inOther⟩)
    have listed : entry ∈ memtable.iter seqnumMax := by
      rw [Memtable.mem_iter_all increasing bounded]
      exact (newest_eq_some increasing.entries).mpr
        ⟨inEntries, rfl, top memtable ok sublist.subset inEntries⟩
    exact .inr (flushed entry listed)

theorem handedOver_of_run {guard : System → Action → Prop} {actions : List Action}
    (run : Run (step config) guard (.initial config) actions s)
    (forward : ∀ s action, guard s action → RotatesForward s action)
    (quiet : ∀ action ∈ actions, action.isJob = false)
    (lasts : ∀ s action t memtable, step config s action = some t → extra s memtable →
      extra t memtable)
    (ok : ∀ s action t memtable file deltas, guard s action → step config s action = some t →
      action = .flush .commit → s.flush = .resolved memtable file deltas → extra t memtable) :
    s.HandedOver config extra := by
  have quietRun : Run (step config) (fun s action => guard s action ∧ action.isJob = false)
      (.initial config) actions s :=
    run.mono fun action member state met => ⟨met, quiet action member⟩
  have invariants := quietRun.invariant
    (fun s => s.Base config ∧ s.FirstSeqs ∧ s.HandedOver config extra)
    (fun s action t inv met fired => ⟨inv.1.step fired,
      step_firstSeqs inv.2.1 (forward s action met.1) fired,
      step_handedOver inv.2.2 inv.1 (FirstSeqs.dropsOwn inv.2.1 inv.1.queued) met.2
        (fun memtable => lasts s action t memtable fired)
        (fun memtable file deltas => ok s action t memtable file deltas met.1 fired) fired⟩)
    ⟨initial_base config, initial_firstSeqs config, initial_handedOver config extra⟩
  exact invariants.2.2

/-- When every rotation takes a new `firstSeq`, a drop removes the memtable of its own flush only.
Without compaction the newest record of every key is then always present; so is the newest one that
returned, if flushes wait for the writers of their memtable. -/
theorem drop_flushed_removes_own (config : Config) (actions : List Action) (s : System)
    (run : Run (step config) RotatesForward (.initial config) actions s) :
    (∀ action t, action = .flush .dropEmpty ∨ action = .flush .drop →
      step config s action = some t → ∃ memtable,
        s.memtable.immutable = memtable :: t.memtable.immutable ∧
          (s.flush = .picked memtable ∧ memtable.iter seqnumMax = [] ∨
            s.flush = .marked memtable)) ∧
    ((∀ action ∈ actions, action.isJob = false) →
      (∀ entry, newest Entry.key entry.key (entriesOf s.history) = some entry →
        s.Present config entry) ∧
      (Run (step config) FlushesReturned (.initial config) actions s →
        ∀ entry ∈ entriesOf s.returned,
          (∀ other ∈ entriesOf s.returned, other.key = entry.key → other.seq ≤ entry.seq) →
          s.Present config entry)) := by
  have base := base_of_run run
  have firsts : s.FirstSeqs := run.invariant System.FirstSeqs
    (fun _ _ _ inv forward fired => step_firstSeqs inv forward fired) (initial_firstSeqs config)
  refine ⟨?_, fun quiet => ⟨?_, fun acknowledged => ?_⟩⟩
  · intro action t drop fired
    have own : DropsOwnMemtable s action := FirstSeqs.dropsOwn firsts base.queued
    rcases drop with rfl | rfl
    · change flushStep config s .dropEmpty = some t at fired
      cases flush_effect fired with
      | dropEmpty memtable phase empty =>
      have immutable := base.queued.drop_tail (by rw [phase]; rfl) (own memtable phase)
      exact ⟨memtable, immutable, .inl ⟨phase, empty⟩⟩
    · change flushStep config s .drop = some t at fired
      cases flush_effect fired with
      | drop memtable phase =>
      have immutable := base.queued.drop_tail (by rw [phase]; rfl) (own memtable phase)
      exact ⟨memtable, immutable, .inr phase⟩
  · intro entry found
    have handed : s.HandedOver config fun _ _ => True :=
      handedOver_of_run run (fun _ _ => id) quiet (fun _ _ _ _ _ => id) fun _ _ _ _ _ _ _ _ _ _ =>
        trivial
    obtain ⟨applied, _, top⟩ := (newest_eq_some base.numbered.increasing.entries).mp found
    apply handed.present base applied
    intro memtable _ sublist _ other listed same
    obtain ⟨batch, inMemtable, inBatch⟩ := mem_entriesOf.mp listed
    exact top other (mem_entriesOf.mpr ⟨batch, sublist inMemtable, inBatch⟩) same
  · intro entry member top
    have handed : s.HandedOver config fun s memtable => memtable.batches ⊆ s.returned := by
      apply handedOver_of_run (run.and acknowledged) (fun _ _ met => met.1) quiet
      · intro s action t memtable fired within
        exact List.Subset.trans within (returned_subset fired)
      · intro s action t memtable file deltas met fired same phase
        subst same
        exact List.Subset.trans (met.2 memtable file deltas phase) (returned_subset fired)
    obtain ⟨batch, inReturned, inBatch⟩ := mem_entriesOf.mp member
    apply handed.present base
      (mem_entriesOf.mpr ⟨batch, base.answered.returned batch inReturned, inBatch⟩)
    intro memtable within _ _ other listed same
    obtain ⟨source, inMemtable, inSource⟩ := mem_entriesOf.mp listed
    exact top other (mem_entriesOf.mpr ⟨source, within inMemtable, inSource⟩) same

/-- One record is written and its write returns; a rotation is about to seal its memtable. -/
def beforeSeal : List Action :=
  Calls.write [putByte 1 1] ++ Calls.invalidate 1 ++ [.rotate .lock, .rotate .readSeq]

def afterSeal : List Action :=
  [.rotate .rotateWal, .flush .pick, .flush .resolve, .flush .commit, .flush .install,
    .flush (.mark [])]

theorem drop_flushed_removes_own_marked :
    let s := final (step .plain) (.initial .plain) (beforeSeal ++ .rotate .sealActive :: afterSeal)
    (∃ t memtable, step .plain s (.flush .drop) = some t ∧
      s.memtable.immutable = memtable :: t.memtable.immutable) ∧
    entriesOf s.returned = [⟨(putByte 1 1).1, 1, (putByte 1 1).2⟩] ∧
    s.Present .plain ⟨(putByte 1 1).1, 1, (putByte 1 1).2⟩ := by
  intro s
  have forward : Run (step .plain) RotatesForward (.initial .plain)
      (beforeSeal ++ .rotate .sealActive :: afterSeal) s := by
    refine Run.append (.of_execute ?_ rfl) (.cons ?_ rfl (.of_execute ?_ rfl))
    · simp [beforeSeal, Calls.write, Calls.invalidate, RotatesForward]
    · intro nextSeq phase
      cases phase
      decide
    · simp [afterSeal, RotatesForward]
  have result := drop_flushed_removes_own .plain _ s forward
  have present := (result.2 (by decide)).1 ⟨(putByte 1 1).1, 1, (putByte 1 1).2⟩ rfl
  obtain ⟨memtable, immutable, _⟩ := result.1 (.flush .drop) _ (.inr rfl) rfl
  exact ⟨⟨_, memtable, rfl, immutable⟩, rfl, present⟩

/-- After a flush the empty active memtable is rotated. The next memtable gets the same `firstSeq`,
takes a record and is rotated too, and then the empty one is flushed. -/
def emptyRotated : List Action :=
  Calls.write [putByte 1 1] ++ Calls.invalidate 1 ++ Calls.rotate ++ Calls.runFlush ++
    Calls.rotate ++
    Calls.write [putByte 2 2] ++ Calls.invalidate 1 ++ Calls.rotate ++ [.flush .pick]

/-- Dropping the empty memtable removes both, with the newest record of the second key. -/
theorem drop_flushed_removes_other : ∃ s t, runFrom .plain emptyRotated = some s ∧
    step .plain s (.flush .dropEmpty) = some t ∧ s.memtable.immutable.length = 2 ∧
    t.memtable.immutable = [] ∧ ∃ entry ∈ entriesOf t.returned,
      newest Entry.key entry.key (entriesOf t.history) = some entry ∧ ¬ t.Present .plain entry :=
  ⟨_, _, rfl, rfl, by decide +kernel, by decide +kernel, ⟨(putByte 2 2).1, 2, (putByte 2 2).2⟩,
    by decide +kernel, by decide +kernel, by decide +kernel⟩

end HandedOver

end Merutable
