import Merutable.Lsm.Reads
import Merutable.Lsm.Reopen

/-! The order in which a lookup probes the memtables and the files, over the whole life of a table
with its crashes and reopens: whatever comes first is newer. -/

namespace Merutable

open Foundation Compaction ReadPath

/-- The batch of a writer that has a sequence number and has not reached the memtable. -/
def WritePhase.incoming : WritePhase → List WriteBatch
  | .allocated batch => [batch]
  | .appended batch => [batch]
  | _ => []

/-- The batches in the memtables and on the way to them. -/
def System.unflushed (s : System) : List WriteBatch := s.memtable.batches ++ s.write.incoming

/-- The row is older than everything in the memtables, or a committed memtable still has its
record. -/
def System.Behind (s : System) (row : Entry) : Prop :=
  (∀ entry ∈ entriesOf s.unflushed, row.seq < entry.seq) ∨
    ∃ entry ∈ entriesOf s.flush.covered, entry.key = row.key ∧ entry.seq = row.seq

/-- The manifest, or a version that some task works with. -/
def System.Known (s : System) (version : Version) : Prop :=
  version = s.catalog.current.toVersion ∨ s.Mentions version

structure System.Ordered (s : System) : Prop where
  aligned : s.Aligned
  shape : ∀ version, s.Known version → version.Wf
  behind : ∀ version, s.Known version → ∀ ref ∈ version.files, ∀ row ∈ ref.file.rows, s.Behind row

theorem initial_ordered (config : Config) : (System.initial config).Ordered := by
  have only : ∀ version, (System.initial config).Known version →
      version = Catalog.empty.current.toVersion := by
    rintro version (same | mentioned)
    · exact same
    · exact initial_mentions mentioned
  refine ⟨(initial_tree config).aligned, ?_, ?_⟩
  · intro version known
    rw [only version known]
    exact (initial_tree config).current.wf
  · intro version known ref present
    rw [only version known] at present
    cases present

section Behind

variable {config : Config} {s t : System} {action : FlushAction}

theorem write_unflushed {action : WriteAction} (fired : writeStep config s action = some t) :
    ∀ batch ∈ t.unflushed, batch ∈ s.unflushed ∨ batch.sequence = s.globalSeq := by
  intro batch member
  cases write_effect fired with
  | allocate own idle _ sequence =>
    rcases List.mem_append.mp member with held | incoming
    · exact .inl (List.mem_append_left _ held)
    · rw [List.mem_singleton.mp incoming]
      exact .inr sequence
  | append own phase =>
    left
    rw [System.unflushed, phase]
    exact member
  | appendFailed | publish =>
    rcases List.mem_append.mp member with held | incoming
    · exact .inl (List.mem_append_left _ held)
    · cases incoming
  | apply own phase =>
    left
    rw [System.unflushed, phase]
    rcases List.mem_append.mp member with held | incoming
    · rwa [MemtableManager.applyBatch_batches] at held
    · cases incoming

theorem flush_unflushed (fired : flushStep config s action = some t) :
    t.unflushed.Sublist s.unflushed := by
  have write : t.write = s.write := by
    obtain ⟨_, _, _, _, _, _, _, rfl⟩ := flush_frame fired
    rfl
  rw [System.unflushed, System.unflushed, write]
  rcases flush_memtable fired with same | ⟨memtable, rfl, _⟩
  · rw [same]
  · exact ((s.memtable.dropFlushed_queue memtable.firstSeq).flatMap _).append_right _

theorem unflushed_step {action : Action} (fired : step config s action = some t) :
    ∀ batch ∈ t.unflushed, batch ∈ s.unflushed ∨ batch.sequence = s.globalSeq := by
  intro batch member
  cases step_effect fired with
  | write fired => exact write_unflushed fired batch member
  | rotate fired =>
    have batches := rotation_batches fired
    rw [System.unflushed, batches] at member
    exact .inl member
  | flush fired => exact .inl ((flush_unflushed fired).subset member)
  | _ => exact .inl member

theorem System.Base.front_before (base : s.Base config) {memtable : Memtable}
    (phase : s.flush.memtable? = some memtable) {entry other : Entry}
    (inFront : entry ∈ memtable.entries)
    (rest : other ∈ entriesOf ((s.memtable.dropFlushed memtable.firstSeq).batches ++
      s.write.incoming)) : entry.seq < other.seq := by
  obtain ⟨first, inMemtable, inFirst⟩ := mem_entriesOf.mp inFront
  obtain ⟨second, listed, inSecond⟩ := mem_entriesOf.mp rest
  suffices less : first.lastSeq < second.sequence by
    have upper := (WriteBatch.seq_bounds inFirst).2
    have lower := (WriteBatch.seq_bounds inSecond).1
    omega
  have front := base.front phase
  rcases List.mem_append.mp listed with held | incoming
  · obtain ⟨holder, inQueue, inHolder⟩ := List.mem_flatMap.mp held
    have member := (s.memtable.dropFlushed_queue memtable.firstSeq).subset inQueue
    exact base.queued.before base.numbered.increasing phase member
      (base.queued.dropped_id phase inQueue) inMemtable inHolder
  · have written : first ∈ s.history := (base.queued.memtable_batches front).subset inMemtable
    have coming : s.write = .allocated second ∨ s.write = .appended second := by
      cases write : s.write with
      | allocated batch =>
        rw [write] at incoming
        exact .inl (by rw [List.mem_singleton.mp incoming])
      | appended batch =>
        rw [write] at incoming
        exact .inr (by rw [List.mem_singleton.mp incoming])
      | idle | applied =>
        rw [write] at incoming
        cases incoming
    exact (base.numbered.coming second coming).2.2 first written

/-- A committed memtable stays until it is dropped, and then its records are older than the rest. -/
theorem flush_behind (base : s.Base config) (fired : flushStep config s action = some t) :
    s.flush.covered <+: t.flush.covered ∨ ∀ entry ∈ entriesOf s.flush.covered,
      ∀ other ∈ entriesOf t.unflushed, entry.seq < other.seq := by
  cases flush_effect fired with
  | pick _ phase | dropEmpty _ phase | resolve _ _ phase | commit _ _ _ _ _ phase =>
    rw [phase]
    exact .inl List.nil_prefix
  | install _ _ phase | mark _ phase =>
    rw [phase]
    exact .inl List.prefix_rfl
  | drop memtable phase =>
    right
    intro entry covered other rest
    rw [phase] at covered
    exact base.front_before (by rw [phase]; rfl) covered rest
  | abort found =>
    obtain ⟨_, phase | ⟨_, _, phase⟩⟩ := found
    · rw [phase]
      exact .inl List.nil_prefix
    · rw [phase]
      exact .inl List.nil_prefix

theorem System.Behind.step {action : Action} {row : Entry} (behind : s.Behind row)
    (base : s.Base config) (assigned : row.seq < s.globalSeq)
    (fired : Merutable.step config s action = some t) : t.Behind row := by
  have older : (∀ entry ∈ entriesOf s.unflushed, row.seq < entry.seq) →
      ∀ entry ∈ entriesOf t.unflushed, row.seq < entry.seq := by
    intro before entry member
    obtain ⟨batch, listed, inBatch⟩ := mem_entriesOf.mp member
    rcases unflushed_step fired batch listed with old | new
    · exact before entry (mem_entriesOf.mpr ⟨batch, old, inBatch⟩)
    · have := (WriteBatch.seq_bounds inBatch).1
      omega
  have covered : s.flush.covered <+: t.flush.covered ∨ ∀ entry ∈ entriesOf s.flush.covered,
      ∀ other ∈ entriesOf t.unflushed, entry.seq < other.seq := by
    cases step_effect fired with
    | flush fired => exact flush_behind base fired
    | _ => exact .inl List.prefix_rfl
  rcases behind with before | ⟨entry, listed, sameKey, sameSeq⟩
  · exact .inl (older before)
  · rcases covered with stays | dropped
    · obtain ⟨batch, inBatches, inBatch⟩ := mem_entriesOf.mp listed
      exact .inr ⟨entry, mem_entriesOf.mpr ⟨batch, stays.subset inBatches, inBatch⟩,
        sameKey, sameSeq⟩
    · left
      intro other member
      rw [← sameSeq]
      exact dropped entry listed other member

end Behind

section Ordered

variable {config : Config} {s t : System}

theorem System.Ordered.newer (inv : s.Ordered) (base : s.Base config) {memtable : Memtable}
    {file : DataFile} {deltas : List (Nat × Finset Nat)}
    (phase : s.flush = .resolved memtable file deltas) {version : Version}
    (known : s.Known version) :
    ∀ row ∈ file.rows, ∀ ref ∈ version.files, ∀ other ∈ ref.file.rows, other.seq < row.seq := by
  intro row member ref present other inRef
  have front : memtable ∈ s.memtable.queue := base.front (by rw [phase]; rfl)
  rw [(base.resolved memtable file deltas phase).rows] at member
  obtain ⟨entry, rfl, found⟩ :=
    (Flush.mem_rows (base.increasing front) (base.seq_le front) row).mp member
  rcases inv.behind version known ref present other inRef with older | ⟨_, covered, _⟩
  · rw [Entry.persist_seq]
    obtain ⟨batch, inMemtable, inBatch⟩ := mem_entriesOf.mp (newest_mem found).1
    apply older
    refine mem_entriesOf.mpr ⟨batch, List.mem_append_left _ ?_, inBatch⟩
    exact (MemtableManager.queue_batches front).subset inMemtable
  · rw [phase] at covered
    cases covered

theorem System.Ordered.current_step {action : Action} (inv : s.Ordered) (base : s.Base config)
    (durable : s.Durable) (fired : Merutable.step config s action = some t) :
    t.catalog.current.toVersion.Wf ∧
      ∀ ref ∈ t.catalog.current.live, ∀ row ∈ ref.file.rows, t.Behind row := by
  have known : s.Known s.catalog.current.toVersion := .inl rfl
  have wf := inv.shape _ known
  have old : ∀ version, s.Known version → (∀ ref ∈ version.files, ∀ row ∈ ref.file.rows,
      row.seq < s.globalSeq) → ∀ ref ∈ version.files, ∀ row ∈ ref.file.rows, t.Behind row :=
    fun version known below ref present row member =>
      (inv.behind version known ref present row member).step base
        (below ref present row member) fired
  have kept := old _ known durable.current
  rcases step_catalog fired with catalog | rfl | ⟨job, rfl⟩
  · rw [catalog]
    exact ⟨wf, kept⟩
  · have after := base.step fired
    change flushStep config s .commit = some t at fired
    cases flush_effect fired with
    | commit memtable file deltas catalog new phase committed =>
    have extended := flush_extends base phase committed after.stored.unique
    refine ⟨extended.wf wf (inv.newer base phase known), ?_⟩
    intro ref present row member
    rcases extended.files ref present with ⟨before, inBefore, same⟩ | same
    · exact kept before inBefore row (same ▸ member)
    · have front : memtable ∈ s.memtable.queue := base.front (by rw [phase]; rfl)
      rw [same, extended.rows] at member
      obtain ⟨entry, rfl, found⟩ :=
        (Flush.mem_rows (base.increasing front) (base.seq_le front) row).mp member
      exact .inr ⟨entry, (newest_mem found).1, (Entry.persist_key ..).symm,
        (Entry.persist_seq ..).symm⟩
  · have after := base.step fired
    have stepped : jobStep config s job .commit = some t := fired
    cases job_effect stepped with
    | commit plan readSeq firstPath catalog new phase _ committed =>
    have busy : (s.jobs job).plan? = some plan := by
      rw [phase]
      rfl
    have planned : s.Known plan.version := .inr (.planned busy)
    have rewritten := inv.aligned.rewrites base (inv.shape _ planned) phase committed
      after.stored.unique
    refine ⟨rewritten.wf wf, ?_⟩
    intro ref present row member
    rcases (rewritten.files ref).mp present with ⟨before, _⟩ | ⟨file, written, rfl⟩
    · exact kept ref before row member
    · obtain ⟨source, _, inSource, now, nowIn, same, _⟩ := rewritten.output_source written member
      exact kept now nowIn row (same ▸ inSource)

theorem System.Ordered.step {action : Action} (inv : s.Ordered) (base : s.Base config)
    (durable : s.Durable) (ordered : InstallsInOrder s action)
    (fired : Merutable.step config s action = some t) : t.Ordered := by
  have aligned := inv.aligned.step base (fun version mentioned =>
    inv.shape version (.inr mentioned))
    (fun _ _ _ phase version mentioned => inv.newer base phase (.inr mentioned)) ordered fired
  have current := inv.current_step base durable fired
  have known : ∀ version, t.Known version →
      version = t.catalog.current.toVersion ∨ s.Mentions version := by
    rintro version (same | mentioned)
    · exact .inl same
    · exact (step_mentions fired mentioned).symm
  refine ⟨aligned, ?_, ?_⟩
  · intro version coming
    rcases known version coming with rfl | before
    · exact current.1
    · exact inv.shape version (.inr before)
  · intro version coming ref present row member
    rcases known version coming with rfl | before
    · exact current.2 ref present row member
    · have below := durable.versions version before ref present row member
      exact (inv.behind version (.inr before) ref present row member).step base below fired

end Ordered

/-- Nothing that is replayed from the logs is as old as a row of the manifest. -/
def Disk.RecoversAbove (disk : Disk) : Prop :=
  ∀ batch ∈ disk.logs.batches, ∀ ref ∈ disk.catalog.current.live, ∀ row ∈ ref.file.rows,
    row.seq < batch.sequence

instance (disk : Disk) : Decidable disk.RecoversAbove :=
  inferInstanceAs (Decidable (∀ batch ∈ disk.logs.batches, ∀ ref ∈ disk.catalog.current.live, _))

theorem Disk.Consistent.ordered {disk : Disk} (config : Config) (consistent : disk.Consistent)
    (wf : disk.catalog.current.toVersion.Wf) (above : disk.RecoversAbove) :
    (System.opened config disk).Ordered := by
  have only : ∀ version, (System.opened config disk).Known version →
      version = disk.catalog.current.toVersion := by
    rintro version (same | mentioned)
    · exact same
    · exact opened_mentions mentioned
  have batches : (System.opened config disk).unflushed = disk.logs.batches := by
    rw [System.unflushed]
    exact (List.append_nil _).trans (disk.memtable_queue config).2.2.2.2
  refine ⟨⟨⟨consistent.next, le_rfl, ?_, .inl rfl⟩, ?_, ?_⟩, ?_, ?_⟩
  · rintro version (⟨_, phase⟩ | ⟨_, _, phase⟩) <;> cases phase
  · intro version coming level _
    rw [only version (.inr coming.mentions)]
    exact .refl _ _
  · intro job plan working
    cases working
  · intro version known
    rw [only version known]
    exact wf
  · intro version known ref present row member
    rw [only version known] at present
    left
    rw [batches]
    intro entry listed
    obtain ⟨batch, inLogs, inBatch⟩ := mem_entriesOf.mp listed
    exact lt_of_lt_of_le (above batch inLogs ref present row member)
      (WriteBatch.seq_bounds inBatch).1

/-- Versions are installed in the order of their commits, and an open replays nothing that a file
of the manifest already reaches. -/
def KeepsOrder (table : Table) : TableAction → Prop
  | .act action => ∀ s, table.host = .running s → InstallsInOrder s action
  | .crash _ => True
  | .reopen _ => ∀ disk, table.host = .down disk → disk.RecoversAbove

def Table.Ordered (table : Table) : Prop :=
  match table.host with
  | .running s => s.Ordered
  | .down disk => disk.catalog.current.toVersion.Wf

theorem Table.Ordered.step {table next : Table} {action : TableAction} (ordered : table.Ordered)
    (consistent : table.Consistent) (keeps : KeepsOrder table action)
    (fired : tableStep table action = some next) : next.Ordered := by
  cases table_event fired with
  | act host stepped made =>
    rw [Table.Ordered, host] at ordered
    rw [Table.Consistent, host] at consistent
    subst made
    exact System.Ordered.step ordered consistent.1 consistent.2 (keeps _ host) stepped
  | crash host made =>
    rw [Table.Ordered, host] at ordered
    subst made
    exact System.Ordered.shape ordered _ (.inl rfl)
  | reopen host _ made =>
    rw [Table.Ordered, host] at ordered
    rw [Table.Consistent, host] at consistent
    subst made
    exact Disk.Consistent.ordered _ consistent ordered (keeps _ host)

theorem ordered_of_run {config : Config} {guard : Table → TableAction → Prop}
    (keeps : ∀ table action, guard table action → KeepsOrder table action)
    {actions : List TableAction} {table : Table}
    (run : Run tableStep guard (.created config) actions table) :
    table.Consistent ∧ table.Ordered := by
  apply run.invariant (fun table => table.Consistent ∧ table.Ordered) ?_
    ⟨created_consistent config, initial_ordered config⟩
  intro table action next inv met fired
  exact ⟨inv.1.step fired, inv.2.step inv.1 (keeps table action met) fired⟩

/-- A version of a key that a lookup could be answered with. -/
def System.Holds (s : System) (entry : Entry) : Prop :=
  entry ∈ entriesOf s.memtable.batches ∨ s.version.Live entry

/-- The first hit of a lookup: the memtables from the newest on, then the files. -/
def System.hitAt (config : Config) (s : System) (key : UserKey) (readSeq : Nat) : Option Entry :=
  (s.memtable.get key readSeq).or (probeFiles config s.version key readSeq)

/-- The hit is the newest version of the key up to the sequence number. -/
def System.IsNewestAt (s : System) (key : UserKey) (readSeq : Nat) : Option Entry → Prop
  | none => ∀ entry, s.Holds entry → entry.key = key → readSeq < entry.seq
  | some hit => s.Holds hit ∧ hit.key = key ∧ hit.seq ≤ readSeq ∧
      ∀ entry, s.Holds entry → entry.key = key → entry.seq ≤ readSeq → entry.seq ≤ hit.seq

/-- The first hit of a lookup at the visible sequence number. -/
def System.firstHit (config : Config) (s : System) (key : UserKey) : Option Entry :=
  s.hitAt config key s.visibleSeq

def System.IsNewest (s : System) (key : UserKey) (hit : Option Entry) : Prop :=
  s.IsNewestAt key s.visibleSeq hit

section FirstHit

variable {config : Config} {s : System} {key : UserKey} {readSeq : Nat}

theorem System.Ordered.memtable_first (inv : s.Ordered) (base : s.Base config) {hit row : Entry}
    (found : newestUpTo s.memtable.batches readSeq key = some hit) (live : s.version.Live row)
    (same : row.key = key) (visible : row.seq ≤ readSeq) : row.seq ≤ hit.seq := by
  have increasing := base.ordered
  obtain ⟨inMemtables, _, _, top⟩ := (newestUpTo_eq_some increasing).mp found
  obtain ⟨ref, present, inLive⟩ := live
  have member := ref.liveRows_sublist.subset inLive
  rcases inv.behind s.version (.inr .installed) ref present row member with
    older | ⟨entry, covered, sameKey, sameSeq⟩
  · obtain ⟨batch, inBatches, inBatch⟩ := mem_entriesOf.mp inMemtables
    exact (older hit (mem_entriesOf.mpr ⟨batch, List.mem_append_left _ inBatches, inBatch⟩)).le
  · obtain ⟨batch, inBatches, inBatch⟩ := mem_entriesOf.mp covered
    have listed := (covered_batches base.queued).subset inBatches
    have bound := top entry (mem_entriesOf.mpr ⟨batch, listed, inBatch⟩) (sameKey.trans same)
      (sameSeq.trans_le visible)
    omega

theorem System.Ordered.hitAt_newest (inv : s.Ordered) (base : s.Base config) (key : UserKey)
    (readSeq : Nat) : s.IsNewestAt key readSeq (s.hitAt config key readSeq) := by
  have increasing := base.ordered
  have wf := inv.shape s.version (.inr .installed)
  rw [System.hitAt, MemtableManager.get_eq increasing]
  cases found : newestUpTo s.memtable.batches readSeq key with
  | some hit =>
    obtain ⟨member, same, visible, top⟩ := (newestUpTo_eq_some increasing).mp found
    refine ⟨.inl member, same, visible, ?_⟩
    rintro entry (held | live) sameKey bound
    · exact top entry held sameKey bound
    · exact inv.memtable_first base found live sameKey bound
  | none =>
    have missed := newestUpTo_eq_none.mp found
    rw [Option.none_or]
    cases probed : probeFiles config s.version key readSeq with
    | some hit =>
      obtain ⟨live, same, visible, top⟩ := probeFiles_some wf probed
      refine ⟨.inr live, same, visible, ?_⟩
      rintro entry (held | other) sameKey bound
      · have := missed entry held sameKey
        omega
      · exact top entry other sameKey bound
    | none =>
      rintro entry (held | live) sameKey
      · exact missed entry held sameKey
      · exact probeFiles_none wf.paths wf.disjoint probed live sameKey

end FirstHit

/-- In every state that a table reaches through writes, flushes, compactions, crashes and reopens,
the first hit of a lookup is the newest visible version of the key. -/
theorem first_hit_newest (config : Config) (actions : List TableAction) (table : Table) (s : System)
    (run : Run tableStep KeepsOrder (.created config) actions table)
    (running : table.host = .running s) (key : UserKey) :
    s.IsNewest key (s.firstHit table.config key) := by
  obtain ⟨consistent, ordered⟩ := ordered_of_run (fun _ _ keeps => keeps) run
  rw [Table.Consistent, running] at consistent
  rw [Table.Ordered, running] at ordered
  exact System.Ordered.hitAt_newest ordered consistent.1 key s.visibleSeq

theorem keepsOrder_of_check {config : Config} {actions : List TableAction}
    (passed : (execute (checked tableStep (tableCheck installsCheck fun table _ =>
      table.disk?.all fun disk => disk.RecoversAbove)) (.created config) actions).isSome) :
    Run tableStep KeepsOrder (.created config) actions
      (final tableStep (.created config) actions) := by
  refine run_of_tableCheck System.OneJob
    (fun _ _ good s host => installsCheck_sound (good s host).1 (good s host).2)
    (fun _ _ => trivial) ?_ installsCheck_oneJob (fun _ _ _ busy => absurd rfl busy)
    (initial_oneJob config) passed
  intro table tuning above disk host
  rw [Table.disk?_eq_some.mpr host] at above
  exact of_decide_eq_true above

/-- A flushed record and a second version of its key in the log. -/
def flushedAndLogged : List TableAction :=
  acts (Calls.write [putByte 1 1] ++ Calls.rotate ++
    [.flush .pick, .flush .resolve, .flush .commit]) ++
    .act (.flush .install) ::
      (acts ([.flush (.mark []), .flush .drop] ++ Calls.write [putByte 1 2]) ++ [.crash false])

def flushedAndReopened : List TableAction :=
  flushedAndLogged ++ .reopen Config.plain.tuning :: acts (Calls.write [putByte 2 3])

theorem first_hit_newest_reopened :
    ∃ s, (final tableStep (.created .plain) flushedAndReopened).host = .running s ∧
      s.IsNewest (putByte 1 1).1 (s.firstHit .plain (putByte 1 1).1) := by
  have reopened : Run tableStep KeepsOrder (.created .plain) flushedAndReopened
      (final tableStep (.created .plain) flushedAndReopened) :=
    keepsOrder_of_check (by decide +kernel)
  have running : (final tableStep (.created .plain) flushedAndReopened).system?.isSome := by
    decide +kernel
  obtain ⟨s, found⟩ := Option.isSome_iff_exists.mp running
  have host := Table.system?_eq_some.mp found
  exact ⟨s, host, first_hit_newest .plain _ _ s reopened host _⟩

theorem not_isNewest (table : Table) (hit row : Entry) (rows : List Entry) (visibleSeq : Nat)
    (state : table.system?.map (fun s => (s.firstHit table.config row.key, s.visibleSeq,
      s.version.files.flatMap DataFileMeta.liveRows)) = some (some hit, visibleSeq, rows))
    (listed : row ∈ rows) (visible : row.seq ≤ visibleSeq) (older : hit.seq < row.seq) :
    ∃ s, table.host = .running s ∧ ¬ s.IsNewest row.key (s.firstHit table.config row.key) := by
  obtain ⟨s, running, facts⟩ := Option.map_eq_some_iff.mp state
  injection facts with answered rest
  injection rest with bound files
  refine ⟨s, Table.system?_eq_some.mp running, ?_⟩
  have live : s.version.Live row := by
    rw [← files] at listed
    obtain ⟨ref, present, inRef⟩ := List.mem_flatMap.mp listed
    exact ⟨ref, present, inRef⟩
  rw [answered]
  intro newest
  have most := newest.2.2.2 row (.inr live) rfl (bound ▸ visible)
  omega

/-- The log of the first record outlives the flush of its successor, because its removal has
failed. -/
def replayedOverFile : List TableAction :=
  acts (Calls.write [putByte 1 1]) ++ [.crash false, .reopen Config.plain.tuning] ++
    acts (Calls.write [putByte 1 2] ++ Calls.rotate ++
      [.flush .pick, .flush .resolve, .flush .commit, .flush .install, .flush (.mark [1]),
        .flush .drop]) ++ [.crash false, .reopen Config.plain.tuning]

/-- The replayed record hides the newer one in the file. -/
theorem first_hit_replayed_older :
    ∃ table s, execute tableStep (.created .plain) replayedOverFile = some table ∧
      table.host = .running s ∧
      ¬ s.IsNewest (putByte 1 1).1 (s.firstHit table.config (putByte 1 1).1) := by
  obtain ⟨s, host, older⟩ := not_isNewest (final tableStep (.created .plain) replayedOverFile)
    ⟨(putByte 1 1).1, 1, (putByte 1 1).2⟩ ⟨(putByte 1 2).1, 2, (putByte 1 2).2⟩
    [⟨(putByte 1 2).1, 2, (putByte 1 2).2⟩] 2 (by decide +kernel) List.mem_cons_self le_rfl
      (by decide)
  exact ⟨_, s, execute_final (by decide +kernel), host, older⟩

end Merutable
