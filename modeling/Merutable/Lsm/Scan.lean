import Merutable.Lsm.Reads

/-! `range_scan` pins the installed version, reads the visible sequence number, copies the memtables
and then reads the files, while everything else goes on. -/

namespace Merutable

open Foundation ReadPath

/-- The samples of a scan fit together: every record up to `readSeq` is in the memtables or in what
the version stands for, and the version has nothing newer. -/
structure Sampled (config : Config) (history : List WriteBatch) (memtables : MemtableManager)
    (version : Version) (readSeq : Nat) : Prop where
  increasing : Increasing history
  covers : ∃ first covered, history = first ++ memtables.batches ∧ first <+: covered ∧
    covered <+: history ∧ version.Sound config readSeq (entriesOf covered)
  bounded : ∀ ref ∈ version.files, ∀ row ∈ ref.file.rows, row.seq ≤ readSeq

section Sampled

variable {config : Config} {history : List WriteBatch} {memtables : MemtableManager}
  {version : Version} {readSeq : Nat} {start stop : Option UserKey} {entry : Entry}

section

variable (samples : Sampled config history memtables version readSeq)
include samples

theorem Sampled.harvest_record (member : entry ∈ harvest memtables version start stop readSeq) :
    ∃ record ∈ entriesOf history, record.seq ≤ readSeq ∧ record.key = entry.key ∧
      record.seq = entry.seq ∧ (entry = record ∨ entry = record.persist config) := by
  obtain ⟨first, covered, split, _, within, sound⟩ := samples.covers
  obtain ⟨_, ⟨memtable, queued, listed⟩ | ⟨⟨ref, present, live⟩, bound⟩⟩ := mem_harvest member
  · have ordered := samples.increasing
    rw [split] at ordered
    obtain ⟨held, bound⟩ :=
      MemtableManager.mem_of_iter (List.pairwise_append.mp ordered).2.1 queued listed
    refine ⟨entry, ?_, bound, rfl, rfl, .inl rfl⟩
    rw [split, entriesOf_append]
    exact List.mem_append_right _ held
  · obtain ⟨record, inCovered, rfl⟩ := sound.rows ref present entry
      (ref.liveRows_sublist.subset live)
    rw [Entry.persist_seq] at bound
    obtain ⟨batch, inBatches, inBatch⟩ := mem_entriesOf.mp inCovered
    refine ⟨record, mem_entriesOf.mpr ⟨batch, within.subset inBatches, inBatch⟩, bound, ?_,
      ?_, .inr rfl⟩
    · rw [Entry.persist_key]
    · rw [Entry.persist_seq]

/-- The newest record of a key in range is collected, unless it is a dropped tombstone and nothing
of the key is collected. -/
theorem Sampled.harvest_newest {key : UserKey} (found : newestUpTo history readSeq key = some entry)
    (within : Reader.inRange start stop key = true) :
    (∃ shown ∈ harvest memtables version start stop readSeq, shown.key = key ∧
        shown.seq = entry.seq) ∨
      entry.value.opType = .delete ∧
        ∀ shown ∈ harvest memtables version start stop readSeq, shown.key ≠ key := by
  obtain ⟨first, covered, split, front, inHistory, sound⟩ := samples.covers
  obtain ⟨_, sameKey, bound, top⟩ := (newestUpTo_eq_some samples.increasing).mp found
  have ordered := samples.increasing
  rw [split] at ordered
  rw [split, newestUpTo_append] at found
  cases queued : newestUpTo memtables.batches readSeq key with
  | some hit =>
    rw [queued, Option.some_or] at found
    injection found with same
    subst same
    have inMemory := (List.pairwise_append.mp ordered).2.1
    obtain ⟨member, _, _, largest⟩ := (newestUpTo_eq_some inMemory).mp queued
    obtain ⟨batch, inBatches, inBatch⟩ := mem_entriesOf.mp member
    obtain ⟨memtable, inQueue, inMemtable⟩ := List.mem_flatMap.mp inBatches
    have parts := MemtableManager.queue_batches inQueue
    refine .inl ⟨hit, harvest_memtable inQueue ?_ (by rwa [sameKey]), sameKey, rfl⟩
    rw [Memtable.mem_iter (inMemory.sublist parts)]
    change newestUpTo memtable.batches readSeq hit.key = some hit
    rw [newestUpTo_eq_some (inMemory.sublist parts)]
    refine ⟨mem_entriesOf.mpr ⟨batch, inMemtable, inBatch⟩, rfl, bound, ?_⟩
    intro other listed keyed below
    obtain ⟨source, inSource, inEntries⟩ := mem_entriesOf.mp listed
    exact largest other (mem_entriesOf.mpr ⟨source, parts.subset inSource, inEntries⟩)
      (keyed.trans sameKey) below
  | none =>
    rw [queued, Option.none_or] at found
    have inFirst := ((newestUpTo_eq_some (List.pairwise_append.mp ordered).1).mp found).1
    obtain ⟨batch, inBatches, inBatch⟩ := mem_entriesOf.mp inFirst
    have inCovered : entry ∈ entriesOf covered :=
      mem_entriesOf.mpr ⟨batch, front.subset inBatches, inBatch⟩
    have rising : Increasing covered := samples.increasing.sublist inHistory.sublist
    obtain ⟨latest, newestOf⟩ : ∃ latest, newest Entry.key key (entriesOf covered) = some latest :=
      sameKey ▸ newest_isSome inCovered
    obtain ⟨latestIn, latestKey, largest⟩ := (newest_eq_some rising.entries).mp newestOf
    -- The newest record the version stands for is the one the reader may see.
    have equal : latest.seq ≤ readSeq → latest = entry := by
      intro visible
      obtain ⟨source, inSource, inEntries⟩ := mem_entriesOf.mp latestIn
      have upper := top latest (mem_entriesOf.mpr ⟨source, inHistory.subset inSource, inEntries⟩)
        latestKey visible
      have lower := largest entry inCovered sameKey
      exact eq_of_seq_eq rising.entries latestIn inCovered (Nat.le_antisymm upper lower)
    rcases sound.latest key latest newestOf with ⟨ref, present, live⟩ | ⟨delete, seen, lacks⟩
    · left
      have inRows := ref.liveRows_sublist.subset live
      have visible := samples.bounded ref present _ inRows
      rw [Entry.persist_seq] at visible
      have same := equal visible
      subst same
      have keyed : (latest.persist config).key = key := by rw [Entry.persist_key, latestKey]
      have largestLive : ∀ other ∈ ref.liveRows, other.key = (latest.persist config).key →
          other.seq ≤ readSeq → other.seq ≤ (latest.persist config).seq := by
        intro other otherLive otherKey _
        obtain ⟨record, listed, rfl⟩ :=
          sound.rows ref present other (ref.liveRows_sublist.subset otherLive)
        rw [Entry.persist_key, keyed] at otherKey
        rw [Entry.persist_seq, Entry.persist_seq]
        exact largest record listed otherKey
      have scanned : ∃ shown ∈ Reader.scan ref.file start stop readSeq ref.deletedRows,
          shown ∈ ref.liveRows ∧ shown.key = (latest.persist config).key ∧
            shown.seq = (latest.persist config).seq :=
        mem_scan_of_newest live (by rwa [Entry.persist_seq]) (by rwa [keyed]) largestLive
      obtain ⟨shown, inScan, shownLive, shownKey, shownSeq⟩ := scanned
      rw [Entry.persist_seq] at shownSeq
      rw [keyed] at shownKey
      refine ⟨shown, ?_, shownKey, shownSeq⟩
      exact harvest_file present inScan (ref.liveRows_sublist.subset shownLive)
        (by rwa [shownKey])
    · right
      have same := equal seen
      subst same
      refine ⟨delete, ?_⟩
      intro shown member shownKey
      obtain ⟨_, ⟨memtable, inQueue, listed⟩ | ⟨⟨ref, present, live⟩, _⟩⟩ := mem_harvest member
      · obtain ⟨held, below⟩ :=
          MemtableManager.mem_of_iter (List.pairwise_append.mp ordered).2.1 inQueue listed
        have above := newestUpTo_eq_none.mp queued shown held shownKey
        omega
      · exact lacks ref present shown (ref.liveRows_sublist.subset live) shownKey

theorem Sampled.mem_rangeScan :
    entry ∈ rangeScan memtables version start stop readSeq ↔
      Reader.inRange start stop entry.key = true ∧ entry.value.opType = .put ∧
        newestUpTo history readSeq entry.key = some entry := by
  have rising := samples.increasing
  constructor
  · intro member
    obtain ⟨collected, put, top⟩ := Merutable.mem_rangeScan member
    have within := (mem_harvest collected).1
    obtain ⟨record, listed, bound, sameKey, sameSeq, form⟩ := samples.harvest_record collected
    have same : entry = record := by
      rcases form with same | stored
      · exact same
      · rw [stored, Entry.persist_opType] at put
        rw [stored, Entry.persist_put put]
    subst same
    refine ⟨within, put, ?_⟩
    cases found : newestUpTo history readSeq entry.key with
    | none =>
      have := newestUpTo_eq_none.mp found entry listed rfl
      omega
    | some latest =>
      obtain ⟨latestIn, latestKey, _, largest⟩ := (newestUpTo_eq_some rising).mp found
      rcases samples.harvest_newest found within with ⟨shown, inHarvest, shownKey,
        shownSeq⟩ | ⟨_, gone⟩
      · have upper := top shown inHarvest shownKey
        have lower := largest entry listed rfl bound
        rw [eq_of_seq_eq rising.entries latestIn listed (by omega)]
      · exact absurd rfl (gone entry collected)
  · rintro ⟨within, put, found⟩
    obtain ⟨listed, _, _, largest⟩ := (newestUpTo_eq_some rising).mp found
    have image : ∀ shown ∈ harvest memtables version start stop readSeq,
        shown.seq = entry.seq → shown = entry := by
      intro shown inHarvest shownSeq
      obtain ⟨record, inHistory, _, _, sameSeq, form⟩ := samples.harvest_record inHarvest
      have same : record = entry :=
        eq_of_seq_eq rising.entries inHistory listed (sameSeq.trans shownSeq)
      subst same
      rcases form with same | stored
      · exact same
      · rw [stored, Entry.persist_put put]
    rcases samples.harvest_newest found within with ⟨shown, inHarvest, shownKey, shownSeq⟩ |
      ⟨delete, _⟩
    · rw [image shown inHarvest shownSeq] at inHarvest
      refine rangeScan_covers inHarvest put ?_ fun other member _ => image other member
      intro other member sameKey
      obtain ⟨record, inHistory, bound, recordKey, recordSeq, _⟩ := samples.harvest_record member
      rw [← recordSeq]
      exact largest record inHistory (recordKey.trans sameKey) bound
    · rw [put] at delete
      cases delete

end

end Sampled

/-- A memtable is dropped only if its flush had been installed in the state `pinned`. -/
def DropsPinned (pinned : System) (s : System) : Action → Prop
  | .flush .drop => ∀ memtable, s.flush = .marked memtable →
      pinned.flush = .installed memtable ∨ pinned.flush = .marked memtable
  | _ => True

section Samples

variable {config : Config} {pinned s t : System}

theorem System.Tree.front_history (inv : s.Tree config) (base : s.Base config) {memtable : Memtable}
    (phase : s.flush.memtable? = some memtable) : s.dropped ++ memtable.batches <+: s.history := by
  have whole := inv.history
  rw [whole, MemtableManager.batches_eq, base.queued.queue_eq phase, List.flatMap_cons,
    List.append_assoc, ← List.append_assoc]
  exact List.prefix_append _ _

theorem Increasing.place {history before before' after after' : List WriteBatch}
    {batch : WriteBatch}
    (increasing : Increasing history) (first : before ++ batch :: after <+: history)
    (second : before' ++ batch :: after' <+: history) : before = before' := by
  have distinct : history.Nodup := by
    refine increasing.imp fun {a b} less same => ?_
    have := b.sequence_le_lastSeq
    rw [same] at less
    omega
  obtain ⟨rest, split⟩ := first
  obtain ⟨rest', split'⟩ := second
  rw [← split, List.append_assoc, List.cons_append] at distinct split'
  obtain ⟨_, tail, apart⟩ := List.nodup_append.mp distinct
  have outside : batch ∉ before := fun member => apart batch member batch List.mem_cons_self rfl
  have once := (List.nodup_cons.mp tail).1
  rw [List.append_assoc, List.cons_append] at split'
  exact ((List.append_cons_inj_of_notMem outside once).mp split'.symm).1

/-- While the scan takes its samples, what leaves the memtables is in the pinned version. -/
structure Scanning (config : Config) (pinned : System) (covered : List WriteBatch) (s : System) :
    Prop where
  base : s.Base config
  tree : s.Tree config
  later : pinned.history <+: s.history
  visible : pinned.visibleSeq ≤ s.visibleSeq
  dropped : s.dropped <+: covered

theorem Scanning.step {covered : List WriteBatch} {action : Action}
    (inv : Scanning config pinned covered s) (base : pinned.Base config) (tree : pinned.Tree config)
    (stands : pinned.dropped ++ pinned.flush.reached pinned.version.snapshotId <+: covered)
    (keeps : KeepsTree s action) (exact : DropsPinned pinned s action)
    (fired : Merutable.step config s action = some t) : Scanning config pinned covered t := by
  obtain ⟨more, history, _⟩ := history_more inv.base.numbered fired
  refine ⟨inv.base.step fired, inv.tree.step inv.base keeps.1 keeps.2 fired,
    inv.later.trans ⟨more, history.symm⟩, inv.visible.trans (visible_step fired), ?_⟩
  rcases (dropped_step inv.tree.history inv.base keeps.1 fired).2 with same |
    ⟨memtable, rfl, phase, moved⟩
  · rw [same]
    exact inv.dropped
  rw [moved]
  have installed := exact memtable phase
  have reached : pinned.flush.reached pinned.version.snapshotId = memtable.batches := by
    rcases installed with found | found <;> rw [found] <;> rfl
  rw [reached] at stands
  cases batches : memtable.batches with
  | nil =>
    rw [List.append_nil]
    exact inv.dropped
  | cons batch rest =>
    -- The batch has one place in the history, so nothing was dropped since the pin.
    have before : pinned.dropped ++ memtable.batches <+: pinned.history := by
      apply tree.front_history base
      rcases installed with found | found <;> rw [found] <;> rfl
    have now : s.dropped ++ memtable.batches <+: s.history := by
      apply inv.tree.front_history inv.base
      rw [phase]
      rfl
    rw [batches] at before now stands
    have increasing : Increasing s.history := inv.base.numbered.increasing
    rw [increasing.place now (before.trans inv.later)]
    exact stands

/-- The scan is exact at its own sequence number, and shows nothing older than what was visible when
it began. -/
theorem range_scan_exact (config : Config) (before first second : List Action)
    (pinned read copied : System)
    (reached : Run (step config) KeepsTree (.initial config) before pinned)
    (reading : Run (step config) (fun s action => KeepsTree s action ∧ DropsPinned pinned s action)
      pinned first read)
    (copying : Run (step config) (fun s action => KeepsTree s action ∧ DropsPinned pinned s action)
      read second copied)
    (within : ∀ ref ∈ pinned.version.files, ∀ row ∈ ref.file.rows, row.seq ≤ read.visibleSeq)
    (start stop : Option UserKey) :
    (rangeScan copied.memtable pinned.version start stop read.visibleSeq).Pairwise
        (fun a b => a.key < b.key) ∧
      (∀ entry, entry ∈ rangeScan copied.memtable pinned.version start stop read.visibleSeq ↔
        Reader.inRange start stop entry.key = true ∧ entry.value.opType = .put ∧
          newestUpTo copied.history read.visibleSeq entry.key = some entry) ∧
      ∀ record ∈ entriesOf pinned.history, record.seq ≤ pinned.visibleSeq →
        ∃ latest, newestUpTo copied.history read.visibleSeq record.key = some latest ∧
          record.seq ≤ latest.seq := by
  obtain ⟨base, tree⟩ := tree_of_run (fun _ _ => id) reached
  obtain ⟨covered, stands, upper, sound⟩ := tree.upcoming pinned.version (.inl rfl)
  have whole : covered <+: pinned.history := upper.trans (tree.covered_history base)
  have preserved : ∀ s action t, Scanning config pinned covered s →
      KeepsTree s action ∧ DropsPinned pinned s action → step config s action = some t →
      Scanning config pinned covered t := fun s action t inv met fired =>
    inv.step base tree stands met.1 met.2 fired
  have atPin : Scanning config pinned covered pinned :=
    ⟨base, tree, List.prefix_rfl, le_rfl, (List.prefix_append _ _).trans stands⟩
  have atRead := reading.invariant (Scanning config pinned covered) preserved atPin
  have atCopy := copying.invariant (Scanning config pinned covered) preserved atRead
  have increasing : Increasing copied.history := atCopy.base.numbered.increasing
  have samples : Sampled config copied.history copied.memtable pinned.version read.visibleSeq :=
    ⟨increasing, ⟨copied.dropped, covered, atCopy.tree.history, atCopy.dropped,
      whole.trans atCopy.later, sound.mono atRead.visible⟩, within⟩
  refine ⟨rangeScan_ascending, fun entry => samples.mem_rangeScan, ?_⟩
  intro record member visible
  have bound := visible.trans atRead.visible
  obtain ⟨batch, inBatches, inBatch⟩ := mem_entriesOf.mp member
  have listed : record ∈ entriesOf copied.history :=
    mem_entriesOf.mpr ⟨batch, atCopy.later.subset inBatches, inBatch⟩
  cases found : newestUpTo copied.history read.visibleSeq record.key with
  | none =>
    have := newestUpTo_eq_none.mp found record listed rfl
    omega
  | some latest =>
    exact ⟨latest, rfl, ((newestUpTo_eq_some increasing).mp found).2.2.2 record listed rfl bound⟩

/-- The scan pins the version of a flush that has just been installed. -/
def scanPinned : List Action :=
  Calls.write [putByte 1 1] ++ Calls.rotate ++ [.flush .pick, .flush .resolve, .flush .commit,
    .flush .install]

/-- A second record is written before the scan reads the visible sequence number. -/
def scanRead : List Action := Calls.write [putByte 2 2] ++ [.flush (.mark [])]

/-- The memtables are copied after the flushed one was dropped. -/
def scanCopied : List Action := [] ++ .flush .drop :: []

theorem range_scan_exact_dropped :
    let pinned := finalPlain scanPinned
    let read := final (step .plain) pinned scanRead
    let copied := final (step .plain) read scanCopied
    ∀ entry, entry ∈ rangeScan copied.memtable pinned.version none none read.visibleSeq ↔
      Reader.inRange none none entry.key = true ∧ entry.value.opType = .put ∧
        newestUpTo copied.history read.visibleSeq entry.key = some entry := by
  intro pinned read copied
  obtain ⟨reached, onePinned⟩ : Run (step .plain) KeepsTree (.initial .plain) scanPinned pinned ∧
      pinned.OneJob := keepsTree_of_check (initial_oneJob .plain) (by decide +kernel)
  obtain ⟨keeps, oneRead⟩ : Run (step .plain) KeepsTree pinned scanRead read ∧ read.OneJob :=
    keepsTree_of_check onePinned (by decide +kernel)
  have reading := keeps.and (show Run (step .plain) (DropsPinned pinned) pinned scanRead read from
    .of_execute (by simp [scanRead, Calls.write, DropsPinned]) (execute_final (by decide +kernel)))
  have drops : Run (step .plain) (DropsPinned pinned) read scanCopied copied := by
    refine Run.extend (.of_execute (by simp) rfl) (by decide +kernel) ?_ (by simp)
    intro memtable phase
    cases phase
    exact .inl rfl
  have copying := (keepsTree_of_check oneRead (by decide +kernel)).1.and drops
  exact (range_scan_exact .plain _ _ _ pinned read copied reached reading copying
    (by decide +kernel) none none).2.1

/-- The scan pins a version before a flush, which is over when the memtables are copied. -/
def scanTooEarly : List Action := Calls.write [putByte 1 1] ++ Calls.rotate

/-- The record is in no memtable any more and not in the pinned version. -/
theorem range_scan_misses : ∃ pinned copied, runFrom .plain scanTooEarly = some pinned ∧
    execute (step .plain) pinned Calls.runFlush = some copied ∧
    ∃ entry, newestUpTo copied.history pinned.visibleSeq entry.key = some entry ∧
      entry.seq ≤ pinned.visibleSeq ∧ entry.value.opType = .put ∧
      entry ∉ rangeScan copied.memtable pinned.version none none pinned.visibleSeq :=
  ⟨_, _, execute_final (by decide +kernel), execute_final (by decide +kernel),
    ⟨(putByte 1 1).1, 1, (putByte 1 1).2⟩, by decide +kernel, by decide +kernel, by decide +kernel,
    by decide +kernel⟩

end Samples

end Merutable
