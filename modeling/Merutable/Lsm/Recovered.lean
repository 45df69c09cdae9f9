import Merutable.Lsm.Numbers
import Merutable.Lsm.Replay

/-! Tables that crash and are opened again. After every open, and whenever no call is under way, a
table answers like the map of the writes that were acknowledged and of those a crash cut behind
their log record. -/

namespace Merutable

open Foundation ReadPath

/-- What a crash leaves of the records: the logs hold the end of them, the files show a
beginning. -/
def Disk.Recoverable (config : Config) (disk : Disk) (records : List WriteBatch) : Prop :=
  ∃ removed stored, records = removed ++ disk.logs.batches ∧ removed <+: stored ∧
    stored <+: records ∧ disk.catalog.current.toVersion.Exact config (entriesOf stored)

theorem System.Recoverable.crash {config : Config} {s : System} {records : List WriteBatch}
    (inv : s.Recoverable config records) (stray : Bool) :
    (s.crash stray).Recoverable config (records ++ s.write.onlyLogged) := by
  obtain ⟨_, removed, stored, inv⟩ := inv
  exact ⟨removed, stored, inv.logs, inv.removed, inv.within.trans (List.prefix_append _ _),
    inv.exact⟩

section Opened

variable {config : Config} {disk : Disk} {records : List WriteBatch}

theorem opened_completed (config : Config) (disk : Disk) :
    (System.opened config disk).Completed where
  waiting := by
    change ∀ held ∈ (disk.memtable config).immutable, _
    rw [(disk.memtable_queue config).1]
    intro held member
    cases member
  rotating := by rintro (phase | ⟨_, phase⟩) <;> cases phase
  posts := Nat.zero_le _
  writing := fun busy => absurd rfl busy

theorem MemtableManager.replayed_lastSeq (encodedLen : Row → Nat) {bound : Nat}
    (batches : List WriteBatch) (below : ∀ batch ∈ batches, batch.lastSeq ≤ bound)
    (manager : MemtableManager) (small : manager.active.lastSeq ≤ bound) :
    manager.active.lastSeq ≤ (batches.foldl (applyBatch encodedLen) manager).active.lastSeq ∧
      (batches.foldl (applyBatch encodedLen) manager).active.lastSeq ≤ bound := by
  induction batches generalizing manager with
  | nil => exact ⟨le_rfl, small⟩
  | cons batch rest ih =>
    have applied := ih (fun other member => below other (List.mem_cons_of_mem _ member))
      (manager.applyBatch encodedLen batch) (max_le small (below batch List.mem_cons_self))
    exact ⟨(le_max_left _ _).trans applied.1, applied.2⟩

theorem opened_lastSeq (config : Config) (disk : Disk) {held : Memtable}
    (member : held ∈ (System.opened config disk).memtable.queue) : held.lastSeq = disk.initSeq := by
  change held ∈ (disk.memtable config).queue at member
  rw [MemtableManager.queue, (disk.memtable_queue config).1, List.nil_append,
    List.mem_singleton] at member
  have bounds := MemtableManager.replayed_lastSeq config.encodedLen disk.logs.batches
    (fun batch listed => (Disk.batch_lt_initSeq listed).le) (.new disk.initSeq) le_rfl
  rw [member]
  exact le_antisymm bounds.2 bounds.1

theorem Disk.Consistent.logsCovered (consistent : disk.Consistent) :
    (System.opened config disk).LogsCovered where
  files := by
    intro number log file
    by_cases own : number = disk.logs.maxLogNumber + 1
    · exact .inl own
    · have old : disk.logs.files number = some log :=
        (Function.update_of_ne own _ _).symm.trans file
      have bound : number ≤ disk.logs.limit := by
        by_contra above
        rw [consistent.bounded number (not_le.mp above)] at old
        cases old
      have listed : number ∈ disk.logs.numbers :=
        List.mem_filter.mpr ⟨List.mem_range.mpr (Nat.lt_succ_of_le bound), by rw [old]; rfl⟩
      exact .inr ⟨_, List.mem_map_of_mem listed, rfl⟩
  closed := by
    intro log listed held member
    obtain ⟨_, _, rfl⟩ := List.mem_map.mp listed
    rw [opened_lastSeq config disk member]
    exact (le_max_left _ _).trans (Nat.le_succ _)
  current := fun held _ => .inl (Nat.zero_le _)
  reach := fun held member => (opened_lastSeq config disk member).le.trans (Nat.le_succ _)

theorem Disk.Recoverable.opened (inv : disk.Recoverable config records)
    (consistent : disk.Consistent) :
    (System.opened config disk).Recoverable config records := by
  obtain ⟨removed, stored, logs, covered, within, exact⟩ := inv
  refine ⟨removed, removed, stored, ?_, ?_, covered, covered, within, exact, ?_⟩
  · exact logs.trans (congrArg _ (disk.memtable_queue config).2.2.2.2.symm)
  · exact ((List.append_nil _).trans logs).trans (congrArg _ consistent.logged.symm)
  · intro committed
    cases committed

end Opened

/-- The key is about to leave the row cache. -/
def System.Invalidates (s : System) (key : UserKey) : Prop :=
  (∃ post ∈ s.posts, key ∈ post.pending) ∨
    ∃ batch, s.write = .applied batch ∧ key ∈ batch.records.map Prod.fst

/-- The row is the newest one of its key. -/
def CurrentRow (config : Config) (records : List WriteBatch) (row : Entry) : Prop :=
  ∃ record, newest Entry.key row.key (entriesOf records) = some record ∧ row = record.persist config

/-- Cached rows are the newest ones of their keys or about to leave the cache. -/
def System.CacheCurrent (config : Config) (s : System) (records : List WriteBatch) : Prop :=
  ∀ cache, s.rowCache = some cache → ∀ row ∈ cache.entries,
    s.Invalidates row.key ∨ CurrentRow config records row

/-- The key of the lookup is not in the memtables. -/
def Missed (s : System) : GetPhase → Prop
  | .missed key readSeq _ | .uncached key readSeq _ | .stamped key readSeq _ _
  | .pinned key readSeq _ _ _ =>
    readSeq ≤ s.visibleSeq ∧ newestUpTo s.memtable.batches readSeq key = none
  | _ => True

section Cache

variable {config : Config} {s t : System} {action : Action} {records : List WriteBatch}

theorem missed_lasts (base : s.Base config)
    (fired : step config s action = some t) {phase : GetPhase}
    (missed : Missed s phase) : Missed t phase := by
  have lasts {key : UserKey} {readSeq : Nat}
      (held : readSeq ≤ s.visibleSeq ∧ newestUpTo s.memtable.batches readSeq key = none) :
      readSeq ≤ t.visibleSeq ∧ newestUpTo t.memtable.batches readSeq key = none :=
    ⟨held.1.trans (visible_step fired), missed_step base fired held.1 held.2⟩
  cases phase with
  | idle | started | done => trivial
  | missed | uncached | stamped | pinned => exact lasts missed

theorem missed_gets (inv : ∀ thread, Missed s (s.gets thread)) (base : s.Base config)
    (reading : ∀ thread, Undisturbed s (s.gets thread)) (fired : step config s action = some t) :
    ∀ thread, Missed t (t.gets thread) := by
  refine gets_invariant (fun _ => Missed s) (fun _ => Missed t) inv fired
    (fun _ _ _ missed => missed_lasts base fired missed) ?_
  rintro thread move phase rfl moved
  refine missed_lasts base fired ?_
  have missed := inv thread
  have undisturbed := reading thread
  generalize s.gets thread = before at missed undisturbed moved
  cases moved with
  | miss absent =>
    rw [MemtableManager.get_eq base.ordered] at absent
    exact ⟨undisturbed.2.le, absent⟩
  | uncached | stamp | pin => exact missed
  | _ => trivial

theorem current_step (completed : s.Completed) (alone : Alone s action) {cache : RowCache}
    (enabled : s.rowCache = some cache) {row : Entry}
    (stays : ∀ index batch rest, action = .post (.pop index) →
      s.posts[index]? ≠ some ⟨batch, row.key :: rest, true⟩)
    (current : s.Invalidates row.key ∨ CurrentRow config records row)
    (fired : step config s action = some t) :
    t.Invalidates row.key ∨ CurrentRow config (records ++ action.applies s) row := by
  have same (none : action.applies s = [])
      (lasts : s.Invalidates row.key → t.Invalidates row.key) :
      t.Invalidates row.key ∨ CurrentRow config (records ++ action.applies s) row := by
    rw [none, List.append_nil]
    exact current.imp_left lasts
  cases action with
  | write action =>
    change writeStep config s action = some t at fired
    cases write_effect fired with
    | allocate idle =>
      refine same rfl ?_
      rintro (waiting | ⟨_, phase, _⟩)
      · exact .inl waiting
      · rw [idle] at phase
        cases phase
    | append _ allocated =>
      refine same rfl ?_
      rintro (waiting | ⟨_, phase, _⟩)
      · exact .inl waiting
      · rw [allocated] at phase
        cases phase
    | appendFailed => cases alone.1
    | apply batch appended =>
      by_cases own : row.key ∈ batch.records.map Prod.fst
      · exact .inl (.inr ⟨batch, rfl, own⟩)
      · have absent : newest Entry.key row.key batch.entries = none :=
          newest_eq_none.mpr fun entry member keyed =>
            own (keyed ▸ WriteBatch.entriesFrom_key member)
        rcases current with (waiting | ⟨_, phase, _⟩) | ⟨record, found, persisted⟩
        · exact .inl (.inl waiting)
        · rw [appended] at phase
          cases phase
        · refine .inr ⟨record, ?_, persisted⟩
          simp only [Action.applies, appended, WritePhase.onlyLogged]
          rw [entriesOf_append, newest_append, entriesOf_singleton, absent, Option.none_or, found]
    | publish batch applied =>
      refine same rfl ?_
      rintro (⟨post, listed, pending⟩ | ⟨other, phase, own⟩)
      · exact .inl ⟨post, List.mem_append_left _ listed, pending⟩
      · rw [applied] at phase
        injection phase with equal
        refine .inl ⟨_, List.mem_append_right _ (List.mem_singleton.mpr rfl), ?_⟩
        simpa [enabled, equal] using own
  | post action =>
    change postStep s action = some t at fired
    cases post_effect fired with
    | bump _ _ _ found | ret _ _ found =>
      obtain ⟨only, rfl⟩ := completed.only_post found
      refine same rfl (Or.imp_left ?_)
      simp [only]
    | pop batch key rest found =>
      obtain ⟨only, rfl⟩ := completed.only_post found
      have other : row.key ≠ key := fun equal => stays 0 batch rest rfl (equal ▸ found)
      refine same rfl (Or.imp_left ?_)
      simp [only, other]
  | _ =>
    cases step_effect fired
    exact same rfl id

end Cache

/-- A running table whose files, logs, memtables and row cache are those of the writes in `before`
and of the ones since it was opened. -/
structure System.Serving (config : Config) (before : List WriteBatch) (s : System) : Prop where
  base : s.Base config
  durable : s.Durable
  sequential : s.Sequential config
  completed : s.Completed
  covered : s.LogsCovered
  recoverable : s.Recoverable config (before ++ s.inEffect)
  rows : ∀ ref ∈ s.catalog.current.live, ∀ row ∈ ref.file.rows, row.seq ≤ s.visibleSeq
  reading : ∀ thread, Undisturbed s (s.gets thread)
  missed : ∀ thread, Missed s (s.gets thread)
  cached : s.CacheCurrent config (before ++ s.inEffect)

/-- What an operation of the run has to observe. -/
def InOrder (s : System) (action : Action) : Prop :=
  InTurn s action ∧ Completes s action ∧ RemovesInOrder s action

section Serving

variable {config : Config} {before : List WriteBatch} {s t : System} {action : Action}

theorem Disk.Recoverable.serving {disk : Disk} (inv : disk.Recoverable config before)
    (consistent : disk.Consistent) : (System.opened config disk).Serving config before := by
  have records : before ++ (System.opened config disk).inEffect = before := List.append_nil before
  refine ⟨consistent.base, consistent.durable, opened_sequential consistent,
    opened_completed config disk, consistent.logsCovered, ?_, ?_, fun _ => trivial, fun _ =>
      trivial, ?_⟩
  · rw [records]
    exact inv.opened consistent
  · intro ref present row member
    exact Nat.le_pred_of_lt (disk.row_lt_initSeq present member)
  · intro cache enabled row member
    rw [RowCache.entries_of_new enabled] at member
    cases member

theorem System.AtRest.held_visible (rest : s.AtRest) (base : s.Base config) :
    ∀ entry ∈ entriesOf s.memtable.batches, entry.seq ≤ s.visibleSeq := by
  intro entry member
  obtain ⟨batch, held, inBatch⟩ := mem_entriesOf.mp member
  exact rest.published base entry (mem_entriesOf.mpr ⟨batch, base.queued.held.subset held, inBatch⟩)

/-- At rest a row that lookups find in the files is the newest one, unless the memtables have its
key. -/
theorem System.Serving.probed (inv : s.Serving config before) (rest : s.AtRest) {key : UserKey}
    {row : Entry} (absent : newestUpTo s.memtable.batches s.visibleSeq key = none)
    (found : probeFiles config s.version key s.visibleSeq = some row) :
    CurrentRow config (before ++ s.inEffect) row := by
  obtain ⟨live, rfl⟩ := probeFiles_live found
  rw [inv.sequential.idle_latest rest.1] at live
  obtain ⟨_, _, stored, recorded⟩ := inv.recoverable
  obtain ⟨record, newest, rfl⟩ := recorded.exact.sound row live
  rw [newestUpTo_all (rest.held_visible inv.base), Entry.persist_key] at absent
  refine ⟨record, ?_, rfl⟩
  rw [Entry.persist_key, recorded.newest_stored absent, newest]

theorem System.Serving.cached_step (inv : s.Serving config before) (alone : Alone s action)
    (fired : Merutable.step config s action = some t) :
    t.CacheCurrent config (before ++ t.inEffect) := by
  intro cache enabled row member
  obtain ⟨change, mapped, moved⟩ := cache_move fired
  rw [enabled] at mapped
  obtain ⟨old, present, rfl⟩ := Option.map_eq_some_iff.mp mapped.symm
  rw [inEffect_step inv.completed alone fired, ← List.append_assoc]
  have step (stays : ∀ index batch rest, action = .post (.pop index) →
      s.posts[index]? ≠ some ⟨batch, row.key :: rest, true⟩)
      (current : s.Invalidates row.key ∨ CurrentRow config (before ++ s.inEffect) row) :=
    current_step inv.completed alone present stays current fired
  cases moved with
  | keep other =>
    refine step ?_ (inv.cached old present row member)
    rintro index batch rest rfl
    cases other
  | bump index => exact step (by simp) (inv.cached old present row member)
  | @pop index batch key rest waiting =>
    obtain ⟨listed, other⟩ := List.mem_filter.mp member
    refine step ?_ (inv.cached old present row listed)
    rintro _ own others ⟨⟩ found
    rw [waiting] at found
    injection found with found
    injection found with _ keys
    injection keys with same
    exact of_decide_eq_true other same.symm
  | clear job => cases member
  | promote thread key =>
    exact step (by simp) (inv.cached old present row (RowCache.mem_promote member))
  | @fill thread _ _ _ _ _ _ phase found =>
    rcases RowCache.mem_insertIfFresh member with listed | ⟨rfl, _⟩
    · exact step (by simp) (inv.cached old present row listed)
    · have undisturbed := inv.reading thread
      have missed := inv.missed thread
      rw [phase] at undisturbed missed
      obtain ⟨rest, rfl, rfl⟩ := undisturbed
      exact step (by simp) (.inr (inv.probed rest missed.2 found))

theorem System.Serving.step (inv : s.Serving config before)
    (enabled : config.enableFlushDvEmission = true) (met : InOrder s action)
    (fired : Merutable.step config s action = some t) : t.Serving config before := by
  obtain ⟨turn, completes, inOrder⟩ := met
  refine ⟨inv.base.step fired, inv.durable.step inv.base fired, inv.sequential.step turn.1 fired,
    inv.completed.step inv.sequential.solo turn.1 completes fired,
    inv.covered.step inv.base inv.sequential inv.completed turn.1 fired, ?_, ?_,
    reading_step inv.reading turn fired, missed_gets inv.missed inv.base inv.reading fired,
    inv.cached_step turn.1 fired⟩
  · rw [inEffect_step inv.completed turn.1 fired, ← List.append_assoc]
    exact inv.recoverable.step inv.base inv.durable inv.sequential inv.completed inv.covered enabled
      turn.1 inOrder fired
  · intro ref present row member
    have before := inv.sequential.rows_visible inv.base inv.rows fired ref present row member
    exact before.trans (visible_step fired)

theorem System.Serving.answer_eq (inv : s.Serving config before) (rest : s.AtRest) (key : UserKey) :
    ((s.answer config key).bind fun entry => entry.value.row?) =
      mapAfter ((before ++ s.inEffect).flatMap WriteBatch.records) key := by
  have held := @newestUpTo_all _ _ key (rest.held_visible inv.base)
  have ordered := inv.base.ordered
  rw [mapAfter_batches, System.answer, MemtableManager.get_eq ordered, held]
  obtain ⟨dropped, removed, stored, recorded⟩ := inv.recoverable
  cases hit : newest Entry.key key (entriesOf s.memtable.batches) with
  | some entry =>
    rw [recorded.memtables, entriesOf_append, newest_append, hit, Option.some_or, Option.some_or]
  | none =>
    rw [Option.none_or]
    cases cached : s.rowCache.bind (RowCache.lookup · key) with
    | some row =>
      obtain ⟨cache, enabled, looked⟩ := Option.bind_eq_some_iff.mp cached
      obtain ⟨listed, rfl⟩ := RowCache.lookup_mem looked
      rcases inv.cached cache enabled row listed with
        (⟨post, waiting, _⟩ | ⟨_, phase, _⟩) | ⟨record, newest, rfl⟩
      · rw [rest.2] at waiting
        cases waiting
      · exact absurd (show s.write ≠ .idle by simp [phase]) (rest.1 .write)
      · rw [newest, Option.some_or, Option.bind_some, Option.bind_some, Entry.persist_row]
    | none =>
      rw [Option.none_or, recorded.newest_stored hit, inv.sequential.idle_latest rest.1]
      refine recorded.exact.probeFiles_row fun row live _ => ?_
      obtain ⟨ref, present, inRef⟩ := live
      exact inv.rows ref present row (ref.liveRows_sublist.subset inRef)

end Serving

/-- Every point lookup returns the row of its key in the map. -/
def System.LooksUp (config : Config) (s : System) (map : UserKey → Option Row) : Prop :=
  ∀ thread, s.gets thread = .idle → ∀ key, ∃ (moves : List GetAction) (t : System)
      (answer : Option Entry) (fromCache : Bool),
    execute (step config) s (.get thread (.start key) :: moves.map (Action.get thread)) = some t ∧
      t.gets thread = .done key s.returned answer fromCache ∧
      (answer.bind fun entry => entry.value.row?) = map key

theorem System.Serving.looksUp {config : Config} {before : List WriteBatch} {s : System}
    (inv : s.Serving config before) (rest : s.AtRest) :
    s.LooksUp config (mapAfter ((before ++ s.inEffect).flatMap WriteBatch.records)) := by
  intro thread idle key
  obtain ⟨moves, t, fromCache, ran, returned⟩ := answer_returned config s idle key
  exact ⟨moves, t, s.answer config key, fromCache, ran, returned, inv.answer_eq rest key⟩

/-- The batches of the calls that are applied: those that were acknowledged, and those a crash cut
with the record in the log. -/
def kept (calls : List (WriteBatch × Outcome)) : List WriteBatch :=
  (calls.filter fun call => call.2 ≠ .lost).map Prod.fst

theorem kept_append (calls later : List (WriteBatch × Outcome)) :
    kept (calls ++ later) = kept calls ++ kept later := by
  simp [kept]

theorem kept_outcomes (s : System) : kept s.outcomes = s.inEffect ++ s.write.onlyLogged := by
  have acknowledged : kept (s.returned.map (·, Outcome.acknowledged)) = s.returned := by
    simp [kept, List.filter_map, Function.comp_def]
  have posts : kept (s.posts.map fun post => (post.batch, Outcome.kept)) =
      s.posts.map PostWrite.batch := by
    simp [kept, List.filter_map, Function.comp_def]
  rw [System.outcomes, kept_append, kept_append, acknowledged, posts, System.inEffect]
  cases s.write <;> simp [kept, WritePhase.unpublished, WritePhase.onlyLogged]

theorem outcomes_batches (s : System) :
    s.outcomes.map Prod.fst = s.inEffect ++ s.write.incoming := by
  rw [System.outcomes, System.inEffect]
  cases s.write <;> simp [WritePhase.unpublished, WritePhase.incoming, Function.comp_def]

/-- The writes of a table so far, with how they ended. -/
def Table.writes (table : Table) : List (WriteBatch × Outcome) :=
  match table.host with
  | .running s => table.calls ++ s.outcomes
  | .down _ => table.calls

/-- The records of the puts, deletes and batches over the life of a table. -/
def submitted (actions : List TableAction) : List (UserKey × EntryValue) :=
  actions.flatMap fun
    | .act action => writtenBy [action]
    | _ => []

/-- The operations of a table follow each other, and it is opened with the options it had. -/
def Serially (table : Table) : TableAction → Prop
  | .act action => ∀ s, table.host = .running s → InOrder s action
  | .crash _ => True
  | .reopen tuning => tuning = table.config.tuning

structure Table.Serving (config : Config) (past : List TableAction) (table : Table) : Prop where
  options : table.config = config
  written : (table.writes.flatMap fun call => call.1.records) = submitted past
  running : ∀ s, table.host = .running s → s.Serving config (kept table.calls)
  down : ∀ disk, table.host = .down disk →
    disk.Consistent ∧ disk.Recoverable config (kept table.calls)

section Tables

variable {config : Config} {past : List TableAction} {table next : Table} {action : TableAction}

/-- The empty directory in which a table is created. -/
def Disk.fresh : Disk := ⟨⟨fun _ => none, 0⟩, Catalog.empty, false, 0, [], [], 0⟩

theorem fresh_consistent : Disk.fresh.Consistent where
  bounded := fun _ _ => rfl
  increasing := List.Pairwise.nil
  below := by intro batch member; cases member
  rows := by intro ref member; cases member
  next := Nat.zero_lt_one
  fresh := by intro file member; cases member
  distinct := List.nodup_nil
  unique := List.nodup_nil
  tracked := by intro ref member; cases member

theorem created_serving (config : Config) : (Table.created config).Serving config [] where
  options := rfl
  written := rfl
  running := by
    rintro s ⟨⟩
    exact Disk.Recoverable.serving ⟨[], [], rfl, List.prefix_rfl, List.prefix_rfl, .empty config 0⟩
      fresh_consistent
  down := by intro disk host; cases host

theorem incoming_step {s t : System} {action : Action} (completed : s.Completed)
    (alone : Alone s action)
    (fired : step config s action = some t) :
    (t.inEffect ++ t.write.incoming).flatMap WriteBatch.records =
      (s.inEffect ++ s.write.incoming).flatMap WriteBatch.records ++ writtenBy [action] := by
  rw [inEffect_step completed alone fired]
  cases action with
  | write action =>
    change writeStep config s action = some t at fired
    cases write_effect fired with
    | allocate idle _ batch _ same =>
      simp [idle, WritePhase.incoming, Action.applies, writtenBy, same]
    | append _ phase | publish _ phase =>
      simp [phase, WritePhase.incoming, Action.applies, writtenBy]
    | appendFailed => cases alone.1
    | apply batch phase =>
      simp [phase, WritePhase.incoming, WritePhase.onlyLogged, Action.applies, writtenBy]
  | _ =>
    cases step_effect fired
    simp [Action.applies, writtenBy]

theorem outcomes_records (s : System) : (s.outcomes.flatMap fun call => call.1.records) =
    (s.inEffect ++ s.write.incoming).flatMap WriteBatch.records := by
  rw [← outcomes_batches, List.flatMap_map]

theorem Table.Serving.step (inv : table.Serving config past)
    (enabled : config.enableFlushDvEmission = true) (met : Serially table action)
    (fired : tableStep table action = some next) : next.Serving config (past ++ [action]) := by
  have same := inv.options
  have written := inv.written
  rw [submitted] at written
  cases table_event fired with
  | @act s t action host stepped made =>
    have serving := inv.running s host
    have observed := met s host
    subst made
    rw [same] at stepped
    refine ⟨same, ?_, ?_, by intro disk down; cases down⟩
    · rw [Table.writes, host, List.flatMap_append, outcomes_records] at written
      rw [Table.writes, List.flatMap_append, outcomes_records,
        incoming_step serving.completed observed.1.1 stepped, ← List.append_assoc, written,
          submitted,
        List.flatMap_append, List.flatMap_singleton]
    · rintro _ ⟨⟩
      exact serving.step enabled observed stepped
  | @crash s stray host made =>
    have serving := inv.running s host
    subst made
    refine ⟨same, ?_, (by intro s running; cases running), ?_⟩
    · rw [Table.writes, host] at written
      rw [Table.writes, written, submitted, List.flatMap_append]
      exact (List.append_nil _).symm
    · rintro _ ⟨⟩
      refine ⟨serving.durable.crash serving.base stray, ?_⟩
      rw [kept_append, kept_outcomes, ← List.append_assoc]
      exact serving.recoverable.crash stray
  | @reopen disk tuning host readable made =>
    obtain ⟨consistent, recoverable⟩ := inv.down disk host
    change tuning = table.config.tuning at met
    rw [met, same] at made
    subst made
    refine ⟨rfl, ?_, ?_, by intro disk down; cases down⟩
    · rw [Table.writes, host] at written
      rw [Table.writes, submitted, List.flatMap_append, List.flatMap_append, ← written]
      rfl
    · rintro _ ⟨⟩
      exact recoverable.serving consistent

end Tables

theorem System.Completed.inFlight {s : System} (completed : s.Completed) :
    (s.outcomes.filter fun call => call.2 ≠ .acknowledged).length ≤ 1 := by
  have posts := completed.posts
  have writing := completed.writing
  rw [System.outcomes]
  cases phase : s.write with
  | idle => simpa [List.filter_map, Function.comp_def] using posts
  | _ => simp [List.filter_map, Function.comp_def, writing (by simp [phase])]

/-- A table with deletion vectors on is written to, flushed and compacted by operations that follow
each other, each flush to its end, and crashes and is opened again any number of times. The calls of
its life are those of the run in order, and of each life at most the last one was cut. Whenever no
call is under way, right after an open in particular, point lookups return the map of the calls that
were acknowledged or cut behind their log record. An open after a crash gets there unless the crash
has cut the first commit of the table between its manifest file and the version hint. -/
theorem reopened_table_refines_map (config : Config) (enabled : config.enableFlushDvEmission = true)
    (actions : List TableAction) (table : Table)
    (run : Run tableStep Serially (.created config) actions table) :
    (table.writes.flatMap fun call => call.1.records) = submitted actions ∧
      (∀ s, table.host = .running s →
        (s.outcomes.filter fun call => call.2 ≠ .acknowledged).length ≤ 1 ∧
          (s.AtRest → s.LooksUp config (mapAfter
            ((kept table.writes).flatMap WriteBatch.records)))) ∧
      ∀ disk, table.host = .down disk →
        ((∃ next s, tableStep table (.reopen config.tuning) = some next ∧ next.host = .running s ∧
            s.LooksUp config (mapAfter ((kept table.writes).flatMap WriteBatch.records))) ↔
          disk.readable = true) := by
  have inv : table.Serving config ([] ++ actions) :=
    run.past_invariant (fun past table => table.Serving config past)
      (fun _ _ _ _ inv met fired => inv.step enabled met fired) (created_serving config)
  refine ⟨inv.written, ?_, ?_⟩
  · intro s host
    have serving := inv.running s host
    refine ⟨serving.completed.inFlight, fun rest => ?_⟩
    have idle : s.write = .idle := not_not.mp (rest.1 .write)
    have all : kept table.writes = kept table.calls ++ s.inEffect := by
      rw [Table.writes, host, kept_append, kept_outcomes, idle]
      exact congrArg _ (List.append_nil _)
    rw [all]
    exact serving.looksUp rest
  · intro disk host
    obtain ⟨consistent, recoverable⟩ := inv.down disk host
    have calls : kept table.writes = kept table.calls := by rw [Table.writes, host]
    rw [calls]
    constructor
    · rintro ⟨next, _, fired, _⟩
      cases table_event fired with
      | reopen host' readable _ =>
        rw [host] at host'
        injection host' with same
        rwa [same]
    · intro readable
      have serving := recoverable.serving consistent
      have rest : (System.opened config disk).AtRest := by
        refine ⟨?_, rfl⟩
        intro task busy
        cases task <;> exact busy rfl
      have answers := serving.looksUp rest
      have nothing : (System.opened config disk).inEffect = [] := rfl
      rw [nothing, List.append_nil] at answers
      refine ⟨⟨config, table.calls, .running (.opened config disk)⟩, _, ?_, rfl, answers⟩
      simp only [tableStep, host, readable, if_true, inv.options]
      rfl

section Checks

/-- `InOrder` for runs with job 0 and lookup thread 0 only, as a test. -/
def inOrderCheck (s : System) (action : Action) : Bool :=
  inTurnCheck s action &&
    (!action.starts || action = .flush .pick || s.memtable.immutable = []) &&
    match action with
    | .write (.allocate _) => s.posts = []
    | .flush (.mark failed) => s.wal.closedLogs.all fun first => first.logNumber ∉ failed ||
        s.wal.closedLogs.all fun second =>
          !(first.logNumber < second.logNumber) || second.logNumber ∈ failed
    | _ => true

theorem inOrderCheck_inOrder {s : System} {action : Action} (one : s.OneEach)
    (passed : inOrderCheck s action = true) : InOrder s action := by
  simp only [inOrderCheck, Bool.and_eq_true] at passed
  obtain ⟨⟨turn, waits⟩, own⟩ := passed
  refine ⟨inTurnCheck_inTurn one turn, ?_, ?_⟩
  · intro starts
    simp only [starts, Bool.not_true, Bool.false_or, Bool.or_eq_true, decide_eq_true_eq] at waits
    refine ⟨waits, ?_⟩
    rintro records rfl
    exact of_decide_eq_true own
  · cases action with
    | flush action =>
      cases action with
      | mark failed =>
        intro first listed stays second listed' less
        have behind := List.all_eq_true.mp own first listed
        simp only [stays, not_true_eq_false, decide_false, Bool.false_or] at behind
        simpa [less] using List.all_eq_true.mp behind second listed'
      | _ => trivial
    | _ => trivial

theorem inOrderCheck_oneEach {config : Config} {s t : System} {action : Action} (one : s.OneEach)
    (passed : inOrderCheck s action = true) (fired : step config s action = some t) :
    t.OneEach := by
  simp only [inOrderCheck, Bool.and_eq_true] at passed
  exact inTurnCheck_oneEach one passed.1.1 fired

theorem serially_of_check {config : Config} {actions : List TableAction}
    (passed : (execute (checked tableStep (tableCheck inOrderCheck fun table tuning =>
      tuning = table.config.tuning)) (.created config) actions).isSome) :
    Run tableStep Serially (.created config) actions
      (final tableStep (.created config) actions) :=
  run_of_tableCheck System.OneEach
    (fun _ _ good s host => inOrderCheck_inOrder (good s host).1 (good s host).2)
    (fun _ _ => trivial)
    (fun table tuning same => (of_decide_eq_true same : tuning = table.config.tuning))
    inOrderCheck_oneEach
    (fun _ _ => ⟨fun _ busy => absurd rfl busy, fun _ _ => rfl⟩)
    ⟨initial_oneJob config, fun _ _ => rfl⟩ passed

/-- A key is written and flushed, a crash cuts the flush before it removes the log, the key is
written and flushed again, and a crash cuts the removal of the three logs behind the second one. -/
def cutTwice : List TableAction :=
  acts (Calls.write [putByte 1 1] ++ Calls.invalidate 1 ++ Calls.rotate ++
      [.flush .pick, .flush .resolve, .flush .commit, .flush .install]) ++
    [.crash false, .reopen Config.plain.tuning] ++
    acts (Calls.write [putByte 1 2] ++ Calls.invalidate 1 ++ Calls.rotate ++
      [.flush .pick, .flush .resolve, .flush .commit, .flush .install, .flush (.mark [3])]) ++
    [.crash false]

theorem reopened_table_refines_map_cut :
    let table := final tableStep (.created .plain) cutTwice
    ∃ next s, tableStep table (.reopen Config.plain.tuning) = some next ∧ next.host = .running s ∧
      ∃ (moves : List GetAction) (t : System) (answer : Option Entry) (fromCache : Bool),
        execute (step .plain) s (.get 0 (.start (putByte 1 2).1) :: moves.map (Action.get 0))
          = some t ∧
          t.gets 0 = .done (putByte 1 2).1 s.returned answer fromCache ∧
          (answer.bind fun entry => entry.value.row?) = some ⟨[some (.bytes [2])]⟩ := by
  intro table
  have run : Run tableStep Serially (.created .plain) cutTwice table :=
    serially_of_check (by decide +kernel)
  obtain ⟨disk, down⟩ : ∃ disk, table.disk? = some disk :=
    Option.isSome_iff_exists.mp (by decide +kernel)
  have readable : (table.disk?.map Disk.readable) = some true := by decide +kernel
  rw [down] at readable
  have life := reopened_table_refines_map .plain rfl cutTwice table run
  obtain ⟨next, s, opened, host, answers⟩ :=
    (life.2.2 disk (Table.disk?_eq_some.mp down)).mpr (Option.some.inj readable)
  refine ⟨next, s, opened, host, ?_⟩
  have idle : s.gets 0 = .idle := by
    cases table_event opened with
    | reopen _ _ made =>
      rw [made] at host
      injection host with same
      rw [← same]
      rfl
  obtain ⟨moves, t, answer, fromCache, ran, returned, row⟩ := answers 0 idle (putByte 1 2).1
  refine ⟨moves, t, answer, fromCache, ran, returned, row.trans ?_⟩
  decide +kernel

/-- The first flush of a table is cut between the manifest file and the version hint. -/
def firstCommitCut : List TableAction :=
  acts (Calls.write [putByte 1 1] ++ Calls.invalidate 1 ++ Calls.rotate ++
    [.flush .pick, .flush .resolve]) ++ [.crash true]

/-- The write was acknowledged, and the table cannot be opened. -/
theorem acknowledged_write_unreachable :
    let table := final tableStep (.created .plain) firstCommitCut
    Run tableStep Serially (.created .plain) firstCommitCut table ∧
      (table.writes.map fun call => (call.1.records, call.2)) = [([putByte 1 1], .acknowledged)] ∧
      (∃ disk, table.host = .down disk) ∧
      ¬ ∃ next, tableStep table (.reopen Config.plain.tuning) = some next := by
  intro table
  refine ⟨serially_of_check (by decide +kernel), by decide +kernel, ⟨_, rfl⟩, ?_⟩
  rintro ⟨next, opened⟩
  have refused : (tableStep table (.reopen Config.plain.tuning)).isNone := by decide +kernel
  rw [opened] at refused
  cases refused

end Checks

end Merutable
