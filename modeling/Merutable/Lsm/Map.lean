import Merutable.Foundation.Traversal
import Merutable.Lsm.Freshness
import Merutable.Lsm.Order
import Merutable.Lsm.Scan
import Merutable.Lsm.Sequential

/-! Operations executed one after another: memtables, files, deletion vectors and the row cache
together answer like a map from keys to rows. -/

namespace Merutable

open Foundation ReadPath

/-- The map with the records applied in write order. -/
def updated (map : UserKey → Option Row) (records : List (UserKey × EntryValue)) :
    UserKey → Option Row :=
  records.foldl (fun map record => Function.update map record.1 record.2.row?) map

/-- The map after the records: the row of the last put of a key, nothing if it was deleted since. -/
def mapAfter (records : List (UserKey × EntryValue)) : UserKey → Option Row :=
  updated (fun _ => none) records

/-- The records of the puts, deletes and batches of a run. -/
def writtenBy (actions : List Action) : List (UserKey × EntryValue) :=
  actions.flatMap fun
    | .write (.allocate records) => records
    | _ => []

theorem writtenBy_append (actions later : List Action) :
    writtenBy (actions ++ later) = writtenBy actions ++ writtenBy later := by
  simp [writtenBy]

theorem updated_entries (map : UserKey → Option Row) (first : Nat)
    (records : List (UserKey × EntryValue)) (key : UserKey) :
    updated map records key = (newest Entry.key key (WriteBatch.entriesFrom first records)).elim
      (map key) fun entry => entry.value.row? := by
  induction records generalizing map first with
  | nil => rfl
  | cons record rest ih =>
    have split : WriteBatch.entriesFrom first (record :: rest) =
        [⟨record.1, first, record.2⟩] ++ WriteBatch.entriesFrom (first + 1) rest := rfl
    have stepped : updated map (record :: rest) =
        updated (Function.update map record.1 record.2.row?) rest := rfl
    rw [stepped, ih _ (first + 1), split, newest_append]
    cases newest Entry.key key (WriteBatch.entriesFrom (first + 1) rest) with
    | some entry => rfl
    | none =>
      by_cases same : key = record.1
      · subst same
        simp [newest]
      · simp [newest, same, Ne.symm same]

theorem updated_batches (map : UserKey → Option Row) (batches : List WriteBatch) (key : UserKey) :
    updated map (batches.flatMap WriteBatch.records) key =
      (newest Entry.key key (entriesOf batches)).elim (map key) fun entry => entry.value.row? := by
  induction batches generalizing map with
  | nil => rfl
  | cons batch rest ih =>
    have stepped : updated map ((batch :: rest).flatMap WriteBatch.records) =
        updated (updated map batch.records) (rest.flatMap WriteBatch.records) := by
      rw [List.flatMap_cons, updated, List.foldl_append]
      rfl
    have split : entriesOf (batch :: rest) = batch.entries ++ entriesOf rest := rfl
    rw [stepped, ih, updated_entries map batch.sequence, split, newest_append]
    cases newest Entry.key key (entriesOf rest) with
    | some entry => rfl
    | none => rfl

theorem mapAfter_batches (batches : List WriteBatch) (key : UserKey) :
    mapAfter (batches.flatMap WriteBatch.records) key =
      (newest Entry.key key (entriesOf batches)).bind fun entry => entry.value.row? := by
  rw [mapAfter, updated_batches]
  cases newest Entry.key key (entriesOf batches) with
  | some entry => rfl
  | none => rfl

/-- A lookup that has started and not returned. -/
def GetPhase.reading : GetPhase → Bool
  | .idle => false
  | .done _ _ _ _ => false
  | _ => true

/-- No call is under way, lookups apart. -/
def System.AtRest (s : System) : Prop := (∀ task, ¬ s.Busy task) ∧ s.posts = []

/-- The calls follow each other: no other one starts while a lookup reads, and a lookup starts when
no other call is under way. -/
def InTurn (s : System) (action : Action) : Prop :=
  Alone s action ∧ (action.starts = true → ∀ thread, (s.gets thread).reading = false) ∧
    ∀ thread key, action = .get thread (.start key) → s.AtRest

/-- Nothing happens beside a lookup that reads. -/
def Undisturbed (s : System) : GetPhase → Prop
  | .idle => True
  | .started _ readSeq _ => s.AtRest ∧ readSeq = s.visibleSeq
  | .missed _ readSeq _ => s.AtRest ∧ readSeq = s.visibleSeq
  | .uncached _ readSeq _ => s.AtRest ∧ readSeq = s.visibleSeq
  | .stamped _ readSeq _ _ => s.AtRest ∧ readSeq = s.visibleSeq
  | .pinned _ readSeq _ _ version => s.AtRest ∧ readSeq = s.visibleSeq ∧ version = s.version
  | .done _ _ _ _ => True

/-- The batch is being published, waits for its keys to leave the row cache or has returned. -/
def System.Accounted (s : System) (batch : WriteBatch) : Prop :=
  s.write = .applied batch ∨ batch ∈ s.posts.map PostWrite.batch ∨ batch ∈ s.returned

structure System.Serial (config : Config) (past : List Action) (s : System) : Prop where
  sequential : s.Sequential config
  cached : s.Cached config
  accounted : ∀ batch ∈ s.history, s.Accounted batch
  reading : ∀ thread, Undisturbed s (s.gets thread)
  stored : ∀ cache, s.rowCache = some cache → ∀ entry ∈ cache.entries,
    ∃ record ∈ entriesOf s.history, entry = record.persist config
  written : writtenBy past = (s.history ++ s.write.incoming).flatMap WriteBatch.records

section Serial

variable {config : Config} {past : List Action} {s t : System} {action : Action} {entry : Entry}

theorem initial_serial (config : Config) : (System.initial config).Serial config [] where
  sequential := initial_sequential config
  cached := initial_cached config
  accounted := by intro batch member; cases member
  reading := fun _ => trivial
  stored := by
    intro cache enabled entry member
    rw [RowCache.entries_of_new enabled] at member
    cases member
  written := rfl

theorem write_accounted {action : WriteAction} (alone : Alone s (.write action))
    (inv : ∀ batch ∈ s.history, s.Accounted batch)
    (fired : writeStep config s action = some t) : ∀ batch ∈ t.history, t.Accounted batch := by
  cases write_effect fired with
  | allocate idle =>
    intro batch member
    rcases inv batch member with applied | rest
    · rw [idle] at applied
      cases applied
    · exact .inr rest
  | append _ phase =>
    intro batch member
    rcases inv batch member with applied | rest
    · rw [phase] at applied
      cases applied
    · exact .inr rest
  | appendFailed => cases alone.1
  | apply own phase =>
    intro batch member
    rcases List.mem_append.mp member with old | new
    · rcases inv batch old with applied | rest
      · rw [phase] at applied
        cases applied
      · exact .inr rest
    · exact .inl (by rw [List.mem_singleton.mp new])
  | publish own phase =>
    intro batch member
    rcases inv batch member with applied | waiting | returned
    · rw [phase] at applied
      injection applied with same
      exact .inr (.inl (by simp [same]))
    · exact .inr (.inl (by simpa using .inl (List.mem_map.mp waiting)))
    · exact .inr (.inr returned)

theorem post_accounted {action : PostAction} (inv : ∀ batch ∈ s.history, s.Accounted batch)
    (fired : postStep s action = some t) : ∀ batch ∈ t.history, t.Accounted batch := by
  cases post_effect fired with
  | @bump index own key rest found =>
    intro batch member
    have same : (s.posts.set index ⟨own, key :: rest, true⟩).map PostWrite.batch =
        s.posts.map PostWrite.batch := map_set_of_eq found rfl
    rw [System.Accounted, same]
    exact inv batch member
  | @pop index own key rest found =>
    intro batch member
    have same : (s.posts.set index ⟨own, rest, false⟩).map PostWrite.batch =
        s.posts.map PostWrite.batch := map_set_of_eq found rfl
    rw [System.Accounted, same]
    exact inv batch member
  | @ret index own bumped found =>
    intro batch member
    rcases inv batch member with applied | waiting | returned
    · exact .inl applied
    · obtain ⟨post, listed, rfl⟩ := List.mem_map.mp waiting
      obtain ⟨position, at_⟩ := List.getElem?_of_mem listed
      by_cases here : position = index
      · rw [here, found] at at_
        injection at_ with same
        exact .inr (.inr (by simp [← same]))
      · exact .inr (.inl (List.mem_map.mpr
          ⟨post, List.mem_eraseIdx_iff_getElem?.mpr ⟨position, here, at_⟩, rfl⟩))
    · exact .inr (.inr (List.mem_append_left _ returned))

theorem accounted_step (alone : Alone s action) (inv : ∀ batch ∈ s.history, s.Accounted batch)
    (fired : step config s action = some t) : ∀ batch ∈ t.history, t.Accounted batch := by
  cases step_effect fired with
  | write fired => exact write_accounted alone inv fired
  | post fired => exact post_accounted inv fired
  | _ => exact inv

theorem System.AtRest.step (rest : s.AtRest) (later : action.starts = false)
    (fired : Merutable.step config s action = some t) :
    t.AtRest ∧ t.visibleSeq = s.visibleSeq ∧ t.version = s.version := by
  have nothing : action.task? = none := by
    cases own : action.task? with
    | none => rfl
    | some task =>
      rcases task_step fired own with busy | starts
      · exact absurd busy (rest.1 task)
      · rw [starts] at later
        cases later
  have idle : ∀ task, ¬ t.Busy task := by
    intro task busy
    rcases busy_step fired busy with before | own
    · exact rest.1 task before
    · rw [nothing] at own
      cases own
  cases step_effect fired with
  | write | rotate | flush | job => cases nothing
  | post fired =>
    exfalso
    cases post_effect fired with
    | bump _ _ _ found | pop _ _ _ found | ret _ _ found => simp [rest.2] at found
  | _ => exact ⟨⟨idle, rest.2⟩, rfl, rfl⟩

theorem Undisturbed.lasts {phase : GetPhase} (undisturbed : Undisturbed s phase)
    (later : phase.reading = true → action.starts = false)
    (fired : Merutable.step config s action = some t) : Undisturbed t phase := by
  have moved : s.AtRest → phase.reading = true →
      t.AtRest ∧ t.visibleSeq = s.visibleSeq ∧ t.version = s.version :=
    fun rest reading => rest.step (later reading) fired
  cases phase with
  | idle | done => trivial
  | pinned key readSeq seen generation version =>
    obtain ⟨rest, visible, installed⟩ := moved undisturbed.1 rfl
    exact ⟨rest, undisturbed.2.1.trans visible.symm, undisturbed.2.2.trans installed.symm⟩
  | _ =>
    obtain ⟨rest, visible, _⟩ := moved undisturbed.1 rfl
    exact ⟨rest, undisturbed.2.trans visible.symm⟩

theorem reading_step (inv : ∀ thread, Undisturbed s (s.gets thread)) (met : InTurn s action)
    (fired : Merutable.step config s action = some t) :
    ∀ thread, Undisturbed t (t.gets thread) := by
  refine gets_invariant (fun thread phase => phase = s.gets thread ∧ Undisturbed s phase)
    (fun _ => Undisturbed t) (fun thread => ⟨rfl, inv thread⟩) fired ?_ ?_
  · rintro thread phase _ ⟨rfl, undisturbed⟩
    refine undisturbed.lasts (fun reading => ?_) fired
    by_contra starts
    rw [met.2.1 (Bool.not_eq_false _ ▸ starts) thread] at reading
    cases reading
  · rintro thread move phase rfl moved
    refine Undisturbed.lasts ?_ (fun _ => rfl) fired
    have undisturbed := inv thread
    generalize s.gets thread = before at undisturbed moved
    cases moved with
    | start key => exact ⟨met.2.2 thread key rfl, rfl⟩
    | hit | cached | fill | finish => trivial
    | miss | uncached | stamp => exact undisturbed
    | pin => exact ⟨undisturbed.1, undisturbed.2, rfl⟩

theorem System.AtRest.published (rest : s.AtRest) (base : s.Base config) :
    ∀ entry ∈ entriesOf s.history, entry.seq ≤ s.visibleSeq := by
  intro entry member
  obtain ⟨batch, written, inBatch⟩ := mem_entriesOf.mp member
  rcases base.numbered.published batch written with applied | seen
  · exact absurd (show s.write ≠ .idle by simp [applied]) (rest.1 .write)
  · exact (WriteBatch.seq_bounds inBatch).2.trans seen

theorem System.Tree.installed_rows (tree : s.Tree config)
    (base : s.Base config) {ref : DataFileMeta}
    (present : ref ∈ s.version.files) {row : Entry} (member : row ∈ ref.file.rows) :
    ∃ record ∈ entriesOf s.history, row = record.persist config := by
  obtain ⟨batches, _, upper, sound⟩ := tree.upcoming s.version (.inl rfl)
  obtain ⟨record, listed, same⟩ := sound.rows ref present row member
  obtain ⟨batch, inBatches, inBatch⟩ := mem_entriesOf.mp listed
  have written := (upper.trans (tree.covered_history base)).subset inBatches
  exact ⟨record, mem_entriesOf.mpr ⟨batch, written, inBatch⟩, same⟩

theorem System.AtRest.rows (rest : s.AtRest) (base : s.Base config) (tree : s.Tree config) :
    ∀ ref ∈ s.version.files, ∀ row ∈ ref.file.rows, row.seq ≤ s.visibleSeq := by
  intro ref present row member
  obtain ⟨record, listed, rfl⟩ := tree.installed_rows base present member
  rw [Entry.persist_seq]
  exact rest.published base record listed

theorem System.Serial.fills (inv : s.Serial config past) (action : Action) :
    FillsCurrent s action := by
  cases action with
  | get thread move =>
    cases move with
    | fill =>
      intro key readSeq seen stamp version phase _
      have undisturbed := inv.reading thread
      rw [phase] at undisturbed
      obtain ⟨rest, rfl, rfl⟩ := undisturbed
      have base := inv.cached.base
      constructor
      · intro ref present row member _
        exact rest.rows base inv.cached.tree ref present row member
      · intro batch invalidated record member _
        have written := base.invalidated_written invalidated
        exact rest.published base record (mem_entriesOf.mpr ⟨batch, written, member⟩)
    | _ => trivial
  | _ => trivial

theorem System.Serial.stored_step (inv : s.Serial config past)
    (fired : Merutable.step config s action = some t) {cache : RowCache}
    (enabled : t.rowCache = some cache) (member : entry ∈ cache.entries) :
    ∃ record ∈ entriesOf t.history, entry = record.persist config := by
  obtain ⟨more, history, _⟩ := history_more inv.cached.base.numbered fired
  have grows : ∀ record ∈ entriesOf s.history, record ∈ entriesOf t.history := by
    intro record listed
    rw [history, entriesOf_append]
    exact List.mem_append_left _ listed
  obtain ⟨change, mapped, moved⟩ := cache_move fired
  rw [enabled] at mapped
  obtain ⟨before, present, rfl⟩ := Option.map_eq_some_iff.mp mapped.symm
  have old : entry ∈ before.entries → ∃ record ∈ entriesOf t.history,
    entry = record.persist config := by
    intro listed
    obtain ⟨record, inHistory, same⟩ := inv.stored before present entry listed
    exact ⟨record, grows record inHistory, same⟩
  cases moved with
  | keep | bump => exact old member
  | pop waiting => exact old (List.mem_filter.mp member).1
  | clear job => cases member
  | promote thread key => exact old (RowCache.mem_promote member)
  | @fill thread _ _ _ _ _ _ phase found =>
    rcases RowCache.mem_insertIfFresh member with listed | ⟨rfl, _⟩
    · exact old listed
    · have undisturbed := inv.reading thread
      rw [phase] at undisturbed
      obtain ⟨_, _, rfl⟩ := undisturbed
      have tree := inv.cached.tree
      obtain ⟨ref, inVersion, live⟩ := (probeFiles_some (tree.shape .installed) found).1
      obtain ⟨record, listed, same⟩ :=
        tree.installed_rows inv.cached.base inVersion (ref.liveRows_sublist.subset live)
      exact ⟨record, grows record listed, same⟩

theorem written_step (alone : Alone s action)
    (inv : writtenBy past = (s.history ++ s.write.incoming).flatMap WriteBatch.records)
    (fired : Merutable.step config s action = some t) :
    writtenBy (past ++ [action]) = (t.history ++ t.write.incoming).flatMap WriteBatch.records := by
  rw [writtenBy_append, inv]
  cases action with
  | write action =>
    change writeStep config s action = some t at fired
    cases write_effect fired with
    | allocate idle _ batch _ same => simp [idle, WritePhase.incoming, writtenBy, same]
    | append _ phase | apply _ phase | publish _ phase =>
      simp [phase, WritePhase.incoming, writtenBy]
    | appendFailed => cases alone.1
  | _ =>
    cases step_effect fired
    simp [writtenBy]

theorem System.Serial.step (inv : s.Serial config past) (met : InTurn s action)
    (fired : Merutable.step config s action = some t) : t.Serial config (past ++ [action]) where
  sequential := inv.sequential.step met.1 fired
  cached := inv.cached.step
    ⟨inv.sequential.lined.dropsOwn inv.cached.base.queued, inv.sequential.installs action⟩
    (inv.fills action) fired
  accounted := accounted_step met.1 inv.accounted fired
  reading := reading_step inv.reading met fired
  stored _ enabled _ member := inv.stored_step fired enabled member
  written := written_step met.1 inv.written fired

section

variable (inv : s.Serial config past) (rest : s.AtRest)
include inv rest

theorem System.Serial.map_eq (key : UserKey) :
    mapAfter (writtenBy past) key =
      (newestUpTo s.history s.visibleSeq key).bind fun entry => entry.value.row? := by
  have idle : s.write.incoming = [] := by
    have phase : s.write = .idle := not_not.mp (rest.1 .write)
    rw [phase]
    rfl
  rw [inv.written, idle, List.append_nil, mapAfter_batches,
    newestUpTo_all (rest.published inv.cached.base)]

theorem System.Serial.cached_newest {key : UserKey}
    (found : s.rowCache.bind (RowCache.lookup · key) = some entry) :
    ∃ record, newestUpTo s.history s.visibleSeq key = some record ∧
      entry = record.persist config := by
  have base := inv.cached.base
  obtain ⟨cache, enabled, looked⟩ := Option.bind_eq_some_iff.mp found
  obtain ⟨listed, same⟩ := RowCache.lookup_mem looked
  obtain ⟨record, written, rfl⟩ := inv.stored cache enabled entry listed
  rw [Entry.persist_key] at same
  refine ⟨record, (newestUpTo_eq_some base.numbered.increasing).mpr
    ⟨written, same, rest.published base record written, ?_⟩, rfl⟩
  intro other member keyed _
  obtain ⟨batch, inHistory, inBatch⟩ := mem_entriesOf.mp member
  have returned : batch ∈ s.returned := by
    rcases inv.accounted batch inHistory with applied | waiting | returned
    · exact absurd (show s.write ≠ .idle by simp [applied]) (rest.1 .write)
    · rw [rest.2] at waiting
      cases waiting
    · exact returned
  have settled := inv.cached.fresh cache enabled _ listed
  rw [Entry.persist_key, Entry.persist_seq, same] at settled
  exact settled batch (.inl returned) other inBatch keyed

theorem System.Serial.answer_eq (key : UserKey) :
    ((s.answer config key).bind fun entry => entry.value.row?) = mapAfter (writtenBy past) key := by
  have base := inv.cached.base
  have tree := inv.cached.tree
  have ordered := base.ordered
  rw [inv.map_eq rest, System.answer]
  cases hit : s.memtable.get key s.visibleSeq with
  | some entry =>
    rw [tree.hit base hit]
    rfl
  | none =>
    cases cached : s.rowCache.bind (RowCache.lookup · key) with
    | some entry =>
      obtain ⟨record, newest, rfl⟩ := inv.cached_newest rest cached
      rw [newest]
      exact Entry.persist_row config record
    | none =>
      rw [MemtableManager.get_eq ordered] at hit
      have visible : s.version.Visible key s.visibleSeq := fun ref present row member _ =>
        rest.rows base tree ref present row member
      rcases tree.answers base hit visible with
        same | ⟨missing, ⟨entry, found, delete⟩ | ⟨batch, _, above, below, _⟩⟩
      · simp only [same, Option.none_or, Option.bind_map, Entry.row_comp_persist]
      · simp only [missing, found, Option.none_or, Option.bind_none, Option.bind_some,
          EntryValue.row?_delete delete]
      · omega

theorem System.Serial.sampled :
    Sampled config s.history s.memtable s.version s.visibleSeq := by
  have base := inv.cached.base
  have tree := inv.cached.tree
  obtain ⟨batches, lower, upper, sound⟩ := tree.upcoming s.version (.inl rfl)
  exact ⟨base.numbered.increasing, ⟨s.dropped, batches, tree.history,
    (List.prefix_append _ _).trans lower, upper.trans (tree.covered_history base), sound⟩,
    rest.rows base tree⟩

theorem System.Serial.scan_eq (start stop : Option UserKey) (key : UserKey) (row : Row) :
    (∃ entry ∈ rangeScan s.memtable s.version start stop s.visibleSeq,
        entry.key = key ∧ entry.value = .put row) ↔
      Reader.inRange start stop key = true ∧ mapAfter (writtenBy past) key = some row := by
  rw [inv.map_eq rest]
  constructor
  · rintro ⟨entry, member, rfl, value⟩
    obtain ⟨within, _, newest⟩ := (inv.sampled rest).mem_rangeScan.mp member
    refine ⟨within, ?_⟩
    rw [newest, Option.bind_some, value]
    rfl
  · rintro ⟨within, found⟩
    obtain ⟨entry, newest, value⟩ := Option.bind_eq_some_iff.mp found
    have same := ((newestUpTo_eq_some inv.cached.base.numbered.increasing).mp newest).2.1
    have put : entry.value = .put row := by
      cases shape : entry.value with
      | put other =>
        rw [shape] at value
        injection value with equal
        rw [equal]
      | delete preImage =>
        rw [shape] at value
        cases value
    subst same
    refine ⟨entry, (inv.sampled rest).mem_rangeScan.mpr ⟨within, ?_, newest⟩, rfl, put⟩
    rw [put]
    rfl

end

end Serial

/-- After any sequence of puts, deletes, batches, flushes and compactions executed one after another
without an error, with lookups in between, the table answers like the map of its writes: every point
lookup, and every range scan, which lists the rows in range once each in ascending key order. -/
theorem sequential_operations_refine_map (config : Config) (actions : List Action) (s : System)
    (run : Run (step config) InTurn (.initial config) actions s) (rest : s.AtRest) :
    (∀ thread, s.gets thread = .idle → ∀ key, ∃ (moves : List GetAction) (t : System)
        (answer : Option Entry) (fromCache : Bool),
      execute (step config) s (.get thread (.start key) :: moves.map (Action.get thread)) = some t ∧
        t.gets thread = .done key s.returned answer fromCache ∧
        (answer.bind fun entry => entry.value.row?) = mapAfter (writtenBy actions) key) ∧
      ∀ start stop, (rangeScan s.memtable s.version start stop s.visibleSeq).Pairwise
          (fun a b => a.key < b.key) ∧
        (∀ entry ∈ rangeScan s.memtable s.version start stop s.visibleSeq,
          ∃ row, entry.value = .put row) ∧
        ∀ key row, (∃ entry ∈ rangeScan s.memtable s.version start stop s.visibleSeq,
            entry.key = key ∧ entry.value = .put row) ↔
          Reader.inRange start stop key = true ∧ mapAfter (writtenBy actions) key = some row := by
  have inv : s.Serial config ([] ++ actions) :=
    run.past_invariant (fun past s => s.Serial config past)
      (fun _ _ _ _ inv met fired => inv.step met fired) (initial_serial config)
  refine ⟨?_, fun start stop => ⟨rangeScan_ascending, ?_, inv.scan_eq rest start stop⟩⟩
  · intro thread idle key
    obtain ⟨moves, t, fromCache, ran, returned⟩ := answer_returned config s idle key
    exact ⟨moves, t, s.answer config key, fromCache, ran, returned, inv.answer_eq rest key⟩
  · intro entry member
    obtain ⟨_, put, _⟩ := (inv.sampled rest).mem_rangeScan.mp member
    cases shape : entry.value with
    | put row => exact ⟨row, rfl⟩
    | delete preImage =>
      rw [shape] at put
      cases put

section Checks

/-- `InTurn` for runs with job 0 and lookup thread 0 only, as a test. -/
def inTurnCheck (s : System) (action : Action) : Bool :=
  aloneCheck s action && (!action.starts || !(s.gets 0).reading) &&
    match action with
    | .get thread (.start _) => thread = 0 && s.write = .idle && s.rotation = .idle &&
        s.flush = .idle && s.jobs 0 = .idle && s.posts = []
    | .get thread _ => thread = 0
    | _ => true

structure System.OneEach (s : System) : Prop where
  job : s.OneJob
  thread : ∀ thread, thread ≠ 0 → s.gets thread = .idle

variable {action : Action}

theorem inTurnCheck_inTurn {s : System} (one : s.OneEach) (passed : inTurnCheck s action = true) :
    InTurn s action := by
  simp only [inTurnCheck, Bool.and_eq_true] at passed
  obtain ⟨⟨alone, reading⟩, get⟩ := passed
  refine ⟨aloneCheck_alone one.job alone, ?_, ?_⟩
  · intro starts thread
    by_cases own : thread = 0
    · rw [starts] at reading
      subst own
      simpa using reading
    · rw [one.thread thread own]
      rfl
  · rintro thread key rfl
    simp only [Bool.and_eq_true, decide_eq_true_eq] at get
    obtain ⟨⟨⟨⟨⟨_, write⟩, rotation⟩, flush⟩, job⟩, posts⟩ := get
    refine ⟨?_, posts⟩
    intro task busy
    cases task with
    | write => exact busy write
    | rotation => exact busy rotation
    | flush => exact busy flush
    | job id =>
      rw [one.job id busy] at busy
      exact busy job

theorem inTurnCheck_oneEach {config : Config} {s t : System} (one : s.OneEach)
    (passed : inTurnCheck s action = true) (fired : step config s action = some t) : t.OneEach := by
  simp only [inTurnCheck, Bool.and_eq_true] at passed
  obtain ⟨⟨alone, _⟩, get⟩ := passed
  refine ⟨aloneCheck_oneJob one.job alone fired, ?_⟩
  intro thread other
  refine gets_invariant (fun thread phase => thread ≠ 0 → phase = .idle)
    (fun thread phase => thread ≠ 0 → phase = .idle) one.thread fired (fun _ _ _ held => held) ?_
    thread other
  rintro mover move phase rfl moved different
  exfalso
  cases move <;> simp_all

theorem inTurn_of_check {config : Config} {actions : List Action}
    (passed : (execute (checked (step config) inTurnCheck) (.initial config) actions).isSome) :
    Run (step config) InTurn (.initial config) actions
        (final (step config) (.initial config) actions) ∧
      (final (step config) (.initial config) actions).OneEach := by
  exact Run.of_checked System.OneEach (fun _ _ => inTurnCheck_inTurn)
    (fun _ _ _ => inTurnCheck_oneEach) ⟨initial_oneJob config, fun _ _ => rfl⟩ passed

/-- A key that was flushed and looked up is deleted, another one is written, both are flushed and
all is compacted. -/
def lookedUpAndCompacted : List Action :=
  Calls.write [putByte 1 1] ++ Calls.invalidate 1 ++ Calls.rotate ++ Calls.runFlush ++
    [.get 0 (.start (putByte 1 1).1), .get 0 .memtable, .get 0 .cache, .get 0 .stamp, .get 0 .pin,
      .get 0 .fill, .get 0 .finish] ++
    Calls.write [((putByte 1 1).1, .delete none), putByte 2 2] ++ Calls.invalidate 2 ++
      Calls.rotate ++
    Calls.runFlush ++ Calls.runJob 0 0

theorem sequential_operations_refine_map_compacted :
    let s := finalPlain lookedUpAndCompacted
    (∃ (moves : List GetAction) (t : System) (answer : Option Entry) (fromCache : Bool),
      execute (step .plain) s (.get 0 (.start (putByte 1 1).1) :: moves.map (Action.get 0))
        = some t ∧
        t.gets 0 = .done (putByte 1 1).1 s.returned answer fromCache ∧
        (answer.bind fun entry => entry.value.row?) = none) ∧
      ∃ entry ∈ rangeScan s.memtable s.version none none s.visibleSeq,
        entry.key = (putByte 2 2).1 ∧ entry.value = .put ⟨[some (.bytes [2])]⟩ := by
  intro s
  obtain ⟨run, one⟩ := @inTurn_of_check .plain lookedUpAndCompacted (by decide +kernel)
  have rest : s.AtRest := by
    refine ⟨?_, by decide +kernel⟩
    intro task busy
    cases task with
    | write | rotation | flush => exact busy (by decide +kernel)
    | job id =>
      rw [one.job id busy] at busy
      exact busy (by decide +kernel)
  have table := sequential_operations_refine_map .plain lookedUpAndCompacted s run rest
  have deleted : mapAfter (writtenBy lookedUpAndCompacted) (putByte 1 1).1 = none := by
    decide +kernel
  have lookup := table.1 0 (by decide +kernel) (putByte 1 1).1
  rw [deleted] at lookup
  exact ⟨lookup, ((table.2 none none).2.2 _ _).mpr ⟨by decide +kernel, by decide +kernel⟩⟩

end Checks

end Merutable
