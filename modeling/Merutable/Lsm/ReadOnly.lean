import Merutable.Lsm.Order

/-! A read-only engine beside a running primary: `MeruEngine::open` with `read_only`, which replays
the logs it finds and loads the manifest, and `MeruEngine::refresh`, which loads a newer manifest
and leaves the memtable as it is. -/

namespace Merutable

open Foundation ReadPath

/-- What a lookup on a read-only engine reads. -/
structure ReadOnlyEngine where
  memtable : MemtableManager
  version : Version
  visibleSeq : Nat
  rowCache : Option RowCache

namespace ReadOnlyEngine

/-- `open` with the batches recovered from the logs and the manifest loaded after them. -/
def opened (config : Config) (batches : List WriteBatch) (manifest : Manifest) : ReadOnlyEngine :=
  let initSeq := max ((batches.map WriteBatch.lastSeq).foldl max 0) manifest.toVersion.maxSeq + 1
  { memtable := batches.foldl (MemtableManager.applyBatch config.encodedLen) (.new initSeq)
    version := manifest.toVersion
    visibleSeq := initSeq - 1
    rowCache := if config.rowCacheCapacity = 0 then none
      else some (RowCache.new config.rowCacheCapacity) }

def refreshed (engine : ReadOnlyEngine) (manifest : Manifest) : ReadOnlyEngine :=
  { engine with
    version := manifest.toVersion
    visibleSeq := max engine.visibleSeq manifest.toVersion.maxSeq
    rowCache := engine.rowCache.map RowCache.clear }

/-- The version of the key that `get` is answered with. -/
def answer (config : Config) (engine : ReadOnlyEngine) (key : UserKey) : Option Entry :=
  (engine.memtable.get key engine.visibleSeq).or
    ((engine.rowCache.bind (RowCache.lookup · key)).or
      (probeFiles config engine.version key engine.visibleSeq))

/-- What `get` leaves in the row cache. -/
def afterGet (config : Config) (engine : ReadOnlyEngine) (key : UserKey) : ReadOnlyEngine :=
  match engine.memtable.get key engine.visibleSeq with
  | some _ => engine
  | none =>
    match engine.rowCache.bind (RowCache.lookup · key) with
    | some _ => { engine with rowCache := engine.rowCache.map (RowCache.promote · key) }
    | none =>
      match probeFiles config engine.version key engine.visibleSeq with
      | some entry => { engine with
          rowCache := engine.rowCache.map fun cache =>
            cache.insertIfFresh entry cache.generation }
      | none => engine

/-- No answer is older than an unmasked row of its key in the files of the loaded manifest. -/
def NotBehind (config : Config) (engine : ReadOnlyEngine) : Prop :=
  ∀ key entry, engine.answer config key = some entry →
    ∀ row, engine.version.Live row → row.key = key → row.seq ≤ entry.seq

end ReadOnlyEngine

/-- Where the reader is: its recovery has listed the log files and reads them one after another. -/
inductive ReaderPhase where
  | closed
  | recovering (todo : List Nat) (batches : List WriteBatch)
  | opened (engine : ReadOnlyEngine)

structure Shared where
  primary : System
  reader : ReaderPhase

inductive SharedAction where
  | primary (action : Action)
  | list
  | read
  | load
  | refresh
  | get (key : UserKey)
  | close

namespace Shared

def fresh (config : Config) : Shared := ⟨.initial config, .closed⟩

/-- Steps of the primary and of the reader. A log file that is gone when its turn comes makes `open`
fail; a missing data or Puffin file makes `refresh` fail before it changes the engine. The log file
that a read-only `open` creates stays empty. -/
def step (config : Config) (shared : Shared) : SharedAction → Option Shared
  | .primary action =>
    (Merutable.step config shared.primary action).map fun next => { shared with primary := next }
  | .list =>
    match shared.reader with
    | .closed => some { shared with
        reader := .recovering shared.primary.wal.directory.numbers [] }
    | _ => none
  | .read =>
    match shared.reader with
    | .recovering (number :: todo) batches =>
      match shared.primary.wal.files number with
      | some log => some { shared with reader := .recovering todo (batches ++ log) }
      | none => some { shared with reader := .closed }
    | _ => none
  | .load =>
    match shared.reader with
    | .recovering [] batches => some { shared with
        reader := .opened (.opened config batches shared.primary.catalog.current) }
    | _ => none
  | .refresh =>
    match shared.reader with
    | .opened engine =>
      if ∀ path ∈ shared.primary.catalog.current.paths, path ∉ shared.primary.deleted then
        some { shared with reader := .opened (engine.refreshed shared.primary.catalog.current) }
      else some shared
    | _ => none
  | .get key =>
    match shared.reader with
    | .opened engine => some { shared with reader := .opened (engine.afterGet config key) }
    | _ => none
  | .close =>
    match shared.reader with
    | .opened _ => some { shared with reader := .closed }
    | _ => none

end Shared

/-- Every key that was replayed and has an unmasked row in the version was replayed with a record
that is not older. -/
def Outlasts (batches : List WriteBatch) (version : Version) : Prop :=
  ∀ ref ∈ version.files, ∀ row ∈ ref.liveRows, ∀ record ∈ entriesOf batches, record.key = row.key →
    ∃ newer ∈ entriesOf batches, newer.key = row.key ∧ row.seq ≤ newer.seq

instance (batches : List WriteBatch) (version : Version) : Decidable (Outlasts batches version) :=
  inferInstanceAs (Decidable (∀ ref ∈ version.files, ∀ row ∈ ref.liveRows, _))

/-- Log files that are read while the primary writes: what was read comes before what is still to be
read, and before everything that will be written. -/
structure Recovering (s : System) (todo : List Nat) (batches : List WriteBatch) : Prop where
  increasing : Increasing batches
  ascending : todo.Pairwise (· < ·)
  below : ∀ batch ∈ batches, batch.lastSeq < s.globalSeq
  coming : ∀ next, s.write = .allocated next → ∀ batch ∈ batches, batch.lastSeq < next.sequence
  before : ∀ batch ∈ batches, ∀ number ∈ todo, ∀ log, s.wal.files number = some log →
    ∀ later ∈ log, batch.lastSeq < later.sequence

section Recovering

variable {config : Config} {s t : System} {todo : List Nat} {batches : List WriteBatch}
  {log : List WriteBatch} {number : Nat}

/-- What a step does to the files: a file keeps its content, loses it, or gets the allocated
batch. -/
theorem LogEvent.file (event : LogEvent s t) (file : t.wal.files number = some log) :
    ∀ batch ∈ log, (∃ before, s.wal.files number = some before ∧ batch ∈ before) ∨
      s.write = .allocated batch := by
  intro batch member
  have added : ∀ own, (s.wal.addRecord own).files number = some log →
      (∃ before, s.wal.files number = some before ∧ batch ∈ before) ∨ batch = own := by
    intro own same
    change Function.update s.wal.files s.wal.logNumber _ number = _ at same
    by_cases here : number = s.wal.logNumber
    · subst here
      rw [Function.update_self] at same
      injection same with same
      rw [← same] at member
      rcases List.mem_append.mp member with old | new
      · cases known : s.wal.files s.wal.logNumber with
        | none =>
          rw [known] at old
          cases old
        | some before =>
          rw [known] at old
          exact .inl ⟨before, rfl, old⟩
      · exact .inr (List.mem_singleton.mp new)
    · rw [Function.update_of_ne here] at same
      exact .inl ⟨log, same, member⟩
  cases event with
  | kept wal =>
    rw [wal] at file
    exact .inl ⟨log, file, member⟩
  | @appended own phase _ wal | @reached own phase _ wal =>
    rw [wal] at file
    rcases added own file with old | rfl
    · exact .inl old
    · exact .inr phase
  | rotated _ _ wal =>
    rw [wal] at file
    change Function.update s.wal.files s.wal.nextLog _ number = _ at file
    by_cases here : number = s.wal.nextLog
    · subst here
      rw [Function.update_self] at file
      injection file with same
      rw [← same] at member
      cases member
    · rw [Function.update_of_ne here] at file
      exact .inl ⟨log, file, member⟩
  | marked _ _ wal =>
    rw [wal] at file
    change (if _ then none else s.wal.files number) = some log at file
    split at file
    · cases file
    · exact .inl ⟨log, file, member⟩

theorem Recovering.step {action : Action} (inv : Recovering s todo batches)
    (fired : step config s action = some t) : Recovering t todo batches := by
  obtain ⟨grows, numbered⟩ := globalSeq_step fired
  refine ⟨inv.increasing, inv.ascending, ?_, ?_, ?_⟩
  · exact fun batch member => lt_of_lt_of_le (inv.below batch member) grows
  · intro next phase batch member
    rcases numbered next phase with before | ⟨_, sequence⟩
    · exact inv.coming next before batch member
    · rw [sequence]
      exact inv.below batch member
  · intro batch member number listed log file later inLog
    rcases (log_event fired).file file later inLog with ⟨before, known, old⟩ | allocated
    · exact inv.before batch member number listed before known later old
    · exact inv.coming later allocated batch member

theorem System.Durable.file_bound (durable : s.Durable) (file : s.wal.files number = some log) :
    number ≤ s.wal.logNumber := by
  by_contra above
  rw [durable.bounded number (Nat.lt_of_not_le above)] at file
  cases file

theorem System.Durable.file_logged (durable : s.Durable) (file : s.wal.files number = some log) :
    ∀ batch ∈ log, batch ∈ s.wal.logged :=
  fun _ member => LogDir.mem_batches.mpr ⟨number, durable.file_bound file, log, file, member⟩

theorem System.Durable.files_ordered (durable : s.Durable) {low : Nat} {first : List WriteBatch}
    (lower : s.wal.files low = some first) : Increasing first ∧
      ∀ high second, low < high → s.wal.files high = some second →
        ∀ a ∈ first, ∀ b ∈ second, a.lastSeq < b.sequence := by
  have ordered := durable.increasing
  rw [WalManager.logged_eq, Increasing, List.pairwise_flatMap] at ordered
  obtain ⟨within, across⟩ := ordered
  constructor
  · have one := within low (List.mem_range.mpr (Nat.lt_succ_iff.mpr (durable.file_bound lower)))
    rw [lower] at one
    exact one
  · intro high second less upper a inFirst b inSecond
    have bound := durable.file_bound upper
    have apart := List.pairwise_iff_getElem.mp across low high
      (by rw [List.length_range]; omega) (by rw [List.length_range]; omega) less
    rw [List.getElem_range, List.getElem_range, lower, upper] at apart
    exact apart a inFirst b inSecond

theorem Recovering.listed (s : System) : Recovering s s.wal.directory.numbers [] where
  increasing := List.Pairwise.nil
  ascending := List.pairwise_lt_range.filter _
  below := by intro batch member; cases member
  coming := by intro next phase batch member; cases member
  before := by intro batch member; cases member

theorem Recovering.read (durable : s.Durable) (inv : Recovering s (number :: todo) batches)
    (file : s.wal.files number = some log) :
    Recovering s todo (batches ++ log) := by
  obtain ⟨rising, apart⟩ := durable.files_ordered file
  obtain ⟨next, ascending⟩ := List.pairwise_cons.mp inv.ascending
  have first := inv.before
  refine ⟨?_, ascending, ?_, ?_, ?_⟩
  · refine List.pairwise_append.mpr ⟨inv.increasing, rising, fun a inBatches b inLog => ?_⟩
    exact first a inBatches number List.mem_cons_self log file b inLog
  · intro batch member
    rcases List.mem_append.mp member with old | new
    · exact inv.below batch old
    · exact durable.below batch (durable.file_logged file batch new)
  · intro allocated phase batch member
    rcases List.mem_append.mp member with old | new
    · exact inv.coming allocated phase batch old
    · exact durable.coming allocated phase batch (durable.file_logged file batch new)
  · intro batch member other listed log' file' later inLog
    rcases List.mem_append.mp member with old | new
    · exact first batch old other (List.mem_cons_of_mem _ listed) log' file' later inLog
    · exact apart other log' (next other listed) file' batch new later inLog

end Recovering

namespace ReadOnlyEngine

/-- What the lookups of a read-only engine rely on. -/
structure Sound (engine : ReadOnlyEngine) : Prop where
  increasing : Increasing engine.memtable.batches
  wf : engine.version.Wf
  replayed : ∀ entry ∈ entriesOf engine.memtable.batches, entry.seq ≤ engine.visibleSeq
  rows : engine.version.Below (engine.visibleSeq + 1)
  cached : ∀ cache, engine.rowCache = some cache → ∀ entry ∈ cache.entries,
    ∀ row, engine.version.Live row → row.key = entry.key → row.seq ≤ entry.seq

variable {config : Config} {engine : ReadOnlyEngine} {manifest : Manifest}

theorem below_maxSeq (version : Version) : version.Below (version.maxSeq + 1) := by
  intro ref present row member
  apply Nat.lt_succ_of_le
  calc row.seq ≤ ref.file.seqMax := DataFile.le_seqMax member
    _ ≤ version.maxSeq := (foldl_max_spec id _ 0).2.1 _ (List.mem_map_of_mem present)

theorem opened_batches (config : Config) (batches : List WriteBatch) (manifest : Manifest) :
    (opened config batches manifest).memtable.batches = batches :=
  MemtableManager.replayed_batches _ _ _

theorem sound_opened {s : System} {batches : List WriteBatch} (recovered : Recovering s [] batches)
    (wf : manifest.toVersion.Wf) : Sound (opened config batches manifest) := by
  have last : (opened config batches manifest).visibleSeq =
      max ((batches.map WriteBatch.lastSeq).foldl max 0) manifest.toVersion.maxSeq := rfl
  refine ⟨?_, wf, ?_, ?_, ?_⟩
  · rw [opened_batches]
    exact recovered.increasing
  · intro entry member
    rw [opened_batches] at member
    obtain ⟨batch, inBatches, inBatch⟩ := mem_entriesOf.mp member
    calc entry.seq ≤ batch.lastSeq := (WriteBatch.seq_bounds inBatch).2
      _ ≤ (batches.map WriteBatch.lastSeq).foldl max 0 :=
        (foldl_max_spec id _ 0).2.1 _ (List.mem_map_of_mem inBatches)
      _ ≤ (ReadOnlyEngine.opened config batches manifest).visibleSeq := by
        rw [last]
        exact le_max_left _ _
  · refine (below_maxSeq _).mono (Nat.succ_le_succ ?_)
    rw [last]
    exact le_max_right _ _
  · intro cache enabled entry member
    rw [RowCache.entries_of_new enabled] at member
    cases member

theorem Sound.refreshed (sound : engine.Sound) (wf : manifest.toVersion.Wf) :
    (engine.refreshed manifest).Sound where
  increasing := sound.increasing
  wf := wf
  replayed entry member := (sound.replayed entry member).trans (le_max_left _ _)
  rows := (below_maxSeq _).mono (Nat.succ_le_succ (le_max_right _ _))
  cached := by
    intro cache enabled entry member
    obtain ⟨before, _, rfl⟩ := Option.map_eq_some_iff.mp enabled
    cases member

theorem Sound.afterGet (sound : engine.Sound) (key : UserKey) :
    (engine.afterGet config key).Sound := by
  unfold ReadOnlyEngine.afterGet
  split
  · exact sound
  · split
    · refine ⟨sound.increasing, sound.wf, sound.replayed, sound.rows, ?_⟩
      intro cache enabled entry member
      obtain ⟨before, present, rfl⟩ := Option.map_eq_some_iff.mp enabled
      exact sound.cached before present entry (RowCache.mem_promote member)
    · split
      · rename_i found
        refine ⟨sound.increasing, sound.wf, sound.replayed, sound.rows, ?_⟩
        intro cache enabled entry member row live same
        obtain ⟨before, present, rfl⟩ := Option.map_eq_some_iff.mp enabled
        rcases RowCache.mem_insertIfFresh member with old | ⟨rfl, _⟩
        · exact sound.cached before present entry old row live same
        · obtain ⟨_, own, _, top⟩ := probeFiles_some sound.wf found
          obtain ⟨ref, inVersion, inLive⟩ := id live
          have bound := sound.rows ref inVersion row (ref.liveRows_sublist.subset inLive)
          exact top row live (same.trans own) (Nat.lt_succ_iff.mp bound)
      · exact sound

theorem Sound.notBehind_of_outlasts (sound : engine.Sound)
    (outlasts : Outlasts engine.memtable.batches engine.version) : engine.NotBehind config := by
  intro key entry answered row live same
  rw [answer, MemtableManager.get_eq sound.increasing] at answered
  cases held : newestUpTo engine.memtable.batches engine.visibleSeq key with
  | some hit =>
    rw [held, Option.some_or] at answered
    injection answered with own
    subst own
    obtain ⟨member, keyed, _, top⟩ := (newestUpTo_eq_some sound.increasing).mp held
    obtain ⟨ref, present, inLive⟩ := live
    obtain ⟨newer, listed, newerKey, above⟩ :=
      outlasts ref present row inLive hit member (keyed.trans same.symm)
    exact above.trans (top newer listed (newerKey.trans same) (sound.replayed newer listed))
  | none =>
    rw [held, Option.none_or] at answered
    cases cached : engine.rowCache.bind (RowCache.lookup · key) with
    | some hit =>
      rw [cached, Option.some_or] at answered
      injection answered with own
      subst own
      obtain ⟨cache, enabled, looked⟩ := Option.bind_eq_some_iff.mp cached
      obtain ⟨member, keyed⟩ := RowCache.lookup_mem looked
      exact sound.cached cache enabled hit member row live (same.trans keyed.symm)
    | none =>
      rw [cached, Option.none_or] at answered
      obtain ⟨ref, present, inLive⟩ := id live
      have bound := sound.rows ref present row (ref.liveRows_sublist.subset inLive)
      exact (probeFiles_some sound.wf answered).2.2.2 row live same (Nat.lt_succ_iff.mp bound)

theorem Sound.outlasts_of_notBehind (sound : engine.Sound) (notBehind : engine.NotBehind config) :
    Outlasts engine.memtable.batches engine.version := by
  intro ref present row live record member same
  have seen := sound.replayed record member
  cases held : newestUpTo engine.memtable.batches engine.visibleSeq row.key with
  | none =>
    have := newestUpTo_eq_none.mp held record member same
    omega
  | some hit =>
    obtain ⟨listed, keyed, _, _⟩ := (newestUpTo_eq_some sound.increasing).mp held
    refine ⟨hit, listed, keyed, notBehind row.key hit ?_ row ⟨ref, present, live⟩ rfl⟩
    rw [answer, MemtableManager.get_eq sound.increasing, held, Option.some_or]

theorem not_notBehind (key : UserKey) (old new : Entry)
    (answered : engine.answer config key = some old)
    (live : ∃ ref ∈ engine.version.files, new ∈ ref.liveRows) (same : new.key = key)
    (older : old.seq < new.seq) : ¬ engine.NotBehind config := by
  intro notBehind
  have bound := notBehind key old answered new live same
  omega

end ReadOnlyEngine

namespace Shared

/-- The primary installs versions in the order of their commits. -/
def PrimaryInOrder (shared : Shared) : SharedAction → Prop
  | .primary action => InstallsInOrder shared.primary action
  | _ => True

def ReaderSound (s : System) : ReaderPhase → Prop
  | .closed => True
  | .recovering todo batches => Recovering s todo batches
  | .opened engine => engine.Sound

structure Sound (config : Config) (shared : Shared) : Prop where
  base : shared.primary.Base config
  durable : shared.primary.Durable
  ordered : shared.primary.Ordered
  reader : ReaderSound shared.primary shared.reader

variable {config : Config} {shared next : Shared} {action : SharedAction}

theorem sound_fresh (config : Config) : (fresh config).Sound config :=
  ⟨initial_base config, initial_durable config, initial_ordered config, trivial⟩

theorem Sound.reads (sound : shared.Sound config) {reader : ReaderPhase}
    (reads : ReaderSound shared.primary reader) : Sound config { shared with reader := reader } :=
  ⟨sound.base, sound.durable, sound.ordered, reads⟩

theorem Sound.step (sound : shared.Sound config) (met : PrimaryInOrder shared action)
    (fired : shared.step config action = some next) : next.Sound config := by
  have phase := sound.reader
  have wf : shared.primary.catalog.current.toVersion.Wf := sound.ordered.shape _ (.inl rfl)
  cases action with
  | primary action =>
    obtain ⟨t, stepped, rfl⟩ := Option.map_eq_some_iff.mp fired
    refine ⟨sound.base.step stepped, sound.durable.step sound.base stepped,
      sound.ordered.step sound.base sound.durable met stepped, ?_⟩
    change ReaderSound t shared.reader
    cases reading : shared.reader with
    | closed => trivial
    | recovering todo batches =>
      rw [reading] at phase
      exact Recovering.step phase stepped
    | opened engine =>
      rw [reading] at phase
      exact phase
  | list =>
    simp only [Shared.step] at fired
    split at fired <;> cases fired
    exact sound.reads (.listed _)
  | read =>
    simp only [Shared.step] at fired
    split at fired
    · rename_i number todo batches reading
      rw [reading] at phase
      split at fired
      · rename_i log file
        cases fired
        exact sound.reads (Recovering.read sound.durable phase file)
      · cases fired
        exact sound.reads trivial
    · cases fired
  | load =>
    simp only [Shared.step] at fired
    split at fired
    · rename_i batches reading
      rw [reading] at phase
      cases fired
      exact sound.reads (ReadOnlyEngine.sound_opened phase wf)
    · cases fired
  | refresh =>
    simp only [Shared.step] at fired
    split at fired
    · rename_i engine reading
      rw [reading] at phase
      split at fired
      · cases fired
        exact sound.reads (ReadOnlyEngine.Sound.refreshed phase wf)
      · cases fired
        exact sound
    · cases fired
  | get key =>
    simp only [Shared.step] at fired
    split at fired
    · rename_i engine reading
      rw [reading] at phase
      cases fired
      exact sound.reads (ReadOnlyEngine.Sound.afterGet phase key)
    · cases fired
  | close =>
    simp only [Shared.step] at fired
    split at fired <;> cases fired
    exact sound.reads trivial

end Shared

/-- Beside a primary that installs versions in the order of their commits, an open read-only engine
answers no lookup from a version older than an unmasked row of its key in the loaded manifest
exactly when every key it has replayed was replayed with a record that is not older than such a
row. -/
theorem read_only_never_behind_iff (config : Config) (actions : List SharedAction) (shared : Shared)
    (run : Run (Shared.step config) Shared.PrimaryInOrder (.fresh config) actions shared)
    (engine : ReadOnlyEngine) (reading : shared.reader = .opened engine) :
    engine.NotBehind config ↔ Outlasts engine.memtable.batches engine.version := by
  have sound := run.invariant (Shared.Sound config)
    (fun _ _ _ sound met fired => sound.step met fired) (Shared.sound_fresh config)
  have ready := sound.reader
  rw [reading] at ready
  exact ⟨ready.outlasts_of_notBehind, ready.notBehind_of_outlasts⟩

namespace Shared.Sample

def primary (actions : List Action) : List SharedAction := actions.map .primary

/-- The reader opens between a put and its flush, which has committed. -/
def committedAfterOpen : List SharedAction :=
  primary (Calls.write [putByte 1 1]) ++ [.list, .read, .load] ++
    primary (Calls.rotate ++ [.flush .pick, .flush .resolve, .flush .commit])

def flushedAfterOpen : List SharedAction :=
  committedAfterOpen ++ .primary (.flush .install) :: (primary [.flush (.mark []), .flush .drop] ++
    [.refresh])

/-- After the open the key is written again before the flush. -/
def overwrittenAfterOpen : List SharedAction :=
  primary (Calls.write [putByte 1 1]) ++ [.list, .read, .load] ++
    primary (Calls.write [putByte 1 2] ++ Calls.rotate ++ Calls.runFlush) ++ [.refresh]

end Shared.Sample

open Shared.Sample in
theorem read_only_never_behind_flushed : ∃ engine,
    (final (Shared.step .plain) (.fresh .plain) flushedAfterOpen).reader = .opened engine ∧
      engine.version.files ≠ [] ∧ engine.NotBehind .plain := by
  have run : Run (Shared.step .plain) Shared.PrimaryInOrder (.fresh .plain) flushedAfterOpen
      (final (Shared.step .plain) (.fresh .plain) flushedAfterOpen) := by
    refine Run.extend (.of_execute ?_ (execute_final (by decide +kernel))) (by decide +kernel) ?_ ?_
    · simp [committedAfterOpen, primary, Calls.write, Calls.rotate, Shared.PrimaryInOrder,
        InstallsInOrder]
    · intro _ _ _ job plan other busy
      cases busy
    · simp [primary, Shared.PrimaryInOrder, InstallsInOrder]
  refine ⟨_, rfl, by decide +kernel, ?_⟩
  exact (read_only_never_behind_iff .plain flushedAfterOpen _ run _ rfl).mpr (by decide +kernel)

open Shared.Sample in
/-- The lookup is answered with the first version of the key, which was replayed at the open; the
file of the refreshed manifest has the second one. -/
theorem read_only_answers_replayed_older : ∃ engine,
    (execute (Shared.step .plain) (.fresh .plain) overwrittenAfterOpen).isSome ∧
    (final (Shared.step .plain) (.fresh .plain) overwrittenAfterOpen).reader = .opened engine ∧
      engine.answer .plain (putByte 1 1).1 = some ⟨(putByte 1 1).1, 1, (putByte 1 1).2⟩ ∧
      (∃ ref ∈ engine.version.files, ⟨(putByte 1 2).1, 2, (putByte 1 2).2⟩ ∈ ref.liveRows) ∧
      ¬ engine.NotBehind .plain := by
  refine ⟨_, by decide +kernel, rfl, by decide +kernel, by decide +kernel, ?_⟩
  exact ReadOnlyEngine.not_notBehind (putByte 1 1).1 ⟨(putByte 1 1).1, 1, (putByte 1 1).2⟩
    ⟨(putByte 1 2).1, 2, (putByte 1 2).2⟩ (by decide +kernel) (by decide +kernel) rfl (by decide)

end Merutable
