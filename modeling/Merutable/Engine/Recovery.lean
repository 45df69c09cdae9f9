import Merutable.Engine.Steps
import Merutable.Foundation.Runs

/-! Crashes and `MeruEngine::open`. A crash keeps the log directory, the catalog directory and the
data files; everything else of the engine is gone. -/

namespace Merutable

open Foundation

/-- The log directory. No file has a number above `limit`. -/
structure LogDir where
  files : Nat → Option (List WriteBatch)
  limit : Nat

namespace LogDir

/-- The numbers of the log files, ascending. -/
def numbers (dir : LogDir) : List Nat :=
  (List.range (dir.limit + 1)).filter fun number => (dir.files number).isSome

/-- The batches `recover_from_dir` decodes, file after file. -/
def batches (dir : LogDir) : List WriteBatch :=
  dir.numbers.flatMap fun number => (dir.files number).getD []

def maxSeq (dir : LogDir) : Nat := (dir.batches.map WriteBatch.lastSeq).foldl max 0

def maxLogNumber (dir : LogDir) : Nat := dir.numbers.foldl max 0

end LogDir

def WalManager.directory (wal : WalManager) : LogDir := ⟨wal.files, wal.logNumber⟩

/-- What is on disk while no engine runs. `stray` says that a commit has created its manifest file
and not yet moved the version hint. -/
structure Disk where
  logs : LogDir
  catalog : Catalog
  stray : Bool
  nextUuid : Nat
  store : List DataFile
  deleted : List FilePath
  clock : Nat

namespace Disk

def icebergMaxSeq (disk : Disk) : Nat :=
  (disk.catalog.current.live.map fun ref => ref.file.seqMax).foldl max 0

/-- The first sequence number the opened engine assigns. -/
def initSeq (disk : Disk) : Nat := max disk.logs.maxSeq disk.icebergMaxSeq + 1

/-- Without a version hint a manifest file makes `IcebergCatalog::open` return an error. -/
def readable (disk : Disk) : Bool := disk.catalog.nextVersion ≠ 1 || !disk.stray

/-- The log opened behind the recovered ones, which are registered as closed. -/
def wal (disk : Disk) : WalManager where
  logNumber := disk.logs.maxLogNumber + 1
  nextLog := disk.logs.maxLogNumber + 2
  currentLogMaxSeq := 0
  closedLogs := disk.logs.numbers.map fun number => ⟨number, disk.logs.maxSeq⟩
  flushedSeq := 0
  files := Function.update disk.logs.files (disk.logs.maxLogNumber + 1) (some [])

def memtable (config : Config) (disk : Disk) : MemtableManager :=
  disk.logs.batches.foldl (MemtableManager.applyBatch config.encodedLen) (.new disk.initSeq)

end Disk

/-- `MeruEngine::open` on a readable catalog. -/
def System.opened (config : Config) (disk : Disk) : System where
  globalSeq := disk.initSeq
  visibleSeq := disk.initSeq - 1
  wal := disk.wal
  memtable := disk.memtable config
  version := disk.catalog.current.toVersion
  catalog := disk.catalog
  compacting := []
  rowCache := if config.rowCacheCapacity = 0 then none else some
    (RowCache.new config.rowCacheCapacity)
  nextUuid := disk.nextUuid
  store := disk.store
  pendingDeletions := []
  pendingLocked := false
  pins := []
  deleted := disk.deleted
  clock := disk.clock
  write := .idle
  posts := []
  rotation := .idle
  flush := .idle
  jobs := fun _ => .idle
  gets := fun _ => .idle
  sweeps := fun _ => .idle
  history := disk.logs.batches
  returned := []

/-- A crash, inside the commit of a flush possibly after it has created the manifest file. A record
that was being appended is in the log if it is complete there. -/
def System.crash (s : System) (stray : Bool) : Disk where
  logs := s.wal.directory
  catalog := s.catalog
  stray := stray && s.flush.holdsCommitLock
  nextUuid := s.nextUuid
  store := s.store
  deleted := s.deleted
  clock := s.clock

/-- The options of a table that may change between two opens; the schema may not. -/
structure Tuning where
  memtableSizeBytes : Nat
  rowCacheCapacity : Nat
  levelTargetBytes : List Nat
  maxCompactionBytes : Nat
  maxCompactionInputRows : Nat
  gcGracePeriod : Nat
  enableFlushDvEmission : Bool
  deriving DecidableEq

def Config.tuned (config : Config) (tuning : Tuning) : Config :=
  { config with
    memtableSizeBytes := tuning.memtableSizeBytes
    rowCacheCapacity := tuning.rowCacheCapacity
    levelTargetBytes := tuning.levelTargetBytes
    maxCompactionBytes := tuning.maxCompactionBytes
    maxCompactionInputRows := tuning.maxCompactionInputRows
    gcGracePeriod := tuning.gcGracePeriod
    enableFlushDvEmission := tuning.enableFlushDvEmission }

def Config.tuning (config : Config) : Tuning where
  memtableSizeBytes := config.memtableSizeBytes
  rowCacheCapacity := config.rowCacheCapacity
  levelTargetBytes := config.levelTargetBytes
  maxCompactionBytes := config.maxCompactionBytes
  maxCompactionInputRows := config.maxCompactionInputRows
  gcGracePeriod := config.gcGracePeriod
  enableFlushDvEmission := config.enableFlushDvEmission

/-- How a call that has been given sequence numbers ended: it returned `Ok`, or a crash cut it with
its record in the log or without. -/
inductive Outcome where
  | acknowledged
  | kept
  | lost
  deriving DecidableEq

/-- The writes of the run that ends here, in the order of their sequence numbers. -/
def System.outcomes (s : System) : List (WriteBatch × Outcome) :=
  s.returned.map (·, .acknowledged) ++ s.posts.map (fun post => (post.batch, .kept)) ++
    match s.write with
    | .idle => []
    | .allocated batch => [(batch, .lost)]
    | .appended batch => [(batch, .kept)]
    | .applied batch => [(batch, .kept)]

inductive Host where
  | running (system : System)
  | down (disk : Disk)

/-- A table over its whole life. `calls` are the writes up to the last crash. -/
structure Table where
  config : Config
  calls : List (WriteBatch × Outcome)
  host : Host

namespace Table

def created (config : Config) : Table := ⟨config, [], .running (.initial config)⟩

def system? (table : Table) : Option System :=
  match table.host with
  | .running s => some s
  | .down _ => none

def disk? (table : Table) : Option Disk :=
  match table.host with
  | .running _ => none
  | .down disk => some disk

variable {table : Table}

theorem system?_eq_some {s : System} :
    table.system? = some s ↔ table.host = .running s := by
  unfold system?
  cases table.host with
  | running system => simp
  | down disk => simp

theorem disk?_eq_some {disk : Disk} :
    table.disk? = some disk ↔ table.host = .down disk := by
  unfold disk?
  cases table.host with
  | running system => simp
  | down disk => simp

end Table

inductive TableAction where
  | act (action : Action)
  | crash (stray : Bool)
  | reopen (tuning : Tuning)

/-- The actions of an engine that keeps running. -/
def acts (actions : List Action) : List TableAction := actions.map .act

def tableStep (table : Table) (action : TableAction) : Option Table :=
  match table.host, action with
  | .running s, .act action =>
    (step table.config s action).map fun t => { table with host := .running t }
  | .running s, .crash stray =>
    some { table with calls := table.calls ++ s.outcomes, host := .down (s.crash stray) }
  | .down disk, .reopen tuning =>
    if disk.readable then
      some { table with
        config := table.config.tuned tuning
        host := .running (.opened (table.config.tuned tuning) disk) }
    else none
  | _, _ => none

/-- What a table step can do. -/
inductive TableEvent (table next : Table) : TableAction → Prop
  | act {s t : System} {action : Action} (host : table.host = .running s)
      (fired : step table.config s action = some t)
      (made : next = ⟨table.config, table.calls, .running t⟩) : TableEvent table next (.act action)
  | crash {s : System} {stray : Bool} (host : table.host = .running s)
      (made : next = ⟨table.config, table.calls ++ s.outcomes, .down (s.crash stray)⟩) :
      TableEvent table next (.crash stray)
  | reopen {disk : Disk} {tuning : Tuning} (host : table.host = .down disk)
      (readable : disk.readable = true)
      (made : next = ⟨table.config.tuned tuning, table.calls,
        .running (.opened (table.config.tuned tuning) disk)⟩) : TableEvent table next
          (.reopen tuning)

theorem table_event {table next : Table} {action : TableAction}
    (fired : tableStep table action = some next) : TableEvent table next action := by
  obtain ⟨config, calls, host⟩ := table
  unfold tableStep at fired
  split at fired
  · rename_i s action host
    obtain ⟨t, stepped, same⟩ := Option.map_eq_some_iff.mp fired
    exact .act host stepped same.symm
  · rename_i s stray host
    exact .crash host (Option.some.inj fired).symm
  · rename_i disk tuning host
    split at fired
    · rename_i readable
      exact .reopen host readable (Option.some.inj fired).symm
    · cases fired
  · cases fired

/-- A test of the steps of the engine, and one of the options of a reopen. -/
def tableCheck (check : System → Action → Bool) (reopens : Table → Tuning → Bool) (table : Table) :
    TableAction → Bool
  | .act action => table.system?.all fun s => check s action
  | .crash _ => true
  | .reopen tuning => reopens table tuning

theorem run_of_tableCheck {config : Config} {guard : Table → TableAction → Prop}
    {check : System → Action → Bool} {reopens : Table → Tuning → Bool} (inv : System → Prop)
    (act : ∀ table action,
      (∀ s, table.host = .running s → inv s ∧ check s action = true) → guard table (.act action))
    (crash : ∀ table lossy, guard table (.crash lossy))
    (reopen : ∀ table tuning, reopens table tuning = true → guard table (.reopen tuning))
    (kept : ∀ {config s t action}, inv s → check s action = true →
      step config s action = some t → inv t)
    (opened : ∀ config disk, inv (.opened config disk)) (created : inv (.initial config))
    {actions : List TableAction}
    (passed : (execute (checked tableStep (tableCheck check reopens)) (.created config)
      actions).isSome) :
    Run tableStep guard (.created config) actions (final tableStep (.created config) actions) := by
  refine (Run.of_checked (fun table => ∀ s, table.host = .running s → inv s) ?_ ?_ ?_ passed).1
  · intro table action one good
    cases action with
    | act action =>
      refine act table action fun s host => ⟨one s host, ?_⟩
      rwa [tableCheck, Table.system?_eq_some.mpr host] at good
    | crash lossy => exact crash table lossy
    | reopen tuning => exact reopen table tuning good
  · intro table action next one good fired s running
    cases table_event fired with
    | act host stepped made =>
      rw [made] at running
      injection running with same
      rw [tableCheck, Table.system?_eq_some.mpr host] at good
      exact same ▸ kept (one _ host) good stepped
    | crash _ made =>
      rw [made] at running
      cases running
    | reopen _ _ made =>
      rw [made] at running
      injection running with same
      exact same ▸ opened _ _
  · intro s host
    injection host with same
    exact same ▸ created

end Merutable
