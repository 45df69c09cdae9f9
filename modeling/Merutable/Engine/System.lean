import Merutable.Engine.Cache
import Merutable.Engine.Compaction
import Merutable.Engine.Flush
import Merutable.Engine.ReadPath

/-! The engine as a transition system. Writers, rotations, flushes, compaction jobs, lookups,
snapshot pins and deletion sweeps are cut where the source takes or releases a lock, and run
interleaved in any order. -/

namespace Merutable

open Compaction (JobPlan)

/-- The writer inside the WAL lock; the lock is free while idle. -/
inductive WritePhase where
  | idle
  | allocated (batch : WriteBatch)
  | appended (batch : WriteBatch)
  | applied (batch : WriteBatch)
  deriving DecidableEq

/-- A writer that has left the WAL lock and invalidates its keys in the row cache. -/
structure PostWrite where
  batch : WriteBatch
  pending : List UserKey
  bumped : Bool
  deriving DecidableEq

/-- The holder of the rotation lock. -/
inductive RotationPhase where
  | idle
  | locked
  | read (nextSeq : Nat)
  | sealed
  deriving DecidableEq

/-- The holder of the flush mutex. It holds the commit lock in `resolved`. -/
inductive FlushPhase where
  | idle
  | picked (memtable : Memtable)
  | resolved (memtable : Memtable) (file : DataFile) (deltas : List (Nat × Finset Nat))
  | committed (memtable : Memtable) (version : Version)
  | installed (memtable : Memtable)
  | marked (memtable : Memtable)
  deriving DecidableEq

/-- A compaction job. After the merge it has written `outputs config plan readSeq firstPath`. -/
inductive JobPhase where
  | idle
  | picked (plan : JobPlan)
  | merged (plan : JobPlan) (readSeq firstPath : Nat)
  | committed (plan : JobPlan) (version : Version)
  | installed (plan : JobPlan)
  | cleared (plan : JobPlan)
  | enqueued (plan : JobPlan)
  deriving DecidableEq

/-- A point lookup. `seen` are the writes that had returned when it started. -/
inductive GetPhase where
  | idle
  | started (key : UserKey) (readSeq : Nat) (seen : List WriteBatch)
  | missed (key : UserKey) (readSeq : Nat) (seen : List WriteBatch)
  | uncached (key : UserKey) (readSeq : Nat) (seen : List WriteBatch)
  | stamped (key : UserKey) (readSeq : Nat) (seen : List WriteBatch) (generation : Option Nat)
  | pinned (key : UserKey) (readSeq : Nat) (seen : List WriteBatch) (generation : Option Nat)
      (version : Version)
  | done (key : UserKey) (seen : List WriteBatch) (answer : Option Entry) (fromCache : Bool)
  deriving DecidableEq

/-- A file that deletion sweeps may unlink. -/
inductive FilePath where
  | data (path : Nat)
  | dv (path : Nat × Nat)
  deriving DecidableEq

/-- The files a snapshot needs: every live data file and its deletion vector. -/
def Manifest.paths (manifest : Manifest) : List FilePath :=
  manifest.live.flatMap fun ref => .data ref.path :: (ref.dv.map fun dv => .dv dv.path).toList

structure PendingDelete where
  path : FilePath
  obsoletedAt : Nat
  obsoletedAfterSnapshot : Nat
  deriving DecidableEq

/-- A run of `gc_pending_deletions`. It holds the lock of the queue while sweeping. -/
inductive SweepPhase where
  | idle
  | sampled (minPinned : Option Nat)
  | sweeping (minPinned : Option Nat) (todo remaining : List PendingDelete)
  deriving DecidableEq

inductive PinOwner where
  | lookup (thread : Nat)
  | reader (id : Nat)
  deriving DecidableEq

/-- The shared state of the engine and the phase of every task. `store` lists the data files
written so far; `history` and `returned` record the batches applied and the writes that returned. -/
structure System where
  globalSeq : Nat
  visibleSeq : Nat
  wal : WalManager
  memtable : MemtableManager
  version : Version
  catalog : Catalog
  compacting : List Nat
  rowCache : Option RowCache
  nextUuid : Nat
  store : List DataFile
  pendingDeletions : List PendingDelete
  pendingLocked : Bool
  pins : List (PinOwner × Version)
  deleted : List FilePath
  clock : Nat
  write : WritePhase
  posts : List PostWrite
  rotation : RotationPhase
  flush : FlushPhase
  jobs : Nat → JobPhase
  gets : Nat → GetPhase
  sweeps : Nat → SweepPhase
  history : List WriteBatch
  returned : List WriteBatch

namespace System

/-- A freshly created table: the first record gets sequence number 1. -/
def initial (config : Config) : System where
  globalSeq := 1
  visibleSeq := 0
  wal := WalManager.openLog 1
  memtable := MemtableManager.new 1
  version := Catalog.empty.current.toVersion
  catalog := Catalog.empty
  compacting := []
  rowCache := if config.rowCacheCapacity = 0 then none else some
    (RowCache.new config.rowCacheCapacity)
  nextUuid := 0
  store := []
  pendingDeletions := []
  pendingLocked := false
  pins := []
  deleted := []
  clock := 0
  write := .idle
  posts := []
  rotation := .idle
  flush := .idle
  jobs := fun _ => .idle
  gets := fun _ => .idle
  sweeps := fun _ => .idle
  history := []
  returned := []

/-- `min_pinned_snapshot`. -/
def minPinned (system : System) : Option Nat :=
  (system.pins.map fun pin => pin.2.snapshotId).min?

def setJob (system : System) (job : Nat) (phase : JobPhase) : System :=
  { system with jobs := Function.update system.jobs job phase }

def setGet (system : System) (thread : Nat) (phase : GetPhase) : System :=
  { system with gets := Function.update system.gets thread phase }

def setSweep (system : System) (sweep : Nat) (phase : SweepPhase) : System :=
  { system with sweeps := Function.update system.sweeps sweep phase }

def setCache (system : System) (change : RowCache → RowCache) : System :=
  { system with rowCache := system.rowCache.map change }

end System

inductive WriteAction where
  | allocate (records : List (UserKey × EntryValue))
  | append
  | appendFailed (reached : Bool)
  | apply
  | publish
  deriving DecidableEq

/-- `put`, `delete` and `apply_batch` inside the WAL lock. The pre-image of a delete was looked up
before the lock was taken and may be any row. -/
def writeStep (config : Config) (s : System) : WriteAction → Option System
  | .allocate records =>
    if valid : s.write = .idle ∧ records ≠ [] ∧ s.globalSeq + records.length ≤ seqnumMax then
      some { s with
        globalSeq := s.globalSeq + records.length
        write := .allocated ⟨s.globalSeq, records, valid.2.1⟩ }
    else none
  | .append =>
    match s.write with
    | .allocated batch => some { s with wal := s.wal.append batch, write := .appended batch }
    | _ => none
  | .appendFailed reached =>
    match s.write with
    | .allocated batch =>
      some { s with wal := s.wal.appendFailed batch reached, write := .idle }
    | _ => none
  | .apply =>
    match s.write with
    | .appended batch =>
      some { s with
        memtable := s.memtable.applyBatch config.encodedLen batch
        history := s.history ++ [batch]
        write := .applied batch }
    | _ => none
  | .publish =>
    match s.write with
    | .applied batch =>
      let keys := if s.rowCache.isSome then batch.records.map Prod.fst else []
      some { s with
        visibleSeq := max s.visibleSeq batch.lastSeq
        posts := s.posts ++ [⟨batch, keys, false⟩]
        write := .idle }
    | _ => none

inductive PostAction where
  | bump (index : Nat)
  | pop (index : Nat)
  | ret (index : Nat)
  deriving DecidableEq

/-- Cache invalidation after the WAL lock, key by key, and the return of the write. -/
def postStep (s : System) : PostAction → Option System
  | .bump index =>
    match s.posts[index]? with
    | some ⟨batch, key :: rest, false⟩ =>
      some { s.setCache RowCache.bump with posts := s.posts.set index ⟨batch, key :: rest, true⟩ }
    | _ => none
  | .pop index =>
    match s.posts[index]? with
    | some ⟨batch, key :: rest, true⟩ =>
      some { s.setCache (RowCache.pop · key) with posts := s.posts.set index ⟨batch, rest, false⟩ }
    | _ => none
  | .ret index =>
    match s.posts[index]? with
    | some ⟨batch, [], _⟩ =>
      some { s with posts := s.posts.eraseIdx index, returned := s.returned ++ [batch] }
    | _ => none

inductive RotationAction where
  | lock
  | readSeq
  | sealActive
  | rotateWal
  deriving DecidableEq

/-- Rotation by `flush` or by a writer over the threshold. The next sequence number is read without
the WAL lock, which is only taken for the last step. -/
def rotationStep (s : System) : RotationAction → Option System
  | .lock =>
    match s.rotation with
    | .idle => some { s with rotation := .locked }
    | _ => none
  | .readSeq =>
    match s.rotation with
    | .locked => some { s with rotation := .read (s.globalSeq + 1) }
    | _ => none
  | .sealActive =>
    match s.rotation with
    | .read nextSeq =>
      some { s with memtable := s.memtable.rotate nextSeq, rotation := .sealed }
    | _ => none
  | .rotateWal =>
    match s.rotation, s.write with
    | .sealed, .idle => some { s with wal := s.wal.rotate, rotation := .idle }
    | _, _ => none

inductive FlushAction where
  | pick
  | dropEmpty
  | resolve
  | commit
  | install
  | mark (failed : List Nat)
  | drop
  | abort
  deriving DecidableEq

/-- `run_flush`. `abort` is an error before the commit. -/
def flushStep (config : Config) (s : System) : FlushAction → Option System
  | .pick =>
    match s.flush, s.memtable.oldestImmutable with
    | .idle, some memtable => some { s with flush := .picked memtable }
    | _, _ => none
  | .dropEmpty =>
    match s.flush with
    | .picked memtable =>
      if memtable.iter seqnumMax = [] then
        some { s with memtable := s.memtable.dropFlushed memtable.firstSeq, flush := .idle }
      else none
    | _ => none
  | .resolve =>
    match s.flush with
    | .picked memtable =>
      match Flush.file config memtable s.nextUuid with
      | some file =>
        some { s with
          nextUuid := s.nextUuid + 1
          store := s.store ++ [file]
          flush := .resolved memtable file (Flush.dvDeltas config memtable s.version) }
      | none => none
    | _ => none
  | .commit =>
    match s.flush with
    | .resolved memtable file deltas =>
      match s.catalog.commit ⟨[file], [], deltas⟩ with
      | .ok (catalog, version) =>
        some { s with catalog := catalog, flush := .committed memtable version }
      | .error _ => none
    | _ => none
  | .install =>
    match s.flush with
    | .committed memtable version =>
      some { s with version := version, flush := .installed memtable }
    | _ => none
  | .mark failed =>
    match s.flush, s.write with
    | .installed memtable, .idle =>
      some { s with
        wal := s.wal.markFlushedSeq memtable.lastSeq failed
        flush := .marked memtable }
    | _, _ => none
  | .drop =>
    match s.flush with
    | .marked memtable =>
      some { s with memtable := s.memtable.dropFlushed memtable.firstSeq, flush := .idle }
    | _ => none
  | .abort =>
    match s.flush with
    | .picked _ => some { s with flush := .idle }
    | .resolved _ _ _ => some { s with flush := .idle }
    | _ => none

inductive JobAction where
  | pick (level : Nat)
  | merge
  | commit
  | install
  | clear
  | enqueue
  | release
  | abort
  deriving DecidableEq

def FlushPhase.holdsCommitLock : FlushPhase → Bool
  | .resolved _ _ _ => true
  | _ => false

/-- The files a job makes obsolete, with their deletion vectors. -/
def obsoletedPaths (plan : JobPlan) : List FilePath :=
  plan.sources.flatMap fun ref => .data ref.path :: (ref.dv.map fun dv => .dv dv.path).toList

/-- `run_one_compaction_job`. The picker scores levels with floating-point ratios; any level it can
return is allowed here: level 0 and the levels with a target, free of other jobs. Its own level
counter is a byte. -/
def jobStep (config : Config) (s : System) (job : Nat) : JobAction → Option System
  | .pick level =>
    match s.jobs job with
    | .idle =>
      if level ≤ config.levelTargetBytes.length ∧ level < 255 ∧ level ∉ s.compacting ∧
          level + 1 ∉ s.compacting then
        match Compaction.plan config s.version level with
        | some plan =>
          some { s.setJob job (.picked plan) with
            compacting := level :: (level + 1) :: s.compacting }
        | none => none
      else none
    | _ => none
  | .merge =>
    match s.jobs job with
    | .picked plan =>
      some { s.setJob job (.merged plan s.visibleSeq s.nextUuid) with
        nextUuid := s.nextUuid + (Compaction.chunks config plan s.visibleSeq).length
        store := s.store ++ Compaction.outputs config plan s.visibleSeq s.nextUuid }
    | _ => none
  | .commit =>
    match s.jobs job with
    | .merged plan readSeq firstPath =>
      if s.flush.holdsCommitLock then none
      else
        match s.catalog.commit ⟨Compaction.outputs config plan readSeq firstPath,
            plan.sources.map DataFileMeta.path, []⟩ with
        | .ok (catalog, version) =>
          some { s.setJob job (.committed plan version) with catalog := catalog }
        | .error _ => none
    | _ => none
  | .install =>
    match s.jobs job with
    | .committed plan version => some { s.setJob job (.installed plan) with version := version }
    | _ => none
  | .clear =>
    match s.jobs job with
    | .installed plan => some ((s.setJob job (.cleared plan)).setCache RowCache.clear)
    | _ => none
  | .enqueue =>
    match s.jobs job, s.pendingLocked with
    | .cleared plan, false =>
      some { s.setJob job (.enqueued plan) with
        pendingDeletions := s.pendingDeletions ++ (obsoletedPaths plan).map fun path =>
          ⟨path, s.clock, plan.version.snapshotId⟩ }
    | _, _ => none
  | .release =>
    match s.jobs job with
    | .enqueued plan =>
      some { s.setJob job .idle with
        compacting := s.compacting.filter fun level =>
          level ≠ plan.inputLevel ∧ level ≠ plan.outputLevel }
    | _ => none
  | .abort =>
    match s.jobs job with
    | .picked plan =>
      some { s.setJob job .idle with
        compacting := s.compacting.filter fun level =>
          level ≠ plan.inputLevel ∧ level ≠ plan.outputLevel }
    | .merged plan _ _ =>
      some { s.setJob job .idle with
        compacting := s.compacting.filter fun level =>
          level ≠ plan.inputLevel ∧ level ≠ plan.outputLevel }
    | _ => none

inductive GetAction where
  | start (key : UserKey)
  | memtable
  | cache
  | stamp
  | pin
  | fill
  | finish
  deriving DecidableEq

/-- `point_lookup`. Files are immutable, so reading them and filling the cache is one step. -/
def getStep (config : Config) (s : System) (thread : Nat) : GetAction → Option System
  | .start key =>
    match s.gets thread with
    | .idle => some (s.setGet thread (.started key s.visibleSeq s.returned))
    | _ => none
  | .memtable =>
    match s.gets thread with
    | .started key readSeq seen =>
      match s.memtable.get key readSeq with
      | some entry => some (s.setGet thread (.done key seen (some entry) false))
      | none => some (s.setGet thread (.missed key readSeq seen))
    | _ => none
  | .cache =>
    match s.gets thread with
    | .missed key readSeq seen =>
      match s.rowCache.bind (RowCache.lookup · key) with
      | some entry =>
        some ((s.setGet thread (.done key seen (some entry) true)).setCache
          (RowCache.promote · key))
      | none => some (s.setGet thread (.uncached key readSeq seen))
    | _ => none
  | .stamp =>
    match s.gets thread with
    | .uncached key readSeq seen =>
      some (s.setGet thread (.stamped key readSeq seen (s.rowCache.map RowCache.generation)))
    | _ => none
  | .pin =>
    match s.gets thread with
    | .stamped key readSeq seen generation =>
      some { s.setGet thread (.pinned key readSeq seen generation s.version) with
        pins := (.lookup thread, s.version) :: s.pins }
    | _ => none
  | .fill =>
    match s.gets thread with
    | .pinned key readSeq seen generation version =>
      let answer := ReadPath.probeFiles config version key readSeq
      let filled := match answer, generation with
        | some entry, some stamp => s.setCache (RowCache.insertIfFresh · entry stamp)
        | _, _ => s
      some { filled.setGet thread (.done key seen answer false) with
        pins := s.pins.filter fun pin => pin.1 ≠ .lookup thread }
    | _ => none
  | .finish =>
    match s.gets thread with
    | .done _ _ _ _ => some (s.setGet thread .idle)
    | _ => none

inductive SweepAction where
  | sample
  | lock
  | visit (removed : Bool)
  | unlock
  deriving DecidableEq

/-- `gc_pending_deletions`. The smallest pin is read before the queue is locked. A removal that
fails with another error than "not found" drops the entry and leaves the file. -/
def sweepStep (config : Config) (s : System) (sweep : Nat) : SweepAction → Option System
  | .sample =>
    match s.sweeps sweep with
    | .idle => some (s.setSweep sweep (.sampled s.minPinned))
    | _ => none
  | .lock =>
    match s.sweeps sweep, s.pendingLocked with
    | .sampled minPinned, false =>
      some { s.setSweep sweep (.sweeping minPinned s.pendingDeletions []) with
        pendingDeletions := []
        pendingLocked := true }
    | _, _ => none
  | .visit removed =>
    match s.sweeps sweep with
    | .sweeping minPinned (entry :: todo) remaining =>
      if minPinned.any (· ≤ entry.obsoletedAfterSnapshot) then
        some (s.setSweep sweep (.sweeping minPinned todo (remaining ++ [entry])))
      else if config.gcGracePeriod ≤ s.clock - entry.obsoletedAt then
        some { s.setSweep sweep (.sweeping minPinned todo remaining) with
          deleted := if removed then entry.path :: s.deleted else s.deleted }
      else some (s.setSweep sweep (.sweeping minPinned todo (remaining ++ [entry])))
    | _ => none
  | .unlock =>
    match s.sweeps sweep with
    | .sweeping _ [] remaining =>
      some { s.setSweep sweep .idle with
        pendingDeletions := remaining
        pendingLocked := false }
    | _ => none

inductive Action where
  | write (action : WriteAction)
  | post (action : PostAction)
  | rotate (action : RotationAction)
  | flush (action : FlushAction)
  | job (job : Nat) (action : JobAction)
  | get (thread : Nat) (action : GetAction)
  | pin (reader : Nat)
  | unpin (reader : Nat)
  | sweep (sweep : Nat) (action : SweepAction)
  | tick
  deriving DecidableEq

def step (config : Config) (s : System) : Action → Option System
  | .write action => writeStep config s action
  | .post action => postStep s action
  | .rotate action => rotationStep s action
  | .flush action => flushStep config s action
  | .job job action => jobStep config s job action
  | .get thread action => getStep config s thread action
  | .pin reader =>
    if s.pins.all fun pin => pin.1 ≠ .reader reader then
      some { s with pins := (.reader reader, s.version) :: s.pins }
    else none
  | .unpin reader => some { s with pins := s.pins.filter fun pin => pin.1 ≠ .reader reader }
  | .sweep sweep action => sweepStep config s sweep action
  | .tick => some { s with clock := s.clock + 1 }

end Merutable
