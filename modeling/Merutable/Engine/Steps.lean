import Merutable.Engine.System

/-! What each step can do: the phase it starts from, its guard and the state it leaves. -/

namespace Merutable

open Compaction (JobPlan)

variable {config : Config} {s t : System} {action : Action}

section Write

/-- The steps of a writer, each from the phase and the guard it needs to the state it leaves. -/
inductive WriteEffect (config : Config) (s : System) : WriteAction → System → Prop
  | allocate {records : List (UserKey × EntryValue)} (idle : s.write = .idle)
      (room : s.globalSeq + records.length ≤ seqnumMax) (batch : WriteBatch)
      (sequence : batch.sequence = s.globalSeq) (own : batch.records = records) :
      WriteEffect config s (.allocate records)
        { s with globalSeq := s.globalSeq + records.length, write := .allocated batch }
  | append (batch : WriteBatch) (phase : s.write = .allocated batch) :
      WriteEffect config s .append { s with wal := s.wal.append batch, write := .appended batch }
  | appendFailed {reached : Bool} (batch : WriteBatch) (phase : s.write = .allocated batch) :
      WriteEffect config s (.appendFailed reached)
        { s with wal := s.wal.appendFailed batch reached, write := .idle }
  | apply (batch : WriteBatch) (phase : s.write = .appended batch) :
      WriteEffect config s .apply { s with
        memtable := s.memtable.applyBatch config.encodedLen batch
        history := s.history ++ [batch]
        write := .applied batch }
  | publish (batch : WriteBatch) (phase : s.write = .applied batch) :
      WriteEffect config s .publish { s with
        visibleSeq := max s.visibleSeq batch.lastSeq
        posts := s.posts ++
          [⟨batch, if s.rowCache.isSome then batch.records.map Prod.fst else [], false⟩]
        write := .idle }

theorem write_effect {action : WriteAction} (fired : writeStep config s action = some t) :
    WriteEffect config s action t := by
  unfold writeStep at fired
  split at fired
  · split at fired <;> cases fired
    rename_i valid
    exact .allocate valid.1 valid.2.2 _ rfl rfl
  · split at fired <;> cases fired
    rename_i batch phase
    exact .append batch phase
  · split at fired <;> cases fired
    rename_i batch phase
    exact .appendFailed batch phase
  · split at fired <;> cases fired
    rename_i batch phase
    exact .apply batch phase
  · split at fired <;> cases fired
    rename_i batch phase
    exact .publish batch phase

end Write

section Post

/-- The steps of a writer after it has published. -/
inductive PostEffect (s : System) : PostAction → System → Prop
  | bump {index : Nat} (batch : WriteBatch) (key : UserKey) (rest : List UserKey)
      (phase : s.posts[index]? = some ⟨batch, key :: rest, false⟩) :
      PostEffect s (.bump index) { s.setCache RowCache.bump with
        posts := s.posts.set index ⟨batch, key :: rest, true⟩ }
  | pop {index : Nat} (batch : WriteBatch) (key : UserKey) (rest : List UserKey)
      (phase : s.posts[index]? = some ⟨batch, key :: rest, true⟩) :
      PostEffect s (.pop index) { s.setCache (RowCache.pop · key) with
        posts := s.posts.set index ⟨batch, rest, false⟩ }
  | ret {index : Nat} (batch : WriteBatch) (bumped : Bool)
      (phase : s.posts[index]? = some ⟨batch, [], bumped⟩) :
      PostEffect s (.ret index)
        { s with posts := s.posts.eraseIdx index, returned := s.returned ++ [batch] }

variable {action : PostAction}

theorem post_effect (fired : postStep s action = some t) :
    PostEffect s action t := by
  unfold postStep at fired
  split at fired
  · split at fired <;> cases fired
    rename_i batch key rest phase
    exact .bump batch key rest phase
  · split at fired <;> cases fired
    rename_i batch key rest phase
    exact .pop batch key rest phase
  · split at fired <;> cases fired
    rename_i batch bumped phase
    exact .ret batch bumped phase

theorem post_frame (fired : postStep s action = some t) :
    ∃ cache posts returned,
      t = { s with rowCache := cache, posts := posts, returned := returned } := by
  cases post_effect fired <;> exact ⟨_, _, _, rfl⟩

end Post

section Rotation

inductive RotationEffect (s : System) : RotationAction → System → Prop
  | lock (phase : s.rotation = .idle) : RotationEffect s .lock { s with rotation := .locked }
  | readSeq (phase : s.rotation = .locked) :
      RotationEffect s .readSeq { s with rotation := .read (s.globalSeq + 1) }
  | sealActive (nextSeq : Nat) (phase : s.rotation = .read nextSeq) :
      RotationEffect s .sealActive
        { s with memtable := s.memtable.rotate nextSeq, rotation := .sealed }
  | rotateWal (phase : s.rotation = .sealed) (idle : s.write = .idle) :
      RotationEffect s .rotateWal { s with wal := s.wal.rotate, rotation := .idle }

theorem rotation_effect {action : RotationAction} (fired : rotationStep s action = some t) :
    RotationEffect s action t := by
  unfold rotationStep at fired
  split at fired
  · split at fired <;> cases fired
    rename_i phase
    exact .lock phase
  · split at fired <;> cases fired
    rename_i phase
    exact .readSeq phase
  · split at fired <;> cases fired
    rename_i nextSeq phase
    exact .sealActive nextSeq phase
  · split at fired <;> cases fired
    rename_i phase idle
    exact .rotateWal phase idle

end Rotation

section Flush

inductive FlushEffect (config : Config) (s : System) : FlushAction → System → Prop
  | pick (memtable : Memtable) (phase : s.flush = .idle)
      (oldest : s.memtable.oldestImmutable = some memtable) :
      FlushEffect config s .pick { s with flush := .picked memtable }
  | dropEmpty (memtable : Memtable) (phase : s.flush = .picked memtable)
      (empty : memtable.iter seqnumMax = []) :
      FlushEffect config s .dropEmpty
        { s with memtable := s.memtable.dropFlushed memtable.firstSeq, flush := .idle }
  | resolve (memtable : Memtable) (file : DataFile) (phase : s.flush = .picked memtable)
      (written : Flush.file config memtable s.nextUuid = some file) :
      FlushEffect config s .resolve { s with
        nextUuid := s.nextUuid + 1
        store := s.store ++ [file]
        flush := .resolved memtable file (Flush.dvDeltas config memtable s.version) }
  | commit (memtable : Memtable) (file : DataFile) (deltas : List (Nat × Finset Nat))
      (catalog : Catalog) (version : Version) (phase : s.flush = .resolved memtable file deltas)
      (committed : s.catalog.commit ⟨[file], [], deltas⟩ = .ok (catalog, version)) :
      FlushEffect config s .commit
        { s with catalog := catalog, flush := .committed memtable version }
  | install (memtable : Memtable) (version : Version)
    (phase : s.flush = .committed memtable version) :
      FlushEffect config s .install { s with version := version, flush := .installed memtable }
  | mark {failed : List Nat} (memtable : Memtable) (phase : s.flush = .installed memtable)
      (idle : s.write = .idle) :
      FlushEffect config s (.mark failed) { s with
        wal := s.wal.markFlushedSeq memtable.lastSeq failed
        flush := .marked memtable }
  | drop (memtable : Memtable) (phase : s.flush = .marked memtable) :
      FlushEffect config s .drop
        { s with memtable := s.memtable.dropFlushed memtable.firstSeq, flush := .idle }
  | abort (phase : ∃ memtable, s.flush = .picked memtable ∨
      ∃ file deltas, s.flush = .resolved memtable file deltas) :
      FlushEffect config s .abort { s with flush := .idle }

theorem flush_effect {action : FlushAction} (fired : flushStep config s action = some t) :
    FlushEffect config s action t := by
  unfold flushStep at fired
  split at fired
  · split at fired <;> cases fired
    rename_i memtable phase oldest
    exact .pick memtable phase oldest
  · split at fired
    · rename_i memtable phase
      split at fired <;> cases fired
      rename_i empty
      exact .dropEmpty memtable phase empty
    · cases fired
  · split at fired
    · rename_i memtable phase
      split at fired <;> cases fired
      rename_i file written
      exact .resolve memtable file phase written
    · cases fired
  · split at fired
    · rename_i memtable file deltas phase
      split at fired <;> cases fired
      rename_i catalog version committed
      exact .commit memtable file deltas catalog version phase committed
    · cases fired
  · split at fired <;> cases fired
    rename_i memtable version phase
    exact .install memtable version phase
  · split at fired <;> cases fired
    rename_i memtable phase idle
    exact .mark memtable phase idle
  · split at fired <;> cases fired
    rename_i memtable phase
    exact .drop memtable phase
  · split at fired
    · rename_i memtable phase
      cases fired
      exact .abort ⟨memtable, .inl phase⟩
    · rename_i memtable file deltas phase
      cases fired
      exact .abort ⟨memtable, .inr ⟨file, deltas, phase⟩⟩
    · cases fired

end Flush

section Job

variable {job : Nat} {action : JobAction}

inductive JobEffect (config : Config) (s : System) (job : Nat) : JobAction → System → Prop
  | pick {level : Nat} (plan : JobPlan) (phase : s.jobs job = .idle)
      (bound : level ≤ config.levelTargetBytes.length) (input : level ∉ s.compacting)
      (output : level + 1 ∉ s.compacting)
      (planned : Compaction.plan config s.version level = some plan) :
      JobEffect config s job (.pick level) { s.setJob job (.picked plan) with
        compacting := level :: (level + 1) :: s.compacting }
  | merge (plan : JobPlan) (phase : s.jobs job = .picked plan) :
      JobEffect config s job .merge { s.setJob job (.merged plan s.visibleSeq s.nextUuid) with
        nextUuid := s.nextUuid + (Compaction.chunks config plan s.visibleSeq).length
        store := s.store ++ Compaction.outputs config plan s.visibleSeq s.nextUuid }
  | commit (plan : JobPlan) (readSeq firstPath : Nat) (catalog : Catalog) (version : Version)
      (phase : s.jobs job = .merged plan readSeq firstPath)
      (unlocked : s.flush.holdsCommitLock = false)
      (committed : s.catalog.commit ⟨Compaction.outputs config plan readSeq firstPath,
        plan.sources.map DataFileMeta.path, []⟩ = .ok (catalog, version)) :
      JobEffect config s job .commit
        { s.setJob job (.committed plan version) with catalog := catalog }
  | install (plan : JobPlan) (version : Version) (phase : s.jobs job = .committed plan version) :
      JobEffect config s job .install { s.setJob job (.installed plan) with version := version }
  | clear (plan : JobPlan) (phase : s.jobs job = .installed plan) :
      JobEffect config s job .clear ((s.setJob job (.cleared plan)).setCache RowCache.clear)
  | enqueue (plan : JobPlan) (phase : s.jobs job = .cleared plan)
      (unlocked : s.pendingLocked = false) :
      JobEffect config s job .enqueue { s.setJob job (.enqueued plan) with
        pendingDeletions := s.pendingDeletions ++ (obsoletedPaths plan).map fun path =>
          ⟨path, s.clock, plan.version.snapshotId⟩ }
  | release (plan : JobPlan) (phase : s.jobs job = .enqueued plan) :
      JobEffect config s job .release { s.setJob job .idle with
        compacting := s.compacting.filter fun level =>
          level ≠ plan.inputLevel ∧ level ≠ plan.outputLevel }
  | abort (plan : JobPlan) (phase : s.jobs job = .picked plan ∨
      ∃ readSeq firstPath, s.jobs job = .merged plan readSeq firstPath) :
      JobEffect config s job .abort { s.setJob job .idle with
        compacting := s.compacting.filter fun level =>
          level ≠ plan.inputLevel ∧ level ≠ plan.outputLevel }

theorem job_effect (fired : jobStep config s job action = some t) :
    JobEffect config s job action t := by
  unfold jobStep at fired
  split at fired
  · split at fired
    · rename_i phase
      split at fired
      · rename_i allowed
        split at fired <;> cases fired
        rename_i plan planned
        exact .pick plan phase allowed.1 allowed.2.2.1 allowed.2.2.2 planned
      · cases fired
    · cases fired
  · split at fired <;> cases fired
    rename_i plan phase
    exact .merge plan phase
  · split at fired
    · rename_i plan readSeq firstPath phase
      split at fired
      · cases fired
      · rename_i unlocked
        split at fired <;> cases fired
        rename_i catalog version committed
        exact .commit plan readSeq firstPath catalog version phase
          (Bool.eq_false_of_not_eq_true unlocked) committed
    · cases fired
  · split at fired <;> cases fired
    rename_i plan version phase
    exact .install plan version phase
  · split at fired <;> cases fired
    rename_i plan phase
    exact .clear plan phase
  · split at fired <;> cases fired
    rename_i plan phase unlocked
    exact .enqueue plan phase unlocked
  · split at fired <;> cases fired
    rename_i plan phase
    exact .release plan phase
  · split at fired
    · rename_i plan phase
      cases fired
      exact .abort plan (.inl phase)
    · rename_i plan readSeq firstPath phase
      cases fired
      exact .abort plan (.inr ⟨readSeq, firstPath, phase⟩)
    · cases fired

theorem job_others (fired : jobStep config s job action = some t) {other : Nat}
    (different : other ≠ job) : t.jobs other = s.jobs other := by
  cases job_effect fired with
  | _ => exact Function.update_of_ne different _ _

end Job

section Get

variable {thread : Nat} {action : GetAction}

inductive GetEffect (config : Config) (s : System) (thread : Nat) : GetAction → System → Prop
  | start {key : UserKey} (phase : s.gets thread = .idle) :
      GetEffect config s thread (.start key)
        (s.setGet thread (.started key s.visibleSeq s.returned))
  | hit {key readSeq seen} (phase : s.gets thread = .started key readSeq seen) (entry : Entry)
      (found : s.memtable.get key readSeq = some entry) :
      GetEffect config s thread .memtable (s.setGet thread (.done key seen (some entry) false))
  | miss {key readSeq seen} (phase : s.gets thread = .started key readSeq seen)
      (absent : s.memtable.get key readSeq = none) :
      GetEffect config s thread .memtable (s.setGet thread (.missed key readSeq seen))
  | cached {key readSeq seen} (phase : s.gets thread = .missed key readSeq seen) (entry : Entry)
      (found : s.rowCache.bind (RowCache.lookup · key) = some entry) :
      GetEffect config s thread .cache
        ((s.setGet thread (.done key seen (some entry) true)).setCache (RowCache.promote · key))
  | uncached {key readSeq seen} (phase : s.gets thread = .missed key readSeq seen)
      (absent : s.rowCache.bind (RowCache.lookup · key) = none) :
      GetEffect config s thread .cache (s.setGet thread (.uncached key readSeq seen))
  | stamp {key readSeq seen} (phase : s.gets thread = .uncached key readSeq seen) :
      GetEffect config s thread .stamp
        (s.setGet thread (.stamped key readSeq seen (s.rowCache.map RowCache.generation)))
  | pin {key readSeq seen generation}
    (phase : s.gets thread = .stamped key readSeq seen generation) :
      GetEffect config s thread .pin
        { s.setGet thread (.pinned key readSeq seen generation s.version) with
          pins := (.lookup thread, s.version) :: s.pins }
  | fill {key readSeq seen version} (entry : Entry) (stamp : Nat)
      (phase : s.gets thread = .pinned key readSeq seen (some stamp) version)
      (found : ReadPath.probeFiles config version key readSeq = some entry) :
      GetEffect config s thread .fill
        { (s.setCache (RowCache.insertIfFresh · entry stamp)).setGet thread
            (.done key seen (some entry) false) with
          pins := s.pins.filter fun pin => pin.1 ≠ .lookup thread }
  | probe {key readSeq seen generation version}
      (phase : s.gets thread = .pinned key readSeq seen generation version) :
      GetEffect config s thread .fill
        { s.setGet thread
            (.done key seen (ReadPath.probeFiles config version key readSeq) false) with
          pins := s.pins.filter fun pin => pin.1 ≠ .lookup thread }
  | finish {key seen answer fromCache} (phase : s.gets thread = .done key seen answer fromCache) :
      GetEffect config s thread .finish (s.setGet thread .idle)

theorem get_effect (fired : getStep config s thread action = some t) :
    GetEffect config s thread action t := by
  unfold getStep at fired
  split at fired
  · split at fired <;> cases fired
    rename_i phase
    exact .start phase
  · split at fired
    · rename_i phase
      split at fired <;> cases fired
      · rename_i entry found
        exact .hit phase entry found
      · rename_i absent
        exact .miss phase absent
    · cases fired
  · split at fired
    · rename_i phase
      split at fired <;> cases fired
      · rename_i entry found
        exact .cached phase entry found
      · rename_i absent
        exact .uncached phase absent
    · cases fired
  · split at fired <;> cases fired
    rename_i phase
    exact .stamp phase
  · split at fired <;> cases fired
    rename_i phase
    exact .pin phase
  · split at fired
    · rename_i key readSeq seen generation version phase
      cases found : ReadPath.probeFiles config version key readSeq with
      | none =>
        simp only [found] at fired
        cases fired
        rw [← found]
        exact .probe phase
      | some entry =>
        cases generation with
        | none =>
          simp only [found] at fired
          cases fired
          rw [← found]
          exact .probe phase
        | some stamp =>
          simp only [found] at fired
          cases fired
          exact .fill entry stamp phase found
    · cases fired
  · split at fired <;> cases fired
    rename_i phase
    exact .finish phase

theorem get_frame (fired : getStep config s thread action = some t) :
    ∃ cache pins gets, t = { s with rowCache := cache, pins := pins, gets := gets } := by
  cases get_effect fired <;> exact ⟨_, _, _, rfl⟩

end Get

section Sweep

variable {sweep : Nat} {action : SweepAction}

inductive SweepEffect (s : System) (sweep : Nat) : SweepAction → System → Prop
  | sample (phase : s.sweeps sweep = .idle) :
      SweepEffect s sweep .sample (s.setSweep sweep (.sampled s.minPinned))
  | lock {minPinned} (phase : s.sweeps sweep = .sampled minPinned)
      (unlocked : s.pendingLocked = false) :
      SweepEffect s sweep .lock { s.setSweep sweep (.sweeping minPinned s.pendingDeletions []) with
        pendingDeletions := []
        pendingLocked := true }
  | keep {minPinned entry todo remaining removed}
      (phase : s.sweeps sweep = .sweeping minPinned (entry :: todo) remaining) :
      SweepEffect s sweep (.visit removed)
        (s.setSweep sweep (.sweeping minPinned todo (remaining ++ [entry])))
  | remove {minPinned entry todo remaining removed}
      (phase : s.sweeps sweep = .sweeping minPinned (entry :: todo) remaining)
      (unpinned : minPinned.any (· ≤ entry.obsoletedAfterSnapshot) = false) :
      SweepEffect s sweep (.visit removed)
        { s.setSweep sweep (.sweeping minPinned todo remaining) with
          deleted := if removed then entry.path :: s.deleted else s.deleted }
  | unlock {minPinned remaining} (phase : s.sweeps sweep = .sweeping minPinned [] remaining) :
      SweepEffect s sweep .unlock { s.setSweep sweep .idle with
        pendingDeletions := remaining
        pendingLocked := false }

theorem sweep_effect (fired : sweepStep config s sweep action = some t) :
    SweepEffect s sweep action t := by
  unfold sweepStep at fired
  split at fired
  · split at fired <;> cases fired
    rename_i phase
    exact .sample phase
  · split at fired <;> cases fired
    rename_i phase unlocked
    exact .lock phase unlocked
  · split at fired
    · rename_i phase
      split at fired
      · cases fired
        exact .keep phase
      · rename_i unpinned
        split at fired <;> cases fired
        · exact .remove phase (Bool.eq_false_of_not_eq_true unpinned)
        · exact .keep phase
    · cases fired
  · split at fired <;> cases fired
    rename_i phase
    exact .unlock phase

theorem sweep_frame (fired : sweepStep config s sweep action = some t) :
    ∃ pending locked deleted sweeps, t = { s with
      pendingDeletions := pending, pendingLocked := locked, deleted := deleted,
      sweeps := sweeps } := by
  cases sweep_effect fired <;> exact ⟨_, _, _, _, rfl⟩

end Sweep

theorem write_frame {action : WriteAction} (fired : writeStep config s action = some t) :
    ∃ globalSeq visibleSeq wal active posts write history, t = { s with
      globalSeq := globalSeq, visibleSeq := visibleSeq, wal := wal,
      memtable := { s.memtable with active := active }, posts := posts, write := write,
      history := history } := by
  cases write_effect fired with
  | _ => exact ⟨_, _, _, _, _, _, _, rfl⟩

theorem rotation_frame {action : RotationAction} (fired : rotationStep s action = some t) :
    ∃ wal memtable rotation,
      t = { s with wal := wal, memtable := memtable, rotation := rotation } := by
  cases rotation_effect fired with
  | _ => exact ⟨_, _, _, rfl⟩

theorem flush_frame {action : FlushAction} (fired : flushStep config s action = some t) :
    ∃ wal memtable version catalog nextUuid store flush, t = { s with
      wal := wal, memtable := memtable, version := version, catalog := catalog,
      nextUuid := nextUuid, store := store, flush := flush } := by
  cases flush_effect fired with
  | _ => exact ⟨_, _, _, _, _, _, _, rfl⟩

theorem flush_memtable {action : FlushAction} (fired : flushStep config s action = some t) :
    t.memtable = s.memtable ∨ ∃ memtable, t = { s with
        memtable := s.memtable.dropFlushed memtable.firstSeq, flush := .idle } ∧
      (action = .dropEmpty ∧ s.flush = .picked memtable ∧ memtable.iter seqnumMax = [] ∨
        action = .drop ∧ s.flush = .marked memtable) := by
  cases flush_effect fired with
  | dropEmpty memtable phase empty => exact .inr ⟨memtable, rfl, .inl ⟨rfl, phase, empty⟩⟩
  | drop memtable phase => exact .inr ⟨memtable, rfl, .inr ⟨rfl, phase⟩⟩
  | _ => exact .inl rfl

theorem job_frame {job : Nat} {action : JobAction} (fired : jobStep config s job action = some t) :
    ∃ version catalog compacting cache nextUuid store pending jobs, t = { s with
      version := version, catalog := catalog, compacting := compacting, rowCache := cache,
      nextUuid := nextUuid, store := store, pendingDeletions := pending, jobs := jobs } := by
  cases job_effect fired with
  | _ => exact ⟨_, _, _, _, _, _, _, _, rfl⟩

/-- A step of the system by the kind of its action, in the form its frame leaves. -/
inductive StepEffect (config : Config) (s : System) : Action → System → Prop
  | write {action : WriteAction} {globalSeq visibleSeq wal active posts write history}
      (fired : writeStep config s action = some { s with
        globalSeq := globalSeq, visibleSeq := visibleSeq, wal := wal,
        memtable := { s.memtable with active := active }, posts := posts, write := write,
        history := history }) :
      StepEffect config s (.write action) { s with
        globalSeq := globalSeq, visibleSeq := visibleSeq, wal := wal,
        memtable := { s.memtable with active := active }, posts := posts, write := write,
        history := history }
  | rotate {action : RotationAction} {wal memtable rotation}
      (fired : rotationStep s action =
        some { s with wal := wal, memtable := memtable, rotation := rotation }) :
      StepEffect config s (.rotate action)
        { s with wal := wal, memtable := memtable, rotation := rotation }
  | flush {action : FlushAction} {wal memtable version catalog nextUuid store flush}
      (fired : flushStep config s action = some { s with
        wal := wal, memtable := memtable, version := version, catalog := catalog,
        nextUuid := nextUuid, store := store, flush := flush }) :
      StepEffect config s (.flush action) { s with
        wal := wal, memtable := memtable, version := version, catalog := catalog,
        nextUuid := nextUuid, store := store, flush := flush }
  | job {job : Nat} {action : JobAction}
      {version catalog compacting cache nextUuid store pending jobs}
      (fired : jobStep config s job action = some { s with
        version := version, catalog := catalog, compacting := compacting, rowCache := cache,
        nextUuid := nextUuid, store := store, pendingDeletions := pending, jobs := jobs }) :
      StepEffect config s (.job job action) { s with
        version := version, catalog := catalog, compacting := compacting, rowCache := cache,
        nextUuid := nextUuid, store := store, pendingDeletions := pending, jobs := jobs }
  | post {action : PostAction} {cache posts returned}
      (fired : postStep s action =
        some { s with rowCache := cache, posts := posts, returned := returned }) :
      StepEffect config s (.post action)
        { s with rowCache := cache, posts := posts, returned := returned }
  | get {thread : Nat} {action : GetAction} {cache pins gets}
      (fired : getStep config s thread action =
        some { s with rowCache := cache, pins := pins, gets := gets }) :
      StepEffect config s (.get thread action)
        { s with rowCache := cache, pins := pins, gets := gets }
  | sweep {sweep : Nat} {action : SweepAction} {pending locked deleted sweeps}
      (fired : sweepStep config s sweep action = some { s with
        pendingDeletions := pending, pendingLocked := locked, deleted := deleted,
        sweeps := sweeps }) :
      StepEffect config s (.sweep sweep action) { s with
        pendingDeletions := pending, pendingLocked := locked, deleted := deleted,
        sweeps := sweeps }
  | pin {reader : Nat} :
      StepEffect config s (.pin reader) { s with pins := (.reader reader, s.version) :: s.pins }
  | unpin {reader : Nat} :
      StepEffect config s (.unpin reader)
        { s with pins := s.pins.filter fun pin => pin.1 ≠ .reader reader }
  | tick : StepEffect config s .tick { s with clock := s.clock + 1 }

theorem step_effect (fired : step config s action = some t) :
    StepEffect config s action t := by
  cases action with
  | write action =>
    obtain ⟨_, _, _, _, _, _, _, rfl⟩ := write_frame fired
    exact .write fired
  | rotate action =>
    obtain ⟨_, _, _, rfl⟩ := rotation_frame fired
    exact .rotate fired
  | flush action =>
    obtain ⟨_, _, _, _, _, _, _, rfl⟩ := flush_frame fired
    exact .flush fired
  | job job action =>
    obtain ⟨_, _, _, _, _, _, _, _, rfl⟩ := job_frame fired
    exact .job fired
  | post action =>
    obtain ⟨_, _, _, rfl⟩ := post_frame fired
    exact .post fired
  | get thread action =>
    obtain ⟨_, _, _, rfl⟩ := get_frame fired
    exact .get fired
  | sweep sweep action =>
    obtain ⟨_, _, _, _, rfl⟩ := sweep_frame fired
    exact .sweep fired
  | pin reader =>
    simp only [step] at fired
    split at fired <;> cases fired
    exact .pin
  | unpin reader =>
    cases fired
    exact .unpin
  | tick =>
    cases fired
    exact .tick

def Action.isJob : Action → Bool
  | .job _ _ => true
  | _ => false

def Action.isSweep : Action → Bool
  | .sweep _ _ => true
  | _ => false

theorem deletion_frame (noJob : action.isJob = false) (noSweep : action.isSweep = false)
    (fired : step config s action = some t) :
    t.jobs = s.jobs ∧ t.sweeps = s.sweeps ∧ t.pendingDeletions = s.pendingDeletions ∧
      t.deleted = s.deleted := by
  cases step_effect fired with
  | job => cases noJob
  | sweep => cases noSweep
  | _ => exact ⟨rfl, rfl, rfl, rfl⟩

theorem flush_catalog {action : FlushAction} (fired : flushStep config s action = some t) :
    t.catalog = s.catalog ∨ action = .commit := by
  cases flush_effect fired with
  | commit => exact .inr rfl
  | _ => exact .inl rfl

theorem job_catalog {job : Nat} {action : JobAction}
    (fired : jobStep config s job action = some t) :
    t.catalog = s.catalog ∨ action = .commit := by
  cases job_effect fired with
  | commit => exact .inr rfl
  | _ => exact .inl rfl

theorem step_catalog (fired : step config s action = some t) :
    t.catalog = s.catalog ∨ action = .flush .commit ∨ ∃ job, action = .job job .commit := by
  cases step_effect fired with
  | flush fired => exact (flush_catalog fired).imp id fun own => .inl (congrArg _ own)
  | job fired => exact (job_catalog fired).imp id fun own => .inr ⟨_, congrArg _ own⟩
  | _ => exact .inl rfl

end Merutable
