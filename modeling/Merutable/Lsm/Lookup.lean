import Merutable.Lsm.Reads

/-! Point lookups in progress. A lookup reads the visible sequence number, probes the memtables,
then pins the installed version and probes its files; anything may happen between these steps. -/

namespace Merutable

open Foundation ReadPath

/-- What a step of a lookup does to its phase. -/
inductive GetMove (config : Config) (s : System) : GetAction → GetPhase → GetPhase → Prop
  | start (key : UserKey) : GetMove config s (.start key) .idle
    (.started key s.visibleSeq s.returned)
  | hit {key : UserKey} {readSeq : Nat} {seen : List WriteBatch} {entry : Entry}
      (found : s.memtable.get key readSeq = some entry) :
      GetMove config s .memtable (.started key readSeq seen) (.done key seen (some entry) false)
  | miss {key : UserKey} {readSeq : Nat} {seen : List WriteBatch}
      (absent : s.memtable.get key readSeq = none) :
      GetMove config s .memtable (.started key readSeq seen) (.missed key readSeq seen)
  | cached {key : UserKey} {readSeq : Nat} {seen : List WriteBatch} {entry : Entry}
      (found : s.rowCache.bind (RowCache.lookup · key) = some entry) :
      GetMove config s .cache (.missed key readSeq seen) (.done key seen (some entry) true)
  | uncached {key : UserKey} {readSeq : Nat} {seen : List WriteBatch} :
      GetMove config s .cache (.missed key readSeq seen) (.uncached key readSeq seen)
  | stamp {key : UserKey} {readSeq : Nat} {seen : List WriteBatch} :
      GetMove config s .stamp (.uncached key readSeq seen)
        (.stamped key readSeq seen (s.rowCache.map RowCache.generation))
  | pin {key : UserKey} {readSeq : Nat} {seen : List WriteBatch} {generation : Option Nat} :
      GetMove config s .pin (.stamped key readSeq seen generation)
        (.pinned key readSeq seen generation s.version)
  | fill {key : UserKey} {readSeq : Nat} {seen : List WriteBatch} {generation : Option Nat}
      {version : Version} :
      GetMove config s .fill (.pinned key readSeq seen generation version)
        (.done key seen (probeFiles config version key readSeq) false)
  | finish {key : UserKey} {seen : List WriteBatch} {answer : Option Entry} {fromCache : Bool} :
      GetMove config s .finish (.done key seen answer fromCache) .idle

section Moves

variable {config : Config} {s t : System} {action : Action}

theorem get_move {thread : Nat} {action : GetAction}
    (fired : getStep config s thread action = some t) :
    ∃ phase, t.gets = Function.update s.gets thread phase ∧
      GetMove config s action (s.gets thread) phase := by
  cases get_effect fired with
  | @start key phase =>
    rw [phase]
    exact ⟨_, rfl, .start key⟩
  | hit phase entry found =>
    rw [phase]
    exact ⟨_, rfl, .hit found⟩
  | miss phase absent =>
    rw [phase]
    exact ⟨_, rfl, .miss absent⟩
  | cached phase entry found =>
    rw [phase]
    exact ⟨_, rfl, .cached found⟩
  | uncached phase =>
    rw [phase]
    exact ⟨_, rfl, .uncached⟩
  | stamp phase =>
    rw [phase]
    exact ⟨_, rfl, .stamp⟩
  | pin phase =>
    rw [phase]
    exact ⟨_, rfl, .pin⟩
  | fill entry stamp phase found =>
    rw [phase, ← found]
    exact ⟨_, rfl, .fill⟩
  | probe phase =>
    rw [phase]
    exact ⟨_, rfl, .fill⟩
  | finish phase =>
    rw [phase]
    exact ⟨_, rfl, .finish⟩

theorem gets_frame (fired : step config s action = some t)
    (other : ∀ thread move, action ≠ .get thread move) : t.gets = s.gets := by
  cases step_effect fired with
  | get => exact absurd rfl (other _ _)
  | _ => rfl

theorem gets_invariant (property later : Nat → GetPhase → Prop)
    (inv : ∀ thread, property thread (s.gets thread)) (fired : step config s action = some t)
    (lasts : ∀ thread phase, (∀ move, action ≠ .get thread move) → property thread phase →
      later thread phase)
    (moves : ∀ thread move phase, action = .get thread move →
      GetMove config s move (s.gets thread) phase → later thread phase) :
    ∀ thread, later thread (t.gets thread) := by
  intro thread
  by_cases own : ∃ mover move, action = .get mover move
  · obtain ⟨mover, move, rfl⟩ := own
    change getStep config s mover move = some t at fired
    obtain ⟨phase, gets, moved⟩ := get_move fired
    rw [gets]
    by_cases same : thread = mover
    · rw [same, Function.update_self]
      exact moves mover move phase rfl moved
    · rw [Function.update_of_ne same]
      refine lasts thread _ ?_ (inv thread)
      rintro _ ⟨⟩
      exact same rfl
  · have resting : ∀ mover move, action ≠ .get mover move := fun mover move equal =>
      own ⟨mover, move, equal⟩
    rw [gets_frame fired resting]
    exact lasts thread _ (resting thread) (inv thread)

end Moves

/-- A writer takes a key out of the row cache. -/
def Action.isPop : Action → Bool
  | .post (.pop _) => true
  | _ => false

/-- What a step does to the row cache. -/
inductive CacheMove (config : Config) (s : System) : Action → (RowCache → RowCache) → Prop
  | keep {action : Action} (other : action.isPop = false) : CacheMove config s action id
  | bump (index : Nat) : CacheMove config s (.post (.bump index)) RowCache.bump
  | pop {index : Nat} {batch : WriteBatch} {key : UserKey} {rest : List UserKey}
      (waiting : s.posts[index]? = some ⟨batch, key :: rest, true⟩) :
      CacheMove config s (.post (.pop index)) (RowCache.pop · key)
  | clear (job : Nat) : CacheMove config s (.job job .clear) RowCache.clear
  | promote (thread : Nat) (key : UserKey) :
      CacheMove config s (.get thread .cache) (RowCache.promote · key)
  | fill {thread : Nat} {key : UserKey} {readSeq : Nat} {seen : List WriteBatch} {stamp : Nat}
      {version : Version} {entry : Entry}
      (phase : s.gets thread = .pinned key readSeq seen (some stamp) version)
      (found : probeFiles config version key readSeq = some entry) :
      CacheMove config s (.get thread .fill) (RowCache.insertIfFresh · entry stamp)

section CacheMoves

variable {config : Config} {s t : System} {action : Action}

theorem cache_kept (other : action.isPop = false) (same : t.rowCache = s.rowCache) :
    ∃ change, t.rowCache = s.rowCache.map change ∧ CacheMove config s action change :=
  ⟨id, by rw [same, Option.map_id_fun, id], .keep other⟩

theorem post_cacheMove {action : PostAction} (fired : postStep s action = some t) :
    ∃ change, t.rowCache = s.rowCache.map change ∧ CacheMove config s (.post action) change := by
  cases post_effect fired with
  | @bump index => exact ⟨_, rfl, .bump index⟩
  | pop _ _ _ waiting => exact ⟨_, rfl, .pop waiting⟩
  | ret => exact cache_kept rfl rfl

theorem job_cacheMove {job : Nat} {action : JobAction}
    (fired : jobStep config s job action = some t) :
    ∃ change, t.rowCache = s.rowCache.map change ∧ CacheMove config s (.job job action) change := by
  cases job_effect fired with
  | clear => exact ⟨_, rfl, .clear job⟩
  | _ => exact cache_kept rfl rfl

theorem get_cacheMove {thread : Nat} {action : GetAction}
    (fired : getStep config s thread action = some t) :
    ∃ change, t.rowCache = s.rowCache.map change ∧
      CacheMove config s (.get thread action) change := by
  cases get_effect fired with
  | cached => exact ⟨_, rfl, .promote thread _⟩
  | fill _ _ phase found => exact ⟨_, rfl, .fill phase found⟩
  | _ => exact cache_kept rfl rfl

theorem cache_move (fired : step config s action = some t) :
    ∃ change, t.rowCache = s.rowCache.map change ∧ CacheMove config s action change := by
  cases step_effect fired with
  | post fired => exact post_cacheMove fired
  | job fired => exact job_cacheMove fired
  | get fired => exact get_cacheMove fired
  | _ => exact cache_kept rfl rfl

end CacheMoves

/-- The answer is the newest record up to `readSeq`, or nothing in place of a tombstone: the newest
record itself, or a later one that has been published. -/
def Answers (config : Config) (history : List WriteBatch) (visibleSeq : Nat) (key : UserKey)
    (readSeq : Nat) (answer : Option Entry) : Prop :=
  answer = (newestUpTo history readSeq key).map (Entry.persist config) ∨
    answer = none ∧ ((∃ entry, newestUpTo history readSeq key = some entry ∧
        entry.value.opType = .delete) ∨
      ∃ batch ∈ history, readSeq < batch.lastSeq ∧ batch.lastSeq ≤ visibleSeq ∧
        ∃ entry, newest Entry.key key batch.entries = some entry ∧ entry.value.opType = .delete)

section Answers

variable {config : Config} {s t : System} {key : UserKey} {readSeq : Nat} {answer : Option Entry}

theorem Answers.grow {more : List WriteBatch} {history : List WriteBatch} {visibleSeq later : Nat}
    (answers : Answers config history visibleSeq key readSeq answer)
    (above : ∀ entry ∈ entriesOf more, readSeq < entry.seq) (grows : visibleSeq ≤ later) :
    Answers config (history ++ more) later key readSeq answer := by
  rw [Answers, newestUpTo_grows above]
  rcases answers with same | ⟨missing, ⟨entry, found, delete⟩ | ⟨batch, member, after, seen, rest⟩⟩
  · exact .inl same
  · exact .inr ⟨missing, .inl ⟨entry, found, delete⟩⟩
  · exact .inr ⟨missing, .inr
      ⟨batch, List.mem_append_left _ member, after, seen.trans grows, rest⟩⟩

theorem System.Tree.hit {entry : Entry} (tree : s.Tree config) (base : s.Base config)
    (found : s.memtable.get key readSeq = some entry) :
    newestUpTo s.history readSeq key = some entry := by
  have ordered := base.ordered
  rw [MemtableManager.get_eq ordered] at found
  rw [tree.history, newestUpTo_append, found, Option.some_or]

theorem System.Tree.answers (tree : s.Tree config) (base : s.Base config)
    (missed : newestUpTo s.memtable.batches readSeq key = none)
    (visible : s.version.Visible key readSeq) :
    Answers config s.history s.visibleSeq key readSeq
      (probeFiles config s.version key readSeq) := by
  obtain ⟨batches, lower, upper, sound⟩ := tree.upcoming s.version (.inl rfl)
  have written : batches <+: s.history := upper.trans (tree.covered_history base)
  have rising : Increasing s.history := base.numbered.increasing
  have ordered : Increasing batches := rising.sublist written.sublist
  -- What the lookup may see has left the memtables, so the version stands for it.
  have within : ∀ entry ∈ entriesOf s.history, entry.key = key → entry.seq ≤ readSeq →
      entry ∈ entriesOf batches := by
    intro entry member same bound
    rw [tree.history, entriesOf_append] at member
    rcases List.mem_append.mp member with old | queued
    · obtain ⟨batch, inDropped, inBatch⟩ := mem_entriesOf.mp old
      exact mem_entriesOf.mpr ⟨batch, ((List.prefix_append _ _).trans lower).subset
        inDropped, inBatch⟩
    · have := newestUpTo_eq_none.mp missed entry queued same
      omega
  have latest : ∀ entry, newest Entry.key key (entriesOf batches) = some entry →
      entry.seq ≤ readSeq → newestUpTo s.history readSeq key = some entry := by
    intro entry found bound
    obtain ⟨member, same, top⟩ := (newest_eq_some ordered.entries).mp found
    obtain ⟨batch, inBatches, inBatch⟩ := mem_entriesOf.mp member
    refine (newestUpTo_eq_some rising).mpr
      ⟨mem_entriesOf.mpr ⟨batch, written.subset inBatches, inBatch⟩, same, bound, ?_⟩
    intro other listed otherKey below
    exact top other (within other listed otherKey below) otherKey
  rcases sound.probeFiles_eq ordered.entries visible with same |
    ⟨missing, entry, found, delete, seen⟩
  · left
    rw [same]
    cases found : newest Entry.key key (entriesOf batches) with
    | none =>
      have nothing : newestUpTo s.history readSeq key = none := by
        apply newestUpTo_eq_none.mpr
        intro entry member keyed
        by_contra bound
        exact newest_eq_none.mp found entry (within entry member keyed (Nat.not_lt.mp bound)) keyed
      rw [nothing]
    | some entry =>
      rw [found] at same
      have bound := (probeFiles_some sound.wf same).2.2.1
      rw [Entry.persist_seq] at bound
      rw [latest entry found bound]
  · refine .inr ⟨missing, ?_⟩
    by_cases bound : entry.seq ≤ readSeq
    · exact .inl ⟨entry, latest entry found bound, delete⟩
    · right
      obtain ⟨member, same, top⟩ := (newest_eq_some ordered.entries).mp found
      obtain ⟨batch, inBatches, inBatch⟩ := mem_entriesOf.mp member
      have limits := WriteBatch.seq_bounds inBatch
      have published : batch.lastSeq ≤ s.visibleSeq := by
        rcases base.numbered.published batch (written.subset inBatches) with applied | seen'
        · have := (base.numbered.applied batch applied).1
          omega
        · exact seen'
      refine ⟨batch, written.subset inBatches, by omega, published, entry, ?_, delete⟩
      refine (newest_eq_some (WriteBatch.entriesFrom_increasing _ _)).mpr ⟨inBatch, same, ?_⟩
      intro other listed otherKey
      exact top other (mem_entriesOf.mpr ⟨batch, inBatches, listed⟩) otherKey

end Answers

/-- What a lookup in progress can rely on. -/
def LookupOk (config : Config) (s : System) : GetPhase → Prop
  | .idle => True
  | .started _ readSeq _ => readSeq ≤ s.visibleSeq
  | .missed key readSeq _ =>
    readSeq ≤ s.visibleSeq ∧ newestUpTo s.memtable.batches readSeq key = none
  | .uncached key readSeq _ =>
    readSeq ≤ s.visibleSeq ∧ newestUpTo s.memtable.batches readSeq key = none
  | .stamped key readSeq _ _ =>
    readSeq ≤ s.visibleSeq ∧ newestUpTo s.memtable.batches readSeq key = none
  | .pinned key readSeq _ _ version => readSeq ≤ s.visibleSeq ∧ (version.Visible key readSeq →
      Answers config s.history s.visibleSeq key readSeq (probeFiles config version key readSeq))
  | .done _ _ _ _ => True

def System.Lookups (config : Config) (s : System) : Prop :=
  ∀ thread, LookupOk config s (s.gets thread)

theorem initial_lookups (config : Config) : (System.initial config).Lookups config :=
  fun _ => trivial

section Lookups

variable {config : Config} {s t : System} {action : Action}

theorem missed_step (base : s.Base config) (fired : step config s action = some t) {key : UserKey}
    {readSeq : Nat} (bound : readSeq ≤ s.visibleSeq)
    (missed : newestUpTo s.memtable.batches readSeq key = none) :
    newestUpTo t.memtable.batches readSeq key = none := by
  cases step_effect fired with
  | write fired =>
    obtain ⟨more, _, batches, above⟩ := write_batches base.numbered fired
    rw [batches, newestUpTo_grows fun entry member => lt_of_le_of_lt bound (above entry member)]
    exact missed
  | rotate fired =>
    rw [rotation_batches fired]
    exact missed
  | flush fired =>
    rcases flush_memtable fired with same | ⟨memtable, dropped, _⟩
    · rw [same]
      exact missed
    · cases dropped
      apply newestUpTo_eq_none.mpr
      intro entry member
      obtain ⟨batch, inBatches, inBatch⟩ := mem_entriesOf.mp member
      have before : batch ∈ s.memtable.batches :=
        ((s.memtable.dropFlushed_queue memtable.firstSeq).flatMap _).subset inBatches
      exact newestUpTo_eq_none.mp missed entry (mem_entriesOf.mpr ⟨batch, before, inBatch⟩)
  | _ => exact missed

theorem LookupOk.lasts {phase : GetPhase} (base : s.Base config)
    (fired : step config s action = some t) (ok : LookupOk config s phase) :
    LookupOk config t phase := by
  have grows := visible_step fired
  cases phase with
  | idle | done => trivial
  | started key readSeq seen => exact le_trans ok grows
  | missed | uncached | stamped => exact ⟨ok.1.trans grows, missed_step base fired ok.1 ok.2⟩
  | pinned key readSeq seen generation version =>
    obtain ⟨more, history, above⟩ := history_more base.numbered fired
    refine ⟨ok.1.trans grows, fun visible => ?_⟩
    rw [history]
    exact (ok.2 visible).grow (fun entry member => lt_of_le_of_lt ok.1 (above entry member)) grows

theorem System.Lookups.step {action : Action} (inv : s.Lookups config) (base : s.Base config)
    (tree : s.Tree config) (fired : Merutable.step config s action = some t) :
    t.Lookups config := by
  have ordered := base.ordered
  refine gets_invariant (fun _ => LookupOk config s) (fun _ => LookupOk config t) inv fired
    (fun _ _ _ ok => ok.lasts base fired) ?_
  rintro thread move phase rfl moved
  refine LookupOk.lasts base fired ?_
  have ok := inv thread
  generalize s.gets thread = before at ok moved
  cases moved with
  | start key => exact Nat.le_refl s.visibleSeq
  | hit | cached | fill | finish => trivial
  | miss absent =>
    rw [MemtableManager.get_eq ordered] at absent
    exact ⟨ok, absent⟩
  | uncached | stamp => exact ok
  | pin => exact ⟨ok.1, tree.answers base ok.2⟩

end Lookups

/-- What a point lookup with nothing beside it is answered with: the memtables, the row cache, then
the files. -/
def System.answer (config : Config) (s : System) (key : UserKey) : Option Entry :=
  (s.memtable.get key s.visibleSeq).or
    ((s.rowCache.bind (RowCache.lookup · key)).or
      (probeFiles config s.version key s.visibleSeq))

theorem answer_returned (config : Config) (s : System) {thread : Nat} (idle : s.gets thread = .idle)
    (key : UserKey) : ∃ (moves : List GetAction) (t : System) (fromCache : Bool),
      execute (step config) s (.get thread (.start key) :: moves.map (Action.get thread)) = some t ∧
        t.gets thread = .done key s.returned (s.answer config key) fromCache := by
  unfold System.answer
  cases hit : s.memtable.get key s.visibleSeq with
  | some entry =>
    refine ⟨[.memtable], s.setGet thread (.done key s.returned (some entry) false), false,
      ?_, Function.update_self ..⟩
    simp [execute, step, getStep, idle, System.setGet, hit]
  | none =>
    cases cached : s.rowCache.bind (RowCache.lookup · key) with
    | some entry =>
      refine ⟨[.memtable, .cache], (s.setGet thread
        (.done key s.returned (some entry) true)).setCache
        (RowCache.promote · key), true, ?_, Function.update_self ..⟩
      simp [execute, step, getStep, idle, System.setGet, hit, cached]
    | none =>
      refine ⟨[.memtable, .cache, .stamp, .pin, .fill], ?_⟩
      simp [execute, step, getStep, idle, System.setGet, hit, cached]

end Merutable
