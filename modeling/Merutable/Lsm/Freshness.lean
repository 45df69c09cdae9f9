import Merutable.Lsm.Lookup

/-! Freshness of the row cache: a write removes its keys from the cache before it returns, and a
lookup fills the cache only if no invalidation has begun since it read the generation. -/

namespace Merutable

open Foundation ReadPath

/-- The writer of the batch has removed the key from the cache, if it wrote it at all. -/
def System.Invalidated (s : System) (batch : WriteBatch) (key : UserKey) : Prop :=
  batch ∈ s.returned ∨ ∃ post ∈ s.posts, post.batch = batch ∧ key ∉ post.pending

/-- No version of the key that a writer has invalidated lies above the bound. -/
def System.Settled (s : System) (key : UserKey) (bound : Nat) : Prop :=
  ∀ batch, s.Invalidated batch key → ∀ record ∈ batch.entries, record.key = key →
    record.seq ≤ bound

/-- A lookup fills the cache only if neither the version it has pinned nor the writers that have
invalidated its key are ahead of what it reads. -/
def FillsCurrent (s : System) : Action → Prop
  | .get thread .fill => ∀ key readSeq seen stamp version,
      s.gets thread = .pinned key readSeq seen (some stamp) version →
      s.rowCache.map RowCache.generation = some stamp →
      version.Visible key readSeq ∧ s.Settled key readSeq
  | _ => True

/-- No cached row is older than a write that has invalidated its key. -/
def System.Fresh (s : System) : Prop :=
  ∀ cache, s.rowCache = some cache → ∀ cached ∈ cache.entries, s.Settled cached.key cached.seq

/-- The writes a lookup must reflect have returned; what it took from the cache reflects them. -/
def Reflects (returned : List WriteBatch) : GetPhase → Prop
  | .idle => True
  | .started _ _ seen => seen ⊆ returned
  | .missed _ _ seen => seen ⊆ returned
  | .uncached _ _ _ => True
  | .stamped _ _ _ _ => True
  | .pinned _ _ _ _ _ => True
  | .done key seen answer fromCache => fromCache = true → ∀ entry, answer = some entry →
      ∀ batch ∈ seen, ∀ record ∈ batch.entries, record.key = key → record.seq ≤ entry.seq

section Freshness

variable {config : Config} {s t : System} {key : UserKey} {bound : Nat} {action : Action}

theorem invalidated_frame (fired : step config s action = some t)
    (write : ∀ move, action ≠ .write move) (post : ∀ move, action ≠ .post move) :
    t.posts = s.posts ∧ t.returned = s.returned := by
  cases step_effect fired with
  | write => exact absurd rfl (write _)
  | post => exact absurd rfl (post _)
  | _ => exact ⟨rfl, rfl⟩

section

variable (settled : s.Settled key bound)
include settled

theorem System.Settled.of_subset
    (subset : ∀ batch, (∃ record ∈ batch.entries, record.key = key) → t.Invalidated batch key →
      s.Invalidated batch key) :
    t.Settled key bound := by
  intro batch invalidated record member same
  exact settled batch (subset batch ⟨record, member, same⟩ invalidated) record member same

theorem System.Settled.of_same (same : t.posts = s.posts ∧ t.returned = s.returned) :
    t.Settled key bound := by
  refine settled.of_subset ?_
  rintro batch _ invalidated
  rw [System.Invalidated, same.1, same.2] at invalidated
  exact invalidated

theorem System.Settled.write {move : WriteAction} {cache : RowCache}
    (enabled : s.rowCache = some cache) (fired : step config s (.write move) = some t) :
    t.Settled key bound := by
  change writeStep config s move = some t at fired
  cases move with
  | publish =>
    cases write_effect fired with
    | publish batch =>
    refine settled.of_subset ?_
    rintro other ⟨record, member, same⟩ (returned | ⟨post, listed, rfl, absent⟩)
    · exact .inl returned
    · rcases List.mem_append.mp listed with old | new
      · exact .inr ⟨post, old, rfl, absent⟩
      · obtain rfl := List.mem_singleton.mp new
        simp only [enabled, Option.isSome_some, if_true] at absent
        exact absurd (same ▸ WriteBatch.entriesFrom_key member) absent
  | allocate records =>
    cases write_effect fired with
    | allocate => exact settled.of_same ⟨rfl, rfl⟩
  | append =>
    cases write_effect fired with
    | append => exact settled.of_same ⟨rfl, rfl⟩
  | appendFailed reached =>
    cases write_effect fired with
    | appendFailed => exact settled.of_same ⟨rfl, rfl⟩
  | apply =>
    cases write_effect fired with
    | apply => exact settled.of_same ⟨rfl, rfl⟩

theorem System.Settled.post {move : PostAction} (fired : step config s (.post move) = some t)
    (popped : ∀ index batch rest, move = .pop index →
      s.posts[index]? ≠ some ⟨batch, key :: rest, true⟩) :
    t.Settled key bound := by
  change postStep s move = some t at fired
  refine settled.of_subset ?_
  rintro other _ invalidated
  cases move with
  | bump index =>
    cases post_effect fired with
    | bump batch head rest found =>
    rcases invalidated with returned | ⟨post, listed, rfl, absent⟩
    · exact .inl returned
    · rcases List.mem_or_eq_of_mem_set listed with old | rfl
      · exact .inr ⟨post, old, rfl, absent⟩
      · exact .inr ⟨_, List.mem_of_getElem? found, rfl, absent⟩
  | pop index =>
    cases post_effect fired with
    | pop batch head rest found =>
    rcases invalidated with returned | ⟨post, listed, rfl, absent⟩
    · exact .inl returned
    · rcases List.mem_or_eq_of_mem_set listed with old | rfl
      · exact .inr ⟨post, old, rfl, absent⟩
      · refine .inr ⟨_, List.mem_of_getElem? found, rfl, ?_⟩
        intro member
        rcases List.mem_cons.mp member with rfl | later
        · exact popped index batch rest rfl found
        · exact absent later
  | ret index =>
    cases post_effect fired with
    | ret batch bumped found =>
    rcases invalidated with returned | ⟨post, listed, rfl, absent⟩
    · rcases List.mem_append.mp returned with old | new
      · exact .inl old
      · obtain rfl := List.mem_singleton.mp new
        exact .inr ⟨_, List.mem_of_getElem? found, rfl, List.not_mem_nil⟩
    · exact .inr ⟨post, List.mem_of_mem_eraseIdx listed, rfl, absent⟩

end

theorem System.Settled.step {action : Action} {cache : RowCache} (settled : s.Settled key bound)
    (enabled : s.rowCache = some cache) (fired : Merutable.step config s action = some t)
    (popped : ∀ index batch rest, action = .post (.pop index) →
      s.posts[index]? ≠ some ⟨batch, key :: rest, true⟩) : t.Settled key bound := by
  by_cases write : ∃ move, action = .write move
  · obtain ⟨move, rfl⟩ := write
    exact settled.write enabled fired
  · by_cases post : ∃ move, action = .post move
    · obtain ⟨move, rfl⟩ := post
      refine settled.post fired ?_
      rintro index batch rest rfl
      exact popped index batch rest rfl
    · exact settled.of_same (invalidated_frame fired (fun move equal => write ⟨move, equal⟩)
        fun move equal => post ⟨move, equal⟩)

theorem System.Base.invalidated_written (base : s.Base config) {batch : WriteBatch}
    (invalidated : s.Invalidated batch key) : batch ∈ s.history := by
  rcases invalidated with returned | ⟨post, listed, rfl, _⟩
  · exact base.answered.returned batch returned
  · exact base.answered.posts post listed

theorem fill_settled {readSeq : Nat} {entry : Entry} (base : s.Base config)
    (settled : s.Settled key readSeq)
    (answers : Answers config s.history s.visibleSeq key readSeq (some entry)) :
    entry.key = key ∧ s.Settled key entry.seq := by
  rcases answers with found | ⟨missing, _⟩
  · obtain ⟨newest, top, rfl⟩ := Option.map_eq_some_iff.mp found.symm
    obtain ⟨_, same, _, latest⟩ := (newestUpTo_eq_some base.numbered.increasing).mp top
    rw [Entry.persist_key, Entry.persist_seq]
    refine ⟨same, ?_⟩
    intro batch invalidated record member keyed
    have written := base.invalidated_written invalidated
    exact latest record (mem_entriesOf.mpr ⟨batch, written, member⟩) keyed
      (settled batch invalidated record member keyed)
  · cases missing

theorem System.Fresh.step {action : Action} (inv : s.Fresh) (base : s.Base config)
    (lookups : s.Lookups config) (current : FillsCurrent s action)
    (fired : Merutable.step config s action = some t) : t.Fresh := by
  intro cache present cached member
  obtain ⟨change, mapped, moved⟩ := cache_move fired
  rw [present] at mapped
  obtain ⟨before, enabled, rfl⟩ := Option.map_eq_some_iff.mp mapped.symm
  -- An entry that was cached before stays settled unless its key is being popped.
  have old : cached ∈ before.entries →
      (∀ index batch rest, action = .post (.pop index) →
        s.posts[index]? ≠ some ⟨batch, cached.key :: rest, true⟩) →
      t.Settled cached.key cached.seq :=
    fun listed popped => (inv before enabled cached listed).step enabled fired popped
  cases moved with
  | keep other =>
    refine old member ?_
    rintro index batch rest rfl
    cases other
  | bump index => exact old member (by rintro _ _ _ ⟨⟩)
  | pop waiting =>
    obtain ⟨listed, other⟩ := List.mem_filter.mp member
    refine old listed ?_
    rintro index batch rest ⟨⟩ found
    rw [waiting] at found
    injection found with same
    injection same with _ keys
    injection keys with head
    exact of_decide_eq_true other head.symm
  | clear job => cases member
  | promote thread key => exact old (RowCache.mem_promote member) (by rintro _ _ _ ⟨⟩)
  | @fill thread _ _ _ _ _ _ phase found =>
    rcases RowCache.mem_insertIfFresh member with listed | ⟨rfl, stamp⟩
    · exact old listed (by rintro _ _ _ ⟨⟩)
    · have generation : s.rowCache.map RowCache.generation = some before.generation := by
        rw [enabled, Option.map_some]
      rw [stamp] at generation
      obtain ⟨visible, settled⟩ := current _ _ _ _ _ phase generation
      have ok := lookups thread
      rw [phase] at ok
      have answers := ok.2 visible
      rw [found] at answers
      obtain ⟨same, fresh⟩ := fill_settled base settled answers
      rw [same]
      exact fresh.step enabled fired (by rintro _ _ _ ⟨⟩)

theorem reflects_step (inv : ∀ thread, Reflects s.returned (s.gets thread)) (fresh : s.Fresh)
    (fired : Merutable.step config s action = some t) :
    ∀ thread, Reflects t.returned (t.gets thread) := by
  have grows := returned_subset fired
  refine gets_invariant (fun _ => Reflects s.returned) (fun _ => Reflects t.returned) inv
    fired ?_ ?_
  · intro thread phase _ held
    cases phase with
    | started | missed => exact List.Subset.trans held grows
    | _ => exact held
  · rintro thread move phase rfl moved
    have held := inv thread
    generalize s.gets thread = before at held moved
    cases moved with
    | start key => exact grows
    | hit | fill => intro absurdly; cases absurdly
    | miss absent => exact List.Subset.trans held grows
    | cached found =>
      rintro _ entry ⟨⟩ batch member record inBatch keyed
      obtain ⟨cache, enabled, looked⟩ := Option.bind_eq_some_iff.mp found
      obtain ⟨listed, same⟩ := RowCache.lookup_mem looked
      have settled := fresh cache enabled _ listed
      rw [same] at settled
      exact settled batch (.inl (held member)) record inBatch keyed
    | uncached | stamp | pin | finish => trivial

end Freshness

/-- The state of a run and of its row cache. -/
structure System.Cached (config : Config) (s : System) : Prop where
  base : s.Base config
  tree : s.Tree config
  lookups : s.Lookups config
  fresh : s.Fresh
  reflects : ∀ thread, Reflects s.returned (s.gets thread)

section Cached

variable {config : Config} {s t : System}

theorem initial_fresh (config : Config) : (System.initial config).Fresh := by
  intro cache enabled cached member
  rw [RowCache.entries_of_new enabled] at member
  cases member

theorem initial_cached (config : Config) : (System.initial config).Cached config :=
  ⟨initial_base config, initial_tree config, initial_lookups config, initial_fresh config,
    fun _ => trivial⟩

theorem System.Cached.step {action : Action} (inv : s.Cached config) (keeps : KeepsTree s action)
    (current : FillsCurrent s action) (fired : Merutable.step config s action = some t) :
    t.Cached config where
  base := inv.base.step fired
  tree := inv.tree.step inv.base keeps.1 keeps.2 fired
  lookups := inv.lookups.step inv.base inv.tree fired
  fresh := inv.fresh.step inv.base inv.lookups current fired
  reflects := reflects_step inv.reflects inv.fresh fired

/-- If every drop removes the memtable its flush has written, every version is installed over the
one it was committed on, and every fill meets `FillsCurrent`, then a lookup that is answered from
the row cache gets a version at least as new as every write of its key that had returned when it
started. -/
theorem cached_answer_reflects_returned (config : Config) (actions : List Action) (s : System)
    (run : Run (step config) (fun s action => KeepsTree s action ∧ FillsCurrent s action)
      (.initial config) actions s)
    (thread : Nat) (key : UserKey) (seen : List WriteBatch) (entry : Entry)
    (answered : s.gets thread = .done key seen (some entry) true) :
    ∀ batch ∈ seen, ∀ record ∈ batch.entries, record.key = key → record.seq ≤ entry.seq := by
  have inv : s.Cached config :=
    run.invariant (System.Cached config) (fun _ _ _ inv met fired => inv.step met.1 met.2 fired)
      (initial_cached config)
  have reflects := inv.reflects thread
  rw [answered] at reflects
  exact reflects rfl entry rfl

end Cached

section Samples

/-- A put has returned and is flushed, and a first lookup has pinned the files. -/
def lookupPinned : List Action :=
  Calls.write [putByte 1 1] ++ Calls.invalidate 1 ++ Calls.rotate ++ Calls.runFlush ++
    [.get 0 (.start (putByte 1 1).1), .get 0 .memtable, .get 0 .cache, .get 0 .stamp, .get 0 .pin]

theorem lookupPinned_state :
    let s := finalPlain lookupPinned
    s.returned = [⟨1, [putByte 1 1], by decide⟩] ∧ s.posts = [] ∧
      s.gets 0 = .pinned (putByte 1 1).1 1 [⟨1, [putByte 1 1], by decide⟩] (some 1) s.version ∧
      s.version.Visible (putByte 1 1).1 1 := by
  decide +kernel

/-- It fills the cache, and a second lookup is answered from there. -/
def lookupCached : List Action := lookupPinned ++ .get 0 .fill ::
  [.get 1 (.start (putByte 1 1).1), .get 1 .memtable, .get 1 .cache]

theorem cached_answer_reflects_flushed :
    let s := finalPlain lookupCached
    let batch : WriteBatch := ⟨1, [putByte 1 1], by decide⟩
    let entry : Entry := ⟨(putByte 1 1).1, 1, (putByte 1 1).2⟩
    s.gets 1 = .done (putByte 1 1).1 [batch] (some entry) true ∧
      ∀ record ∈ batch.entries, record.key = (putByte 1 1).1 → record.seq ≤ entry.seq := by
  intro s batch entry
  have answered : s.gets 1 = .done (putByte 1 1).1 [batch] (some entry) true := by decide +kernel
  have fills : Run (step .plain) FillsCurrent (.initial .plain) lookupCached s := by
    refine Run.extend (.of_execute ?_ (execute_final (by decide +kernel))) (by decide +kernel) ?_
      (by simp [FillsCurrent])
    · simp [lookupPinned, Calls.write, Calls.invalidate, Calls.rotate, Calls.runFlush, FillsCurrent]
    · intro key readSeq seen stamp version phase _
      obtain ⟨returned, posts, pinned, visible⟩ := lookupPinned_state
      rw [← finalPlain, pinned] at phase
      injection phase with sameKey sameSeq _ _ sameVersion
      rw [← sameKey, ← sameSeq, ← sameVersion]
      refine ⟨visible, ?_⟩
      rintro other (old | ⟨post, listed, _⟩)
      · rw [← finalPlain, returned] at old
        rw [List.mem_singleton.mp old]
        decide
      · rw [← finalPlain, posts] at listed
        cases listed
  have keeps : Run (step .plain) KeepsTree (.initial .plain) lookupCached s :=
    (keepsTree_of_check (initial_oneJob .plain) (by decide +kernel)).1
  exact ⟨answered, cached_answer_reflects_returned .plain lookupCached s (keeps.and fills) 1 _ _ _
    answered batch (by simp)⟩

/-- A lookup reads its bound and misses the memtables and the cache; the key is overwritten and the
write returns; only then does the lookup read the generation. Then the new version is flushed. -/
def staleFill : List Action :=
  Calls.write [putByte 1 1] ++ Calls.invalidate 1 ++ Calls.rotate ++ Calls.runFlush ++
    [.get 0 (.start (putByte 1 1).1), .get 0 .memtable, .get 0 .cache] ++
    Calls.write [putByte 1 2] ++ Calls.invalidate 1 ++ [.get 0 .stamp, .get 0 .pin, .get 0 .fill] ++
    Calls.rotate ++ Calls.runFlush ++
    [.get 1 (.start (putByte 1 1).1), .get 1 .memtable, .get 1 .cache]

/-- The second lookup starts after the overwriting put has returned and gets the old row from the
cache. -/
theorem cached_answer_stale : ∃ s, runFrom .plain staleFill = some s ∧
    ∃ seen entry, s.gets 1 = .done (putByte 1 1).1 seen (some entry) true ∧
      entry.value = (putByte 1 1).2 ∧
      ∃ batch ∈ seen, ∃ record ∈ batch.entries, record.key = (putByte 1 1).1 ∧
        entry.seq < record.seq ∧ record.value = (putByte 1 2).2 :=
  ⟨_, execute_final (by decide +kernel),
    [⟨1, [putByte 1 1], by decide⟩, ⟨2, [putByte 1 2], by decide⟩],
    ⟨(putByte 1 1).1, 1, (putByte 1 1).2⟩, by decide +kernel, rfl, by decide +kernel⟩

end Samples

end Merutable
