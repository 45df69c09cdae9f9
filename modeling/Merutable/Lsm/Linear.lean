import Merutable.Lsm.Lookup

/-! Linearizability of point lookups without a row cache: the answer is the value the key had at
some moment between the start of the call and its return. -/

namespace Merutable

open Foundation ReadPath

/-- The row a key has at this moment: its newest published record, if that is a put. -/
def System.value (s : System) (key : UserKey) : Option Row :=
  (newestUpTo s.history s.visibleSeq key).bind fun entry => entry.value.row?

/-- The key had the value in some state since the last start of the lookup. -/
def Moment (config : Config) (thread : Nat) (key : UserKey) (actions : List Action) (s : System)
    (value : Option Row) : Prop :=
  ∃ before first second u, actions = before ++ .get thread (.start key) :: (first ++ second) ∧
    runFrom config (before ++ .get thread (.start key) :: first) = some u ∧
    execute (step config) u second = some s ∧
    (∀ other, Action.get thread (.start other) ∉ first ++ second) ∧ u.value key = value

section Moment

variable {config : Config} {thread : Nat} {key : UserKey} {actions : List Action} {s t : System}
  {value : Option Row} {action : Action}

theorem execute_snoc {u : System} (executed : execute (step config) u actions = some s)
    (fired : step config s action = some t) :
    execute (step config) u (actions ++ [action]) = some t := by
  rw [execute_append, executed]
  simp [execute, fired]

theorem Moment.step {action : Action} (moment : Moment config thread key actions s value)
    (fired : Merutable.step config s action = some t)
    (other : ∀ key', action ≠ .get thread (.start key')) :
    Moment config thread key (actions ++ [action]) t value := by
  obtain ⟨before, first, second, u, split, reached, onward, once, same⟩ := moment
  refine ⟨before, first, second ++ [action], u, by simp [split], reached,
    execute_snoc onward fired, ?_, same⟩
  intro key' member
  rw [← List.append_assoc] at member
  rcases List.mem_append.mp member with old | new
  · exact once key' old
  · exact other key' (List.mem_singleton.mp new).symm

theorem Moment.now (moment : Moment config thread key actions s value) :
    Moment config thread key actions s (s.value key) := by
  obtain ⟨before, first, second, u, split, reached, onward, once, _⟩ := moment
  refine ⟨before, first ++ second, [], s, by simp [split], ?_, rfl, by simpa using once, rfl⟩
  rw [runFrom, ← List.cons_append, ← List.append_assoc, execute_append]
  rw [runFrom] at reached
  rw [reached]
  exact onward

theorem Moment.start (reached : runFrom config actions = some s)
    (fired : Merutable.step config s (.get thread (.start key)) = some t) :
    Moment config thread key (actions ++ [.get thread (.start key)]) t (t.value key) :=
  ⟨actions, [], [], t, rfl, execute_snoc reached fired, rfl, by simp, rfl⟩

/-- What a call that reads with `readSeq` may answer: the newest record up to `readSeq`, and the
last record of the key in every batch published since. -/
def Since (config : Config) (thread : Nat) (key : UserKey) (readSeq : Nat) (actions : List Action)
    (s : System) : Prop :=
  Moment config thread key actions s
      ((newestUpTo s.history readSeq key).bind fun entry => entry.value.row?) ∧
    ∀ batch ∈ s.history, batch.lastSeq ≤ readSeq ∨ (batch.lastSeq ≤ s.visibleSeq →
      ∀ entry, newest Entry.key key batch.entries = some entry →
        Moment config thread key actions s entry.value.row?)

theorem write_visible_or_history {action : WriteAction}
    (fired : writeStep config s action = some t) :
    t.visibleSeq = s.visibleSeq ∨ t.history = s.history := by
  cases write_effect fired with
  | publish => exact .inr rfl
  | _ => exact .inl rfl

theorem visible_or_history (fired : Merutable.step config s action = some t) :
    t.visibleSeq = s.visibleSeq ∨ t.history = s.history := by
  cases step_effect fired with
  | write fired => exact write_visible_or_history fired
  | _ => exact .inl rfl

theorem value_published {batch : WriteBatch} {entry : Entry} (base : s.Base config)
    (same : t.history = s.history) (member : batch ∈ s.history)
    (hidden : s.visibleSeq < batch.lastSeq) (shown : batch.lastSeq ≤ t.visibleSeq)
    (found : newest Entry.key key batch.entries = some entry) :
    t.value key = entry.value.row? := by
  have rising : Increasing s.history := base.numbered.increasing
  have applied : s.write = .applied batch := by
    rcases base.numbered.published batch member with applied | seen
    · exact applied
    · omega
  have above := (base.numbered.applied batch applied).1
  obtain ⟨inBatch, keyed, top⟩ :=
    (newest_eq_some (WriteBatch.entriesFrom_increasing _ _)).mp found
  have bounds := WriteBatch.seq_bounds inBatch
  have latest : newestUpTo t.history t.visibleSeq key = some entry := by
    rw [same]
    refine (newestUpTo_eq_some rising).mpr
      ⟨mem_entriesOf.mpr ⟨batch, member, inBatch⟩, keyed, by omega, ?_⟩
    intro other listed sameKey _
    obtain ⟨source, inHistory, inSource⟩ := mem_entriesOf.mp listed
    rcases base.numbered.published source inHistory with alsoApplied | seen
    · have equal : source = batch := by
        rw [applied] at alsoApplied
        injection alsoApplied with equal
        exact equal.symm
      exact top other (equal ▸ inSource) sameKey
    · have := (WriteBatch.seq_bounds inSource).2
      omega
  rw [System.value, latest]
  rfl

theorem Since.step {readSeq : Nat} {action : Action}
    (since : Since config thread key readSeq actions s) (base : s.Base config)
    (bound : readSeq ≤ s.visibleSeq) (fired : Merutable.step config s action = some t)
    (other : ∀ key', action ≠ .get thread (.start key')) :
    Since config thread key readSeq (actions ++ [action]) t := by
  obtain ⟨more, history, above⟩ := history_more base.numbered fired
  refine ⟨?_, ?_⟩
  · rw [history, newestUpTo_grows fun entry member => lt_of_le_of_lt bound (above entry member)]
    exact since.1.step fired other
  · intro batch member
    rw [history] at member
    rcases List.mem_append.mp member with old | new
    · rcases since.2 batch old with before | published
      · exact .inl before
      · refine .inr fun shown entry found => ?_
        by_cases seen : batch.lastSeq ≤ s.visibleSeq
        · exact (published seen entry found).step fired other
        · rcases visible_or_history fired with same | same
          · omega
          · have value := value_published base same old (Nat.not_le.mp seen) shown found
            rw [← value]
            exact (since.1.step fired other).now
    · right
      intro shown
      obtain ⟨entry, inBatch, last⟩ := batch.exists_lastSeq
      have hidden := above entry (mem_entriesOf.mpr ⟨batch, new, inBatch⟩)
      rcases visible_or_history fired with same | same
      · omega
      · rw [same] at history
        have empty : more = [] := by simpa using history
        rw [empty] at new
        cases new

theorem Since.answer {readSeq : Nat} {answer : Option Entry}
    (since : Since config thread key readSeq actions s)
    (answers : Answers config s.history s.visibleSeq key readSeq answer) :
    Moment config thread key actions s (answer.bind fun entry => entry.value.row?) := by
  rcases answers with same | ⟨missing, ⟨entry, found, delete⟩ | later⟩
  · rw [same, Option.bind_map, Entry.row_comp_persist]
    exact since.1
  · have hidden := since.1
    rw [found, Option.bind_some, EntryValue.row?_delete delete] at hidden
    rw [missing]
    exact hidden
  · obtain ⟨batch, member, after, seen, entry, found, delete⟩ := later
    rcases since.2 batch member with before | published
    · omega
    · have hidden := published seen entry found
      rw [EntryValue.row?_delete delete] at hidden
      rw [missing]
      exact hidden

end Moment

/-- The lookup may see every row of its key that the installed version has. -/
def PinsCurrent (s : System) : Action → Prop
  | .get thread .pin => ∀ key readSeq seen generation,
      s.gets thread = .stamped key readSeq seen generation → s.version.Visible key readSeq
  | _ => True

/-- What the steps of a lookup so far have shown of its key. -/
def Shown (config : Config) (thread : Nat) (actions : List Action) (s : System) : GetPhase → Prop
  | .idle => True
  | .started key readSeq _ => Since config thread key readSeq actions s
  | .missed key readSeq _ => Since config thread key readSeq actions s
  | .uncached key readSeq _ => Since config thread key readSeq actions s
  | .stamped key readSeq _ _ => Since config thread key readSeq actions s
  | .pinned key readSeq _ _ version => Moment config thread key actions s
      ((probeFiles config version key readSeq).bind fun entry => entry.value.row?)
  | .done key _ answer _ =>
    Moment config thread key actions s (answer.bind fun entry => entry.value.row?)

section Shown

variable {config : Config} {thread : Nat} {actions : List Action} {s t : System} {phase : GetPhase}

theorem Shown.lasts {action : Action} (shown : Shown config thread actions s phase)
    (ok : LookupOk config s phase) (base : s.Base config) (fired : step config s action = some t)
    (other : ∀ key, action ≠ .get thread (.start key)) :
    Shown config thread (actions ++ [action]) t phase := by
  cases phase with
  | idle => trivial
  | started key readSeq seen => exact Since.step shown base ok fired other
  | missed | uncached | stamped => exact Since.step shown base ok.1 fired other
  | pinned | done => exact Moment.step shown fired other

theorem Since.start {key : UserKey} (reached : runFrom config actions = some s)
    (fired : Merutable.step config s (.get thread (.start key)) = some t) :
    Since config thread key s.visibleSeq (actions ++ [.get thread (.start key)]) t := by
  have moment := Moment.start reached fired
  change getStep config s thread (.start key) = some t at fired
  cases get_effect fired
  refine ⟨moment, ?_⟩
  intro batch _
  by_cases seen : batch.lastSeq ≤ s.visibleSeq
  · exact .inl seen
  · exact .inr fun published => absurd published seen

/-- The state of a run without a row cache and of its lookups. -/
structure System.Uncached (config : Config) (actions : List Action) (s : System) : Prop where
  reached : runFrom config actions = some s
  base : s.Base config
  tree : s.Tree config
  lookups : s.Lookups config
  cache : s.rowCache = none
  shown : ∀ thread, Shown config thread actions s (s.gets thread)

theorem System.Uncached.moves {move : GetAction} (inv : s.Uncached config actions)
    (current : PinsCurrent s (.get thread move))
    (fired : Merutable.step config s (.get thread move) = some t)
    (moved : GetMove config s move (s.gets thread) phase) :
    Shown config thread (actions ++ [.get thread move]) t phase := by
  have ok := inv.lookups thread
  have shown := inv.shown thread
  by_cases start : ∃ key, move = .start key
  · obtain ⟨key, rfl⟩ := start
    generalize s.gets thread = before at moved
    cases moved
    exact Since.start inv.reached fired
  · have other : ∀ key, Action.get thread move ≠ .get thread (.start key) := by
      rintro key ⟨⟩
      exact start ⟨key, rfl⟩
    generalize held : s.gets thread = before at ok shown moved
    cases moved with
    | start key => exact absurd ⟨key, rfl⟩ start
    | hit found =>
      have answer := shown.1
      rw [inv.tree.hit inv.base found] at answer
      exact answer.step fired other
    | miss absent => exact Since.step shown inv.base ok fired other
    | cached found =>
      rw [inv.cache] at found
      cases found
    | uncached | stamp => exact Shown.lasts shown ok inv.base fired other
    | pin =>
      have answers := inv.tree.answers inv.base ok.2 (current _ _ _ _ held)
      exact (shown.answer answers).step fired other
    | fill => exact Moment.step shown fired other
    | finish => trivial

theorem System.Uncached.step {action : Action} (inv : s.Uncached config actions)
    (keeps : KeepsTree s action) (current : PinsCurrent s action)
    (fired : Merutable.step config s action = some t) :
    t.Uncached config (actions ++ [action]) where
  reached := execute_snoc inv.reached fired
  base := inv.base.step fired
  tree := inv.tree.step inv.base keeps.1 keeps.2 fired
  lookups := inv.lookups.step inv.base inv.tree fired
  cache := by
    obtain ⟨change, cache, _⟩ := cache_move fired
    rw [cache, inv.cache, Option.map_none]
  shown := by
    refine gets_invariant
      (fun thread phase => LookupOk config s phase ∧ Shown config thread actions s phase)
      (fun thread => Shown config thread (actions ++ [action]) t)
      (fun thread => ⟨inv.lookups thread, inv.shown thread⟩) fired ?_ ?_
    · intro thread phase rest held
      exact held.2.lasts held.1 inv.base fired fun key => rest (.start key)
    · rintro thread move phase rfl moved
      exact inv.moves current fired moved

end Shown

/-- Without a row cache, if every drop removes the memtable its flush has written, every version is
installed over the one it was committed on, and every lookup pins a version it may see in full for
its key, then each lookup answers with a value its key had between its start and its return. -/
theorem point_lookup_linearizable (config : Config) (disabled : config.rowCacheCapacity = 0)
    (actions : List Action) (s : System)
    (run : Run (step config) (fun s action => KeepsTree s action ∧ PinsCurrent s action)
      (.initial config) actions s)
    (thread : Nat) (key : UserKey) (seen : List WriteBatch) (answer : Option Entry)
    (fromCache : Bool)
    (returned : s.gets thread = .done key seen answer fromCache) :
    Moment config thread key actions s (answer.bind fun entry => entry.value.row?) := by
  have initially : (System.initial config).Uncached config [] :=
    { reached := rfl
      base := initial_base config
      tree := initial_tree config
      lookups := initial_lookups config
      cache := if_pos disabled
      shown := fun _ => trivial }
  have inv : s.Uncached config ([] ++ actions) :=
    run.past_invariant (fun past s => s.Uncached config past)
      (fun _ _ _ _ inv met fired => inv.step met.1 met.2 fired) initially
  have shown := inv.shown thread
  rw [returned] at shown
  exact shown

section Samples

/-- A put is flushed and a lookup has missed the memtables. -/
def putMissed : List Action :=
  Calls.write [putByte 1 1] ++ Calls.rotate ++ Calls.runFlush ++
    [.get 0 (.start (putByte 1 1).1), .get 0 .memtable, .get 0 .cache, .get 0 .stamp]

def putFound : List Action := putMissed ++ .get 0 .pin :: [.get 0 .fill]

theorem point_lookup_linearizable_flushed :
    let s := final (step .uncached) (.initial .uncached) putFound
    let answer : Option Entry := some ⟨(putByte 1 1).1, 1, (putByte 1 1).2⟩
    s.gets 0 = .done (putByte 1 1).1 [] answer false ∧
      Moment .uncached 0 (putByte 1 1).1 putFound s
        (answer.bind fun entry => entry.value.row?) := by
  intro s answer
  have returned : s.gets 0 = .done (putByte 1 1).1 [] answer false := by decide +kernel
  have pins : Run (step .uncached) PinsCurrent (.initial .uncached) putFound s := by
    refine Run.extend (.of_execute ?_ (execute_final (by decide +kernel))) (by decide +kernel) ?_
      (by simp [PinsCurrent])
    · simp [putMissed, Calls.write, Calls.rotate, Calls.runFlush, PinsCurrent]
    · intro key readSeq seen generation phase
      cases phase
      decide +kernel
  have keeps : Run (step .uncached) KeepsTree (.initial .uncached) putFound s :=
    (keepsTree_of_check (initial_oneJob .uncached) (by decide +kernel)).1
  exact ⟨returned, point_lookup_linearizable .uncached rfl _ _ (keeps.and pins) 0 _ _ _ _ returned⟩

/-- After a put was flushed, a lookup misses the memtables, and before it pins a version the key is
overwritten and flushed again. -/
def overwrittenDuring : List Action :=
  Calls.write [putByte 1 1] ++ Calls.rotate ++ Calls.runFlush ++
    [.get 0 (.start (putByte 1 1).1), .get 0 .memtable, .get 0 .cache, .get 0 .stamp] ++
    Calls.write [putByte 1 2] ++ Calls.rotate ++ Calls.runFlush ++ [.get 0 .pin, .get 0 .fill]

theorem overwrittenDuring_present : ∀ n < overwrittenDuring.length + 1,
    14 < n → ∀ u ∈ runFrom .uncached (overwrittenDuring.take n),
      (u.value (putByte 1 1).1).isSome = true := by
  decide +kernel

/-- The old row is masked and the new one lies above the bound of the lookup: it finds no row
although the key has one all the time. -/
theorem point_lookup_loses_key : ∃ s, runFrom .uncached overwrittenDuring = some s ∧
    s.gets 0 = .done (putByte 1 1).1 [] none false ∧
    ¬ Moment .uncached 0 (putByte 1 1).1 overwrittenDuring s none := by
  refine ⟨_, execute_final (by decide +kernel), by decide +kernel, ?_⟩
  rintro ⟨before, first, second, u, split, reached, _, _, missing⟩
  have started : ∀ i < overwrittenDuring.length,
      overwrittenDuring[i]? = some (.get 0 (.start (putByte 1 1).1)) → 14 ≤ i := by
    decide +kernel
  have length := congrArg List.length split
  simp only [List.length_append, List.length_cons] at length
  have late : 14 ≤ before.length := by
    apply started _ (by omega)
    rw [split]
    simp
  have start : overwrittenDuring.take (before.length + 1 + first.length) =
      before ++ .get 0 (.start (putByte 1 1).1) :: first := by
    rw [split, ← List.cons_append, ← List.append_assoc]
    exact List.take_left' (by simp only [List.length_append, List.length_cons]; omega)
  rw [← start] at reached
  have present := overwrittenDuring_present _ (by omega) (by omega) u reached
  rw [missing] at present
  cases present

end Samples

end Merutable
