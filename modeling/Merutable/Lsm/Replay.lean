import Merutable.Lsm.Durability
import Merutable.Lsm.Exact
import Merutable.Lsm.Map

/-! Operations that follow each other, each flush to its end, as they look to a crash. The files
hold the beginning of the history and the logs its end. Both may hold the same records: the log of a
flush is removed after its commit. -/

namespace Merutable

open Foundation

/-- A write returns before the next one starts, and nothing but its flush starts while a memtable
waits. -/
def Completes (s : System) (action : Action) : Prop :=
  action.starts = true → (action = .flush .pick ∨ s.memtable.immutable = []) ∧
    ∀ records, action = .write (.allocate records) → s.posts = []

/-- The log files of a flush are removed in the order of their numbers: the ones that stay, because
a crash cuts the removal, are the last ones. -/
def RemovesInOrder (s : System) : Action → Prop
  | .flush (.mark failed) => ∀ first ∈ s.wal.closedLogs, first.logNumber ∈ failed →
      ∀ second ∈ s.wal.closedLogs, first.logNumber < second.logNumber → second.logNumber ∈ failed
  | _ => True

/-- At most one memtable waits for its flush and one write for its return. -/
structure System.Completed (s : System) : Prop where
  waiting : ∀ held ∈ s.memtable.immutable, s.memtable.immutable = [held] ∧
    s.memtable.active.batches = [] ∧ s.write = .idle
  rotating : s.rotation = .locked ∨ (∃ nextSeq, s.rotation = .read nextSeq) →
    s.memtable.immutable = []
  posts : s.posts.length ≤ 1
  writing : s.write ≠ .idle → s.posts = []

section Completed

variable {config : Config} {s t : System}

section

variable (inv : s.Completed)
include inv

theorem System.Completed.empty_of_busy (busy : s.write ≠ .idle) :
    s.memtable.immutable = [] := by
  refine List.eq_nil_iff_forall_not_mem.mpr fun held member => ?_
  exact busy (inv.waiting held member).2.2

theorem System.Completed.waiting_batches {held : Memtable} (member : held ∈ s.memtable.immutable) :
    s.memtable.batches = held.batches := by
  obtain ⟨only, empty, _⟩ := inv.waiting held member
  rw [MemtableManager.batches_eq, only, empty, List.flatMap_singleton, List.append_nil]

theorem System.Completed.only_post {index : Nat} {post : PostWrite}
    (found : s.posts[index]? = some post) : s.posts = [post] ∧ index = 0 := by
  have small := inv.posts
  obtain ⟨inside, same⟩ := List.getElem?_eq_some_iff.mp found
  have first : index = 0 := by omega
  obtain ⟨only, single⟩ := List.length_eq_one_iff.mp (by omega : s.posts.length = 1)
  refine ⟨?_, first⟩
  rw [first, single] at found
  injection found with found
  rw [single, found]

theorem write_completed {action : WriteAction} (alone : Alone s (.write action))
    (completes : Completes s (.write action)) (fired : writeStep config s action = some t) :
    t.Completed := by
  have none {held : Memtable} {P : Prop} (empty : s.memtable.immutable = [])
      (member : held ∈ s.memtable.immutable) : P := by
    rw [empty] at member
    cases member
  cases write_effect fired with
  | @allocate records =>
    obtain ⟨empty, posts⟩ := completes rfl
    have empty := empty.resolve_left (by simp)
    exact ⟨fun _ => none empty, inv.rotating, inv.posts, fun _ => posts records rfl⟩
  | append _ phase | apply _ phase =>
    have busy : s.write ≠ .idle := by simp [phase]
    exact ⟨fun _ => none (inv.empty_of_busy busy), inv.rotating, inv.posts, fun _ =>
      inv.writing busy⟩
  | appendFailed => cases alone.1
  | publish _ phase =>
    have busy : s.write ≠ .idle := by simp [phase]
    refine ⟨fun _ => none (inv.empty_of_busy busy), inv.rotating, ?_, by simp⟩
    simp [inv.writing busy]

theorem post_completed {action : PostAction} (fired : postStep s action = some t) :
    t.Completed := by
  have idle {index : Nat} {post : PostWrite} (found : s.posts[index]? = some post) :
      s.write = .idle := by
    by_contra busy
    rw [inv.writing busy] at found
    cases found
  cases post_effect fired with
  | bump _ _ _ found | pop _ _ _ found =>
    exact ⟨inv.waiting, inv.rotating, List.length_set.trans_le inv.posts,
      fun busy => absurd (idle found) busy⟩
  | ret _ _ found =>
    exact ⟨inv.waiting, inv.rotating, (List.eraseIdx_sublist _ _).length_le.trans inv.posts,
      fun busy => absurd (idle found) busy⟩

theorem rotation_completed {action : RotationAction} (solo : ∀ a b, s.Busy a → s.Busy b → a = b)
    (completes : Completes s (.rotate action)) (fired : rotationStep s action = some t) :
    t.Completed := by
  cases rotation_effect fired with
  | lock =>
    have empty := (completes rfl).1.resolve_left (by simp)
    exact ⟨inv.waiting, fun _ => empty, inv.posts, inv.writing⟩
  | readSeq phase => exact ⟨inv.waiting, fun _ => inv.rotating (.inl phase), inv.posts, inv.writing⟩
  | sealActive nextSeq phase =>
    have empty := inv.rotating (.inr ⟨nextSeq, phase⟩)
    have idle := write_idle_of_rotating solo (by simp [phase])
    refine ⟨?_, by simp, inv.posts, inv.writing⟩
    intro held member
    change held ∈ s.memtable.immutable ++ [_] at member
    rw [empty, List.nil_append, List.mem_singleton] at member
    refine ⟨?_, rfl, idle⟩
    change s.memtable.immutable ++ [_] = [held]
    rw [empty, member, List.nil_append]
  | rotateWal => exact ⟨inv.waiting, by simp, inv.posts, inv.writing⟩

end

theorem System.Completed.step {action : Action} (inv : s.Completed)
    (solo : ∀ a b, s.Busy a → s.Busy b → a = b) (alone : Alone s action)
    (completes : Completes s action) (fired : Merutable.step config s action = some t) :
    t.Completed := by
  cases step_effect fired with
  | write fired => exact write_completed inv alone completes fired
  | post fired => exact post_completed inv fired
  | rotate fired => exact rotation_completed inv solo completes fired
  | flush fired =>
    cases flush_effect fired with
    | dropEmpty | drop =>
      refine ⟨?_, ?_, inv.posts, inv.writing⟩
      · intro held member
        obtain ⟨listed, other⟩ := List.mem_filter.mp member
        obtain ⟨only, rest⟩ := inv.waiting held listed
        refine ⟨?_, rest⟩
        change s.memtable.immutable.filter _ = [held]
        rw [only, List.filter_cons, if_pos other, List.filter_nil]
      · intro phase
        change s.memtable.immutable.filter _ = []
        rw [inv.rotating phase, List.filter_nil]
    | _ => exact ⟨inv.waiting, inv.rotating, inv.posts, inv.writing⟩
  | _ => exact ⟨inv.waiting, inv.rotating, inv.posts, inv.writing⟩

end Completed

/-- Every log file but the open one is registered, and a flush that is about to remove logs covers
the numbers of all of them. -/
structure System.LogsCovered (s : System) : Prop where
  files : ∀ number log, s.wal.files number = some log → number = s.wal.logNumber ∨
    ∃ closed ∈ s.wal.closedLogs, closed.logNumber = number
  closed : ∀ log ∈ s.wal.closedLogs, ∀ held ∈ s.memtable.queue, log.maxSeq ≤ held.lastSeq
  current : ∀ held ∈ s.memtable.queue, s.wal.currentLogMaxSeq ≤ held.lastSeq ∨
    ∃ batch, s.write = .appended batch ∧ s.wal.currentLogMaxSeq ≤ batch.lastSeq
  reach : ∀ held ∈ s.memtable.queue, held.lastSeq ≤ s.globalSeq + 1

section LogsCovered

variable {config : Config} {s t : System} {action : FlushAction}

theorem System.LogsCovered.current_le (inv : s.LogsCovered)
    (unwritten : ∀ batch, s.write ≠ .appended batch) {held : Memtable}
    (member : held ∈ s.memtable.queue) : s.wal.currentLogMaxSeq ≤ held.lastSeq :=
  (inv.current held member).resolve_right fun ⟨batch, appended, _⟩ => unwritten batch appended

theorem write_logsCovered {action : WriteAction} (inv : s.LogsCovered) (numbered : s.Numbered)
    (completed : s.Completed) (alone : Alone s (.write action))
    (fired : writeStep config s action = some t) : t.LogsCovered := by
  cases write_effect fired with
  | @allocate records idle =>
    refine ⟨inv.files, inv.closed, fun held member => ?_, fun held member => ?_⟩
    · exact .inl (inv.current_le (by simp [idle]) member)
    · have := inv.reach held member
      change held.lastSeq ≤ s.globalSeq + records.length + 1
      omega
  | append batch phase =>
    refine ⟨?_, inv.closed, ?_, inv.reach⟩
    · intro number log file
      by_cases own : number = s.wal.logNumber
      · exact .inl own
      · exact inv.files number log ((Function.update_of_ne own _ _).symm.trans file)
    · intro held member
      have below := inv.current_le (by simp [phase]) member
      change max _ _ ≤ held.lastSeq ∨ ∃ _, _ ∧ max _ _ ≤ _
      rcases Nat.le_total batch.lastSeq s.wal.currentLogMaxSeq with less | more
      · exact .inl (by rwa [Nat.max_eq_left less])
      · exact .inr ⟨batch, rfl, by rw [Nat.max_eq_right more]⟩
  | appendFailed => cases alone.1
  | apply batch phase =>
    have empty := completed.empty_of_busy (by simp [phase])
    -- The active memtable is the only one.
    have only : ∀ held ∈ (s.memtable.applyBatch config.encodedLen batch).queue,
        held.lastSeq = max s.memtable.active.lastSeq batch.lastSeq := by
      intro held member
      change held ∈ s.memtable.immutable ++ [_] at member
      rw [empty, List.nil_append, List.mem_singleton] at member
      rw [member]
      rfl
    have active : s.memtable.active ∈ s.memtable.queue := by simp [MemtableManager.queue]
    refine ⟨inv.files, ?_, ?_, ?_⟩
    · intro log listed held member
      rw [only held member]
      exact (inv.closed log listed _ active).trans (le_max_left _ _)
    · intro held member
      rw [only held member]
      left
      rcases inv.current _ active with below | ⟨other, same, below⟩
      · exact below.trans (le_max_left _ _)
      · rw [phase] at same
        injection same with same
        rw [← same] at below
        exact below.trans (le_max_right _ _)
    · intro held member
      rw [only held member]
      have := (numbered.coming batch (.inr phase)).2.1
      exact max_le (inv.reach _ active) (this.le.trans (Nat.le_succ _))
  | publish batch phase =>
    exact ⟨inv.files, inv.closed, fun held member =>
      .inl (inv.current_le (by simp [phase]) member), inv.reach⟩

theorem rotation_logsCovered {action : RotationAction} (inv : s.LogsCovered) (lined : s.Lined)
    (solo : ∀ a b, s.Busy a → s.Busy b → a = b) (fired : rotationStep s action = some t) :
    t.LogsCovered := by
  cases rotation_effect fired with
  | sealActive nextSeq phase =>
    have idle := write_idle_of_rotating solo (by simp [phase])
    have next := lined.read nextSeq phase
    have active : s.memtable.active ∈ s.memtable.queue := by simp [MemtableManager.queue]
    have top := inv.reach _ active
    have queue : ∀ held ∈ (s.memtable.rotate nextSeq).queue,
        (∃ old ∈ s.memtable.queue, held.lastSeq = old.lastSeq) ∨
          held.lastSeq = s.globalSeq + 1 := by
      intro held member
      change held ∈ (s.memtable.immutable ++ [_]) ++ [_] at member
      simp only [List.mem_append, List.mem_singleton] at member
      rcases member with (old | rfl) | rfl
      · exact .inl ⟨held, List.mem_append_left _ old, rfl⟩
      · exact .inl ⟨_, active, rfl⟩
      · exact .inr next
    have below {seq : Nat} (bound : ∀ held ∈ s.memtable.queue, seq ≤ held.lastSeq) :
        ∀ held ∈ (s.memtable.rotate nextSeq).queue, seq ≤ held.lastSeq := by
      intro held member
      rcases queue held member with ⟨old, listed, same⟩ | same
      · exact (bound old listed).trans same.ge
      · exact ((bound _ active).trans top).trans same.ge
    refine ⟨inv.files, fun log listed => below (inv.closed log listed), ?_, ?_⟩
    · exact fun held member =>
        .inl (below (fun old listed => inv.current_le (by simp [idle]) listed) held member)
    · intro held member
      rcases queue held member with ⟨old, listed, same⟩ | same
      · exact same.le.trans (inv.reach old listed)
      · exact same.le
  | rotateWal _ idle =>
    refine ⟨?_, ?_, fun held _ => .inl (Nat.zero_le _), inv.reach⟩
    · intro number log file
      by_cases own : number = s.wal.nextLog
      · exact .inl own
      · right
        rcases inv.files number log ((Function.update_of_ne own _ _).symm.trans file) with
          same | ⟨closed, listed, same⟩
        · exact ⟨_, List.mem_append_right _ (List.mem_singleton.mpr rfl), same.symm⟩
        · exact ⟨closed, List.mem_append_left _ listed, same⟩
    · intro log listed held member
      rcases List.mem_append.mp listed with old | new
      · exact inv.closed log old held member
      · rw [List.mem_singleton.mp new]
        exact inv.current_le (by simp [idle]) member
  | _ => exact ⟨inv.files, inv.closed, inv.current, inv.reach⟩

theorem mark_logsCovered {failed : List Nat} (inv : s.LogsCovered)
    (fired : flushStep config s (.mark failed) = some t) : t.LogsCovered := by
  cases flush_effect fired with
  | mark memtable =>
  refine ⟨?_, ?_, inv.current, inv.reach⟩
  · intro number log file
    change (if _ then none else s.wal.files number) = some log at file
    split at file
    · cases file
    · rename_i kept
      refine (inv.files number log file).imp_right ?_
      rintro ⟨closed, listed, same⟩
      refine ⟨closed, ?_, same⟩
      by_cases low : closed.maxSeq ≤ memtable.lastSeq
      · refine List.mem_append_right _ (List.mem_filter.mpr ⟨List.mem_filter.mpr ⟨listed, ?_⟩, ?_⟩)
        · exact decide_eq_true low
        · by_contra removed
          refine kept ⟨closed, List.mem_filter.mpr ⟨listed, decide_eq_true low⟩, same, ?_⟩
          simpa using removed
      · exact List.mem_append_left _ (List.mem_filter.mpr ⟨listed, decide_eq_true low⟩)
  · intro log listed held member
    refine inv.closed log ?_ held member
    rcases List.mem_append.mp listed with kept | returned
    · exact List.mem_of_mem_filter kept
    · exact List.mem_of_mem_filter (List.mem_of_mem_filter returned)

theorem flush_wal (fired : flushStep config s action = some t) :
    t.wal = s.wal ∨ ∃ failed, action = .mark failed := by
  cases flush_effect fired with
  | @mark failed => exact .inr ⟨failed, rfl⟩
  | _ => exact .inl rfl

theorem flush_logsCovered (inv : s.LogsCovered) (fired : flushStep config s action = some t) :
    t.LogsCovered := by
  have queue : ∀ held ∈ t.memtable.queue, held ∈ s.memtable.queue := by
    intro held member
    rcases flush_memtable fired with same | ⟨_, rfl, _⟩
    · rwa [same] at member
    · exact (s.memtable.dropFlushed_queue _).subset member
  rcases flush_wal fired with same | ⟨failed, rfl⟩
  · obtain ⟨_, _, _, _, _, _, _, rfl⟩ := flush_frame fired
    change _ = s.wal at same
    subst same
    exact ⟨inv.files, fun log listed held member => inv.closed log listed held (queue held member),
      fun held member => inv.current held (queue held member),
      fun held member => inv.reach held (queue held member)⟩
  · exact mark_logsCovered inv fired

theorem System.LogsCovered.step {action : Action} (inv : s.LogsCovered) (base : s.Base config)
    (sequential : s.Sequential config) (completed : s.Completed) (alone : Alone s action)
    (fired : Merutable.step config s action = some t) : t.LogsCovered := by
  cases step_effect fired with
  | write fired => exact write_logsCovered inv base.numbered completed alone fired
  | rotate fired => exact rotation_logsCovered inv sequential.lined sequential.solo fired
  | flush fired => exact flush_logsCovered inv fired
  | _ => exact ⟨inv.files, inv.closed, inv.current, inv.reach⟩

end LogsCovered

theorem flatMap_suffix {A B : Type} {items : List A} {kept all : A → List B}
    (own : ∀ item ∈ items, kept item = all item ∨ kept item = [])
    (later : items.Pairwise fun a b => kept a ≠ [] → kept b = all b) :
    items.flatMap kept <:+ items.flatMap all := by
  induction items with
  | nil => exact List.suffix_rfl
  | cons item rest ih =>
    obtain ⟨front, tail⟩ := List.pairwise_cons.mp later
    rw [List.flatMap_cons, List.flatMap_cons]
    by_cases gone : kept item = []
    · have behind := ih (fun other member => own other (List.mem_cons_of_mem _ member)) tail
      rw [gone, List.nil_append]
      exact behind.trans (List.suffix_append _ _)
    · have whole := (own item List.mem_cons_self).resolve_right gone
      rw [whole, List.flatMap_congr fun other member => front other member gone]

theorem System.LogsCovered.mark_suffix {s : System} (inv : s.LogsCovered) (wf : s.wal.Wf)
    {failed : List Nat} (inOrder : RemovesInOrder s (.flush (.mark failed))) {memtable : Memtable}
    (member : memtable ∈ s.memtable.queue) :
    (s.wal.markFlushedSeq memtable.lastSeq failed).logged <:+ s.wal.logged := by
  rw [WalManager.logged_eq, WalManager.logged_eq]
  have kept : ∀ number, ((s.wal.markFlushedSeq memtable.lastSeq failed).files number).getD [] =
      if ∃ log ∈ s.wal.closedLogs, log.logNumber = number ∧ log.logNumber ∉ failed then []
      else (s.wal.files number).getD [] := by
    intro number
    have selected : (∃ log ∈ s.wal.closedLogs.filter fun log => log.maxSeq ≤ memtable.lastSeq,
        log.logNumber = number ∧ log.logNumber ∉ failed) ↔
        ∃ log ∈ s.wal.closedLogs, log.logNumber = number ∧ log.logNumber ∉ failed := by
      constructor
      · rintro ⟨log, listed, rest⟩
        exact ⟨log, List.mem_of_mem_filter listed, rest⟩
      · rintro ⟨log, listed, rest⟩
        have low := decide_eq_true (inv.closed log listed memtable member)
        exact ⟨log, List.mem_filter.mpr ⟨listed, low⟩, rest⟩
    change (if _ then none else s.wal.files number).getD [] = _
    simp only [selected]
    split
    · rfl
    · rfl
  have number : (s.wal.markFlushedSeq memtable.lastSeq failed).logNumber = s.wal.logNumber := rfl
  rw [number]
  refine flatMap_suffix ?_ ?_
  · intro number _
    rw [kept]
    split
    · exact .inr rfl
    · exact .inl rfl
  · refine List.pairwise_lt_range.imp_of_mem fun {a b} _ inRange less nonempty => ?_
    rw [kept] at nonempty ⊢
    refine if_neg ?_
    rintro ⟨second, listed, rfl, removed⟩
    split at nonempty
    · exact nonempty rfl
    · rename_i stays
      cases file : s.wal.files a with
      | none => simp [file] at nonempty
      | some log =>
        rcases inv.files a log file with rfl | ⟨first, closed, rfl⟩
        · have := wf.closed second listed
          omega
        · refine removed (inOrder first closed ?_ second listed less)
          by_contra other
          exact stays ⟨first, closed, rfl, other⟩

/-- The batch that is in the log and not in the memtable. -/
def WritePhase.onlyLogged : WritePhase → List WriteBatch
  | .appended batch => [batch]
  | _ => []

/-- The batch that is in the memtable and not published. -/
def WritePhase.unpublished : WritePhase → List WriteBatch
  | .applied batch => [batch]
  | _ => []

/-- The writes since the open that lookups find or are about to. -/
def System.inEffect (s : System) : List WriteBatch :=
  s.returned ++ s.posts.map PostWrite.batch ++ s.write.unpublished

/-- The batches this step brings into the memtable. -/
def Action.applies (s : System) : Action → List WriteBatch
  | .write .apply => s.write.onlyLogged
  | _ => []

section InEffect

variable {config : Config} {s t : System} {action : Action}

theorem post_inEffect {action : PostAction} (completed : s.Completed)
    (fired : postStep s action = some t) : t.inEffect = s.inEffect := by
  cases post_effect fired with
  | @bump index batch key rest found =>
    have same : (s.posts.set index ⟨batch, key :: rest, true⟩).map PostWrite.batch =
        s.posts.map PostWrite.batch := map_set_of_eq found rfl
    rw [System.inEffect, same]
    rfl
  | @pop index batch key rest found =>
    have same : (s.posts.set index ⟨batch, rest, false⟩).map PostWrite.batch =
        s.posts.map PostWrite.batch := map_set_of_eq found rfl
    rw [System.inEffect, same]
    rfl
  | ret batch bumped found =>
    have only := completed.only_post found
    simp [System.inEffect, only]

theorem inEffect_step (completed : s.Completed) (alone : Alone s action)
    (fired : step config s action = some t) : t.inEffect = s.inEffect ++ action.applies s := by
  cases action with
  | write action =>
    change writeStep config s action = some t at fired
    cases write_effect fired with
    | allocate idle => simp [System.inEffect, Action.applies, WritePhase.unpublished, idle]
    | append _ phase | publish _ phase =>
      simp [System.inEffect, Action.applies, WritePhase.unpublished, phase]
    | appendFailed => cases alone.1
    | apply _ phase =>
      simp [System.inEffect, Action.applies, WritePhase.unpublished, WritePhase.onlyLogged, phase]
  | post action => exact (post_inEffect completed fired).trans (List.append_nil _).symm
  | _ =>
    cases step_effect fired
    exact (List.append_nil _).symm

end InEffect

/-- The memtables hold the records behind `dropped` and the logs those behind `removed`; the files
show the newest records of `stored`, which covers both. -/
structure System.Recorded (config : Config) (s : System)
    (records dropped removed stored : List WriteBatch) : Prop where
  memtables : records = dropped ++ s.memtable.batches
  logs : records ++ s.write.onlyLogged = removed ++ s.wal.logged
  dropped : dropped <+: stored
  removed : removed <+: stored
  within : stored <+: records
  exact : s.catalog.current.toVersion.Exact config (entriesOf stored)
  flushed : s.flush.committed?.isSome = true → stored = records

def System.Recoverable (config : Config) (s : System) (records : List WriteBatch) : Prop :=
  ∃ dropped removed stored, s.Recorded config records dropped removed stored

theorem newest_overlap {first middle last : List WriteBatch} (lower : first <+: middle)
    (upper : middle <+: first ++ last) (key : UserKey) :
    newest Entry.key key (entriesOf (first ++ last)) =
      newest Entry.key key (entriesOf middle ++ entriesOf last) := by
  obtain ⟨part, rfl⟩ := lower
  obtain ⟨rest, rfl⟩ := (List.prefix_append_right_inj first).mp upper
  simp only [entriesOf_append, newest_append]
  cases newest Entry.key key (entriesOf rest) with
  | some entry => rfl
  | none =>
    cases newest Entry.key key (entriesOf part) with
    | some entry => rfl
    | none => rfl

section Recorded

variable {config : Config} {s t : System} {records dropped removed stored : List WriteBatch}
  {memtable : Memtable}

section

variable (inv : s.Recorded config records dropped removed stored)
include inv

theorem System.Recorded.newest_stored {key : UserKey}
    (absent : newest Entry.key key (entriesOf s.memtable.batches) = none) :
    newest Entry.key key (entriesOf records) = newest Entry.key key (entriesOf stored) := by
  have within := inv.within
  rw [inv.memtables] at within ⊢
  rw [newest_overlap inv.dropped within, newest_append, absent, Option.none_or]

theorem write_recorded {action : WriteAction} (solo : ∀ a b, s.Busy a → s.Busy b → a = b)
    (alone : Alone s (.write action)) (fired : writeStep config s action = some t) :
    t.Recorded config (records ++ (Action.write action).applies s) dropped removed stored := by
  cases write_effect fired with
  | allocate idle =>
    have logs := inv.logs
    rw [idle] at logs
    simp only [Action.applies, List.append_nil]
    exact { inv with logs := logs }
  | append batch phase =>
    have logs := inv.logs
    rw [phase] at logs
    simp only [Action.applies, List.append_nil]
    refine { inv with logs := ?_ }
    change records ++ [batch] = removed ++ (s.wal.append batch).logged
    rw [WalManager.append_logged, ← List.append_assoc, ← logs]
    exact congrArg (· ++ [batch]) (List.append_nil records).symm
  | appendFailed => cases alone.1
  | apply batch phase =>
    have logs := inv.logs
    simp only [Action.applies, phase] at logs ⊢
    refine ⟨?_, ?_, inv.dropped, inv.removed, inv.within.trans (List.prefix_append _ _),
      inv.exact, ?_⟩
    · rw [MemtableManager.applyBatch_batches, ← List.append_assoc, ← inv.memtables]
      rfl
    · exact (List.append_nil _).trans logs
    · intro committed
      have flushing : s.Busy .flush := by
        intro idle
        change s.flush.committed?.isSome = true at committed
        rw [idle] at committed
        cases committed
      cases solo .write .flush (by change s.write ≠ .idle; simp [phase]) flushing
  | publish batch phase =>
    have logs := inv.logs
    rw [phase] at logs
    simp only [Action.applies, List.append_nil]
    exact { inv with logs := logs }

theorem rotation_recorded {action : RotationAction} (durable : s.Durable)
    (fired : rotationStep s action = some t) :
    t.Recorded config records dropped removed stored := by
  have batches := rotation_batches fired
  have logged : t.wal.logged = s.wal.logged := by
    cases rotation_effect fired with
    | rotateWal => exact WalManager.rotate_logged durable.wf durable.bounded
    | _ => rfl
  obtain ⟨_, _, _, rfl⟩ := rotation_frame fired
  exact ⟨inv.memtables.trans (by rw [batches]), inv.logs.trans (by rw [logged]), inv.dropped,
    inv.removed, inv.within, inv.exact, inv.flushed⟩

end

theorem System.Completed.flush_batches (inv : s.Completed) (queued : s.Queued)
    (phase : s.flush.memtable? = some memtable) : s.memtable.batches = memtable.batches :=
  inv.waiting_batches (List.mem_of_mem_head? (queued.front memtable phase))

theorem System.Completed.drop_batches (inv : s.Completed) (queued : s.Queued)
    (phase : s.flush.memtable? = some memtable) :
    (s.memtable.dropFlushed memtable.firstSeq).batches = [] := by
  obtain ⟨only, empty, _⟩ :=
    inv.waiting memtable (List.mem_of_mem_head? (queued.front memtable phase))
  rw [MemtableManager.batches_eq]
  change (s.memtable.immutable.filter _).flatMap _ ++ s.memtable.active.batches = []
  rw [only, empty]
  simp

theorem flush_recorded {action : FlushAction}
    (inv : s.Recorded config records dropped removed stored)
    (base : s.Base config) (durable : s.Durable) (sequential : s.Sequential config)
    (completed : s.Completed) (covered : s.LogsCovered)
    (enabled : config.enableFlushDvEmission = true) (alone : Alone s (.flush action))
    (inOrder : RemovesInOrder s (.flush action)) (fired : flushStep config s action = some t) :
    t.Recoverable config records := by
  cases flush_effect fired with
  | dropEmpty memtable phase empty =>
    have picked : s.flush.memtable? = some memtable := by
      rw [phase]
      rfl
    have front := base.front picked
    have none := Memtable.batches_of_iter_nil (base.increasing front) (base.seq_le front) empty
    refine ⟨dropped, removed, stored,
      { inv with memtables := ?_, flushed := by simp [FlushPhase.committed?] }⟩
    rw [inv.memtables, completed.flush_batches base.queued picked, none]
    exact congrArg _ (completed.drop_batches base.queued picked).symm
  | commit =>
    obtain ⟨memtable, phase, exact⟩ := sequential.exact_flush base enabled inv.exact fired
    have held := completed.flush_batches base.queued phase
    have within := inv.within
    rw [inv.memtables, held] at within
    refine ⟨dropped, removed, records, inv.memtables, inv.logs, inv.dropped.trans inv.within,
      inv.removed.trans inv.within, List.prefix_rfl, exact.congr fun key => ?_, fun _ => rfl⟩
    rw [inv.memtables, held]
    exact newest_overlap inv.dropped within key
  | install _ _ phase =>
    exact ⟨dropped, removed, stored,
      { inv with flushed := fun _ => inv.flushed (by rw [phase]; rfl) }⟩
  | mark memtable phase idle =>
    have installed : s.flush.memtable? = some memtable := by
      rw [phase]
      rfl
    have all := inv.flushed (by rw [phase]; rfl)
    obtain ⟨more, logged⟩ := covered.mark_suffix durable.wf inOrder (base.front installed)
    have logs := inv.logs
    rw [← logged, ← List.append_assoc] at logs
    refine ⟨dropped, removed ++ more, stored,
      { inv with logs := logs, removed := ?_, flushed := ?_ }⟩
    · rw [idle] at logs
      rw [all]
      exact ⟨_, logs.symm.trans (List.append_nil _)⟩
    · exact fun _ => all
  | drop memtable phase =>
    have marked : s.flush.memtable? = some memtable := by
      rw [phase]
      rfl
    have all := inv.flushed (by rw [phase]; rfl)
    refine ⟨records, removed, stored, ?_, inv.logs, ?_, inv.removed, inv.within, inv.exact,
      fun _ => all⟩
    · exact ((congrArg _ (completed.drop_batches base.queued marked)).trans
        (List.append_nil _)).symm
    · rw [all]
  | abort => cases alone.1
  | _ => exact ⟨dropped, removed, stored, { inv with flushed := by simp [FlushPhase.committed?] }⟩

theorem System.Recoverable.step {action : Action} (inv : s.Recoverable config records)
    (base : s.Base config) (durable : s.Durable) (sequential : s.Sequential config)
    (completed : s.Completed) (covered : s.LogsCovered)
    (enabled : config.enableFlushDvEmission = true) (alone : Alone s action)
    (inOrder : RemovesInOrder s action) (fired : Merutable.step config s action = some t) :
    t.Recoverable config (records ++ action.applies s) := by
  obtain ⟨dropped, removed, stored, inv⟩ := inv
  cases step_effect fired with
  | write fired => exact ⟨dropped, removed, stored, write_recorded inv sequential.solo alone fired⟩
  | rotate fired =>
    simp only [Action.applies, List.append_nil]
    exact ⟨dropped, removed, stored, rotation_recorded inv durable fired⟩
  | flush fired =>
    simp only [Action.applies, List.append_nil]
    exact flush_recorded inv base durable sequential completed covered enabled alone inOrder fired
  | job fired =>
    have exact := sequential.exact_step base inv.exact (by simp) fired
    simp only [Action.applies, List.append_nil]
    exact ⟨dropped, removed, stored, { inv with exact := exact }⟩
  | _ =>
    simp only [Action.applies, List.append_nil]
    exact ⟨dropped, removed, stored, { inv with }⟩

end Recorded

end Merutable
