import Merutable.Foundation.Runs
import Merutable.Replica

/-! Concurrent calls on one replica. The states of the replica are numbered in the order in which
they were stored, a call works on the state it loaded when it began, and the write lock of a tail
is held while a stream is drained into it. -/

namespace Merutable

open Foundation

/-- The holder of a tail's write lock: what its stream has still to yield. For a rebase, `replaced`
is the visible number the tail had before it was reset. -/
structure TailWriter where
  replaced : Option Nat
  rest : List OpRecord

structure ReplicaState where
  baseSeq : Nat
  tail : ReplicaTail
  writer : Option TailWriter

inductive ReplicaTask where
  | advance (state : Nat)
  | rebase (state : Nat)
  | refreshed (state : Nat)
  | anchored (state newBaseSeq : Nat)
  | hotswap
  | warming (baseSeq : Nat) (tail : ReplicaTail) (rest : List OpRecord)
  | read (state started : Nat)
  | ended

/-- A call of `visible_seq`: how many had returned when it began, and what it returned. -/
structure Observation where
  started : Nat
  value : Nat
  deriving DecidableEq

structure ReplicaSystem where
  log : List OpRecord
  states : List ReplicaState
  live : Nat
  tasks : List ReplicaTask
  observed : List Observation

inductive ReplicaAction where
  | commit (record : OpRecord)
  | advance
  | rebase
  | rebaseHotswap
  | visibleSeq
  | lock (task : Nat)
  | refresh (task : Nat) (result : Option Nat)
  | readBase (task : Nat)
  | openBase (task : Nat) (result : Option Nat)
  | warm (task : Nat)
  | abandon (task : Nat)
  | swap (task : Nat)
  | apply (state : Nat)
  | finish (state : Nat)
  | fail (state : Nat)
  | observe (task : Nat)

/-- A base holds committed operations only, and the log has every one of them. -/
def InLog (log : List OpRecord) (seq : Nat) : Prop := seq = 0 ∨ ∃ record ∈ log, seq ≤ record.seq

instance (log : List OpRecord) (seq : Nat) : Decidable (InLog log seq) :=
  inferInstanceAs (Decidable (_ ∨ _))

namespace ReplicaSystem

/-- `stream`: the records after `since` that are in the log when it is called. -/
def stream (s : ReplicaSystem) (since : Nat) : List OpRecord :=
  s.log.filter fun record => since < record.seq

def setTask (s : ReplicaSystem) (task : Nat) (next : ReplicaTask) : ReplicaSystem :=
  { s with tasks := s.tasks.set task next }

def addTask (s : ReplicaSystem) (task : ReplicaTask) : ReplicaSystem :=
  { s with tasks := s.tasks ++ [task] }

def setState (s : ReplicaSystem) (index : Nat) (next : ReplicaState) : ReplicaSystem :=
  { s with states := s.states.set index next }

/-- The stream of a tail starts once its lock is taken. A rebase first resets the tail. -/
def lock (s : ReplicaSystem) (task : Nat) : Option ReplicaSystem :=
  match s.tasks[task]? with
  | some (.advance index) => do
      let state ← s.states[index]?
      if state.writer.isNone then
        let rest := s.stream state.tail.visibleSeq
        some ((s.setTask task .ended).setState index { state with writer := some ⟨none, rest⟩ })
      else none
  | some (.anchored index newBaseSeq) => do
      let state ← s.states[index]?
      if state.writer.isNone then
        let tail := ReplicaTail.seeded newBaseSeq
        let writer := ⟨some state.tail.visibleSeq, s.stream tail.visibleSeq⟩
        some ((s.setTask task .ended).setState index { state with tail, writer := some writer })
      else none
  | _ => none

def refresh (s : ReplicaSystem) (task : Nat) (result : Option Nat) : Option ReplicaSystem :=
  match s.tasks[task]?, result with
  | some (.rebase _), none => some (s.setTask task .ended)
  | some (.rebase index), some baseSeq => do
      let state ← s.states[index]?
      if InLog s.log baseSeq then
        some ((s.setTask task (.refreshed index)).setState index { state with baseSeq })
      else none
  | _, _ => none

def readBase (s : ReplicaSystem) (task : Nat) : Option ReplicaSystem :=
  match s.tasks[task]? with
  | some (.refreshed index) => do
      let state ← s.states[index]?
      some (s.setTask task (.anchored index state.baseSeq))
  | _ => none

def openBase (s : ReplicaSystem) (task : Nat) (result : Option Nat) : Option ReplicaSystem :=
  match s.tasks[task]?, result with
  | some .hotswap, none => some (s.setTask task .ended)
  | some .hotswap, some baseSeq =>
    let tail := ReplicaTail.seeded baseSeq
    if InLog s.log baseSeq then
      some (s.setTask task (.warming baseSeq tail (s.stream tail.visibleSeq)))
    else none
  | _, _ => none

def warm (s : ReplicaSystem) (task : Nat) : Option ReplicaSystem :=
  match s.tasks[task]? with
  | some (.warming baseSeq tail (record :: rest)) =>
    some (s.setTask task (.warming baseSeq (tail.apply record) rest))
  | _ => none

/-- A stream that breaks, or the deadline, ends a hot swap with the live state untouched. -/
def abandon (s : ReplicaSystem) (task : Nat) : Option ReplicaSystem :=
  match s.tasks[task]? with
  | some (.warming _ _ _) | some .hotswap => some (s.setTask task .ended)
  | _ => none

def swap (s : ReplicaSystem) (task : Nat) : Option ReplicaSystem :=
  match s.tasks[task]? with
  | some (.warming baseSeq tail []) =>
    let s := s.setTask task .ended
    some { s with states := s.states ++ [⟨baseSeq, tail, none⟩], live := s.states.length }
  | _ => none

def apply (s : ReplicaSystem) (index : Nat) : Option ReplicaSystem := do
  let state ← s.states[index]?
  match state.writer with
  | some ⟨replaced, record :: rest⟩ =>
    some (s.setState index
      { state with tail := state.tail.apply record, writer := some ⟨replaced, rest⟩ })
  | _ => none

def finish (s : ReplicaSystem) (index : Nat) : Option ReplicaSystem := do
  let state ← s.states[index]?
  match state.writer with
  | some ⟨_, []⟩ => some (s.setState index { state with writer := none })
  | _ => none

def fail (s : ReplicaSystem) (index : Nat) : Option ReplicaSystem := do
  let state ← s.states[index]?
  match state.writer with
  | some _ => some (s.setState index { state with writer := none })
  | none => none

/-- The read lock is granted only while no call holds the write lock. -/
def observe (s : ReplicaSystem) (task : Nat) : Option ReplicaSystem :=
  match s.tasks[task]? with
  | some (.read index started) => do
      let state ← s.states[index]?
      if state.writer.isNone then
        let s := s.setTask task .ended
        some { s with observed := s.observed ++ [⟨started, state.tail.visibleSeq⟩] }
      else none
  | _ => none

def step (s : ReplicaSystem) : ReplicaAction → Option ReplicaSystem
  | .commit record =>
    if ∀ earlier ∈ s.log, earlier.seq < record.seq then some { s with log := s.log ++ [record] }
    else none
  | .advance => some (s.addTask (.advance s.live))
  | .rebase => some (s.addTask (.rebase s.live))
  | .rebaseHotswap => some (s.addTask .hotswap)
  | .visibleSeq => some (s.addTask (.read s.live s.observed.length))
  | .lock task => s.lock task
  | .refresh task result => s.refresh task result
  | .readBase task => s.readBase task
  | .openBase task result => s.openBase task result
  | .warm task => s.warm task
  | .abandon task => s.abandon task
  | .swap task => s.swap task
  | .apply state => s.apply state
  | .finish state => s.finish state
  | .fail state => s.fail state
  | .observe task => s.observe task

/-- A replica just opened on a base that holds the operations up to `baseSeq`. -/
def opened (log : List OpRecord) (baseSeq : Nat) : ReplicaSystem :=
  ⟨log, [⟨baseSeq, .seeded baseSeq, none⟩], 0, [], []⟩

end ReplicaSystem

/-- No call of `visible_seq` returns less than one that had returned before it began. -/
def NeverDecreases (observed : List Observation) : Prop :=
  ∀ later ∈ observed, ∀ earlier ∈ observed.take later.started, earlier.value ≤ later.value

instance (observed : List Observation) : Decidable (NeverDecreases observed) := by
  unfold NeverDecreases
  infer_instance

/-- The task goes on to take the write lock of the state with this number. -/
def ReplicaTask.Writes (index : Nat) : ReplicaTask → Prop
  | .advance state | .rebase state | .refreshed state | .anchored state _ => state = index
  | .hotswap | .warming _ _ _ | .read _ _ | .ended => False

instance (index : Nat) : DecidablePred (ReplicaTask.Writes index) := fun task => by
  cases task <;> unfold ReplicaTask.Writes <;> infer_instance

/-- The visible number of the tail that a hot swap warms up. -/
def ReplicaSystem.warmed (s : ReplicaSystem) (task : Nat) : Nat :=
  match s.tasks[task]? with
  | some (.warming _ tail _) => tail.visibleSeq
  | _ => 0

/-- The stream of a rebase breaks only after the tail is back at the number it had; a new state is
stored only when its tail has reached the live one and no other call is at work on that. -/
def KeepsVisible (s : ReplicaSystem) : ReplicaAction → Prop
  | .fail index => ∀ state ∈ s.states[index]?, ∀ writer ∈ state.writer,
      ∀ replaced ∈ writer.replaced, replaced ≤ state.tail.visibleSeq
  | .swap task => ∀ state ∈ s.states[s.live]?, state.writer.isNone = true ∧
      (∀ other ∈ s.tasks, ¬ other.Writes s.live) ∧ state.tail.visibleSeq ≤ s.warmed task
  | _ => True

instance (s : ReplicaSystem) : DecidablePred (KeepsVisible s) := fun action => by
  cases action <;> unfold KeepsVisible <;> infer_instance

section Tail

def ReplicaTail.Bounded (tail : ReplicaTail) : Prop :=
  ∀ key entry, tail.index key = some entry → entry.seq ≤ tail.visibleSeq

variable {tail : ReplicaTail} {log more : List OpRecord} {record : OpRecord}

theorem ReplicaTail.Bounded.seeded (baseSeq : Nat) : (ReplicaTail.seeded baseSeq).Bounded := by
  intro key entry held
  rw [(ReplicaTail.seeded_visibleSeq baseSeq).2] at held
  cases held

theorem ReplicaTail.Bounded.apply (bounded : tail.Bounded) (record : OpRecord) :
    (tail.apply record).Bounded ∧ tail.visibleSeq ≤ (tail.apply record).visibleSeq ∧
      record.seq ≤ (tail.apply record).visibleSeq := by
  unfold ReplicaTail.apply
  split
  · rename_i dropped
    obtain ⟨existing, held, older⟩ := Option.any_eq_true _ _ |>.mp dropped
    have := bounded _ _ held
    have := of_decide_eq_true older
    exact ⟨bounded, le_rfl, by omega⟩
  · refine ⟨?_, Nat.le_max_left _ _, Nat.le_max_right _ _⟩
    intro key entry held
    by_cases same : key = record.pk
    · subst same
      simp only [Function.update_self, Option.some.injEq] at held
      subst held
      exact Nat.le_max_right _ _
    · simp only [Function.update_of_ne same] at held
      exact (bounded key entry held).trans (Nat.le_max_left _ _)

theorem InLog.mono (logged : InLog log seq) : InLog (log ++ more) seq := by
  rcases logged with zero | ⟨record, member, le⟩
  · exact .inl zero
  · exact .inr ⟨record, List.mem_append_left _ member, le⟩

theorem ReplicaTail.apply_logged (logged : InLog log tail.visibleSeq) (member : record ∈ log) :
    InLog log (tail.apply record).visibleSeq := by
  unfold ReplicaTail.apply
  split
  · exact logged
  · rcases Nat.le_total tail.visibleSeq record.seq with le | le
    · exact .inr ⟨record, member, by simp [le]⟩
    · simpa [le] using logged

end Tail

/-- The number a reader of the state is sure to find: while a rebase drains, the one it replaced. -/
def ReplicaState.guaranteed (state : ReplicaState) : Nat :=
  match state.writer with
  | some ⟨some replaced, _⟩ => replaced
  | _ => state.tail.visibleSeq

structure ReplicaState.Sound (log : List OpRecord) (state : ReplicaState) : Prop where
  base : InLog log state.baseSeq
  bounded : state.tail.Bounded
  logged : InLog log state.tail.visibleSeq
  rest : ∀ writer ∈ state.writer, ∀ record ∈ writer.rest, record ∈ log
  reaches : ∀ writer ∈ state.writer, ∀ replaced ∈ writer.replaced,
    replaced ≤ state.tail.visibleSeq ∨ ∃ record ∈ writer.rest, replaced ≤ record.seq

def ReplicaTask.Sound (log : List OpRecord) : ReplicaTask → Prop
  | .anchored _ newBaseSeq => InLog log newBaseSeq
  | .warming baseSeq tail rest =>
    InLog log baseSeq ∧ tail.Bounded ∧ InLog log tail.visibleSeq ∧ ∀ record ∈ rest, record ∈ log
  | _ => True

def ReplicaSystem.shown (s : ReplicaSystem) (index : Nat) : Nat :=
  (s.states[index]?.map ReplicaState.guaranteed).getD 0

/-- States that were replaced are at rest and behind the live one; what a reader has seen is
behind the state it is going to read. -/
structure ReplicaSystem.Settled (s : ReplicaSystem) : Prop where
  live : s.live < s.states.length
  sound : ∀ state ∈ s.states, state.Sound s.log
  tasks : ∀ task ∈ s.tasks, task.Sound s.log
  retired : ∀ index state, s.states[index]? = some state → index ≠ s.live →
    state.writer = none ∧ (∀ task ∈ s.tasks, ¬ task.Writes index) ∧ s.shown index ≤ s.shown s.live
  observed : ∀ observation ∈ s.observed, observation.value ≤ s.shown s.live
  readers : ∀ index started, ReplicaTask.read index started ∈ s.tasks →
    started ≤ s.observed.length ∧ index < s.states.length ∧
      ∀ earlier ∈ s.observed.take started, earlier.value ≤ s.shown index
  begun : ∀ observation ∈ s.observed, observation.started ≤ s.observed.length
  order : NeverDecreases s.observed

namespace ReplicaSystem

variable {s t : ReplicaSystem} {id index : Nat} {task old : ReplicaTask} {state next : ReplicaState}
  {result : Option Nat}

theorem Settled.opened {log : List OpRecord} {baseSeq : Nat} (logged : InLog log baseSeq) :
    (ReplicaSystem.opened log baseSeq).Settled where
  live := Nat.zero_lt_one
  sound := by
    intro state member
    cases List.mem_singleton.mp member
    refine ⟨logged, .seeded baseSeq, ?_, nofun, nofun⟩
    rw [(ReplicaTail.seeded_visibleSeq baseSeq).1]
    exact logged
  tasks := nofun
  retired := by
    intro index state found other
    have inside := (List.getElem?_eq_some_iff.mp found).1
    exact absurd (Nat.lt_one_iff.mp inside) other
  observed := nofun
  readers := nofun
  begun := nofun
  order := nofun

theorem Settled.commit {record : OpRecord} (settled : s.Settled) :
    ({ s with log := s.log ++ [record] } : ReplicaSystem).Settled where
  live := settled.live
  sound state member := by
    have sound := settled.sound state member
    exact ⟨sound.base.mono, sound.bounded, sound.logged.mono,
      fun writer held record member => List.mem_append_left _
        (sound.rest writer held record member),
      sound.reaches⟩
  tasks task member := by
    have sound := settled.tasks task member
    cases task with
    | anchored index newBaseSeq => exact InLog.mono sound
    | warming baseSeq tail rest =>
      obtain ⟨base, bounded, logged, rest⟩ := sound
      exact ⟨base.mono, bounded, logged.mono,
        fun record member => List.mem_append_left _ (rest record member)⟩
    | _ => trivial
  retired := settled.retired
  observed := settled.observed
  readers := settled.readers
  begun := settled.begun
  order := settled.order

theorem Settled.withTasks (settled : s.Settled) {tasks : List ReplicaTask}
    (listed : ∀ other ∈ tasks, other ∈ s.tasks ∨ other = task) (sound : task.Sound s.log)
    (writes : ∀ index, task.Writes index → index = s.live ∨ ∃ old ∈ s.tasks, old.Writes index)
    (reads : ∀ index started, task = .read index started →
      index = s.live ∧ started = s.observed.length) : { s with tasks }.Settled where
  live := settled.live
  sound := settled.sound
  tasks other member := by
    rcases listed other member with before | rfl
    · exact settled.tasks other before
    · exact sound
  retired index state found apart := by
    obtain ⟨free, quiet, behind⟩ := settled.retired index state found apart
    refine ⟨free, fun other member written => ?_, behind⟩
    rcases listed other member with before | rfl
    · exact quiet other before written
    · rcases writes index written with live | ⟨old, before, written⟩
      · exact apart live
      · exact quiet old before written
  observed := settled.observed
  readers index started member := by
    rcases listed _ member with before | same
    · exact settled.readers index started before
    · obtain ⟨rfl, rfl⟩ := reads index started same.symm
      refine ⟨le_rfl, settled.live, fun earlier seen => ?_⟩
      exact settled.observed earlier (List.mem_of_mem_take seen)
  begun := settled.begun
  order := settled.order

theorem Settled.setTask (settled : s.Settled) (present : s.tasks[id]? = some old)
    (sound : task.Sound s.log) (writes : ∀ index, task.Writes index → old.Writes index)
    (silent : ∀ index started, task ≠ .read index started) : (s.setTask id task).Settled :=
  settled.withTasks (fun _ member => List.mem_or_eq_of_mem_set member) sound
    (fun index written => .inr ⟨old, List.mem_of_getElem? present, writes index written⟩)
    fun index started same => absurd same (silent index started)

theorem Settled.endTask (settled : s.Settled) (present : s.tasks[id]? = some old) :
    (s.setTask id .ended).Settled :=
  settled.setTask present trivial (fun _ written => written.elim) nofun

theorem Settled.addTask (settled : s.Settled) (sound : task.Sound s.log)
    (writes : ∀ index, task.Writes index → index = s.live)
    (reads : ∀ index started, task = .read index started →
      index = s.live ∧ started = s.observed.length) : (s.addTask task).Settled :=
  settled.withTasks (fun _ member => (List.mem_append.mp member).imp_right List.mem_singleton.mp)
    sound (fun index written => .inl (writes index written)) reads

theorem shown_setState (inside : index < s.states.length) (other : Nat) :
    (s.setState index next).shown other = if index = other then next.guaranteed
      else s.shown other := by
  unfold shown setState
  rw [List.getElem?_set]
  split
  · simp
  · rfl

theorem shown_eq (found : s.states[index]? = some state) : s.shown index = state.guaranteed := by
  rw [shown, found]
  rfl

section

variable (settled : s.Settled) (found : s.states[index]? = some state)
include settled found

theorem Settled.setState (live : index = s.live) (sound : next.Sound s.log)
    (grows : state.guaranteed ≤ next.guaranteed) : (s.setState index next).Settled := by
  subst live
  have inside := settled.live
  have grown : ∀ other, s.shown other ≤ (s.setState s.live next).shown other := by
    intro other
    rw [shown_setState inside]
    split
    · rename_i same
      subst same
      exact (shown_eq found).trans_le grows
    · exact le_rfl
  refine ⟨?_, ?_, settled.tasks, ?_, ?_, ?_, settled.begun, settled.order⟩
  · exact inside.trans_eq List.length_set.symm
  · intro other member
    rcases List.mem_or_eq_of_mem_set member with before | rfl
    · exact settled.sound other before
    · exact sound
  · intro other state' found' apart
    change other ≠ s.live at apart
    have same : s.states[other]? = some state' := by
      rw [← found']
      exact (List.getElem?_set_ne (Ne.symm apart)).symm
    obtain ⟨free, quiet, behind⟩ := settled.retired other state' same apart
    refine ⟨free, quiet, ?_⟩
    rw [shown_setState inside, if_neg (Ne.symm apart)]
    exact behind.trans (grown s.live)
  · exact fun observation member => (settled.observed observation member).trans (grown s.live)
  · intro other started member
    obtain ⟨bound, known, seen⟩ := settled.readers other started member
    refine ⟨bound, known.trans_eq List.length_set.symm, fun earlier before => ?_⟩
    exact (seen earlier before).trans (grown other)

theorem Settled.live_of_writer (held : state.writer ≠ none) : index = s.live := by
  by_contra apart
  exact held (settled.retired index state found apart).1

theorem Settled.live_of_writes (present : s.tasks[id]? = some task) (writes : task.Writes index) :
    index = s.live := by
  by_contra apart
  exact (settled.retired index state found apart).2.1 task (List.mem_of_getElem? present) writes

end

theorem Settled.shown_le (settled : s.Settled) (found : s.states[index]? = some state) :
    s.shown index ≤ s.shown s.live := by
  by_cases live : index = s.live
  · rw [live]
  · exact (settled.retired index state found live).2.2

theorem Settled.lock (settled : s.Settled) (fired : s.lock id = some t) : t.Settled := by
  unfold ReplicaSystem.lock at fired
  split at fired
  · rename_i index present
    obtain ⟨state, found, fired⟩ := Option.bind_eq_some_iff.mp fired
    split at fired <;> cases fired
    rename_i free
    have unlocked := Option.isNone_iff_eq_none.mp free
    have live := settled.live_of_writes found present rfl
    have before := settled.sound state (List.mem_of_getElem? found)
    refine (settled.endTask present).setState found live ?_ ?_
    · refine ⟨before.base, before.bounded, before.logged, ?_, ?_⟩
      · rintro writer ⟨⟩ record member
        exact (List.mem_filter.mp member).1
      · rintro writer ⟨⟩ replaced ⟨⟩
    · simp [ReplicaState.guaranteed, unlocked]
  · rename_i index newBaseSeq present
    obtain ⟨state, found, fired⟩ := Option.bind_eq_some_iff.mp fired
    split at fired <;> cases fired
    rename_i free
    have unlocked := Option.isNone_iff_eq_none.mp free
    have live := settled.live_of_writes found present rfl
    have before := settled.sound state (List.mem_of_getElem? found)
    have anchored := settled.tasks _ (List.mem_of_getElem? present)
    have visible := (ReplicaTail.seeded_visibleSeq newBaseSeq).1
    refine (settled.endTask present).setState found live ?_ ?_
    · refine ⟨before.base, .seeded _, ?_, ?_, ?_⟩
      · rw [visible]
        exact anchored
      · rintro writer ⟨⟩ record member
        exact (List.mem_filter.mp member).1
      · rintro writer ⟨⟩ replaced ⟨⟩
        -- what the tail had reached is in the log, hence in the stream unless it is seeded
        rcases before.logged with zero | ⟨record, member, le⟩
        · exact .inl (by omega)
        · by_cases early : record.seq ≤ (ReplicaTail.seeded newBaseSeq).visibleSeq
          · exact .inl (le.trans early)
          · refine .inr ⟨record, List.mem_filter.mpr ⟨member, ?_⟩, le⟩
            exact decide_eq_true (by omega)
    · simp [ReplicaState.guaranteed, unlocked]
  · cases fired

section

variable (settled : s.Settled)
include settled

theorem Settled.refresh (fired : s.refresh id result = some t) :
    t.Settled := by
  unfold ReplicaSystem.refresh at fired
  split at fired
  · rename_i present
    cases fired
    exact settled.endTask present
  · rename_i index baseSeq present
    obtain ⟨state, found, fired⟩ := Option.bind_eq_some_iff.mp fired
    split at fired <;> cases fired
    rename_i logged
    have live := settled.live_of_writes found present rfl
    have before := settled.sound state (List.mem_of_getElem? found)
    have waiting : (s.setTask id (.refreshed index)).Settled :=
      settled.setTask present trivial (fun _ written => written) nofun
    refine waiting.setState found live ?_ le_rfl
    exact ⟨logged, before.bounded, before.logged, before.rest, before.reaches⟩
  · cases fired

theorem Settled.readBase (fired : s.readBase id = some t) : t.Settled := by
  unfold ReplicaSystem.readBase at fired
  split at fired
  · rename_i index present
    obtain ⟨state, found, fired⟩ := Option.bind_eq_some_iff.mp fired
    cases fired
    exact settled.setTask present (settled.sound state (List.mem_of_getElem? found)).base
      (fun _ written => written) nofun
  · cases fired

theorem Settled.openBase (fired : s.openBase id result = some t) :
    t.Settled := by
  unfold ReplicaSystem.openBase at fired
  split at fired
  · rename_i present
    cases fired
    exact settled.endTask present
  · rename_i baseSeq present
    split at fired <;> cases fired
    rename_i logged
    refine settled.setTask present ⟨logged, .seeded _, ?_, ?_⟩ (fun _ written => written) nofun
    · rw [(ReplicaTail.seeded_visibleSeq baseSeq).1]
      exact logged
    · exact fun record member => (List.mem_filter.mp member).1
  · cases fired

theorem Settled.warm (fired : s.warm id = some t) : t.Settled := by
  unfold ReplicaSystem.warm at fired
  split at fired <;> cases fired
  rename_i baseSeq tail record rest present
  obtain ⟨base, bounded, logged, inLog⟩ := settled.tasks _ (List.mem_of_getElem? present)
  refine settled.setTask present ⟨base, (bounded.apply record).1, ?_, ?_⟩
    (fun _ written => written) nofun
  · exact ReplicaTail.apply_logged logged (inLog record List.mem_cons_self)
  · exact fun other member => inLog other (List.mem_cons_of_mem _ member)

theorem Settled.abandon (fired : s.abandon id = some t) : t.Settled := by
  unfold ReplicaSystem.abandon at fired
  split at fired
  · rename_i present
    cases fired
    exact settled.endTask present
  · rename_i present
    cases fired
    exact settled.endTask present
  · cases fired

end

theorem Settled.apply (settled : s.Settled) (fired : s.apply index = some t) : t.Settled := by
  unfold ReplicaSystem.apply at fired
  obtain ⟨state, found, fired⟩ := Option.bind_eq_some_iff.mp fired
  split at fired <;> cases fired
  rename_i replaced record rest held
  have live := settled.live_of_writer found (by simp [held])
  have before := settled.sound state (List.mem_of_getElem? found)
  have inLog := before.rest _ held
  obtain ⟨bounded, grows, seen⟩ := before.bounded.apply record
  refine settled.setState found live ?_ ?_
  · refine ⟨before.base, bounded, ?_, ?_, ?_⟩
    · exact ReplicaTail.apply_logged before.logged (inLog record List.mem_cons_self)
    · rintro writer ⟨⟩ other member
      exact inLog other (List.mem_cons_of_mem _ member)
    · rintro writer ⟨⟩ number replacedSome
      rcases before.reaches _ held number replacedSome with reached | ⟨other, member, le⟩
      · exact .inl (reached.trans grows)
      · rcases List.mem_cons.mp member with rfl | later
        · exact .inl (le.trans seen)
        · exact .inr ⟨other, later, le⟩
  · cases replaced with
    | none => simpa [ReplicaState.guaranteed, held] using grows
    | some number => simp [ReplicaState.guaranteed, held]

theorem Settled.unlock (settled : s.Settled) (found : s.states[index]? = some state)
    {writer : TailWriter} (held : state.writer = some writer)
    (reached : ∀ replaced ∈ writer.replaced, replaced ≤ state.tail.visibleSeq) :
    (s.setState index { state with writer := none }).Settled := by
  have live := settled.live_of_writer found (by simp [held])
  have before := settled.sound state (List.mem_of_getElem? found)
  refine settled.setState found live ⟨before.base, before.bounded, before.logged, nofun, nofun⟩ ?_
  obtain ⟨replaced, rest⟩ := writer
  cases replaced with
  | none => simp [ReplicaState.guaranteed, held]
  | some number => simpa [ReplicaState.guaranteed, held] using reached number rfl

theorem Settled.finish (settled : s.Settled) (fired : s.finish index = some t) : t.Settled := by
  unfold ReplicaSystem.finish at fired
  obtain ⟨state, found, fired⟩ := Option.bind_eq_some_iff.mp fired
  split at fired <;> cases fired
  rename_i replaced held
  have before := settled.sound state (List.mem_of_getElem? found)
  refine settled.unlock found held fun number replacedSome => ?_
  rcases before.reaches _ held number replacedSome with reached | ⟨_, member, _⟩
  · exact reached
  · cases member

theorem Settled.fail (settled : s.Settled) (met : KeepsVisible s (.fail index))
    (fired : s.fail index = some t) : t.Settled := by
  unfold ReplicaSystem.fail at fired
  obtain ⟨state, found, fired⟩ := Option.bind_eq_some_iff.mp fired
  split at fired <;> cases fired
  rename_i writer held
  exact settled.unlock found held (met state found writer held)

theorem Settled.swap (settled : s.Settled) (met : KeepsVisible s (.swap id))
    (fired : s.swap id = some t) : t.Settled := by
  unfold ReplicaSystem.swap at fired
  split at fired <;> cases fired
  rename_i baseSeq tail present
  obtain ⟨state, found⟩ : ∃ state, s.states[s.live]? = some state :=
    ⟨_, List.getElem?_eq_getElem settled.live⟩
  obtain ⟨free, quiet, caught⟩ := met state found
  simp only [ReplicaSystem.warmed, present] at caught
  have unlocked := Option.isNone_iff_eq_none.mp free
  have ended := settled.endTask present
  obtain ⟨base, bounded, logged, _⟩ := settled.tasks _ (List.mem_of_getElem? present)
  have behind : s.shown s.live ≤ tail.visibleSeq := by
    rw [shown_eq found]
    simpa [ReplicaState.guaranteed, unlocked] using caught
  have kept : ∀ index < s.states.length,
      (s.states ++ [⟨baseSeq, tail, none⟩])[index]? = s.states[index]? := fun index inside =>
    List.getElem?_append_left inside
  have fresh : (s.states ++ [⟨baseSeq, tail, none⟩])[s.states.length]? =
      some ⟨baseSeq, tail, none⟩ := by simp
  refine ⟨?_, ?_, ended.tasks, ?_, ?_, ?_, settled.begun, settled.order⟩
  · simp [ReplicaSystem.setTask]
  · intro other member
    rcases List.mem_append.mp member with before | last
    · exact settled.sound other before
    · cases List.mem_singleton.mp last
      exact ⟨base, bounded, logged, nofun, nofun⟩
  · intro index other found' apart
    have inside : index < s.states.length := by
      have bound := (List.getElem?_eq_some_iff.mp found').1
      rw [List.length_append] at bound
      change index ≠ s.states.length at apart
      change index < s.states.length + 1 at bound
      omega
    have old : s.states[index]? = some other := (kept index inside).symm.trans found'
    have shownOld := settled.shown_le old
    refine ⟨?_, ?_, ?_⟩
    · by_cases live : index = s.live
      · subst live
        rw [found] at old
        cases old
        exact unlocked
      · exact (settled.retired index other old live).1
    · intro task member
      rcases List.mem_or_eq_of_mem_set member with before | rfl
      · by_cases live : index = s.live
        · rw [live]
          exact quiet task before
        · exact (settled.retired index other old live).2.1 task before
      · exact False.elim
    · rw [shown_eq found', shown_eq fresh]
      rw [shown_eq old] at shownOld
      exact shownOld.trans behind
  · intro observation member
    rw [shown_eq fresh]
    exact (settled.observed observation member).trans behind
  · intro index started member
    obtain ⟨bound, known, seen⟩ := ended.readers index started member
    refine ⟨bound, ?_, fun earlier before => (seen earlier before).trans_eq ?_⟩
    · rw [List.length_append]
      exact Nat.lt_add_right _ known
    · exact congrArg (fun found => (found.map ReplicaState.guaranteed).getD 0)
        (kept index known).symm

theorem Settled.observe (settled : s.Settled) (fired : s.observe id = some t) : t.Settled := by
  unfold ReplicaSystem.observe at fired
  split at fired
  · rename_i index started present
    obtain ⟨state, found, fired⟩ := Option.bind_eq_some_iff.mp fired
    split at fired <;> cases fired
    rename_i free
    have unlocked := Option.isNone_iff_eq_none.mp free
    have ended := settled.endTask present
    obtain ⟨bound, _, seen⟩ := settled.readers index started (List.mem_of_getElem? present)
    have value : s.shown index = state.tail.visibleSeq := by
      rw [shown_eq found]
      simp [ReplicaState.guaranteed, unlocked]
    have behind := settled.shown_le found
    rw [value] at behind
    have early : ∀ count ≤ s.observed.length, ∀ last : Observation,
        (s.observed ++ [last]).take count = s.observed.take count :=
      fun count le _ => List.take_append_of_le_length le
    refine ⟨ended.live, ended.sound, ended.tasks, ended.retired, ?_, ?_, ?_, ?_⟩
    · intro observation member
      rcases List.mem_append.mp member with before | last
      · exact settled.observed observation before
      · cases List.mem_singleton.mp last
        exact behind
    · intro other begun member
      obtain ⟨bound', known, seen'⟩ := ended.readers other begun member
      refine ⟨?_, known, fun earlier before => seen' earlier ?_⟩
      · exact bound'.trans (by simp [ReplicaSystem.setTask])
      · exact (early begun bound' _) ▸ before
    · intro observation member
      rw [List.length_append]
      rcases List.mem_append.mp member with before | last
      · exact Nat.le_add_right_of_le (settled.begun observation before)
      · cases List.mem_singleton.mp last
        exact Nat.le_add_right_of_le bound
    · intro later member earlier before
      rcases List.mem_append.mp member with old | last
      · exact settled.order later old earlier ((early _ (settled.begun later old) _) ▸ before)
      · cases List.mem_singleton.mp last
        have known := seen earlier ((early started bound _) ▸ before)
        exact known.trans_eq value
  · cases fired

theorem Settled.step {action : ReplicaAction} (settled : s.Settled) (met : KeepsVisible s action)
    (fired : s.step action = some t) : t.Settled := by
  cases action with
  | commit record =>
    simp only [ReplicaSystem.step] at fired
    split at fired <;> cases fired
    exact settled.commit
  | advance | rebase =>
    cases fired
    exact settled.addTask trivial (fun _ written => written.symm) nofun
  | rebaseHotswap =>
    cases fired
    exact settled.addTask trivial (fun _ written => written.elim) nofun
  | visibleSeq =>
    cases fired
    refine settled.addTask trivial (fun _ written => written.elim) ?_
    rintro index started ⟨⟩
    exact ⟨rfl, rfl⟩
  | lock task => exact settled.lock fired
  | refresh task result => exact settled.refresh fired
  | readBase task => exact settled.readBase fired
  | openBase task result => exact settled.openBase fired
  | warm task => exact settled.warm fired
  | abandon task => exact settled.abandon fired
  | swap task => exact settled.swap met fired
  | apply state => exact settled.apply fired
  | finish state => exact settled.finish fired
  | fail state => exact settled.fail met fired
  | observe task => exact settled.observe fired

end ReplicaSystem

/-- As long as broken rebases leave the tail where it was, and a hot swap stores a state that has
caught up with one nobody works on, readers never see the visible number go down. -/
theorem visible_seq_never_decreases {log : List OpRecord} {baseSeq : Nat} {last : ReplicaSystem}
    {actions : List ReplicaAction} (logged : InLog log baseSeq)
    (run : Run ReplicaSystem.step KeepsVisible (.opened log baseSeq) actions last) :
    NeverDecreases last.observed := by
  have settled := run.invariant ReplicaSystem.Settled
    (fun _ _ _ settled met fired => settled.step met fired) (.opened logged)
  exact settled.order

namespace ReplicaSystem.Sample

def first : OpRecord := ⟨1, .insert, ⟨[]⟩, Replica.Sample.key⟩

def second : OpRecord := ⟨2, .update, ⟨[]⟩, Replica.Sample.key⟩

/-- A rebase whose stream breaks after the tail is back, then a hot swap, with a reader after
each. -/
def caughtUp : List ReplicaAction :=
  [.advance, .lock 0, .apply 0, .finish 0, .visibleSeq, .observe 1,
    .commit second, .rebase, .refresh 2 (some 0), .readBase 2, .lock 2, .apply 0, .fail 0,
    .visibleSeq, .observe 3, .rebaseHotswap, .openBase 4 (some 0), .warm 4, .warm 4, .swap 4,
    .visibleSeq, .observe 5]

/-- A rebase whose stream breaks before it yields a record. -/
def brokenRebase : List ReplicaAction :=
  [.advance, .lock 0, .apply 0, .finish 0, .visibleSeq, .observe 1,
    .rebase, .refresh 2 (some 0), .readBase 2, .lock 2, .fail 0, .visibleSeq, .observe 3]

end ReplicaSystem.Sample

open ReplicaSystem.Sample in
theorem visible_seq_never_decreases_caught_up :
    (final ReplicaSystem.step (.opened [first] 0) caughtUp).observed = [⟨0, 1⟩, ⟨1, 1⟩, ⟨2, 2⟩] ∧
      NeverDecreases (final ReplicaSystem.step (.opened [first] 0) caughtUp).observed :=
  ⟨by decide +kernel, visible_seq_never_decreases (.inl rfl) (.of_decided (by decide +kernel))⟩

open ReplicaSystem.Sample in
/-- The reader saw 1 before the rebase and sees 0 after it has failed. -/
theorem visible_seq_decreases_after_broken_rebase :
    (execute ReplicaSystem.step (.opened [first] 0) brokenRebase).isSome ∧
      (final ReplicaSystem.step (.opened [first] 0) brokenRebase).observed = [⟨0, 1⟩, ⟨1, 0⟩] ∧
      ¬ NeverDecreases (final ReplicaSystem.step (.opened [first] 0) brokenRebase).observed := by
  decide +kernel

end Merutable
