import Mathlib.Data.List.Flatten
import Merutable.Engine.Calls

/-! Sequence numbers and the queue of memtables: what holds in every state of every run. -/

namespace Merutable

open Foundation

/-- Sequence numbers are handed out in order, and every record up to `visibleSeq` has been
applied. -/
structure Numbered (globalSeq visibleSeq : Nat) (write : WritePhase) (history : List WriteBatch) :
    Prop where
  bound : globalSeq ≤ seqnumMax
  visible : visibleSeq < globalSeq
  increasing : Increasing history
  below : ∀ batch ∈ history, batch.lastSeq < globalSeq
  published : ∀ batch ∈ history, write = .applied batch ∨ batch.lastSeq ≤ visibleSeq
  coming : ∀ batch, write = .allocated batch ∨ write = .appended batch →
    visibleSeq < batch.sequence ∧ batch.lastSeq < globalSeq ∧
      ∀ earlier ∈ history, earlier.lastSeq < batch.sequence
  applied : ∀ batch, write = .applied batch → visibleSeq < batch.sequence ∧ batch ∈ history

def System.Numbered (s : System) : Prop :=
  Merutable.Numbered s.globalSeq s.visibleSeq s.write s.history

theorem initial_numbered (config : Config) : (System.initial config).Numbered where
  bound := show 1 ≤ seqnumMax by decide
  visible := Nat.zero_lt_one
  increasing := List.Pairwise.nil
  below := by intro batch member; cases member
  published := by intro batch member; cases member
  coming := by intro batch phase; rcases phase with phase | phase <;> cases phase
  applied := by intro batch phase; cases phase

section Numbered

variable {config : Config} {s t : System}

theorem Numbered.idle {globalSeq visibleSeq : Nat} {write : WritePhase} {history : List WriteBatch}
    (inv : Merutable.Numbered globalSeq visibleSeq write history)
    (pending : ∀ batch, write ≠ .applied batch) :
    Merutable.Numbered globalSeq visibleSeq .idle history where
  bound := inv.bound
  visible := inv.visible
  increasing := inv.increasing
  below := inv.below
  published := fun batch member => .inr ((inv.published batch member).resolve_left (pending batch))
  coming := by intro batch phase; rcases phase with phase | phase <;> cases phase
  applied := by intro batch phase; cases phase

theorem write_numbered {action : WriteAction} (inv : s.Numbered)
    (fired : writeStep config s action = some t) : t.Numbered := by
  cases write_effect fired with
  | @allocate records idle room batch first same =>
    have last : batch.lastSeq < s.globalSeq + records.length := by
      have := batch.records_length_pos
      rw [WriteBatch.lastSeq, first, same] at *
      omega
    have visible := inv.visible
    refine ⟨room, ?_, inv.increasing, ?_, ?_, ?_, ?_⟩
    · exact lt_of_lt_of_le visible (Nat.le_add_right _ _)
    · intro earlier member
      exact lt_of_lt_of_le (inv.below earlier member) (Nat.le_add_right _ _)
    · intro earlier member
      have published := inv.published earlier member
      rw [idle] at published
      exact .inr (published.resolve_left (by simp))
    · intro other phase
      have same : batch = other := by simpa using phase
      subst same
      rw [first]
      exact ⟨visible, last, inv.below⟩
    · intro other phase
      cases phase
  | append batch phase =>
    refine ⟨inv.bound, inv.visible, inv.increasing, inv.below, ?_, ?_, ?_⟩
    · intro earlier member
      have published := inv.published earlier member
      rw [phase] at published
      exact .inr (published.resolve_left (by simp))
    · intro other same
      have same : batch = other := by simpa using same
      exact inv.coming other (.inl (same ▸ phase))
    · intro other same
      cases same
  | appendFailed batch phase => exact Numbered.idle inv (by simp [phase])
  | apply batch phase =>
    obtain ⟨after, last, newer⟩ := inv.coming batch (.inr phase)
    refine ⟨inv.bound, inv.visible, ?_, ?_, ?_, ?_, ?_⟩
    · exact List.pairwise_append.mpr ⟨inv.increasing, List.pairwise_singleton _ _, by simpa⟩
    · intro earlier member
      rcases List.mem_append.mp member with before | new
      · exact inv.below earlier before
      · rw [List.mem_singleton.mp new]
        exact last
    · intro earlier member
      rcases List.mem_append.mp member with before | new
      · have published := inv.published earlier before
        rw [phase] at published
        exact .inr (published.resolve_left (by simp))
      · rw [List.mem_singleton.mp new]
        exact .inl rfl
    · intro other same
      rcases same with same | same <;> cases same
    · intro other same
      cases same
      exact ⟨after, List.mem_append_right _ (List.mem_singleton.mpr rfl)⟩
  | publish batch phase =>
    obtain ⟨_, member⟩ := inv.applied batch phase
    have visible := inv.visible
    have below := inv.below batch member
    refine ⟨inv.bound, max_lt visible below, inv.increasing, inv.below, ?_, ?_, ?_⟩
    · intro earlier present
      rcases inv.published earlier present with same | old
      · rw [phase] at same
        cases same
        exact .inr (le_max_right _ _)
      · exact .inr (old.trans (le_max_left _ _))
    · intro other same
      rcases same with same | same <;> cases same
    · intro other same
      cases same

theorem step_numbered {action : Action} (inv : s.Numbered) (fired : step config s action = some t) :
    t.Numbered := by
  cases step_effect fired with
  | write fired => exact write_numbered inv fired
  | _ => exact inv

end Numbered

variable {globalSeq visibleSeq : Nat} {history : List WriteBatch} {write : WritePhase}
  {entry : Entry}

section

variable (inv : Merutable.Numbered globalSeq visibleSeq write history)
  (member : entry ∈ entriesOf history)
include inv member

theorem Numbered.seq_lt : entry.seq < globalSeq := by
  obtain ⟨batch, present, inBatch⟩ := mem_entriesOf.mp member
  exact lt_of_le_of_lt (WriteBatch.seq_bounds inBatch).2 (inv.below batch present)

theorem Numbered.seq_le : entry.seq ≤ seqnumMax :=
  (inv.seq_lt member).le.trans inv.bound

end

/-- The memtable a flush is working on. -/
def FlushPhase.memtable? : FlushPhase → Option Memtable
  | .idle => none
  | .picked memtable => some memtable
  | .resolved memtable _ _ => some memtable
  | .committed memtable _ => some memtable
  | .installed memtable => some memtable
  | .marked memtable => some memtable

/-- The batches of a memtable that is committed and still queued. -/
def FlushPhase.covered : FlushPhase → List WriteBatch
  | .committed memtable _ => memtable.batches
  | .installed memtable => memtable.batches
  | .marked memtable => memtable.batches
  | _ => []

/-- The memtables hold applied batches in write order, and a flush works on the oldest one. -/
structure Queued (memtable : MemtableManager) (flush : FlushPhase) (history : List WriteBatch) :
    Prop where
  held : memtable.batches.Sublist history
  front : ∀ oldest, flush.memtable? = some oldest → memtable.oldestImmutable = some oldest
  ids : (memtable.queue.map Memtable.id).Pairwise (· < ·)
  nextId : ∀ held ∈ memtable.queue, held.id < memtable.nextId

def System.Queued (s : System) : Prop := Merutable.Queued s.memtable s.flush s.history

theorem initial_queued (config : Config) : (System.initial config).Queued where
  held := List.Sublist.refl _
  front := by intro oldest phase; cases phase
  ids := List.pairwise_singleton _ _
  nextId := by
    intro held member
    rw [List.mem_singleton.mp member]
    exact Nat.zero_lt_one

namespace MemtableManager

variable {manager : MemtableManager}

theorem batches_eq (manager : MemtableManager) :
    manager.batches = manager.immutable.flatMap Memtable.batches ++ manager.active.batches := by
  simp [batches, queue]

@[simp] theorem applyBatch_batches (encodedLen : Row → Nat) (batch : WriteBatch) :
    (manager.applyBatch encodedLen batch).batches = manager.batches ++ [batch] := by
  rw [batches_eq, batches_eq, List.append_assoc]
  rfl

@[simp] theorem rotate_batches (newFirstSeq : Nat) :
    (manager.rotate newFirstSeq).batches = manager.batches := by
  simp [batches_eq, rotate, Memtable.new]

theorem dropFlushed_queue (manager : MemtableManager) (firstSeq : Nat) :
    (manager.dropFlushed firstSeq).queue.Sublist manager.queue :=
  List.Sublist.append List.filter_sublist (List.Sublist.refl _)

end MemtableManager

section Queued

variable {config : Config} {s t : System} {held : Memtable} {action : RotationAction}

variable {memtable : MemtableManager} {flush later : FlushPhase} {history : List WriteBatch}

section

variable (inv : Merutable.Queued memtable flush history)
include inv

theorem Queued.of_phase
    (same : ∀ oldest, later.memtable? = some oldest → flush.memtable? = some oldest) :
    Merutable.Queued memtable later history :=
  ⟨inv.held, fun oldest phase => inv.front oldest (same oldest phase), inv.ids, inv.nextId⟩

theorem Queued.eq_of_id {held other : Memtable} (present : held ∈ memtable.queue)
    (member : other ∈ memtable.queue) (same : held.id = other.id) :
    held = other :=
  List.inj_on_of_nodup_map (inv.ids.imp fun less => less.ne) present member same

theorem Queued.active_id (member : held ∈ memtable.immutable) : held.id < memtable.active.id := by
  have ids := inv.ids
  rw [MemtableManager.queue, List.map_append, List.pairwise_append] at ids
  exact ids.2.2 _ (List.mem_map_of_mem member) _ (List.mem_singleton.mpr rfl)

theorem Queued.queue_eq {oldest : Memtable} (phase : flush.memtable? = some oldest) :
    memtable.immutable = oldest :: memtable.immutable.tail :=
  (List.cons_head?_tail (inv.front oldest phase)).symm

theorem Queued.before (increasing : Increasing history) {oldest held : Memtable}
    (phase : flush.memtable? = some oldest) (member : held ∈ memtable.queue)
    (different : held.id ≠ oldest.id) {first second : WriteBatch}
    (inOldest : first ∈ oldest.batches) (inHeld : second ∈ held.batches) :
    first.lastSeq < second.sequence := by
  have ordered : Increasing memtable.batches := increasing.sublist inv.held
  rw [MemtableManager.batches, MemtableManager.queue, inv.queue_eq phase, List.cons_append,
    List.flatMap_cons] at ordered
  rw [MemtableManager.queue, inv.queue_eq phase, List.cons_append] at member
  rcases List.mem_cons.mp member with rfl | later
  · exact absurd rfl different
  · exact (List.pairwise_append.mp ordered).2.2 first inOldest second
      (List.mem_flatMap_of_mem later inHeld)

theorem Queued.memtable_batches (member : held ∈ memtable.queue) : held.batches.Sublist history :=
  (MemtableManager.queue_batches member).trans inv.held

/-- The memtable that is dropped is gone from the queue. -/
theorem Queued.dropped_id {oldest : Memtable} (phase : flush.memtable? = some oldest)
    (member : held ∈ (memtable.dropFlushed oldest.firstSeq).queue) : held.id ≠ oldest.id := by
  have front : oldest ∈ memtable.immutable := List.mem_of_mem_head? (inv.front oldest phase)
  intro same
  rcases List.mem_append.mp member with immutable | active
  · obtain ⟨present, kept⟩ := List.mem_filter.mp immutable
    have equal := inv.eq_of_id (List.mem_append_left _ present) (List.mem_append_left _ front) same
    exact of_decide_eq_true kept (congrArg Memtable.firstSeq equal)
  · rw [List.mem_singleton.mp active] at same
    exact (inv.active_id front).ne same.symm

theorem Queued.dropFlushed (firstSeq : Nat) :
    Merutable.Queued (memtable.dropFlushed firstSeq) .idle history := by
  have queue := memtable.dropFlushed_queue firstSeq
  refine ⟨(queue.flatMap _).trans inv.held, ?_, inv.ids.sublist (queue.map _), ?_⟩
  · intro oldest phase
    cases phase
  · intro held member
    exact inv.nextId held (queue.subset member)

end

theorem write_queued {action : WriteAction} (inv : s.Queued)
    (fired : writeStep config s action = some t) : t.Queued := by
  cases write_effect fired with
  | apply batch =>
    have queue : ((s.memtable.applyBatch config.encodedLen batch).queue.map Memtable.id) =
        s.memtable.queue.map Memtable.id := by
      simp [MemtableManager.queue, MemtableManager.applyBatch, Memtable.applyBatch]
    refine ⟨?_, inv.front, queue ▸ inv.ids, ?_⟩
    · rw [MemtableManager.applyBatch_batches]
      exact inv.held.append (List.Sublist.refl _)
    · intro held member
      have listed := List.mem_map_of_mem (f := Memtable.id) member
      rw [queue] at listed
      obtain ⟨other, present, same⟩ := List.mem_map.mp listed
      rw [← same]
      exact inv.nextId other present
  | _ => exact inv

theorem rotation_queued (inv : s.Queued) (fired : rotationStep s action = some t) : t.Queued := by
  cases rotation_effect fired with
  | sealActive nextSeq =>
    have queue : (s.memtable.rotate nextSeq).queue.map Memtable.id =
        s.memtable.queue.map Memtable.id ++ [s.memtable.nextId] := by
      simp [MemtableManager.queue, MemtableManager.rotate, Memtable.new]
    have bounded : ∀ id ∈ s.memtable.queue.map Memtable.id, id < s.memtable.nextId := by
      intro id member
      obtain ⟨held, present, rfl⟩ := List.mem_map.mp member
      exact inv.nextId held present
    refine ⟨?_, ?_, ?_, ?_⟩
    · rw [MemtableManager.rotate_batches]
      exact inv.held
    · intro oldest phase
      have front := inv.front oldest phase
      unfold MemtableManager.oldestImmutable MemtableManager.rotate at *
      rw [List.head?_append, front]
      rfl
    · rw [queue]
      refine List.pairwise_append.mpr ⟨inv.ids, List.pairwise_singleton _ _, ?_⟩
      intro id member next same
      rw [List.mem_singleton.mp same]
      exact bounded id member
    · intro held member
      have listed := List.mem_map_of_mem (f := Memtable.id) member
      rw [queue] at listed
      rcases List.mem_append.mp listed with before | new
      · exact Nat.lt_succ_of_lt (bounded _ before)
      · rw [List.mem_singleton.mp new]
        exact Nat.lt_succ_self _
  | _ => exact inv

theorem flush_queued {action : FlushAction} (inv : s.Queued)
    (fired : flushStep config s action = some t) : t.Queued := by
  cases flush_effect fired with
  | pick memtable _ oldest =>
    refine ⟨inv.held, ?_, inv.ids, inv.nextId⟩
    intro other phase
    injection phase with same
    rw [← same]
    exact oldest
  | dropEmpty memtable | drop memtable => exact Queued.dropFlushed inv memtable.firstSeq
  | resolve _ _ phase | commit _ _ _ _ _ phase | install _ _ phase | mark _ phase =>
    exact Queued.of_phase inv (by simp [phase, FlushPhase.memtable?])
  | abort => exact Queued.of_phase inv (by simp [FlushPhase.memtable?])

theorem step_queued {action : Action} (inv : s.Queued) (fired : step config s action = some t) :
    t.Queued := by
  cases step_effect fired with
  | write fired => exact write_queued inv fired
  | rotate fired => exact rotation_queued inv fired
  | flush fired => exact flush_queued inv fired
  | _ => exact inv

theorem rotation_batches (fired : rotationStep s action = some t) :
    t.memtable.batches = s.memtable.batches := by
  cases rotation_effect fired with
  | sealActive nextSeq => exact MemtableManager.rotate_batches nextSeq
  | _ => rfl

theorem covered_batches (queued : s.Queued) : s.flush.covered <+: s.memtable.batches := by
  have front : ∀ memtable, s.flush.memtable? = some memtable →
      memtable.batches <+: s.memtable.batches := by
    intro memtable phase
    rw [MemtableManager.batches_eq, queued.queue_eq phase, List.flatMap_cons, List.append_assoc]
    exact List.prefix_append _ _
  cases phase : s.flush with
  | committed memtable | installed memtable | marked memtable =>
    exact front memtable (by rw [phase]; rfl)
  | _ => exact List.nil_prefix

end Queued

/-- Writers in the cache invalidation and writes that returned have been applied. -/
structure Answered (posts : List PostWrite) (returned history : List WriteBatch) : Prop where
  posts : ∀ post ∈ posts, post.batch ∈ history
  returned : ∀ batch ∈ returned, batch ∈ history

def System.Answered (s : System) : Prop := Merutable.Answered s.posts s.returned s.history

theorem initial_answered (config : Config) : (System.initial config).Answered where
  posts := by intro post member; cases member
  returned := by intro batch member; cases member

section Answered

variable {config : Config} {s t : System} {action : Action}

theorem Answered.mono {posts : List PostWrite} {returned history later : List WriteBatch}
    (inv : Merutable.Answered posts returned history) (grows : history ⊆ later) :
    Merutable.Answered posts returned later :=
  ⟨fun post member => grows (inv.posts post member),
    fun batch member => grows (inv.returned batch member)⟩

theorem write_answered {action : WriteAction} (inv : s.Answered) (numbered : s.Numbered)
    (fired : writeStep config s action = some t) : t.Answered := by
  cases write_effect fired with
  | apply => exact Answered.mono inv (List.subset_append_left _ _)
  | publish batch phase =>
    refine ⟨?_, inv.returned⟩
    intro post member
    rcases List.mem_append.mp member with old | new
    · exact inv.posts post old
    · rw [List.mem_singleton.mp new]
      exact (numbered.applied batch phase).2
  | _ => exact inv

theorem post_answered {action : PostAction} (inv : s.Answered)
    (fired : postStep s action = some t) :
    t.Answered := by
  cases post_effect fired with
  | bump _ _ _ found | pop _ _ _ found =>
    refine ⟨?_, inv.returned⟩
    intro post member
    rcases List.mem_or_eq_of_mem_set member with old | rfl
    · exact inv.posts post old
    · have old := inv.posts _ (List.mem_of_getElem? found)
      exact old
  | ret _ _ found =>
    refine ⟨?_, ?_⟩
    · intro post member
      exact inv.posts post (List.mem_of_mem_eraseIdx member)
    · intro batch member
      rcases List.mem_append.mp member with old | new
      · exact inv.returned batch old
      · rw [List.mem_singleton.mp new]
        exact inv.posts _ (List.mem_of_getElem? found)

theorem step_answered (inv : s.Answered) (numbered : s.Numbered)
    (fired : step config s action = some t) : t.Answered := by
  cases step_effect fired with
  | write fired => exact write_answered inv numbered fired
  | post fired => exact post_answered inv fired
  | _ => exact inv

theorem returned_subset (fired : step config s action = some t) :
    s.returned ⊆ t.returned := by
  cases step_effect fired with
  | post fired =>
    cases post_effect fired with
    | ret => exact List.subset_append_left _ _
    | _ => exact List.Subset.refl _
  | _ => exact List.Subset.refl _

end Answered

end Merutable
