import Merutable.Lsm.Tree

/-! What a reader is shown: the newest record of a key up to a sequence number, from the memtables
of one moment and the version of another. -/

namespace Merutable

open Foundation ReadPath

/-- The newest record of the key up to the sequence number. -/
def newestUpTo (batches : List WriteBatch) (readSeq : Nat) (key : UserKey) : Option Entry :=
  newest Entry.key key ((entriesOf batches).filter fun entry => entry.seq ≤ readSeq)

section NewestUpTo

variable {batches more : List WriteBatch} {readSeq : Nat} {key : UserKey} {entry : Entry}

theorem newestUpTo_append : newestUpTo (batches ++ more) readSeq key =
    (newestUpTo more readSeq key).or (newestUpTo batches readSeq key) := by
  rw [newestUpTo, entriesOf_append, List.filter_append, newest_append]
  rfl

theorem newestUpTo_eq_some (increasing : Increasing batches) :
    newestUpTo batches readSeq key = some entry ↔
      entry ∈ entriesOf batches ∧ entry.key = key ∧ entry.seq ≤ readSeq ∧
        ∀ other ∈ entriesOf batches, other.key = key → other.seq ≤ readSeq →
          other.seq ≤ entry.seq :=
  newest_filter_eq_some increasing.entries

theorem newestUpTo_eq_none : newestUpTo batches readSeq key = none ↔
    ∀ entry ∈ entriesOf batches, entry.key = key → readSeq < entry.seq := by
  rw [newestUpTo, newest_eq_none]
  simp only [List.mem_filter, decide_eq_true_eq, and_imp]
  constructor
  · intro absent entry member same
    by_contra bound
    exact absent entry member (Nat.not_lt.mp bound) same
  · intro above entry member bound same
    have := above entry member same
    omega

theorem newestUpTo_all (bounded : ∀ entry ∈ entriesOf batches, entry.seq ≤ readSeq) :
    newestUpTo batches readSeq key = newest Entry.key key (entriesOf batches) :=
  newest_filter_all bounded

theorem newestUpTo_grows (above : ∀ entry ∈ entriesOf more, readSeq < entry.seq) :
    newestUpTo (batches ++ more) readSeq key = newestUpTo batches readSeq key := by
  have nothing : newestUpTo more readSeq key = none :=
    newestUpTo_eq_none.mpr fun entry member _ => above entry member
  rw [newestUpTo_append, nothing, Option.none_or]

end NewestUpTo

variable {manager : MemtableManager}

/-- The memtables are probed from the newest to the oldest, so the first hit is the newest
record. -/
theorem MemtableManager.get_eq (increasing : Increasing manager.batches) (key : UserKey)
    (readSeq : Nat) :
    manager.get key readSeq = newestUpTo manager.batches readSeq key := by
  have each : ∀ memtable ∈ manager.queue, memtable.get key readSeq =
      newestUpTo memtable.batches readSeq key := by
    intro memtable member
    exact Memtable.get_eq (increasing.sublist (queue_batches member)) key readSeq
  have general : ∀ queue : List Memtable, (∀ memtable ∈ queue, memtable.get key readSeq =
      newestUpTo memtable.batches readSeq key) →
      queue.reverse.findSome? (fun memtable => memtable.get key readSeq) =
        newestUpTo (queue.flatMap Memtable.batches) readSeq key := by
    intro queue same
    induction queue with
    | nil => rfl
    | cons memtable rest ih =>
      have first := same memtable List.mem_cons_self
      have others := ih fun other member => same other (List.mem_cons_of_mem _ member)
      rw [List.reverse_cons, List.findSome?_append, others, List.flatMap_cons, newestUpTo_append,
        List.findSome?_singleton, first]
  have reversed : manager.active :: manager.immutable.reverse = manager.queue.reverse := by
    simp [queue]
  rw [get, reversed, general manager.queue each]
  rfl

theorem MemtableManager.mem_of_iter (increasing : Increasing manager.batches) {memtable : Memtable}
    (queued : memtable ∈ manager.queue) {entry : Entry} {readSeq : Nat}
    (listed : entry ∈ memtable.iter readSeq) :
    entry ∈ entriesOf manager.batches ∧ entry.seq ≤ readSeq := by
  have parts := queue_batches queued
  have found := newest_mem ((Memtable.mem_iter (increasing.sublist parts)).mp listed)
  obtain ⟨held, bound⟩ := List.mem_filter.mp found.1
  obtain ⟨batch, inBatches, inBatch⟩ := mem_entriesOf.mp held
  exact ⟨mem_entriesOf.mpr ⟨batch, parts.subset inBatches, inBatch⟩, of_decide_eq_true bound⟩

end Merutable
