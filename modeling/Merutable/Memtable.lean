import Mathlib.Data.List.Flatten
import Merutable.Foundation.OrderedMap
import Merutable.Wal

/-! The memtable, its skip list and the queue of immutable memtables: `memtable::skiplist`,
`memtable::memtable`, `memtable::iterator` and `memtable::manager`. -/

namespace Merutable

open Foundation

namespace SkipList

/-- Insertion into the ordered map; an equal internal key is replaced. -/
def insert (entry : Entry) (list : List Entry) : List Entry := sortedInsert Entry.ikeyLe entry list

def ofEntries (entries : List Entry) : List Entry :=
  entries.foldl (fun list entry => insert entry list) []

/-- Seek to the first version of the key and walk it to the first visible one. -/
def get (list : List Entry) (key : UserKey) (readSeq : Nat) : Option Entry :=
  ((list.dropWhile fun entry => entry.key < key).takeWhile fun entry => entry.key = key).find?
    fun entry => entry.seq ≤ readSeq

variable {entry : Entry} {entries : List Entry}
  (increasing : entries.Pairwise fun a b => a.seq < b.seq)
include increasing

theorem ofEntries_perm : (ofEntries entries).Perm entries :=
  sortedAll_versions_perm (fun _ _ _ _ => Entry.ikeyLe.versionOrder) increasing

theorem mem_ofEntries : entry ∈ ofEntries entries ↔ entry ∈ entries :=
  (ofEntries_perm increasing).mem_iff

theorem get_eq_newest (key : UserKey) (readSeq : Nat) : get (ofEntries entries) key readSeq =
      newest Entry.key key (entries.filter fun entry => entry.seq ≤ readSeq) := by
  apply Option.ext
  intro entry
  rw [newest_filter_eq_some increasing]
  exact find?_sortedAll (fun _ _ _ _ => Entry.ikeyLe.versionOrder) increasing

end SkipList

/-- A memtable. `id` stands for the identity of the shared pointer; `batches` are the batches
applied so far, and the skip list is what inserting their records leaves. -/
structure Memtable where
  id : Nat
  firstSeq : Nat
  lastSeq : Nat
  sizeBytes : Nat
  sealed : Bool
  batches : List WriteBatch
  deriving DecidableEq

namespace Memtable

def new (id firstSeq : Nat) : Memtable := ⟨id, firstSeq, firstSeq, 0, false, []⟩

def entries (memtable : Memtable) : List Entry := entriesOf memtable.batches

def skiplist (memtable : Memtable) : List Entry := SkipList.ofEntries memtable.entries

/-- Stored bytes of a value; a delete without a pre-image stores none. -/
def valueSize (encodedLen : Row → Nat) : EntryValue → Nat
  | .put row => encodedLen row
  | .delete (some row) => encodedLen row
  | .delete none => 0

def applyBatch (encodedLen : Row → Nat) (memtable : Memtable) (batch : WriteBatch) : Memtable :=
  { memtable with
    lastSeq := max memtable.lastSeq batch.lastSeq
    sizeBytes := memtable.sizeBytes + (batch.records.map fun record =>
      record.1.bytes.length + 8 + valueSize encodedLen record.2 + 64).sum
    batches := memtable.batches ++ [batch] }

def shouldFlush (memtable : Memtable) (flushThreshold : Nat) : Bool :=
  flushThreshold ≤ memtable.sizeBytes

def get (memtable : Memtable) (key : UserKey) (readSeq : Nat) : Option Entry :=
  SkipList.get memtable.skiplist key readSeq

/-- The newest visible version of every key, tombstones included. -/
def iter (memtable : Memtable) (readSeq : Nat) : List Entry :=
  keepFirst Entry.key none (memtable.skiplist.filter fun entry => entry.seq ≤ readSeq)

variable {memtable : Memtable} {readSeq : Nat} {entry : Entry}

theorem get_eq (increasing : Increasing memtable.batches) (key : UserKey) (readSeq : Nat) :
    memtable.get key readSeq =
      newest Entry.key key (memtable.entries.filter fun entry => entry.seq ≤ readSeq) :=
  SkipList.get_eq_newest increasing.entries key readSeq

theorem iter_versionOrder (memtable : Memtable) (readSeq : Nat) :
    (memtable.skiplist.filter fun entry => entry.seq ≤ readSeq).Pairwise
      (VersionOrder Entry.key Entry.seq) :=
  (sortedAll_versions fun _ _ _ _ => Entry.ikeyLe.versionOrder).filter _

theorem iter_ascending (memtable : Memtable) (readSeq : Nat) :
    (memtable.iter readSeq).Pairwise fun a b => a.key < b.key :=
  (keepFirst_ascending (memtable.iter_versionOrder readSeq) (by simp)).1

theorem mem_iter (increasing : Increasing memtable.batches) : entry ∈ memtable.iter readSeq ↔
      newest Entry.key entry.key (memtable.entries.filter fun entry => entry.seq ≤ readSeq) =
        some entry := by
  have written : memtable.entries.Pairwise fun a b => a.seq < b.seq := increasing.entries
  rw [newest_filter_eq_some written]
  exact mem_keepFirst_sortedAll (fun _ _ _ _ => Entry.ikeyLe.versionOrder) written

section

variable (increasing : Increasing memtable.batches)
  (bounded : ∀ entry ∈ memtable.entries, entry.seq ≤ readSeq)
include increasing bounded

theorem mem_iter_all :
    entry ∈ memtable.iter readSeq ↔
      newest Entry.key entry.key memtable.entries = some entry := by
  rw [mem_iter increasing, newest_filter_all bounded]

theorem batches_of_iter_nil (empty : memtable.iter readSeq = []) : memtable.batches = [] := by
  apply List.eq_nil_iff_forall_not_mem.mpr
  intro batch member
  obtain ⟨entry, inBatch, _⟩ := batch.exists_lastSeq
  obtain ⟨top, found⟩ : ∃ top, newest Entry.key entry.key memtable.entries = some top :=
    newest_isSome (mem_entriesOf.mpr ⟨batch, member, inBatch⟩)
  have same := (newest_mem found).2
  have listed := (mem_iter_all increasing bounded).mpr (same ▸ found)
  rw [empty] at listed
  cases listed

end

end Memtable

/-- The active memtable and the immutable ones, oldest first. -/
structure MemtableManager where
  active : Memtable
  immutable : List Memtable
  nextId : Nat
  deriving DecidableEq

namespace MemtableManager

def new (firstSeq : Nat) : MemtableManager := ⟨Memtable.new 0 firstSeq, [], 1⟩

def applyBatch (encodedLen : Row → Nat) (manager : MemtableManager) (batch : WriteBatch) :
    MemtableManager :=
  { manager with active := manager.active.applyBatch encodedLen batch }

/-- Seals the active memtable behind the queue and opens a new one. -/
def rotate (manager : MemtableManager) (newFirstSeq : Nat) : MemtableManager where
  active := Memtable.new manager.nextId newFirstSeq
  immutable := manager.immutable ++ [{ manager.active with sealed := true }]
  nextId := manager.nextId + 1

def dropFlushed (manager : MemtableManager) (firstSeq : Nat) : MemtableManager :=
  { manager with immutable := manager.immutable.filter fun memtable =>
    memtable.firstSeq ≠ firstSeq }

def oldestImmutable (manager : MemtableManager) : Option Memtable := manager.immutable.head?

/-- Every memtable, oldest first. -/
def queue (manager : MemtableManager) : List Memtable := manager.immutable ++ [manager.active]

/-- The active memtable first, then the immutable ones from the newest to the oldest. -/
def get (manager : MemtableManager) (key : UserKey) (readSeq : Nat) : Option Entry :=
  (manager.active :: manager.immutable.reverse).findSome? fun memtable => memtable.get key readSeq

def snapshotEntries (manager : MemtableManager) (readSeq : Nat) : List (List Entry) :=
  (manager.active :: manager.immutable.reverse).map fun memtable => memtable.iter readSeq

/-- The batches held by the memtables, in write order. -/
def batches (manager : MemtableManager) : List WriteBatch := manager.queue.flatMap Memtable.batches

theorem queue_batches {manager : MemtableManager} {memtable : Memtable}
    (member : memtable ∈ manager.queue) :
    memtable.batches.Sublist manager.batches := by
  have inner := (List.singleton_sublist.mpr member).flatMap Memtable.batches
  rwa [List.flatMap_singleton] at inner

end MemtableManager

end Merutable
