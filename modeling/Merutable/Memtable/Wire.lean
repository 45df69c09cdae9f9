import Merutable.Foundation.OrderedMap
import Merutable.Foundation.Traversal
import Merutable.Key.Order
import Merutable.Memtable

/-! Memtables as bytes: `memtable::skiplist`, `memtable::iterator`, `memtable::memtable` and
`memtable::manager` over the encoded internal keys. -/

namespace Merutable

open Foundation

structure StoredValue where
  opType : OpType
  value : Bytes
  deriving DecidableEq

/-- An entry as the memtable iterator yields it. -/
structure MemEntry where
  userKey : Bytes
  seq : Nat
  stored : StoredValue
  deriving DecidableEq

def MemEntry.wire (entry : MemEntry) : Bytes :=
  entry.userKey ++ keyTag entry.seq entry.stored.opType

/-- The entry as the skip list has it. -/
def MemEntry.item (entry : MemEntry) : Bytes × StoredValue := (entry.wire, entry.stored)

def decodeSeqFromKey (ikey : Bytes) : Nat :=
  seqnumMax - ofBe (ikey.drop (ikey.length - 8)) / 2 ^ 8

def userKeyOf (ikey : Bytes) : Bytes := ikey.take (ikey.length - 8)

/-- `MemtableIterator`: the newest visible version of each key. -/
def ByteMemtable.iterate (readSeq : Nat) : Option Bytes → List (Bytes × StoredValue) → List MemEntry
  | _, [] => []
  | lastUserKey, entry :: rest =>
    if readSeq < decodeSeqFromKey entry.1 then iterate readSeq lastUserKey rest
    else if lastUserKey = some (userKeyOf entry.1) then iterate readSeq lastUserKey rest
    else ⟨userKeyOf entry.1, decodeSeqFromKey entry.1, entry.2⟩ ::
      iterate readSeq (some (userKeyOf entry.1)) rest

theorem userKeyOf_tag (userKey : Bytes) (seq : Nat) (op : OpType) :
    userKeyOf (userKey ++ keyTag seq op) = userKey := by
  rw [userKeyOf, List.length_append, keyTag_length, Nat.add_sub_cancel, List.take_left]

theorem decodeSeqFromKey_tag (userKey : Bytes) {seq : Nat} (op : OpType)
    (bounded : seq ≤ seqnumMax) : decodeSeqFromKey (userKey ++ keyTag seq op) = seq := by
  have small : op.byte < 2 ^ 8 := by cases op <;> decide
  rw [decodeSeqFromKey, List.length_append, keyTag_length, Nat.add_sub_cancel, List.drop_left,
    ofBe_keyTag]
  omega

namespace Wire

/-- The tag that lookups seek with: that of a put with the largest sequence number. -/
def seekTag : Bytes := [0, 0, 0, 0, 0, 0, 0, 1]

def buildSeekKey (userKey : Bytes) : Bytes := userKey ++ seekTag

/-- The walk of a lookup from the seek position on. -/
def walk (userKey : Bytes) (readSeq : Nat) : List (Bytes × StoredValue) → Option StoredValue
  | [] => none
  | entry :: rest =>
    if entry.1.length < userKey.length + 8 then none
    else if entry.1.take userKey.length ≠ userKey then none
    else if decodeSeqFromKey entry.1 ≤ readSeq then some entry.2
    else walk userKey readSeq rest

structure BatchRecord where
  opType : OpType
  userKey : Bytes
  value : Option Bytes
  deriving DecidableEq

structure WriteBatch where
  sequence : Nat
  records : List BatchRecord
  deriving DecidableEq

/-- The skip list is the ordered map of its entries. -/
structure Memtable where
  skiplist : List (Bytes × StoredValue)
  firstSeq : Nat
  lastSeq : Nat
  sizeBytes : Nat
  sealed : Bool
  flushThreshold : Nat

namespace Memtable

def new (firstSeq flushThreshold : Nat) : Memtable :=
  ⟨[], firstSeq, firstSeq, 0, false, flushThreshold⟩

def shouldFlush (memtable : Memtable) : Bool := memtable.flushThreshold ≤ memtable.sizeBytes

/-- The loop of `apply_batch`. A number above 56 bits makes the tag underflow. -/
def applyRecords (memtable : Memtable) : Nat → List BatchRecord → Except MeruError Memtable
  | _, [] => .ok memtable
  | seq, record :: rest => do
      okIf (seq ≤ seqnumMax) .panicked
      let value := record.value.getD []
      applyRecords { memtable with
        skiplist := OrderedMap.insert (record.userKey ++ keyTag seq record.opType)
          ⟨record.opType, value⟩ memtable.skiplist
        sizeBytes := memtable.sizeBytes + (record.userKey.length + 8 + value.length + 64)
        lastSeq := max memtable.lastSeq seq } (seq + 1) rest

def applyBatch (memtable : Memtable) (batch : WriteBatch) : Except MeruError (Memtable × Bool) := do
  okIf (memtable.sealed = false) .panicked
  let memtable ← memtable.applyRecords batch.sequence batch.records
  return (memtable, memtable.shouldFlush)

def get (memtable : Memtable) (userKey : Bytes) (readSeq : Nat) : Option StoredValue :=
  walk userKey readSeq (memtable.skiplist.dropWhile fun entry => entry.1 < buildSeekKey userKey)

def iter (memtable : Memtable) (readSeq : Nat) : List MemEntry :=
  ByteMemtable.iterate readSeq none memtable.skiplist

end Memtable

/-- The active memtable and the immutable ones, oldest first. -/
structure Manager where
  active : Memtable
  immutable : List Memtable
  flushThreshold : Nat

namespace Manager

def new (firstSeq flushThreshold : Nat) : Manager :=
  ⟨Memtable.new firstSeq flushThreshold, [], flushThreshold⟩

def applyBatch (manager : Manager) (batch : WriteBatch) : Except MeruError (Manager × Bool) := do
  let (active, crossed) ← manager.active.applyBatch batch
  return ({ manager with active }, crossed)

def rotate (manager : Manager) (newFirstSeq : Nat) : Manager :=
  { manager with
    active := Memtable.new newFirstSeq manager.flushThreshold
    immutable := manager.immutable ++ [{ manager.active with sealed := true }] }

def get (manager : Manager) (userKey : Bytes) (readSeq : Nat) : Option StoredValue :=
  (manager.active.get userKey readSeq).or
    (manager.immutable.reverse.findSome? fun memtable => memtable.get userKey readSeq)

def snapshotEntries (manager : Manager) (readSeq : Nat) : List (List MemEntry) :=
  manager.active.iter readSeq :: manager.immutable.reverse.map fun memtable => memtable.iter readSeq

/-- Every memtable, oldest first. -/
def queue (manager : Manager) : List Memtable := manager.immutable ++ [manager.active]

end Manager

inductive Event where
  | apply (batch : WriteBatch)
  | rotate (newFirstSeq : Nat)

def Manager.run (manager : Manager) : List Event → Except MeruError Manager
  | [] => .ok manager
  | .apply batch :: rest => do
      let (manager, _) ← manager.applyBatch batch
      manager.run rest
  | .rotate newFirstSeq :: rest => (manager.rotate newFirstSeq).run rest

/-- The entries that records write from a sequence number on. -/
def entriesFrom : Nat → List BatchRecord → List MemEntry
  | _, [] => []
  | seq, record :: rest =>
    ⟨record.userKey, seq, ⟨record.opType, record.value.getD []⟩⟩ :: entriesFrom (seq + 1) rest

/-- The entries written to each memtable in turn, `current` being those of the active one so far. -/
def segments (current : List MemEntry) : List Event → List (List MemEntry)
  | [] => [current]
  | .apply batch :: rest => segments (current ++ entriesFrom batch.sequence batch.records) rest
  | .rotate _ :: rest => current :: segments [] rest

/-- The entries that a history writes, in order. -/
def writes (history : List Event) : List MemEntry :=
  history.flatMap fun event =>
    match event with
    | .apply batch => entriesFrom batch.sequence batch.records
    | .rotate _ => []

/-- The entry of an item of the skip list. -/
def entryOf (item : Bytes × StoredValue) : MemEntry :=
  ⟨userKeyOf item.1, decodeSeqFromKey item.1, item.2⟩

theorem iterate_eq (readSeq : Nat) (last : Option Bytes) (items : List (Bytes × StoredValue)) :
    ByteMemtable.iterate readSeq last items =
      keepFirst MemEntry.userKey last ((items.map entryOf).filter fun entry =>
        entry.seq ≤ readSeq) := by
  induction items generalizing last with
  | nil => rfl
  | cons item rest ih =>
    rw [ByteMemtable.iterate, List.map_cons]
    by_cases later : readSeq < decodeSeqFromKey item.1
    · have hidden : ¬ (entryOf item).seq ≤ readSeq := Nat.not_le.mpr later
      rw [if_pos later, List.filter_cons_of_neg (by simpa using hidden), ih]
    · have visible : (entryOf item).seq ≤ readSeq := Nat.not_lt.mp later
      rw [if_neg later, List.filter_cons_of_pos (by simpa using visible)]
      simp only [keepFirst, ih]
      rfl

section Order

variable {keys : Set Bytes} {a b : MemEntry}

section

variable (free : PrefixFree keys) (first : a.userKey ∈ keys) (second : b.userKey ∈ keys)
  (boundFirst : a.seq ≤ seqnumMax) (boundSecond : b.seq ≤ seqnumMax)
include free first second boundFirst boundSecond

theorem compare_wire :
    compare a.wire b.wire = (compare a.userKey b.userKey).then
      ((compare b.seq a.seq).then (a.stored.opType.cmp b.stored.opType)) :=
  ((free.settles first second).append (settles_keyTag boundFirst boundSecond _ _)).compare_eq

theorem wire_lt_iff : a.wire < b.wire ↔ a.userKey < b.userKey ∨ a.userKey = b.userKey ∧
    (b.seq < a.seq ∨ b.seq = a.seq ∧ a.stored.opType.byte < b.stored.opType.byte) := by
  rw [← compare_eq_lt, compare_wire free first second boundFirst boundSecond, Ordering.then_eq_lt,
    compare_eq_lt, Ordering.then_eq_lt, Nat.compare_eq_lt, Nat.compare_eq_eq, OpType.cmp,
    Nat.compare_eq_lt, Std.LawfulEqOrd.compare_eq_iff_eq]

theorem versionOrder_of_wire (le : a.wire ≤ b.wire) :
    VersionOrder MemEntry.userKey MemEntry.seq a b := by
  have order := wire_lt_iff free second first boundSecond boundFirst
  rcases lt_trichotomy a.userKey b.userKey with below | same | above
  · exact .inl below
  · refine .inr ⟨same, not_lt.mp fun newer => ?_⟩
    exact absurd (order.mpr (.inr ⟨same.symm, .inl newer⟩)) (not_lt.mpr le)
  · exact absurd (order.mpr (.inl above)) (not_lt.mpr le)

end

theorem wire_lt_seek_iff {userKey : Bytes} (free : PrefixFree keys) (first : a.userKey ∈ keys)
    (second : userKey ∈ keys) (bound : a.seq < seqnumMax) :
    a.wire < buildSeekKey userKey ↔ a.userKey < userKey := by
  have tag : seekTag = keyTag seqnumMax .put := by decide
  have seek : buildSeekKey userKey = MemEntry.wire ⟨userKey, seqnumMax, ⟨.put, []⟩⟩ :=
    congrArg (userKey ++ ·) tag
  rw [seek, ← compare_eq_lt, compare_wire free first second bound.le le_rfl, Ordering.then_eq_lt,
    compare_eq_lt, Nat.compare_eq_gt.mpr bound]
  simp

end Order

section Contents

variable {keys : Set Bytes} {memtable : Memtable} {entries : List MemEntry} {userKey : Bytes}
  {readSeq : Nat} {parts : List (List MemEntry)} {tables : List Memtable}

/-- The entry was given a real sequence number and a key of the set. -/
structure Accepted (keys : Set Bytes) (entry : MemEntry) : Prop where
  key : entry.userKey ∈ keys
  seq : entry.seq < seqnumMax

theorem entryOf_wire {entry : MemEntry} (bound : entry.seq ≤ seqnumMax) :
    entryOf (entry.wire, entry.stored) = entry := by
  rw [entryOf, MemEntry.wire, userKeyOf_tag, decodeSeqFromKey_tag _ _ bound]

section

variable (free : PrefixFree keys) (known : userKey ∈ keys)
  (accepted : ∀ entry ∈ entries, Accepted keys entry)
include free known accepted

theorem walk_eq :
    walk userKey readSeq (entries.map MemEntry.item) =
      ((entries.takeWhile fun entry => entry.userKey = userKey).find?
        fun entry => entry.seq ≤ readSeq).map MemEntry.stored := by
  induction entries with
  | nil => rfl
  | cons entry rest ih =>
    have here := accepted entry List.mem_cons_self
    have later := ih fun entry member => accepted entry (List.mem_cons_of_mem _ member)
    have length : entry.wire.length = entry.userKey.length + 8 := by
      rw [MemEntry.wire, List.length_append, keyTag_length]
    simp only [List.map_cons, MemEntry.item, walk]
    by_cases same : entry.userKey = userKey
    · have front : entry.wire.take userKey.length = userKey := by
        rw [MemEntry.wire, same, List.take_left]
      have decoded : decodeSeqFromKey entry.wire = entry.seq :=
        decodeSeqFromKey_tag _ _ here.seq.le
      have enough : ¬ entry.wire.length < userKey.length + 8 := by
        rw [length, same]
        omega
      rw [if_neg enough, if_neg (not_not.mpr front), decoded]
      by_cases visible : entry.seq ≤ readSeq
      · simp [same, visible]
      · rw [if_neg visible, later]
        simp [same, visible]
    · -- A shorter wire key, or one that starts with the key looked up, would make one of the two
      -- user keys a prefix of the other.
      have ended : (if entry.wire.length < userKey.length + 8 then none
          else if entry.wire.take userKey.length ≠ userKey then none
          else if decodeSeqFromKey entry.wire ≤ readSeq then some entry.stored
          else walk userKey readSeq (rest.map MemEntry.item)) = none := by
        split
        · rfl
        · rename_i long
          have differs : entry.wire.take userKey.length ≠ userKey := by
            intro front
            have shorter : userKey.length ≤ entry.userKey.length := by omega
            rw [MemEntry.wire, List.take_append_of_le_length shorter] at front
            have before : userKey <+: entry.userKey := front ▸ List.take_prefix _ _
            exact same (free _ known _ here.key before).symm
          rw [if_pos differs]
      rw [ended, List.takeWhile_cons_of_neg (by simpa using same)]
      rfl

theorem dropWhile_wire :
    (entries.map MemEntry.item).dropWhile
        (fun item => item.1 < buildSeekKey userKey) =
      (entries.dropWhile fun entry => entry.userKey < userKey).map MemEntry.item := by
  induction entries with
  | nil => rfl
  | cons entry rest ih =>
    have here := accepted entry List.mem_cons_self
    have later := ih fun entry member => accepted entry (List.mem_cons_of_mem _ member)
    have below := wire_lt_seek_iff free here.key known here.seq
    rw [List.map_cons, List.dropWhile_cons, List.dropWhile_cons]
    simp only [MemEntry.item, below, later]
    split
    · rfl
    · rfl

end

/-- The order of the skip list. -/
def wireLe (a b : MemEntry) : Prop := a.wire ≤ b.wire

instance : DecidableRel wireLe := fun a b => inferInstanceAs (Decidable (a.wire ≤ b.wire))

instance : Std.Total wireLe := ⟨fun a b => le_total a.wire b.wire⟩

instance : IsTrans MemEntry wireLe := ⟨fun _ _ _ => le_trans⟩

/-- The skip list is what inserting the entries leaves. -/
def Memtable.Holds (memtable : Memtable) (entries : List MemEntry) : Prop :=
  memtable.skiplist = (sortedAll wireLe entries).map MemEntry.item

namespace Memtable.Holds

section

variable (holds : memtable.Holds entries)
  (accepted : ∀ entry ∈ entries, Accepted keys entry)
include holds accepted

theorem get_eq (free : PrefixFree keys) (present : userKey ∈ keys) :
    memtable.get userKey readSeq = ((((sortedAll wireLe entries).dropWhile
      fun entry => entry.userKey < userKey).takeWhile fun entry => entry.userKey = userKey).find?
        fun entry => entry.seq ≤ readSeq).map MemEntry.stored := by
  have known : ∀ entry ∈ sortedAll wireLe entries, Accepted keys entry := fun entry member =>
    accepted entry (mem_of_mem_sortedAll member)
  rw [Memtable.get, holds, dropWhile_wire free present known]
  exact walk_eq free present fun entry member =>
    known entry ((List.dropWhile_sublist _).subset member)

theorem iter_eq : memtable.iter readSeq = keepFirst MemEntry.userKey none
    ((sortedAll wireLe entries).filter fun entry => entry.seq ≤ readSeq) := by
  have listed : memtable.skiplist.map entryOf = sortedAll wireLe entries := by
    rw [holds, List.map_map]
    refine (List.map_congr_left fun entry member => ?_).trans (List.map_id _)
    exact entryOf_wire (accepted entry (mem_of_mem_sortedAll member)).seq.le
  rw [Memtable.iter, iterate_eq, listed]

end

variable (accepted : ∀ entry ∈ entries, Accepted keys entry) (free : PrefixFree keys)
include accepted free

theorem ordered : ∀ a ∈ entries, ∀ b ∈ entries, wireLe a b →
    VersionOrder MemEntry.userKey MemEntry.seq a b :=
  fun a first b second => versionOrder_of_wire free (accepted a first).key (accepted b second).key
    (accepted a first).seq.le (accepted b second).seq.le

variable (holds : memtable.Holds entries)
include holds

theorem iter_ascending : (memtable.iter readSeq).Pairwise fun a b => a.userKey < b.userKey := by
  rw [holds.iter_eq accepted]
  exact (keepFirst_ascending ((sortedAll_versions (ordered accepted free)).filter _) (by simp)).1

variable (increasing : entries.Pairwise fun a b => a.seq < b.seq)
include increasing

theorem get_iff (present : userKey ∈ keys) (value : StoredValue) :
    memtable.get userKey readSeq = some value ↔ ∃ entry,
      Latest MemEntry.userKey MemEntry.seq entries userKey readSeq entry ∧
        entry.stored = value := by
  rw [holds.get_eq accepted free present, Option.map_eq_some_iff]
  simp only [← find?_sortedAll (ordered accepted free) increasing]
  congr!

theorem mem_iter (entry : MemEntry) : entry ∈ memtable.iter readSeq ↔
    Latest MemEntry.userKey MemEntry.seq entries entry.userKey readSeq entry := by
  rw [holds.iter_eq accepted]
  exact mem_keepFirst_sortedAll (ordered accepted free) increasing

end Memtable.Holds

theorem Memtable.Holds.insert {entry : MemEntry} (holds : memtable.Holds entries) {next : Memtable}
    (inserted : next.skiplist = OrderedMap.insert entry.wire entry.stored memtable.skiplist) :
    next.Holds (entries ++ [entry]) := by
  have items : ((sortedInsert wireLe entry (sortedAll wireLe entries)).map MemEntry.item) =
      OrderedMap.insert entry.wire entry.stored ((sortedAll wireLe entries).map MemEntry.item) :=
    map_sortedInsert (fun a b : Bytes × StoredValue => a.1 ≤ b.1) fun _ _ => ⟨.rfl, .rfl⟩
  rw [Memtable.Holds, inserted, holds, sortedAll_concat, items]

theorem Memtable.Holds.applyRecords {records : List BatchRecord} {seq : Nat}
    (holds : memtable.Holds entries)
    (bounded : ∀ entry ∈ entriesFrom seq records, entry.seq ≤ seqnumMax) :
    ∃ next, memtable.applyRecords seq records = .ok next ∧ next.sealed = memtable.sealed ∧
      next.Holds (entries ++ entriesFrom seq records) := by
  induction records generalizing memtable entries seq with
  | nil =>
    rw [entriesFrom, List.append_nil]
    exact ⟨memtable, rfl, rfl, holds⟩
  | cons record rest ih =>
    obtain ⟨here, later⟩ := List.forall_mem_cons.mp bounded
    have passes : okIf (seq ≤ seqnumMax) .panicked = .ok () := okIf_eq_ok.mpr here
    rw [entriesFrom, List.append_cons, Memtable.applyRecords, passes, Except.bind_ok]
    exact ih (holds.insert rfl) later

theorem segments_flatten (current : List MemEntry) (history : List Event) :
    (segments current history).flatten = current ++ writes history := by
  induction history generalizing current with
  | nil => simp [segments, writes]
  | cons event rest ih =>
    cases event with
    | apply batch => simp only [segments, ih, writes, List.flatMap_cons, List.append_assoc]
    | rotate newFirstSeq => simp [segments, ih, writes]

theorem Manager.applyBatch_holds {manager : Manager} {batch : WriteBatch}
    (active : manager.active.Holds entries) (unsealed : manager.active.sealed = false)
    (bounded : ∀ entry ∈ entriesFrom batch.sequence batch.records, entry.seq ≤ seqnumMax) :
    ∃ next, manager.applyBatch batch = .ok ({ manager with active := next }, next.shouldFlush) ∧
      next.Holds (entries ++ entriesFrom batch.sequence batch.records) ∧ next.sealed = false := by
  obtain ⟨next, applied, stays, holds⟩ := active.applyRecords bounded
  refine ⟨next, ?_, holds, stays.trans unsealed⟩
  simp [Manager.applyBatch, Memtable.applyBatch, unsealed, applied, okIf, Except.bind_ok, pure,
    Except.pure]

/-- A history with real sequence numbers runs to its end, and every memtable holds what was written
to it. -/
theorem Manager.run_holds {manager : Manager} {closed : List (List MemEntry)}
    {current : List MemEntry} {history : List Event}
    (immutable : List.Forall₂ Memtable.Holds manager.immutable closed)
    (active : manager.active.Holds current) (unsealed : manager.active.sealed = false)
    (bounded : ∀ entry ∈ writes history, entry.seq ≤ seqnumMax) :
    ∃ final, manager.run history = .ok final ∧
      List.Forall₂ Memtable.Holds final.queue (closed ++ segments current history) := by
  induction history generalizing manager closed current with
  | nil => exact ⟨manager, rfl, List.rel_append immutable (.cons active .nil)⟩
  | cons event rest ih =>
    rw [writes, List.flatMap_cons, List.forall_mem_append] at bounded
    cases event with
    | apply batch =>
      obtain ⟨next, returned, holds, stays⟩ := applyBatch_holds active unsealed bounded.1
      rw [Manager.run, returned]
      exact @ih { manager with active := next } closed _ immutable holds stays bounded.2
    | rotate newFirstSeq =>
      have filed : List.Forall₂ Memtable.Holds (manager.rotate newFirstSeq).immutable
          (closed ++ [current]) := List.rel_append immutable (.cons active .nil)
      obtain ⟨final, ran, holds⟩ := @ih _ _ [] filed rfl rfl bounded.2
      refine ⟨final, ran, ?_⟩
      rwa [List.append_assoc] at holds

/-- The answer is the value of the latest visible entry of the key; there is none without one. -/
def Reads (answer : Option StoredValue) (entries : List MemEntry) (userKey : Bytes)
    (readSeq : Nat) : Prop :=
  ∀ value, answer = some value ↔ ∃ entry,
    Latest MemEntry.userKey MemEntry.seq entries userKey readSeq entry ∧ entry.stored = value

theorem reads_iff {answer : Option StoredValue}
    (increasing : entries.Pairwise fun a b => a.seq < b.seq) :
    Reads answer entries userKey readSeq ↔ answer = (newest MemEntry.userKey userKey
      (entries.filter fun entry => entry.seq ≤ readSeq)).map MemEntry.stored := by
  simp only [Reads, ← newest_filter_eq_some increasing, ← Option.map_eq_some_iff]
  exact Option.ext_iff.symm

theorem Reads.append {old new : Option StoredValue} {items later : List MemEntry}
    (increasing : (items ++ later).Pairwise fun a b => a.seq < b.seq)
    (newer : Reads new later userKey readSeq) (older : Reads old items userKey readSeq) :
    Reads (new.or old) (items ++ later) userKey readSeq := by
  obtain ⟨early, recent, _⟩ := List.pairwise_append.mp increasing
  rw [reads_iff increasing, (reads_iff recent).mp newer, (reads_iff early).mp older,
    List.filter_append, newest_append, Option.map_or]

/-- What `snapshot_entries` lists for a memtable: its keys in order, each with its latest visible
entry. -/
def Lists (readSeq : Nat) (listed entries : List MemEntry) : Prop :=
  (listed.Pairwise fun a b => a.userKey < b.userKey) ∧
    ∀ entry, entry ∈ listed ↔
      Latest MemEntry.userKey MemEntry.seq entries entry.userKey readSeq entry

theorem Manager.get_eq_queue (manager : Manager) : manager.get userKey readSeq =
    manager.queue.reverse.findSome? fun memtable => memtable.get userKey readSeq := by
  rw [Manager.get, Manager.queue, List.reverse_append, List.reverse_singleton,
    List.singleton_append, List.findSome?_cons]
  cases manager.active.get userKey readSeq <;> rfl

theorem Manager.snapshotEntries_eq_queue (manager : Manager) : manager.snapshotEntries readSeq =
    manager.queue.reverse.map fun memtable => memtable.iter readSeq := by
  rw [Manager.snapshotEntries, Manager.queue, List.reverse_append, List.reverse_singleton,
    List.singleton_append, List.map_cons]

section

variable (free : PrefixFree keys) (holds : List.Forall₂ Memtable.Holds tables parts)
  (accepted : ∀ entry ∈ parts.flatten, Accepted keys entry)
  (increasing : parts.flatten.Pairwise fun a b => a.seq < b.seq)
include free holds accepted increasing

theorem reads_queue (present : userKey ∈ keys) :
    Reads (tables.reverse.findSome? fun memtable => memtable.get userKey readSeq) parts.flatten
      userKey readSeq := by
  induction holds with
  | nil =>
    intro value
    simp [Latest]
  | cons table rest ih =>
    rename_i memtable part tables parts
    rw [List.flatten_cons] at accepted increasing ⊢
    have older := ih (fun entry member => accepted entry (List.mem_append_right _ member))
      (List.pairwise_append.mp increasing).2.1
    have here : Reads (memtable.get userKey readSeq) part userKey readSeq :=
      table.get_iff (fun entry member => accepted entry (List.mem_append_left _ member)) free
        (List.pairwise_append.mp increasing).1 present
    have step := Reads.append increasing older here
    rw [List.reverse_cons, List.findSome?_append]
    simpa using step

theorem lists_queue :
    List.Forall₂ (Lists readSeq) (tables.map fun memtable => memtable.iter readSeq) parts := by
  induction holds with
  | nil => exact .nil
  | cons table rest ih =>
    rw [List.flatten_cons] at accepted increasing
    have here := fun entry member => accepted entry (List.mem_append_left _ member)
    refine .cons ⟨table.iter_ascending here free, table.mem_iter here free
      (List.pairwise_append.mp increasing).1⟩ ?_
    exact ih (fun entry member => accepted entry (List.mem_append_right _ member))
      (List.pairwise_append.mp increasing).2.1

end

/-- Batches with increasing sequence numbers below the reserved one are read back as a map with
versions, whatever the rotations. -/
theorem memtable_reads_latest {history : List Event} (free : PrefixFree keys)
    (accepted : ∀ entry ∈ writes history, Accepted keys entry)
    (increasing : (writes history).Pairwise fun a b => a.seq < b.seq)
    (firstSeq flushThreshold : Nat) :
    ∃ manager, (Manager.new firstSeq flushThreshold).run history = .ok manager ∧
      (∀ userKey ∈ keys, ∀ readSeq,
        Reads (manager.get userKey readSeq) (writes history) userKey readSeq) ∧
      ∀ readSeq, List.Forall₂ (Lists readSeq) (manager.snapshotEntries readSeq)
        (segments [] history).reverse := by
  have parts : (segments [] history).flatten = writes history := segments_flatten [] history
  obtain ⟨manager, ran, holds⟩ := @Manager.run_holds (Manager.new firstSeq flushThreshold) [] []
    history .nil rfl rfl fun entry member => (accepted entry member).seq.le
  rw [← parts] at accepted increasing ⊢
  refine ⟨manager, ran, ?_, ?_⟩
  · intro userKey present readSeq
    rw [Manager.get_eq_queue]
    exact reads_queue free holds accepted increasing present
  · intro readSeq
    rw [Manager.snapshotEntries_eq_queue, List.map_reverse, List.forall₂_reverse_iff]
    exact lists_queue free holds accepted increasing

/-- A put, a rotation, and a delete and a put of the same batch. -/
def sampleHistory : List Event :=
  [.apply ⟨1, [⟨.put, [7], some [70]⟩]⟩, .rotate 2,
    .apply ⟨2, [⟨.delete, [7], none⟩, ⟨.put, [8], some [80]⟩]⟩]

theorem memtable_reads_latest_sample :
    ∃ manager, (Manager.new 1 1000).run sampleHistory = .ok manager ∧
      (∀ userKey ∈ ({[7], [8]} : Set Bytes), ∀ readSeq,
        Reads (manager.get userKey readSeq) (writes sampleHistory) userKey readSeq) ∧
      ∀ readSeq, List.Forall₂ (Lists readSeq) (manager.snapshotEntries readSeq)
        (segments [] sampleHistory).reverse := by
  have accepted : ∀ entry ∈ writes sampleHistory,
      (entry.userKey = [7] ∨ entry.userKey = [8]) ∧ entry.seq < seqnumMax := by decide
  apply memtable_reads_latest
  · intro xs first ys second before
    have sized : xs.length = ys.length := by
      rcases first with rfl | rfl <;> rcases second with rfl | rfl <;> rfl
    exact before.eq_of_length sized
  · intro entry member
    exact ⟨(accepted entry member).1, (accepted entry member).2⟩
  · decide

end Contents

/-- A delete with the reserved number sorts before the seek position, so lookups pass it. -/
theorem reserved_delete_not_read :
    ((Manager.new 1 1000).run [.apply ⟨5, [⟨.put, [7], some [70]⟩]⟩,
      .apply ⟨seqnumMax, [⟨.delete, [7], none⟩]⟩]).map (fun manager =>
        (manager.get [7] seqnumMax, manager.snapshotEntries seqnumMax)) =
      .ok (some ⟨.put, [70]⟩, [[⟨[7], seqnumMax, ⟨.delete, []⟩⟩]]) := by
  decide

section Represents

variable {keys : Set Bytes} {stored : EntryValue → StoredValue} {table : Memtable}
  {memtable : Merutable.Memtable} {manager : Manager} {model : MemtableManager} {key : UserKey}
  {readSeq : Nat} {a b : Entry}

/-- The entry in bytes, `stored` being the bytes of its value. -/
def memEntry (stored : EntryValue → StoredValue) (entry : Entry) : MemEntry :=
  ⟨entry.key.bytes, entry.seq, stored entry.value⟩

/-- The memtable in bytes has the entries of the engine's. -/
def Memtable.Represents (stored : EntryValue → StoredValue) (table : Memtable)
    (memtable : Merutable.Memtable) : Prop :=
  table.Holds (memtable.entries.map (memEntry stored))

structure Manager.Represents (stored : EntryValue → StoredValue) (manager : Manager)
    (model : MemtableManager) : Prop where
  active : manager.active.Represents stored model.active
  immutable : List.Forall₂ (Memtable.Represents stored) manager.immutable model.immutable
  unsealed : manager.active.sealed = false

theorem Manager.new_represents (firstSeq flushThreshold : Nat) :
    (Manager.new firstSeq flushThreshold).Represents stored (.new firstSeq) :=
  ⟨rfl, .nil, rfl⟩

theorem Manager.Represents.rotate (represents : manager.Represents stored model)
    (newFirstSeq : Nat) :
    (manager.rotate newFirstSeq).Represents stored (model.rotate newFirstSeq) :=
  ⟨rfl, List.rel_append represents.immutable (.cons represents.active .nil), rfl⟩

/-- A batch whose records are written in bytes as they are in the engine's batch. -/
theorem Manager.Represents.applyBatch (represents : manager.Represents stored model)
    {wire : WriteBatch} {batch : Merutable.WriteBatch} (encodedLen : Row → Nat)
    (same : entriesFrom wire.sequence wire.records = batch.entries.map (memEntry stored))
    (bounded : ∀ entry ∈ batch.entries, entry.seq ≤ seqnumMax) :
    ∃ next crossed, manager.applyBatch wire = .ok (next, crossed) ∧
      next.Represents stored (model.applyBatch encodedLen batch) := by
  obtain ⟨next, applied, holds, stays⟩ := applyBatch_holds represents.active represents.unsealed
    (same ▸ List.forall_mem_map.mpr bounded)
  refine ⟨_, _, applied, ?_, represents.immutable, stays⟩
  rw [same, ← List.map_append] at holds
  simpa [Memtable.Represents, MemtableManager.applyBatch, Merutable.Memtable.entries,
    Merutable.Memtable.applyBatch] using holds

section Order

variable (free : PrefixFree keys) (ops : ∀ value, (stored value).opType = value.opType)
include free ops

theorem wireLe_iff (first : Accepted keys (memEntry stored a))
    (second : Accepted keys (memEntry stored b)) :
    wireLe (memEntry stored a) (memEntry stored b) ↔ a.ikeyLe b := by
  rw [wireLe, ← not_lt, wire_lt_iff free second.key first.key second.seq.le first.seq.le]
  simp only [memEntry, ops, UserKey.bytes_lt, Entry.ikeyLe]
  have same : b.key.bytes = a.key.bytes ↔ b.key = a.key :=
    ⟨UserKey.eq_of_bytes, congrArg UserKey.bytes⟩
  rw [same]
  rcases lt_trichotomy a.key b.key with less | equal | greater
  · simp [less, less.asymm, less.ne']
  · simp only [equal, lt_irrefl, false_or, true_and]
    omega
  · simp [greater, greater.asymm, greater.ne']

variable (accepted : ∀ entry ∈ memtable.entries, Accepted keys (memEntry stored entry))
include accepted

theorem sorted_memEntry : sortedAll wireLe (memtable.entries.map (memEntry stored)) =
    memtable.skiplist.map (memEntry stored) :=
  (map_sortedAll wireLe fun a first b second =>
    wireLe_iff free ops (accepted a first) (accepted b second)).symm

variable (represents : table.Represents stored memtable)
include represents

theorem Memtable.Represents.get (present : key.bytes ∈ keys) : table.get key.bytes readSeq =
    (memtable.get key readSeq).map fun entry => stored entry.value := by
  have same : ∀ own : Entry, own.key.bytes = key.bytes ↔ own.key = key := fun own =>
    ⟨UserKey.eq_of_bytes, congrArg UserKey.bytes⟩
  rw [Memtable.Holds.get_eq represents (List.forall_mem_map.mpr accepted) free present,
    sorted_memEntry free ops accepted, List.dropWhile_map, List.takeWhile_map, List.find?_map,
    Option.map_map, Merutable.Memtable.get, SkipList.get]
  simp only [Function.comp_def, memEntry, same, UserKey.bytes_lt]
  congr!

theorem Memtable.Represents.iter :
    table.iter readSeq = (memtable.iter readSeq).map (memEntry stored) := by
  rw [Memtable.Holds.iter_eq represents (List.forall_mem_map.mpr accepted),
    sorted_memEntry free ops accepted, List.filter_map, Merutable.Memtable.iter,
    ← keepFirst_map (fun _ _ => UserKey.eq_of_bytes) fun entry : Entry =>
      (rfl : (memEntry stored entry).userKey = entry.key.bytes)]
  rfl

end Order

section Queue

variable (represents : manager.Represents stored model) (accepted : ∀ memtable ∈ model.queue,
  ∀ entry ∈ memtable.entries, Accepted keys (memEntry stored entry))
include represents accepted

theorem Manager.Represents.map_queue {A : Type} {f : Memtable → A} {g : Merutable.Memtable → A}
    (same : ∀ table memtable, (∀ entry ∈ memtable.entries, Accepted keys (memEntry stored entry)) →
      table.Represents stored memtable → f table = g memtable) :
    manager.queue.map f = model.queue.map g := by
  have queue := List.rel_append represents.immutable (.cons represents.active .nil)
  have all := forall₂_and.mpr ⟨queue, (forall₂_right queue.length_eq).mpr accepted⟩
  exact map_eq_of_forall₂ all fun table memtable both => same table memtable both.2 both.1

variable (free : PrefixFree keys) (ops : ∀ value, (stored value).opType = value.opType)
include free ops

/-- Both answer every lookup with the same version. -/
theorem Manager.Represents.get (present : key.bytes ∈ keys) :
    manager.get key.bytes readSeq =
      (model.get key readSeq).map fun entry => stored entry.value := by
  have answers : manager.queue.map (fun table => table.get key.bytes readSeq) =
      model.queue.map fun memtable => (memtable.get key readSeq).map fun entry =>
        stored entry.value :=
    represents.map_queue accepted fun _ _ known stands =>
      stands.get free ops known present
  calc manager.get key.bytes readSeq
      = (manager.queue.map fun table => table.get key.bytes readSeq).reverse.findSome? id := by
        rw [Manager.get_eq_queue, ← List.map_reverse, List.findSome?_map]
        rfl
    _ = (model.get key readSeq).map fun entry => stored entry.value := by
        rw [answers, MemtableManager.get, List.map_findSome?, ← List.map_reverse,
          List.findSome?_map, MemtableManager.queue, List.reverse_append]
        rfl

/-- Both list the same versions for scans and flushes. -/
theorem Manager.Represents.snapshotEntries : manager.snapshotEntries readSeq =
    (model.snapshotEntries readSeq).map (List.map (memEntry stored)) := by
  have lists : manager.queue.map (fun table => table.iter readSeq) =
      model.queue.map fun memtable => (memtable.iter readSeq).map (memEntry stored) :=
    represents.map_queue accepted fun _ _ known stands => stands.iter free ops known
  rw [Manager.snapshotEntries_eq_queue, MemtableManager.snapshotEntries, List.map_reverse, lists,
    ← List.map_reverse, List.map_map, MemtableManager.queue, List.reverse_append]
  rfl

end Queue

end Represents

end Wire

end Merutable
