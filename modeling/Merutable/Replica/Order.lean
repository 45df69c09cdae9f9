import Mathlib.Data.Finset.Dedup
import Mathlib.Data.Finset.Lattice.Fold
import Mathlib.Order.Lattice.Nat
import Merutable.Replica

/-! The order in which a tail receives its records, and how often it receives one, does not
matter. -/

namespace Merutable

def OpRecord.entry (record : OpRecord) : TailEntry := ⟨record.seq, record.op, record.row⟩

/-- Records of one key with one number are the same record. -/
def Agreeing (records : List OpRecord) : Prop :=
  ∀ a ∈ records, ∀ b ∈ records, a.pk = b.pk → a.seq = b.seq → a = b

instance (records : List OpRecord) : Decidable (Agreeing records) :=
  inferInstanceAs (Decidable (∀ a ∈ records, _))

/-- No record of its key has a greater number. -/
def IsLast (records : List OpRecord) (record : OpRecord) : Prop :=
  record ∈ records ∧ ∀ other ∈ records, other.pk = record.pk → other.seq ≤ record.seq

theorem IsLast.append {records : List OpRecord} {last record : OpRecord}
    (isLast : IsLast records last)
    (older : record.pk = last.pk → record.seq ≤ last.seq) : IsLast (records ++ [record]) last := by
  refine ⟨List.mem_append_left _ isLast.1, fun other member same => ?_⟩
  rcases List.mem_append.mp member with before | added
  · exact isLast.2 other before same
  · cases List.mem_singleton.mp added
    exact older same

/-- What a tail that was seeded at the floor has of the records it received. -/
structure ReplicaTail.Received (floor : Nat) (records : List OpRecord) (tail : ReplicaTail) :
    Prop where
  held : ∀ key entry, tail.index key = some entry →
    ∃ record, IsLast records record ∧ record.pk = key ∧ record.entry = entry
  known : ∀ record ∈ records, tail.index record.pk ≠ none
  visible : tail.visibleSeq = max floor (records.toFinset.sup OpRecord.seq)

/-- The records applied one after another to a tail seeded at the floor. -/
def ReplicaTail.replayed (floor : Nat) (records : List OpRecord) : ReplicaTail :=
  records.foldl apply (new.seedVisibleSeq floor)

namespace ReplicaTail.Received

variable {records : List OpRecord} {tail : ReplicaTail} {floor : Nat}

theorem seeded (floor : Nat) : (ReplicaTail.new.seedVisibleSeq floor).Received floor [] := by
  have fresh : ReplicaTail.new.seedVisibleSeq floor = ⟨fun _ => none, floor, 0⟩ := by
    unfold ReplicaTail.seedVisibleSeq ReplicaTail.new
    split
    · rfl
    · rename_i zero
      rw [Nat.eq_zero_of_not_pos zero]
  rw [fresh]
  refine ⟨?_, by simp, by simp⟩
  intro key entry held
  cases held

theorem apply (receives : tail.Received floor records) (record : OpRecord) :
    (tail.apply record).Received floor (records ++ [record]) := by
  have sup : (records ++ [record]).toFinset.sup OpRecord.seq =
      max (records.toFinset.sup OpRecord.seq) record.seq := by
    rw [List.toFinset_append, Finset.sup_union]
    simp
  have visible := receives.visible
  unfold ReplicaTail.apply
  split
  · rename_i dropped
    obtain ⟨existing, held, older⟩ := Option.any_eq_true _ _ |>.mp dropped
    obtain ⟨last, isLast, own, rfl⟩ := receives.held _ _ held
    have older : record.seq ≤ last.seq := of_decide_eq_true older
    refine ⟨fun key entry found => ?_, fun other member => ?_, ?_⟩
    · obtain ⟨holder, isHolder, rfl, rfl⟩ := receives.held key entry found
      refine ⟨holder, isHolder.append fun same => ?_, rfl, rfl⟩
      exact older.trans (isHolder.2 last isLast.1 (own.trans same))
    · rcases List.mem_append.mp member with before | added
      · exact receives.known other before
      · rw [List.mem_singleton.mp added, held]
        exact Option.some_ne_none _
    · have reached : last.seq ≤ records.toFinset.sup OpRecord.seq :=
        Finset.le_sup (List.mem_toFinset.mpr isLast.1)
      rw [sup, max_eq_left (older.trans reached)]
      exact visible
  · rename_i newer
    refine ⟨fun key entry found => ?_, fun other member => ?_, ?_⟩
    · dsimp only at found
      by_cases same : key = record.pk
      · subst same
        rw [Function.update_self] at found
        refine ⟨record, ⟨List.mem_append_right _ List.mem_cons_self, ?_⟩, rfl,
          Option.some.inj found⟩
        intro other member own
        rcases List.mem_append.mp member with before | added
        · obtain ⟨existing, held⟩ := Option.ne_none_iff_exists'.mp (receives.known other before)
          rw [own] at held
          obtain ⟨last, isLast, key, rfl⟩ := receives.held _ _ held
          rw [held, Option.any_some, decide_eq_true_eq, not_le] at newer
          exact (isLast.2 other before (own.trans key.symm)).trans newer.le
        · exact (congrArg OpRecord.seq (List.mem_singleton.mp added)).le
      · rw [Function.update_of_ne same] at found
        obtain ⟨holder, isHolder, rfl, rfl⟩ := receives.held key entry found
        exact ⟨holder, isHolder.append fun own => absurd own.symm same, rfl, rfl⟩
    · dsimp only
      by_cases same : other.pk = record.pk
      · rw [same, Function.update_self]
        exact Option.some_ne_none _
      · rw [Function.update_of_ne same]
        rcases List.mem_append.mp member with before | added
        · exact receives.known other before
        · exact absurd (congrArg OpRecord.pk (List.mem_singleton.mp added)) same
    · rw [sup, ← max_assoc, ← visible]

theorem all (floor : Nat) (records : List OpRecord) :
    (ReplicaTail.replayed floor records).Received floor records := by
  induction records using List.reverseRecOn with
  | nil => exact seeded floor
  | append_singleton records record ih =>
    rw [ReplicaTail.replayed, List.foldl_append]
    exact ih.apply record

theorem index_iff (receives : tail.Received floor records) (agreeing : Agreeing records)
    {key : UserKey} {entry : TailEntry} : tail.index key = some entry ↔
      ∃ record, IsLast records record ∧ record.pk = key ∧ record.entry = entry := by
  refine ⟨receives.held key entry, ?_⟩
  rintro ⟨record, isLast, rfl, rfl⟩
  obtain ⟨existing, held⟩ := Option.ne_none_iff_exists'.mp (receives.known record isLast.1)
  obtain ⟨other, isOther, own, rfl⟩ := receives.held _ _ held
  have equal := le_antisymm (isLast.2 other isOther.1 own) (isOther.2 record isLast.1 own.symm)
  rw [held, agreeing other isOther.1 record isLast.1 own equal]

end ReplicaTail.Received

/-- Records received in any order and any number of times leave the same index, which holds the last
operation of each key. -/
theorem replica_tail_order_independent (records received : List OpRecord) (floor : Nat)
    (agreeing : Agreeing records) (same : ∀ record, record ∈ received ↔ record ∈ records) :
    (ReplicaTail.replayed floor received).index = (ReplicaTail.replayed floor records).index ∧
      (∀ key entry, (ReplicaTail.replayed floor received).index key = some entry ↔
        ∃ record, IsLast records record ∧ record.pk = key ∧ record.entry = entry) ∧
      (ReplicaTail.replayed floor received).visibleSeq =
        max floor (records.toFinset.sup OpRecord.seq) := by
  have every := ReplicaTail.Received.all floor received
  have lasts : ∀ record, IsLast received record ↔ IsLast records record := by
    intro record
    simp only [IsLast, same]
  have index : ∀ key entry, (ReplicaTail.replayed floor received).index key = some entry ↔
      ∃ record, IsLast records record ∧ record.pk = key ∧ record.entry = entry := by
    intro key entry
    have agree : Agreeing received := fun a inA b inB =>
      agreeing a ((same a).mp inA) b ((same b).mp inB)
    simp only [every.index_iff agree, lasts]
  refine ⟨?_, index, ?_⟩
  · funext key
    refine Option.ext fun entry => ?_
    rw [index, (ReplicaTail.Received.all floor records).index_iff agreeing]
  · have members : received.toFinset = records.toFinset := by
      ext record
      rw [List.mem_toFinset, List.mem_toFinset, same]
    rw [every.visible, members]

open Replica.Sample in
theorem replica_tail_order_independent_repeated :
    (∀ entry, (ReplicaTail.replayed 1 (records.reverse ++ records)).index key = some entry ↔
      ∃ record, IsLast records record ∧ record.pk = key ∧ record.entry = entry) ∧
      (ReplicaTail.replayed 1 (records.reverse ++ records)).visibleSeq =
        max 1 (records.toFinset.sup OpRecord.seq) := by
  have result := replica_tail_order_independent records (records.reverse ++ records) 1 (by decide)
    (by simp)
  exact ⟨result.2.1 key, result.2.2⟩

end Merutable
