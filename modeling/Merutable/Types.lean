import Mathlib.Algebra.GroupWithZero.Nat
import Mathlib.Data.List.Lex
import Mathlib.Data.List.Sort
import Merutable.Foundation.Versions

/-! Sequence numbers, user keys, rows and internal keys. -/

namespace Merutable

instance byteLinearOrder : LinearOrder UInt8 where
  le_refl := UInt8.le_refl
  le_trans _ _ _ := UInt8.le_trans
  le_antisymm _ _ := UInt8.le_antisymm
  le_total := UInt8.le_total
  lt_iff_le_not_ge _ _ := by
    simp only [UInt8.lt_iff_toNat_lt, UInt8.le_iff_toNat_le]
    omega
  toDecidableLE := inferInstance

abbrev Bytes := List UInt8

/-- The largest 56-bit sequence number. Lookups seek with it, so no record is given it. -/
def seqnumMax : Nat := 2 ^ 56 - 1

/-- The order-preserving encoding of a primary key, of at least one byte: the tables considered have
no key that consists of `FixedLenByteArray(0)` columns only. File metadata uses the empty string for
"no bound". -/
structure UserKey where
  bytes : Bytes
  nonempty : bytes ≠ []
  deriving DecidableEq

def UserKey.ofByte (byte : UInt8) : UserKey := ⟨[byte], List.cons_ne_nil _ _⟩

variable {a b : UserKey}

theorem UserKey.eq_of_bytes (same : a.bytes = b.bytes) : a = b := by
  cases a
  cases b
  simp_all

instance : LinearOrder UserKey :=
  LinearOrder.lift' UserKey.bytes fun _ _ => UserKey.eq_of_bytes

theorem UserKey.bytes_le : a.bytes ≤ b.bytes ↔ a ≤ b := Iff.rfl

theorem UserKey.bytes_lt : a.bytes < b.bytes ↔ a < b := Iff.rfl

inductive FieldValue where
  | boolean (value : Bool)
  | int32 (value : BitVec 32)
  | int64 (value : BitVec 64)
  | float (bits : BitVec 32)
  | double (bits : BitVec 64)
  | bytes (value : Bytes)
  deriving DecidableEq

structure Row where
  fields : List (Option FieldValue)
  deriving DecidableEq

inductive OpType where
  | delete
  | put
  deriving DecidableEq

def OpType.byte : OpType → Nat
  | .delete => 0
  | .put => 1

/-- What a record stores under its internal key. The value of a delete is the row that was live
when the delete was issued, if any. -/
inductive EntryValue where
  | put (row : Row)
  | delete (preImage : Option Row)
  deriving DecidableEq

namespace EntryValue

def opType : EntryValue → OpType
  | .put _ => .put
  | .delete _ => .delete

/-- What a reader is shown: a delete hides the key. -/
def row? : EntryValue → Option Row
  | .put row => some row
  | .delete _ => none

theorem row?_delete {value : EntryValue} (delete : value.opType = .delete) : value.row? = none := by
  cases value with
  | put row => cases delete
  | delete preImage => rfl

end EntryValue

/-- A version of a key: the internal key `(key, seq, op)` with its value. -/
structure Entry where
  key : UserKey
  seq : Nat
  value : EntryValue
  deriving DecidableEq

namespace Entry

/-- Order of the encoded internal keys: key ascending, sequence number descending, then op. -/
def ikeyLe (a b : Entry) : Prop :=
  a.key < b.key ∨ a.key = b.key ∧
    (b.seq < a.seq ∨ a.seq = b.seq ∧ a.value.opType.byte ≤ b.value.opType.byte)

instance : DecidableRel ikeyLe := fun a b => by
  unfold ikeyLe
  infer_instance

theorem ikeyLe_total (a b : Entry) : ikeyLe a b ∨ ikeyLe b a := by
  unfold ikeyLe
  rcases lt_trichotomy a.key b.key with less | same | greater
  · exact .inl (.inl less)
  · rcases Nat.lt_trichotomy a.seq b.seq with older | same' | newer
    · exact .inr (.inr ⟨same.symm, .inl older⟩)
    · rcases Nat.le_total a.value.opType.byte b.value.opType.byte with le | le
      · exact .inl (.inr ⟨same, .inr ⟨same', le⟩⟩)
      · exact .inr (.inr ⟨same.symm, .inr ⟨same'.symm, le⟩⟩)
    · exact .inl (.inr ⟨same, .inl newer⟩)
  · exact .inr (.inl greater)

theorem ikeyLe_trans {a b c : Entry} (first : ikeyLe a b) (second : ikeyLe b c) : ikeyLe a c := by
  unfold ikeyLe at *
  rcases first with less | ⟨same, rest⟩
  · rcases second with less' | ⟨same', _⟩
    · exact .inl (less.trans less')
    · exact .inl (same' ▸ less)
  · rcases second with less' | ⟨same', rest'⟩
    · exact .inl (same ▸ less')
    · exact .inr ⟨same.trans same', by omega⟩

instance : Std.Total ikeyLe := ⟨ikeyLe_total⟩

instance : IsTrans Entry ikeyLe := ⟨fun _ _ _ => ikeyLe_trans⟩

theorem ikeyLe.versionOrder {a b : Entry} (ordered : ikeyLe a b) :
    Foundation.VersionOrder key seq a b := by
  rcases ordered with less | ⟨same, newer | ⟨equal, _⟩⟩
  · exact .inl less
  · exact .inr ⟨same, newer.le⟩
  · exact .inr ⟨same, equal.ge⟩

/-- The entries in internal-key order, ties kept in the order given. -/
def sort (entries : List Entry) : List Entry := entries.insertionSort ikeyLe

@[simp] theorem mem_sort {entry : Entry} {entries : List Entry} :
    entry ∈ sort entries ↔ entry ∈ entries := List.mem_insertionSort ikeyLe

theorem sort_sorted (entries : List Entry) : (sort entries).Pairwise ikeyLe :=
  List.pairwise_insertionSort ikeyLe entries

theorem sort_versions (entries : List Entry) :
    (sort entries).Pairwise (Foundation.VersionOrder Entry.key Entry.seq) :=
  (sort_sorted entries).imp ikeyLe.versionOrder

end Entry

end Merutable
