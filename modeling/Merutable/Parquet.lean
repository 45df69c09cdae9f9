import Mathlib.Data.Finset.Basic
import Mathlib.Data.List.Pairwise
import Merutable.Types

/-! Data files and the reader: `parquet::writer` and `parquet::reader`. A file holds rows in
internal-key order; its metadata is computed from them when it is written. -/

namespace Merutable

open Foundation

/-- A data file. The path stands for the level directory and the UUID of the file. -/
structure DataFile where
  path : Nat
  level : Nat
  fileSize : Nat
  rows : List Entry
  rows_ne : rows ≠ []
  sorted : rows.Pairwise Entry.ikeyLe
  deriving DecidableEq

namespace DataFile

def keyMin (file : DataFile) : Bytes := (file.rows.head file.rows_ne).key.bytes

def keyMax (file : DataFile) : Bytes := (file.rows.getLast file.rows_ne).key.bytes

def seqMin (file : DataFile) : Nat :=
  file.rows.foldl (fun least row => min least row.seq) (file.rows.head file.rows_ne).seq

def seqMax (file : DataFile) : Nat := file.rows.foldl (fun most row => max most row.seq) 0

def numRows (file : DataFile) : Nat := file.rows.length

theorem key_order (file : DataFile) : file.rows.Pairwise fun a b => a.key ≤ b.key :=
  file.sorted.imp fun ordered => ordered.versionOrder.key_le

variable {file : DataFile} {row : Entry}

theorem keyMin_le (present : row ∈ file.rows) :
    file.keyMin ≤ row.key.bytes :=
  file.key_order.rel_head_of_rel_head_head present le_rfl

theorem le_keyMax (present : row ∈ file.rows) :
    row.key.bytes ≤ file.keyMax :=
  file.key_order.rel_getLast_of_rel_getLast_getLast present le_rfl

theorem keyMin_mem (file : DataFile) : ∃ row ∈ file.rows, row.key.bytes = file.keyMin :=
  ⟨_, List.head_mem file.rows_ne, rfl⟩

theorem keyMax_mem (file : DataFile) : ∃ row ∈ file.rows, row.key.bytes = file.keyMax :=
  ⟨_, List.getLast_mem file.rows_ne, rfl⟩

theorem keyMin_ne_nil (file : DataFile) : file.keyMin ≠ [] := UserKey.nonempty _

theorem keyMax_ne_nil (file : DataFile) : file.keyMax ≠ [] := UserKey.nonempty _

theorem seqMin_spec (file : DataFile) :
    (∀ row ∈ file.rows, file.seqMin ≤ row.seq) ∧
      (file.seqMin = (file.rows.head file.rows_ne).seq ∨
        ∃ row ∈ file.rows, row.seq = file.seqMin) :=
  (@Foundation.foldl_max_spec _ Natᵒᵈ _ Entry.seq file.rows _).2

theorem seqMin_le (present : row ∈ file.rows) : file.seqMin ≤ row.seq :=
  file.seqMin_spec.1 row present

theorem le_seqMax (present : row ∈ file.rows) :
    row.seq ≤ file.seqMax := (Foundation.foldl_max_spec Entry.seq file.rows 0).2.1 row present

theorem seqMin_mem (file : DataFile) : ∃ row ∈ file.rows, row.seq = file.seqMin := by
  rcases file.seqMin_spec.2 with same | found
  · exact ⟨_, List.head_mem file.rows_ne, same.symm⟩
  · exact found

theorem seqMax_mem (file : DataFile) : ∃ row ∈ file.rows, row.seq = file.seqMax := by
  rcases (Foundation.foldl_max_spec Entry.seq file.rows 0).2.2 with same | found
  · have head := List.head_mem file.rows_ne
    have bound := le_seqMax head
    refine ⟨_, head, ?_⟩
    unfold seqMax at bound ⊢
    omega
  · exact found

end DataFile

/-- The rows, numbered from `first`, whose position is not in the deletion vector. -/
def liveFrom (deleted : Finset Nat) : Nat → List Entry → List Entry
  | _, [] => []
  | position, row :: rest =>
    if position ∈ deleted then liveFrom deleted (position + 1) rest
    else row :: liveFrom deleted (position + 1) rest

theorem liveFrom_sublist (deleted : Finset Nat) (first : Nat) (rows : List Entry) :
    (liveFrom deleted first rows).Sublist rows := by
  induction rows generalizing first with
  | nil => simp [liveFrom]
  | cons row rest ih =>
    simp only [liveFrom]
    split
    · exact (ih (first + 1)).cons row
    · exact (ih (first + 1)).cons_cons row

variable {deleted : Finset Nat} {rows : List Entry} {first : Nat}

theorem liveFrom_self (unmasked : ∀ index < rows.length, first + index ∉ deleted) :
    liveFrom deleted first rows = rows := by
  induction rows generalizing first with
  | nil => rfl
  | cons row rest ih =>
    have here : first ∉ deleted := unmasked 0 (Nat.zero_lt_succ _)
    rw [liveFrom, if_neg here, ih]
    intro index inside
    have later := unmasked (index + 1) (Nat.succ_lt_succ inside)
    rwa [← Nat.add_assoc, Nat.add_right_comm] at later

theorem liveFrom_eq_self (whole : liveFrom deleted first rows = rows) :
    ∀ index < rows.length, first + index ∉ deleted := by
  induction rows generalizing first with
  | nil => intro index inside; cases inside
  | cons row rest ih =>
    simp only [liveFrom] at whole
    split at whole
    · have shorter := (liveFrom_sublist deleted (first + 1) rest).length_le
      rw [whole, List.length_cons] at shorter
      omega
    · rename_i unmasked
      have later := ih (List.cons.inj whole).2
      intro index inside
      cases index with
      | zero => exact unmasked
      | succ index =>
        rw [List.length_cons] at inside
        have := later index (by omega)
        rwa [Nat.add_right_comm, Nat.add_assoc] at this

theorem mem_liveFrom {row : Entry} :
    row ∈ liveFrom deleted first rows ↔
      ∃ index, rows[index]? = some row ∧ first + index ∉ deleted := by
  induction rows generalizing first with
  | nil => simp [liveFrom]
  | cons head rest ih =>
    have shift : (∃ index, (head :: rest)[index]? = some row ∧ first + index ∉ deleted) ↔
        (head = row ∧ first ∉ deleted) ∨
          ∃ index, rest[index]? = some row ∧ first + 1 + index ∉ deleted := by
      constructor
      · rintro ⟨index, found, outside⟩
        cases index with
        | zero => exact .inl ⟨by simpa using found, outside⟩
        | succ index =>
          exact .inr ⟨index, by simpa using found, by rwa [Nat.add_right_comm, Nat.add_assoc]⟩
      · rintro (⟨rfl, outside⟩ | ⟨index, found, outside⟩)
        · exact ⟨0, rfl, outside⟩
        · exact ⟨index + 1, by simpa using found, by rwa [← Nat.add_assoc, Nat.add_right_comm]⟩
    rw [shift, ← ih]
    simp only [liveFrom]
    split
    · rename_i masked
      simp [masked]
    · rename_i unmasked
      rw [List.mem_cons]
      constructor
      · rintro (rfl | later)
        · exact .inl ⟨rfl, unmasked⟩
        · exact .inr later
      · rintro (⟨rfl, _⟩ | later)
        · exact .inl rfl
        · exact .inr later

end Merutable
