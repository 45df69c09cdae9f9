import Merutable.Reader

/-! The configuration and schema functions the engine is run with: `engine::config`, the row codec
and the Parquet writer. -/

namespace Merutable

structure Config where
  /-- Flush threshold of a memtable. -/
  memtableSizeBytes : Nat
  /-- `0` disables the row cache. -/
  rowCacheCapacity : Nat
  /-- Targets of the levels from 1 on. -/
  levelTargetBytes : List Nat
  maxCompactionBytes : Nat
  /-- `0` disables the limit. -/
  maxCompactionInputRows : Nat
  gcGracePeriod : Nat
  enableFlushDvEmission : Bool
  /-- Length of the encoded row. -/
  encodedLen : Row → Nat
  /-- The row with the key columns of the user key and nothing else. -/
  pkRow : UserKey → Row
  lib : ParquetLib

/-- The file with these rows, as the writer leaves it on disk. The writer is given rows in
internal-key order. -/
def DataFile.write (lib : ParquetLib) (path level : Nat) (rows : List Entry) : Option DataFile :=
  if valid : rows ≠ [] ∧ rows.Pairwise Entry.ikeyLe then
    some ⟨path, level, lib.fileSize rows, rows, valid.1, valid.2⟩
  else none

variable {rows : List Entry} {lib : ParquetLib} {path level : Nat}

theorem DataFile.write_eq (nonempty : rows ≠ []) (sorted : rows.Pairwise Entry.ikeyLe) :
    DataFile.write lib path level rows =
      some ⟨path, level, lib.fileSize rows, rows, nonempty, sorted⟩ := dif_pos ⟨nonempty, sorted⟩

theorem DataFile.write_some {file : DataFile}
    (written : DataFile.write lib path level rows = some file) :
    file.path = path ∧ file.level = level ∧ file.rows = rows := by
  unfold DataFile.write at written
  split at written <;> cases written
  exact ⟨rfl, rfl, rfl⟩

/-- Files without a page index, under a bloom filter that lets every key through. -/
def ParquetLib.plain : ParquetLib where
  kvIndex _ := none
  bloom _ _ := true
  fileSize rows := rows.length
  pages_start _ _ _ found := by cases found
  pages_increase _ _ found := by cases found
  pages_bounded _ _ found := by cases found
  bloom_member _ _ _ := rfl

/-- A small table: two levels below level 0, a cache of four rows, no grace period. -/
def Config.plain : Config where
  memtableSizeBytes := 1024
  rowCacheCapacity := 4
  levelTargetBytes := [100]
  maxCompactionBytes := 1000
  maxCompactionInputRows := 0
  gcGracePeriod := 0
  enableFlushDvEmission := true
  encodedLen _ := 1
  pkRow _ := ⟨[]⟩
  lib := .plain

/-- The small table without a row cache. -/
def Config.uncached : Config := { Config.plain with rowCacheCapacity := 0 }

end Merutable
