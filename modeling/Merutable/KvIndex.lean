import Mathlib.Data.List.Chain
import Merutable.Key

/-! The sparse index from internal keys to data pages that is stored in the footer of a file:
`parquet::kv_index`. -/

namespace Merutable

open Wal

structure PageLocation where
  pageOffset : Nat
  pageSize : Nat
  firstRowIndex : Nat
  deriving DecidableEq

namespace KvIndex

def version : UInt8 := 1

/-- Lengths are stored in two bytes. -/
def maxKeyLen : Nat := 2 ^ 16 - 1

def defaultRestartInterval : Nat := 16

def sharedPrefixLen : Bytes → Bytes → Nat
  | a :: as, b :: bs => if a = b then sharedPrefixLen as bs + 1 else 0
  | _, _ => 0

def encodeEntry (shared : Nat) (key : Bytes) (location : PageLocation) : Bytes :=
  toLe 2 shared ++ toLe 2 (key.length - shared) ++ key.drop shared ++
    toLe 8 location.pageOffset ++ toLe 4 location.pageSize ++ toLe 8 location.firstRowIndex

/-- The entries from the given one on, and the offsets of those that start a restart group. -/
def buildEntries (restartInterval : Nat) :
    Nat → Bytes → Nat → List (Bytes × PageLocation) → Except MeruError (Bytes × List Nat)
  | _, _, _, [] => .ok ([], [])
  | idx, prevKey, size, entry :: rest => do
      let count := entry.1.length
      okIf (count ≤ maxKeyLen) (.parquet
        (s!"kv_index::build: key {idx} has length {count} bytes, " ++
          s!"exceeds MAX_KEY_LEN ({maxKeyLen})"))
      okIf (idx = 0 ∨ prevKey < entry.1) (.parquet
        (s!"kv_index::build requires strictly ascending keys; entry {idx} is not > " ++
          s!"entry {idx - 1}"))
      let isRestart := idx % 2 ^ 32 % restartInterval = 0
      let shared := if isRestart then 0 else sharedPrefixLen prevKey entry.1
      let bytes := encodeEntry shared entry.1 entry.2
      let later ← buildEntries restartInterval (idx + 1) entry.1 (size + bytes.length) rest
      return (bytes ++ later.1, if isRestart then size :: later.2 else later.2)

def build (entries : List (Bytes × PageLocation)) (restartInterval : Nat) :
    Except MeruError Bytes := do
  let interval := max restartInterval 1
  let built ← buildEntries interval 0 [] 0 entries
  return [version, 0, 0, 0] ++ toLe 4 entries.length ++ toLe 4 interval ++
    toLe 4 built.1.length ++ toLe 4 built.2.length ++ toLe 4 0 ++ built.1 ++
    built.2.flatMap (toLe 4)

theorem buildEntries_ok_iff {restartInterval idx size : Nat} {prevKey : Bytes}
    {entries : List (Bytes × PageLocation)} :
    (∃ built, buildEntries restartInterval idx prevKey size entries = .ok built) ↔
      (∀ entry ∈ entries, entry.1.length ≤ maxKeyLen) ∧
        (entries.map Prod.fst).IsChain (· < ·) ∧
        ∀ first ∈ (entries.map Prod.fst).head?, idx = 0 ∨ prevKey < first := by
  induction entries generalizing idx prevKey size with
  | nil => simp [buildEntries]
  | cons entry rest ih =>
    have later := fun size => @ih (idx + 1) size entry.1
    simp only [buildEntries, Except.seq_eq_ok, okIf_eq_ok]
    simp only [Except.bind_eq_ok, pure, Except.pure]
    constructor
    · rintro ⟨_, short, above, built, done, _⟩
      obtain ⟨shorts, chain, next⟩ := (later _).mp ⟨built, done⟩
      refine ⟨?_, ?_, ?_⟩
      · intro other member
        rcases List.mem_cons.mp member with same | inRest
        · exact same ▸ short
        · exact shorts other inRest
      · rw [List.map_cons, List.isChain_cons]
        exact ⟨fun first found => (next first found).resolve_left (Nat.succ_ne_zero idx), chain⟩
      · intro first found
        cases found
        exact above
    · rintro ⟨shorts, chain, first⟩
      rw [List.map_cons, List.isChain_cons] at chain
      have rest' : ∀ size, ∃ built,
          buildEntries restartInterval (idx + 1) entry.1 size rest = .ok built := by
        intro size
        exact (later size).mpr ⟨fun other member => shorts other (List.mem_cons_of_mem _ member),
          chain.2, fun next found => .inr (chain.1 next found)⟩
      obtain ⟨built, done⟩ := rest' _
      exact ⟨_, shorts entry List.mem_cons_self, first entry.1 rfl, built, done, rfl⟩

theorem build_ok_iff {entries : List (Bytes × PageLocation)} {restartInterval : Nat} :
    (∃ bytes, build entries restartInterval = .ok bytes) ↔
      (∀ entry ∈ entries, entry.1.length ≤ maxKeyLen) ∧
        (entries.map Prod.fst).Pairwise (· < ·) := by
  rw [← List.isChain_iff_pairwise]
  have built := @buildEntries_ok_iff (max restartInterval 1) 0 0 [] entries
  simp only [true_or, implies_true, and_true] at built
  rw [← built]
  simp only [build, Except.bind_eq_ok, pure, Except.pure]
  constructor
  · rintro ⟨bytes, middle, done, _⟩
    exact ⟨middle, done⟩
  · rintro ⟨middle, done⟩
    exact ⟨_, middle, done, rfl⟩

end KvIndex

end Merutable
