import Merutable.Types

/-! `engine::cache`: the row cache and its generation counter. -/

namespace Merutable

/-- An LRU cache, most recently used first. The source stores the operation and the row; the
sequence number is kept with them to say which version is cached. -/
structure RowCache where
  capacity : Nat
  generation : Nat
  entries : List Entry
  deriving DecidableEq

namespace RowCache

def new (capacity : Nat) : RowCache := ⟨capacity, 0, []⟩

def lookup (cache : RowCache) (key : UserKey) : Option Entry :=
  cache.entries.find? fun entry => entry.key = key

/-- Moves the entry of the key to the front. -/
def promote (cache : RowCache) (key : UserKey) : RowCache :=
  match cache.lookup key with
  | some entry =>
    { cache with entries := entry :: cache.entries.filter fun other => other.key ≠ key }
  | none => cache

/-- The value is refused when an invalidation has happened since `generation` was read. -/
def insertIfFresh (cache : RowCache) (entry : Entry) (generation : Nat) : RowCache :=
  if cache.generation ≠ generation then cache
  else { cache with
    entries := (entry :: cache.entries.filter fun other => other.key ≠ entry.key).take
      cache.capacity }

/-- The first half of `invalidate`: the counter is advanced before the lock is taken. -/
def bump (cache : RowCache) : RowCache := { cache with generation := cache.generation + 1 }

/-- The second half of `invalidate`. -/
def pop (cache : RowCache) (key : UserKey) : RowCache :=
  { cache with entries := cache.entries.filter fun other => other.key ≠ key }

def clear (cache : RowCache) : RowCache :=
  { cache with generation := cache.generation + 1, entries := [] }

variable {cache : RowCache} {key : UserKey} {entry : Entry}

theorem lookup_mem (found : cache.lookup key = some entry) :
    entry ∈ cache.entries ∧ entry.key = key :=
  ⟨List.mem_of_find?_eq_some found, by simpa using List.find?_some found⟩

theorem entries_of_new {capacity : Nat}
    (enabled : (if capacity = 0 then none else some (new capacity)) = some cache) :
    cache.entries = [] := by
  split at enabled
  · cases enabled
  · injection enabled with same
    rw [← same]
    rfl

theorem mem_promote (member : entry ∈ (cache.promote key).entries) : entry ∈ cache.entries := by
  unfold promote at member
  split at member
  · rename_i found
    rcases List.mem_cons.mp member with rfl | later
    · exact (lookup_mem found).1
    · exact (List.mem_filter.mp later).1
  · exact member

@[simp] theorem promote_generation (cache : RowCache) (key : UserKey) :
    (cache.promote key).generation = cache.generation := by
  unfold promote
  split <;> rfl

theorem mem_insertIfFresh {entry other : Entry} {generation : Nat}
    (member : other ∈ (cache.insertIfFresh entry generation).entries) :
    other ∈ cache.entries ∨ other = entry ∧ cache.generation = generation := by
  unfold insertIfFresh at member
  split at member
  · exact .inl member
  · rename_i fresh
    rcases List.mem_cons.mp (List.mem_of_mem_take member) with same | later
    · exact .inr ⟨same, not_not.mp fresh⟩
    · exact .inl (List.mem_filter.mp later).1

@[simp] theorem insertIfFresh_generation (cache : RowCache) (entry : Entry) (generation : Nat) :
    (cache.insertIfFresh entry generation).generation = cache.generation := by
  unfold insertIfFresh
  split <;> rfl

end RowCache

end Merutable
