import Merutable.Engine.Config
import Merutable.Engine.DvResolve
import Merutable.Memtable

/-! What `engine::flush` makes of a sealed memtable: the rows of the level-0 file and the keys whose
older versions are masked. -/

namespace Merutable

open Foundation

/-- The record as the file stores it: a delete without a pre-image gets the row of its key. -/
def Entry.persist (config : Config) (entry : Entry) : Entry :=
  match entry.value with
  | .delete none => { entry with value := .delete (some (config.pkRow entry.key)) }
  | _ => entry

namespace Entry

variable (config : Config) (entry : Entry)

@[simp] theorem persist_key : (entry.persist config).key = entry.key := by
  unfold persist
  split <;> rfl

variable {entry} in
theorem persist_key_of_newest {key : UserKey} {records : List Entry}
    (found : newest Entry.key key records = some entry) : (entry.persist config).key = key :=
  (persist_key config entry).trans (newest_mem found).2

@[simp] theorem persist_seq : (entry.persist config).seq = entry.seq := by
  unfold persist
  split <;> rfl

@[simp] theorem persist_row : (entry.persist config).value.row? = entry.value.row? := by
  unfold persist
  split
  · rename_i none
    rw [none]
    rfl
  · rfl

theorem row_comp_persist :
    (fun entry : Entry => entry.value.row?) ∘ Entry.persist config = fun entry =>
      entry.value.row? :=
  funext (persist_row config)

@[simp] theorem persist_opType : (entry.persist config).value.opType = entry.value.opType := by
  unfold persist
  split
  · rename_i none
    rw [none]
    rfl
  · rfl

theorem persist_put {config : Config} {entry : Entry} (put : entry.value.opType = .put) :
    entry.persist config = entry := by
  unfold persist
  split
  · rename_i none
    rw [none] at put
    cases put
  · rfl

end Entry

namespace Flush

def rows (config : Config) (memtable : Memtable) : List Entry :=
  (memtable.iter seqnumMax).map (Entry.persist config)

def file (config : Config) (memtable : Memtable) (path : Nat) : Option DataFile :=
  DataFile.write config.lib path 0 (rows config memtable)

/-- The keys of the memtable, sorted and without repetition; none when emission is off. -/
def dvUserKeys (config : Config) (memtable : Memtable) : List UserKey :=
  if config.enableFlushDvEmission then
    (keepFirst Entry.key none (memtable.iter seqnumMax)).map Entry.key
  else []

def dvDeltas (config : Config) (memtable : Memtable) (version : Version) :
    List (Nat × Finset Nat) :=
  DvResolve.resolveDvForFlush config.lib (dvUserKeys config memtable) version

theorem rows_ascending (config : Config) (memtable : Memtable) :
    (rows config memtable).Pairwise fun a b => a.key < b.key := by
  rw [rows, List.pairwise_map]
  simpa using memtable.iter_ascending seqnumMax

theorem dvUserKeys_eq (config : Config) (memtable : Memtable)
    (enabled : config.enableFlushDvEmission = true) :
    dvUserKeys config memtable = (memtable.iter seqnumMax).map Entry.key := by
  have whole : ∀ (last : Option UserKey) (entries : List Entry),
      entries.Pairwise (fun a b => a.key < b.key) → (∀ entry ∈ entries, last ≠ some entry.key) →
      keepFirst Entry.key last entries = entries := by
    intro last entries
    induction entries generalizing last with
    | nil => intro _ _; rfl
    | cons entry rest ih =>
      intro ascending fresh
      obtain ⟨front, tail⟩ := List.pairwise_cons.mp ascending
      rw [keepFirst, if_neg (fresh entry List.mem_cons_self), ih _ tail]
      intro other member same
      exact absurd (Option.some.inj same) (front other member).ne
  rw [dvUserKeys, if_pos enabled, whole none _ (memtable.iter_ascending seqnumMax) (by simp)]

end Flush

end Merutable
