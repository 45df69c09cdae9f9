import Merutable.Lsm.Queue
import Merutable.Lsm.Store

/-! What holds in every state of every run, whatever the order of the steps. -/

namespace Merutable

open Foundation Compaction

/-- The position is masked by one of the new deletion vectors. -/
def Masks (deltas : List (Nat × Finset Nat)) (path position : Nat) : Prop :=
  position ∈ (deltas.lookup path).getD ∅

/-- The file of a flush has the rows of its memtable, and its vectors mask rows of keys the memtable
has. -/
structure Resolved (config : Config) (store : List DataFile) (memtable : Memtable) (file : DataFile)
    (deltas : List (Nat × Finset Nat)) : Prop where
  rows : file.rows = Flush.rows config memtable
  level : file.level = 0
  masked : ∀ path position, Masks deltas path position → ∃ target ∈ store, target.path = path ∧
    ∃ row, target.rows[position]? = some row ∧ ∃ entry ∈ memtable.iter seqnumMax,
      entry.key = row.key

variable {memtable : Memtable} {config : Config} {file : DataFile}

theorem Resolved.mono {store later : List DataFile} {deltas : List (Nat × Finset Nat)}
    (resolved : Resolved config store memtable file deltas) (grows : store ⊆ later) :
    Resolved config later memtable file deltas := by
  refine ⟨resolved.rows, resolved.level, ?_⟩
  intro path position masks
  obtain ⟨target, present, same, row, found, key⟩ := resolved.masked path position masks
  exact ⟨target, grows present, same, row, found, key⟩

theorem Flush.mem_dvUserKeys {key : UserKey} (member : key ∈ Flush.dvUserKeys config memtable) :
    ∃ entry ∈ memtable.iter seqnumMax, entry.key = key := by
  unfold Flush.dvUserKeys at member
  split at member
  · obtain ⟨entry, kept, same⟩ := List.mem_map.mp member
    exact ⟨entry, keepFirst_subset kept, same⟩
  · cases member

theorem Resolved.of_file {s : System} {path : Nat}
    (written : Flush.file config memtable path = some file) (kept : s.Keeps s.version) :
    Resolved config (s.store ++ [file]) memtable file
      (Flush.dvDeltas config memtable s.version) := by
  obtain ⟨_, level, rows⟩ := DataFile.write_some written
  refine ⟨rows, level, ?_⟩
  intro path position masks
  obtain ⟨low, high, _, _, ref, present, same, marked⟩ :=
    DvResolve.mem_resolveDvForFlush.mp masks
  obtain ⟨row, found, key⟩ := DvResolve.resolveFile_sound marked
  exact ⟨ref.file, List.mem_append_left _ (kept.2 ref present), same, row, found,
    Flush.mem_dvUserKeys key⟩

structure System.Base (config : Config) (s : System) : Prop where
  numbered : s.Numbered
  queued : s.Queued
  answered : s.Answered
  stored : s.Stored config
  locked : s.Locked config
  keeps : ∀ version, s.Mentions version → s.Keeps version
  resolved : ∀ memtable file deltas, s.flush = .resolved memtable file deltas →
    Resolved config s.store memtable file deltas

theorem initial_base (config : Config) : (System.initial config).Base config where
  numbered := initial_numbered config
  queued := initial_queued config
  answered := initial_answered config
  stored := initial_stored config
  locked := initial_locked config
  keeps := by
    intro version mentioned
    rw [initial_mentions mentioned]
    exact ⟨List.nodup_nil, by intro ref member; cases member⟩
  resolved := by intro memtable file deltas phase; cases phase

section Base

variable {config : Config} {s t : System} {deltas : List (Nat × Finset Nat)} {memtable : Memtable}
  {file : DataFile} {held : Memtable}

theorem flush_resolved {action : FlushAction} (fired : flushStep config s action = some t)
    (phase : t.flush = .resolved memtable file deltas) :
    action = .resolve ∧ Flush.file config memtable s.nextUuid = some file ∧
      deltas = Flush.dvDeltas config memtable s.version ∧ t.store = s.store ++ [file] := by
  cases flush_effect fired with
  | resolve _ _ _ written =>
    injection phase with sameMemtable sameFile sameDeltas
    subst sameMemtable sameFile
    exact ⟨rfl, written, sameDeltas.symm, rfl⟩
  | _ => cases phase

theorem resolved_step {action : Action} (fired : step config s action = some t)
    (phase : t.flush = .resolved memtable file deltas) :
    s.flush = .resolved memtable file deltas ∨
      action = .flush .resolve ∧ Flush.file config memtable s.nextUuid = some file ∧
        deltas = Flush.dvDeltas config memtable s.version ∧ t.store = s.store ++ [file] := by
  cases step_effect fired with
  | flush fired =>
    obtain ⟨rfl, rest⟩ := flush_resolved fired phase
    exact .inr ⟨rfl, rest⟩
  | _ => exact .inl phase

theorem System.Base.step {action : Action} (inv : s.Base config)
    (fired : step config s action = some t) : t.Base config where
  numbered := step_numbered inv.numbered fired
  queued := step_queued inv.queued fired
  answered := step_answered inv.answered inv.numbered fired
  stored := inv.stored.step fired
  locked := inv.locked.step fired
  keeps := step_keeps inv.stored inv.keeps fired
  resolved := by
    intro memtable file deltas phase
    rcases resolved_step fired phase with before | ⟨_, written, rfl, store⟩
    · exact (inv.resolved memtable file deltas before).mono (store_subset fired)
    · rw [store]
      exact .of_file written (inv.keeps s.version .installed)

theorem base_of_run {guard : System → Action → Prop} {actions : List Action}
    (run : Run (step config) guard (.initial config) actions s) : s.Base config :=
  run.invariant (System.Base config) (fun _ _ _ inv _ fired => inv.step fired) (initial_base config)

theorem System.Base.seq_le (inv : s.Base config) (member : held ∈ s.memtable.queue) :
    ∀ entry ∈ held.entries, entry.seq ≤ seqnumMax := by
  intro entry inHeld
  obtain ⟨batch, present, inBatch⟩ := mem_entriesOf.mp inHeld
  apply inv.numbered.seq_le
  exact mem_entriesOf.mpr ⟨batch, (inv.queued.memtable_batches member).subset present, inBatch⟩

theorem System.Base.front (inv : s.Base config) (phase : s.flush.memtable? = some memtable) :
    memtable ∈ s.memtable.queue := by
  rw [MemtableManager.queue, inv.queued.queue_eq phase]
  exact List.mem_cons_self

theorem System.Base.ordered (inv : s.Base config) : Increasing s.memtable.batches :=
  inv.numbered.increasing.sublist inv.queued.held

theorem System.Base.increasing (inv : s.Base config) (member : held ∈ s.memtable.queue) :
    Increasing held.batches :=
  inv.numbered.increasing.sublist (inv.queued.memtable_batches member)

end Base

end Merutable
