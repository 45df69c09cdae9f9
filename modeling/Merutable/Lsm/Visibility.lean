import Merutable.Lsm.Reopen

/-! The frontier of visible sequence numbers while batches are inserted record by record. A writer
holds the WAL lock from the allocation of its sequence numbers to the move of the frontier, and the
read lock of the memtable set during the insertions, so a rotation waits for them and a reader does
not. -/

namespace Merutable

open Foundation

/-- The batch the holder of the WAL lock works on. -/
def WritePhase.batch? : WritePhase → Option WriteBatch
  | .idle => none
  | .allocated batch => some batch
  | .appended batch => some batch
  | .applied batch => some batch

/-- What the frontier depends on: `present` are the records readers find in the memtables,
`allocated` the batches that got sequence numbers and `failed` those whose append failed. -/
@[ext]
structure Progress where
  globalSeq : Nat
  visibleSeq : Nat
  write : WritePhase
  present : List Entry
  allocated : List WriteBatch
  failed : List WriteBatch

namespace Progress

/-- The steps of a writer as far as the frontier is concerned. -/
inductive Step : Progress → Progress → Prop
  | allocate {p : Progress} (batch : WriteBatch) (idle : p.write = .idle)
      (first : batch.sequence = p.globalSeq) :
      Step p { p with
        globalSeq := batch.lastSeq + 1
        write := .allocated batch
        allocated := p.allocated ++ [batch] }
  | append {p : Progress} {batch : WriteBatch} (phase : p.write = .allocated batch) :
      Step p { p with write := .appended batch }
  | fail {p : Progress} {batch : WriteBatch} (phase : p.write = .allocated batch) :
      Step p { p with write := .idle, failed := p.failed ++ [batch] }
  | insert {p : Progress} {batch : WriteBatch} {present : List Entry}
      (phase : p.write = .appended batch) (kept : p.present ⊆ present)
      (new : ∀ entry ∈ present, entry ∈ p.present ∨ entry ∈ batch.entries) :
      Step p { p with present := present }
  | apply {p : Progress} {batch : WriteBatch} (phase : p.write = .appended batch)
      (complete : ∀ entry ∈ batch.entries, entry ∈ p.present) :
      Step p { p with write := .applied batch }
  | publish {p : Progress} {batch : WriteBatch} (phase : p.write = .applied batch) :
      Step p { p with visibleSeq := max p.visibleSeq batch.lastSeq, write := .idle }

theorem Step.congr {p q r : Progress} (step : Step p q) (globalSeq : r.globalSeq = q.globalSeq)
    (visibleSeq : r.visibleSeq = q.visibleSeq) (write : r.write = q.write)
    (present : r.present = q.present) (allocated : r.allocated = q.allocated)
    (failed : r.failed = q.failed) : Step p r := by
  rwa [Progress.ext globalSeq visibleSeq write present allocated failed]

/-- Every batch allocated since `base` has failed, is in flight above the frontier, or is present
below it. -/
structure Settled (base : Nat) (p : Progress) : Prop where
  visible : p.visibleSeq < p.globalSeq
  started : base ≤ p.globalSeq
  order : Increasing p.allocated
  range : ∀ batch ∈ p.allocated, base ≤ batch.sequence ∧ batch.lastSeq < p.globalSeq
  failed : ∀ batch ∈ p.failed, batch ∈ p.allocated
  held : ∀ entry ∈ p.present, entry.seq < base ∨
    ∃ batch ∈ p.allocated, batch ∉ p.failed ∧ p.write ≠ .allocated batch ∧ entry ∈ batch.entries
  flight : ∀ batch, p.write.batch? = some batch →
    batch ∈ p.allocated ∧ batch ∉ p.failed ∧ p.visibleSeq < batch.sequence
  complete : ∀ batch, p.write = .applied batch → ∀ entry ∈ batch.entries, entry ∈ p.present
  settled : ∀ batch ∈ p.allocated, batch ∈ p.failed ∨ p.write.batch? = some batch ∨
    batch.lastSeq ≤ p.visibleSeq ∧ ∀ entry ∈ batch.entries, entry ∈ p.present

variable {base : Nat} {p q : Progress} {batch : WriteBatch}

theorem Settled.allocate {batch : WriteBatch} (inv : p.Settled base) (idle : p.write = .idle)
    (first : batch.sequence = p.globalSeq) : Settled base { p with
      globalSeq := batch.lastSeq + 1
      write := .allocated batch
      allocated := p.allocated ++ [batch] } := by
  have span := batch.sequence_le_lastSeq
  have visible := inv.visible
  have started := inv.started
  refine ⟨?_, ?_, ?_, ?_, ?_, ?_, ?_, ?_, ?_⟩
  · change p.visibleSeq < batch.lastSeq + 1
    omega
  · change base ≤ batch.lastSeq + 1
    omega
  · refine List.pairwise_append.mpr ⟨inv.order, List.pairwise_singleton _ _, ?_⟩
    intro earlier member later new
    rw [List.mem_singleton.mp new, first]
    exact (inv.range earlier member).2
  · intro other member
    change base ≤ other.sequence ∧ other.lastSeq < batch.lastSeq + 1
    rcases List.mem_append.mp member with old | new
    · have bounds := inv.range other old
      omega
    · rw [List.mem_singleton.mp new]
      omega
  · intro other member
    exact List.mem_append_left _ (inv.failed other member)
  · intro entry member
    rcases inv.held entry member with old | ⟨other, listed, kept, _, inside⟩
    · exact .inl old
    · refine .inr ⟨other, List.mem_append_left _ listed, kept, ?_, inside⟩
      intro same
      injection same with same
      have bounds := inv.range other listed
      rw [same] at first span
      omega
  · intro other same
    cases same
    refine ⟨List.mem_append_right _ (List.mem_singleton.mpr rfl), ?_, first ▸ visible⟩
    intro failed
    have bounds := inv.range batch (inv.failed batch failed)
    omega
  · intro other phase
    cases phase
  · intro other member
    rcases List.mem_append.mp member with old | new
    · rcases inv.settled other old with failed | flight | done
      · exact .inl failed
      · rw [idle] at flight
        cases flight
      · exact .inr (.inr done)
    · rw [List.mem_singleton.mp new]
      exact .inr (.inl rfl)

theorem Settled.fail (inv : p.Settled base) (phase : p.write = .allocated batch) :
    Settled base { p with write := .idle, failed := p.failed ++ [batch] } := by
  have flight : p.write.batch? = some batch := by
    rw [phase]
    rfl
  obtain ⟨listed, _, above⟩ := inv.flight batch flight
  have known : ∀ other, p.write.batch? = some other → other = batch := by
    intro other held
    exact Option.some.inj (held.symm.trans flight)
  refine ⟨inv.visible, inv.started, inv.order, inv.range, ?_, ?_, ?_, ?_, ?_⟩
  · intro other member
    rcases List.mem_append.mp member with old | new
    · exact inv.failed other old
    · rw [List.mem_singleton.mp new]
      exact listed
  · intro entry member
    rcases inv.held entry member with old | ⟨other, allocated, kept, different, inside⟩
    · exact .inl old
    · refine .inr ⟨other, allocated, ?_, by simp, inside⟩
      intro failed
      rcases List.mem_append.mp failed with before | new
      · exact kept before
      · rw [List.mem_singleton.mp new] at different
        exact different phase
  · intro other held
    cases held
  · intro other held
    cases held
  · intro other member
    rcases inv.settled other member with failed | held | done
    · exact .inl (List.mem_append_left _ failed)
    · rw [known other held]
      exact .inl (List.mem_append_right _ (List.mem_singleton.mpr rfl))
    · exact .inr (.inr done)

theorem Settled.advance {write : WritePhase} {present : List Entry} (inv : p.Settled base)
    (before : p.write.batch? = some batch) (after : write.batch? = some batch)
    (logged : write ≠ .allocated batch) (kept : p.present ⊆ present)
    (new : ∀ entry ∈ present, entry ∈ p.present ∨ entry ∈ batch.entries)
    (complete : write = .applied batch → ∀ entry ∈ batch.entries, entry ∈ present) :
    Settled base { p with write := write, present := present } := by
  obtain ⟨listed, alive, above⟩ := inv.flight batch before
  have same : ∀ other, write.batch? = some other → other = batch := by
    intro other held
    exact Option.some.inj (held.symm.trans after)
  refine ⟨inv.visible, inv.started, inv.order, inv.range, inv.failed, ?_, ?_, ?_, ?_⟩
  · have free : ∀ other, write ≠ .allocated other := by
      rintro other rfl
      exact logged (congrArg _ (same other rfl))
    intro entry member
    rcases new entry member with old | inside
    · rcases inv.held entry old with early | ⟨other, allocated, kept, _, inside⟩
      · exact .inl early
      · exact .inr ⟨other, allocated, kept, free other, inside⟩
    · exact .inr ⟨batch, listed, alive, logged, inside⟩
  · intro other held
    rw [same other held]
    exact ⟨listed, alive, above⟩
  · intro other held
    have equal := same other (congrArg WritePhase.batch? held)
    subst equal
    exact complete held
  · intro other member
    rcases inv.settled other member with failed | held | ⟨low, whole⟩
    · exact .inl failed
    · exact .inr (.inl (after.trans (before.symm.trans held)))
    · exact .inr (.inr ⟨low, fun entry inside => kept (whole entry inside)⟩)

theorem Settled.publish (inv : p.Settled base) (phase : p.write = .applied batch) :
    Settled base { p with visibleSeq := max p.visibleSeq batch.lastSeq, write := .idle } := by
  have flight : p.write.batch? = some batch := by
    rw [phase]
    rfl
  obtain ⟨listed, alive, above⟩ := inv.flight batch flight
  refine ⟨max_lt inv.visible (inv.range batch listed).2, inv.started, inv.order, inv.range,
    inv.failed, ?_, ?_, ?_, ?_⟩
  · intro entry member
    rcases inv.held entry member with early | ⟨other, allocated, kept, _, inside⟩
    · exact .inl early
    · exact .inr ⟨other, allocated, kept, by simp, inside⟩
  · intro other held
    cases held
  · intro other held
    cases held
  · intro other member
    rcases inv.settled other member with failed | held | ⟨low, whole⟩
    · exact .inl failed
    · have same := Option.some.inj (held.symm.trans flight)
      rw [same]
      exact .inr (.inr ⟨le_max_right _ _, inv.complete batch phase⟩)
    · exact .inr (.inr ⟨low.trans (le_max_left _ _), whole⟩)

theorem Settled.step (inv : p.Settled base) (step : Step p q) : q.Settled base := by
  cases step with
  | allocate batch idle first => exact inv.allocate idle first
  | append phase =>
    exact inv.advance (by rw [phase]; rfl) rfl (by simp) (List.Subset.refl _)
      (fun _ member => .inl member) (by simp)
  | fail phase => exact inv.fail phase
  | insert phase kept new =>
    refine inv.advance (by rw [phase]; rfl) (by rw [phase]; rfl) (by simp [phase]) kept new ?_
    simp [phase]
  | apply phase complete =>
    exact inv.advance (by rw [phase]; rfl) rfl (by simp) (List.Subset.refl _)
      (fun _ member => .inl member) (fun _ => complete)
  | publish phase => exact inv.publish phase

/-- What a reader of `p` may find later: everything it could find before, and else only records
above the frontier it has read. -/
structure Later (p q : Progress) : Prop where
  visible : p.visibleSeq ≤ q.visibleSeq
  global : p.globalSeq ≤ q.globalSeq
  kept : p.present ⊆ q.present
  new : ∀ entry ∈ q.present, entry ∈ p.present ∨ p.visibleSeq < entry.seq
  allocated : ∀ batch ∈ q.allocated, batch ∈ p.allocated ∨ p.globalSeq ≤ batch.sequence

theorem Later.refl (p : Progress) : Later p p :=
  ⟨le_rfl, le_rfl, List.Subset.refl _, fun _ member => .inl member, fun _ member => .inl member⟩

theorem Later.trans {r : Progress} (first : Later p q) (second : Later q r) : Later p r where
  visible := first.visible.trans second.visible
  global := first.global.trans second.global
  kept := List.Subset.trans first.kept second.kept
  new := by
    intro entry member
    rcases second.new entry member with old | above
    · exact first.new entry old
    · exact .inr (lt_of_le_of_lt first.visible above)
  allocated := by
    intro batch member
    rcases second.allocated batch member with old | above
    · exact first.allocated batch old
    · exact .inr (first.global.trans above)

theorem Settled.later (inv : p.Settled base) (step : Step p q) : Later p q := by
  have same := Later.refl p
  cases step with
  | allocate batch idle first =>
    refine ⟨le_rfl, ?_, same.kept, same.new, ?_⟩
    · have := batch.sequence_le_lastSeq
      change p.globalSeq ≤ batch.lastSeq + 1
      omega
    · intro other member
      rcases List.mem_append.mp member with old | new
      · exact .inl old
      · rw [List.mem_singleton.mp new]
        exact .inr first.ge
  | append | fail | apply => exact ⟨le_rfl, le_rfl, same.kept, same.new, same.allocated⟩
  | @insert batch present phase kept new =>
    refine ⟨le_rfl, le_rfl, kept, ?_, same.allocated⟩
    intro entry member
    rcases new entry member with old | inside
    · exact .inl old
    · have above := (inv.flight batch (by rw [phase]; rfl)).2.2
      exact .inr (lt_of_lt_of_le above (WriteBatch.seq_bounds inside).1)
  | publish phase => exact ⟨le_max_left _ _, le_rfl, same.kept, same.new, same.allocated⟩

section

variable (inv : p.Settled base) (known : batch ∈ p.allocated ∨ p.globalSeq ≤ batch.sequence)
include inv known

theorem Settled.whole :
    (∀ entry ∈ batch.entries, entry.seq ≤ p.visibleSeq ∧ entry ∈ p.present) ∨
      ∀ entry ∈ batch.entries, ¬ (entry.seq ≤ p.visibleSeq ∧ entry ∈ p.present) := by
  have above : p.visibleSeq < batch.sequence →
      ∀ entry ∈ batch.entries, ¬ (entry.seq ≤ p.visibleSeq ∧ entry ∈ p.present) := by
    intro beyond entry inside shown
    have := (WriteBatch.seq_bounds inside).1
    omega
  rcases known with listed | coming
  swap
  · exact .inr (above (lt_of_lt_of_le inv.visible coming))
  rcases inv.settled batch listed with failed | flight | ⟨low, whole⟩
  · right
    intro entry inside shown
    rcases inv.held entry shown.2 with early | ⟨other, allocated, alive, _, within⟩
    · have := (WriteBatch.seq_bounds inside).1
      have := (inv.range batch listed).1
      omega
    · -- The sequence number of the record tells its batch.
      have equal := inv.order.eq_of_seq allocated listed (WriteBatch.seq_bounds within)
        (WriteBatch.seq_bounds inside)
      exact alive (equal ▸ failed)
  · exact .inr (above (inv.flight batch flight).2.2)
  · left
    intro entry inside
    exact ⟨(WriteBatch.seq_bounds inside).2.trans low, whole entry inside⟩

theorem Settled.accounted {seq : Nat} (lower : batch.sequence ≤ seq) (upper : seq ≤ batch.lastSeq)
    (visible : seq ≤ p.visibleSeq) :
    (∃ entry ∈ p.present, entry ∈ batch.entries ∧ entry.seq = seq) ∨ batch ∈ p.failed := by
  have frontier := inv.visible
  rcases known with listed | coming
  swap
  · omega
  rcases inv.settled batch listed with failed | flight | ⟨_, whole⟩
  · exact .inr failed
  · have := (inv.flight batch flight).2.2
    omega
  · obtain ⟨entry, inside, same⟩ := batch.exists_seq lower upper
    exact .inl ⟨entry, whole entry inside, inside, same⟩

end

end Progress

/-- The engine while the records of an appended batch go into the active memtable one by one.
`allocated` and `failed` record the batches that got sequence numbers and the failed appends. -/
structure Inserting where
  system : System
  inserted : Nat
  allocated : List WriteBatch
  failed : List WriteBatch

/-- An opened engine: every replayed record is visible, and the next write gets the next number. -/
structure System.Opened (s : System) : Prop where
  idle : s.write = .idle
  next : s.visibleSeq + 1 = s.globalSeq
  replayed : ∀ entry ∈ entriesOf s.memtable.batches, entry.seq ≤ s.visibleSeq

theorem initial_opened (config : Config) : (System.initial config).Opened where
  idle := rfl
  next := rfl
  replayed := by intro entry member; cases member

theorem opened_opened (config : Config) (disk : Disk) : (System.opened config disk).Opened where
  idle := rfl
  next := rfl
  replayed := by
    intro entry member
    have batches : (System.opened config disk).memtable.batches = disk.logs.batches :=
      (disk.memtable_queue config).2.2.2.2
    rw [batches] at member
    obtain ⟨batch, recovered, inBatch⟩ := mem_entriesOf.mp member
    have below := Disk.batch_lt_initSeq recovered
    exact (WriteBatch.seq_bounds inBatch).2.trans (Nat.lt_succ_iff.mp below)

inductive InsertAction where
  | insert
  | act (action : Action)
  deriving DecidableEq

/-- The batch cut after its first `count` records. -/
def WriteBatch.first (batch : WriteBatch) (count : Nat) : Option WriteBatch :=
  if some_record : batch.records.take count ≠ [] then
    some ⟨batch.sequence, batch.records.take count, some_record⟩
  else none

theorem WriteBatch.first_entries (batch : WriteBatch) (count : Nat) :
    entriesOf (batch.first count).toList = batch.entries.take count := by
  unfold WriteBatch.first
  split
  · rw [Option.toList_some, entriesOf_singleton]
    exact WriteBatch.entriesFrom_take batch.sequence count batch.records
  · rename_i empty
    rw [Option.toList_none, entriesOf_nil, WriteBatch.entries, ← WriteBatch.entriesFrom_take,
      not_not.mp empty]
    rfl

namespace Inserting

def opened (s : System) : Inserting := ⟨s, 0, [], []⟩

/-- The memtables as a reader finds them between two insertions. -/
def memtable (config : Config) (f : Inserting) : MemtableManager :=
  match f.system.write with
  | .appended batch => (batch.first f.inserted).toList.foldl
      (MemtableManager.applyBatch config.encodedLen) f.system.memtable
  | _ => f.system.memtable

/-- The records a reader finds in the memtables. -/
def records (config : Config) (f : Inserting) : List Entry := entriesOf (f.memtable config).batches

/-- `apply_batch` ends with its last record; a rotation and a drop need the memtable set for
themselves. -/
def enabled (f : Inserting) : Action → Bool
  | .write .apply =>
    match f.system.write with
    | .appended batch => f.inserted = batch.records.length
    | _ => false
  | .rotate .sealActive => f.inserted = 0
  | .flush .dropEmpty => f.inserted = 0
  | .flush .drop => f.inserted = 0
  | _ => true

def after (f : Inserting) (action : Action) (system : System) : Inserting where
  system := system
  inserted :=
    match action with
    | .write .append => 0
    | .write .apply => 0
    | _ => f.inserted
  allocated :=
    match action with
    | .write (.allocate _) => f.allocated ++ system.write.batch?.toList
    | _ => f.allocated
  failed :=
    match action with
    | .write (.appendFailed _) => f.failed ++ f.system.write.batch?.toList
    | _ => f.failed

end Inserting

def insertStep (config : Config) (f : Inserting) : InsertAction → Option Inserting
  | .insert =>
    match f.system.write with
    | .appended batch =>
      if f.inserted < batch.records.length then some { f with inserted := f.inserted + 1 }
      else none
    | _ => none
  | .act action =>
    if f.enabled action then (step config f.system action).map (f.after action) else none

/-- No memtable is dropped. -/
def KeepsMemtables (_ : Inserting) : InsertAction → Prop
  | .act (.flush .dropEmpty) => False
  | .act (.flush .drop) => False
  | _ => True

namespace Inserting

variable {config : Config} {f g : Inserting} {action : InsertAction}

def progress (config : Config) (f : Inserting) : Progress where
  globalSeq := f.system.globalSeq
  visibleSeq := f.system.visibleSeq
  write := f.system.write
  present := f.records config
  allocated := f.allocated
  failed := f.failed

theorem records_appended {batch : WriteBatch} (phase : f.system.write = .appended batch) :
    f.records config = entriesOf f.system.memtable.batches ++ batch.entries.take f.inserted := by
  have found : f.memtable config = (batch.first f.inserted).toList.foldl
      (MemtableManager.applyBatch config.encodedLen) f.system.memtable := by
    unfold memtable
    rw [phase]
  rw [← WriteBatch.first_entries, records, found]
  cases batch.first f.inserted with
  | none => simp
  | some part => simp

theorem records_other (phase : ∀ batch, f.system.write ≠ .appended batch) :
    f.records config = entriesOf f.system.memtable.batches := by
  unfold records memtable
  split
  · rename_i batch found
    exact absurd found (phase batch)
  · rfl

theorem records_congr (before : ∀ batch, f.system.write ≠ .appended batch)
    (after : ∀ batch, g.system.write ≠ .appended batch)
    (batches : g.system.memtable.batches = f.system.memtable.batches) :
    g.records config = f.records config := by
  rw [records_other before, records_other after, batches]

theorem progress_frame {action : Action} {t : System} (write : t.write = f.system.write)
    (global : t.globalSeq = f.system.globalSeq) (visible : t.visibleSeq = f.system.visibleSeq)
    (batches : t.memtable.batches = f.system.memtable.batches)
    (other : ∀ own, action ≠ .write own) :
    (f.after action t).progress config = f.progress config := by
  have ghosts : f.after action t = { f with system := t } := by
    cases action with
    | write own => exact absurd rfl (other own)
    | _ => rfl
  have present : (f.after action t).records config = f.records config := by
    rw [ghosts]
    by_cases inside : ∃ batch, f.system.write = .appended batch
    · obtain ⟨batch, phase⟩ := inside
      rw [records_appended phase, records_appended (write.trans phase), batches]
    · have free : ∀ batch, f.system.write ≠ .appended batch := fun batch found =>
        inside ⟨batch, found⟩
      exact records_congr free (write ▸ free) batches
  rw [progress, present, ghosts]
  simp only [progress, write, global, visible]

theorem write_progress {action : WriteAction} {t : System} (ready : f.enabled (.write action))
    (fired : writeStep config f.system action = some t) :
    (f.progress config).Step ((f.after (.write action) t).progress config) := by
  cases write_effect fired with
  | @allocate records idle _ batch first same =>
    have last : f.system.globalSeq + records.length = batch.lastSeq + 1 := by
      have := batch.records_length_pos
      rw [WriteBatch.lastSeq, first, same] at *
      omega
    have moved := Progress.Step.allocate (p := f.progress config) batch idle first
    refine moved.congr last rfl rfl ?_ rfl rfl
    exact records_congr (by simp [idle]) (by simp [after]) rfl
  | append batch phase =>
    have moved := Progress.Step.append (p := f.progress config) phase
    refine moved.congr rfl rfl rfl ?_ rfl rfl
    refine (records_appended rfl).trans ?_
    change _ = f.records config
    rw [records_other (by simp [phase])]
    simp [after]
  | appendFailed batch phase =>
    have moved := Progress.Step.fail (p := f.progress config) phase
    refine moved.congr rfl rfl rfl ?_ rfl ?_
    · exact records_congr (by simp [phase]) (by simp [after]) rfl
    · change f.failed ++ f.system.write.batch?.toList = f.failed ++ [batch]
      rw [phase]
      rfl
  | apply batch phase =>
    have all : f.inserted = batch.records.length := by simpa [enabled, phase] using ready
    have whole : batch.entries.take f.inserted = batch.entries := by
      apply List.take_of_length_le
      rw [WriteBatch.entries, WriteBatch.entriesFrom_length, all]
    have present : f.records config = entriesOf f.system.memtable.batches ++ batch.entries := by
      rw [records_appended phase, whole]
    have complete : ∀ entry ∈ batch.entries, entry ∈ f.records config := by
      intro entry inside
      rw [present]
      exact List.mem_append_right _ inside
    have moved := Progress.Step.apply (p := f.progress config) phase complete
    refine moved.congr rfl rfl rfl ?_ rfl rfl
    refine (records_other (by simp [after])).trans ?_
    change _ = f.records config
    rw [present]
    simp [after]
  | publish batch phase =>
    have moved := Progress.Step.publish (p := f.progress config) phase
    refine moved.congr rfl rfl rfl ?_ rfl rfl
    exact records_congr (by simp [phase]) (by simp [after]) rfl

theorem insert_progress (kept : KeepsMemtables f action)
    (fired : insertStep config f action = some g) :
    g.progress config = f.progress config ∨ (f.progress config).Step (g.progress config) := by
  cases action with
  | insert =>
    simp only [insertStep] at fired
    split at fired
    · rename_i batch phase
      split at fired <;> cases fired
      right
      have before : f.records config = _ := records_appended phase
      have after : records config { f with inserted := f.inserted + 1 } =
          entriesOf f.system.memtable.batches ++ batch.entries.take (f.inserted + 1) :=
        records_appended phase
      refine .insert phase ?_ ?_
      · change f.records config ⊆ records config { f with inserted := f.inserted + 1 }
        rw [before, after]
        intro entry member
        rcases List.mem_append.mp member with old | inside
        · exact List.mem_append_left _ old
        · exact List.mem_append_right _ (List.take_subset_take_left _ (Nat.le_succ _) inside)
      · intro entry member
        change entry ∈ records config { f with inserted := f.inserted + 1 } at member
        rw [after] at member
        rcases List.mem_append.mp member with old | inside
        · left
          change entry ∈ f.records config
          rw [before]
          exact List.mem_append_left _ old
        · exact .inr (List.mem_of_mem_take inside)
    · cases fired
  | act action =>
    simp only [insertStep] at fired
    split at fired
    swap
    · cases fired
    rename_i ready
    obtain ⟨t, stepped, rfl⟩ := Option.map_eq_some_iff.mp fired
    cases step_effect stepped with
    | write own => exact .inr (write_progress ready own)
    | rotate own => exact .inl (progress_frame rfl rfl rfl (rotation_batches own) (by simp))
    | flush own =>
      left
      rcases flush_memtable own with same | ⟨_, _, ⟨rfl, _⟩ | ⟨rfl, _⟩⟩
      · exact progress_frame rfl rfl rfl (congrArg MemtableManager.batches same) (by simp)
      · exact kept.elim
      · exact kept.elim
    | _ => exact .inl (progress_frame rfl rfl rfl rfl (by simp))

theorem opened_settled {s : System} (opened : s.Opened) :
    ((Inserting.opened s).progress config).Settled s.globalSeq := by
  have next := opened.next
  have records : (Inserting.opened s).records config = entriesOf s.memtable.batches :=
    records_other (by simp [Inserting.opened, opened.idle])
  refine ⟨?_, le_rfl, List.Pairwise.nil, by simp [progress, Inserting.opened],
    by simp [progress, Inserting.opened], ?_, ?_, ?_, by simp [progress, Inserting.opened]⟩
  · change s.visibleSeq < s.globalSeq
    omega
  · intro entry member
    change entry ∈ (Inserting.opened s).records config at member
    rw [records] at member
    have := opened.replayed entry member
    left
    omega
  · intro batch held
    change s.write.batch? = some batch at held
    rw [opened.idle] at held
    cases held
  · intro batch phase
    change s.write = .applied batch at phase
    rw [opened.idle] at phase
    cases phase

theorem settled_step {base : Nat} (inv : (f.progress config).Settled base)
    (kept : KeepsMemtables f action) (fired : insertStep config f action = some g) :
    (g.progress config).Settled base ∧ (f.progress config).Later (g.progress config) := by
  rcases insert_progress kept fired with same | moved
  · rw [same]
    exact ⟨inv, .refl _⟩
  · exact ⟨inv.step moved, inv.later moved⟩

end Inserting

/-- A reader loads `read_seq` in `f` and reads the memtables in any later state `g`, between any two
insertions. What it finds up to `read_seq` does not depend on the moment; it is all or none of each
batch; and every sequence number up to `read_seq` that was ever handed out belongs to a record it
finds or to a write that failed. -/
theorem reader_finds_whole_batches (config : Config) (s : System) (opened : s.Opened)
    (before after : List InsertAction) (f g : Inserting)
    (loaded : Run (insertStep config) KeepsMemtables (.opened s) before f)
    (read : Run (insertStep config) KeepsMemtables f after g) :
    (∀ entry, entry.seq ≤ f.system.visibleSeq →
      (entry ∈ g.records config ↔ entry ∈ f.records config)) ∧
    (∀ batch ∈ g.allocated,
      (∀ entry ∈ batch.entries, entry.seq ≤ f.system.visibleSeq ∧ entry ∈ g.records config) ∨
        ∀ entry ∈ batch.entries, ¬ (entry.seq ≤ f.system.visibleSeq ∧ entry ∈ g.records config)) ∧
    ∀ batch ∈ g.allocated, ∀ seq, batch.sequence ≤ seq → seq ≤ batch.lastSeq →
      seq ≤ f.system.visibleSeq →
        (∃ entry ∈ f.records config, entry ∈ batch.entries ∧ entry.seq = seq) ∨
          batch ∈ f.failed := by
  have inv : (f.progress config).Settled s.globalSeq :=
    loaded.invariant (fun f => (f.progress config).Settled s.globalSeq)
      (fun _ _ _ inv kept fired => (Inserting.settled_step inv kept fired).1)
      (Inserting.opened_settled opened)
  have later : (f.progress config).Later (g.progress config) :=
    read.relation (fun f => (f.progress config).Settled s.globalSeq)
      (fun f g => (f.progress config).Later (g.progress config)) (fun _ => .refl _)
      (fun _ _ _ => .trans) (fun _ _ _ inv kept fired => Inserting.settled_step inv kept fired) inv
  have stable : ∀ entry, entry.seq ≤ f.system.visibleSeq →
      (entry ∈ g.records config ↔ entry ∈ f.records config) := by
    intro entry visible
    constructor
    · intro member
      rcases later.new entry member with old | above
      · exact old
      · exact absurd visible (not_le.mpr above)
    · exact fun member => later.kept member
  refine ⟨stable, ?_, ?_⟩
  · intro batch listed
    rcases inv.whole (later.allocated batch listed) with all | none
    · left
      intro entry inside
      obtain ⟨visible, present⟩ := all entry inside
      exact ⟨visible, (stable entry visible).mpr present⟩
    · right
      intro entry inside shown
      exact none entry inside ⟨shown.1, (stable entry shown.1).mp shown.2⟩
  · intro batch listed seq lower upper visible
    exact inv.accounted (later.allocated batch listed) lower upper visible

/-- A put is published, another one fails, and a reader loads `read_seq` when the first of two
records of a batch has been inserted. -/
def halfInserted : List InsertAction :=
  [.act (.write (.allocate [putByte 1 1])), .act (.write .append), .insert, .act (.write .apply),
    .act (.write .publish), .act (.write (.allocate [putByte 4 4])),
    .act (.write (.appendFailed false)), .act (.write (.allocate [putByte 2 2, putByte 3 3])),
    .act (.write .append), .insert]

/-- The batch is completed, published and sealed. -/
def restInserted : List InsertAction :=
  [.insert, .act (.write .apply), .act (.write .publish), .act (.rotate .lock),
    .act (.rotate .readSeq), .act (.rotate .sealActive)]

def halfway : Inserting := final (insertStep .plain) (.opened (.initial .plain)) halfInserted

theorem reader_finds_whole_batches_half :
    halfway.system.visibleSeq = 1 ∧ (halfway.records .plain).length = 2 ∧
      ((final (insertStep .plain) halfway restInserted).records .plain).length = 3 ∧
      ∀ batch ∈ (final (insertStep .plain) halfway restInserted).allocated,
        (∀ entry ∈ batch.entries, entry.seq ≤ halfway.system.visibleSeq ∧
          entry ∈ (final (insertStep .plain) halfway restInserted).records .plain) ∨
        ∀ entry ∈ batch.entries, ¬ (entry.seq ≤ halfway.system.visibleSeq ∧
          entry ∈ (final (insertStep .plain) halfway restInserted).records .plain) := by
  have loaded : Run (insertStep .plain) KeepsMemtables (.opened (.initial .plain)) halfInserted
      halfway :=
    .of_execute (by simp [halfInserted, KeepsMemtables]) (execute_final (by decide +kernel))
  have read : Run (insertStep .plain) KeepsMemtables halfway restInserted
      (final (insertStep .plain) halfway restInserted) :=
    .of_execute (by simp [restInserted, KeepsMemtables]) (execute_final (by decide +kernel))
  exact ⟨by decide +kernel, by decide +kernel, by decide +kernel,
    (reader_finds_whole_batches .plain _ (initial_opened .plain) _ _ _ _ loaded read).2.1⟩

end Merutable
