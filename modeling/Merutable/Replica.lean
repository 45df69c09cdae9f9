import Merutable.Types

/-! The scale-out replica: a read-only base, and a tail of operations replayed from a log source
over it. Reads go to the tail first and fall through to the base. -/

namespace Merutable

open Foundation

inductive ChangeOp where
  | insert
  | update
  | delete
  deriving DecidableEq

/-- An operation as the log source ships it. The row of a delete is its pre-image. -/
structure OpRecord where
  seq : Nat
  op : ChangeOp
  row : Row
  pk : UserKey
  deriving DecidableEq

/-- The errors the replica tells apart: the retention gap, and everything else. -/
inductive ReplicaError where
  | changeFeedBelowRetention (requested lowWater : Nat)
  | failed
  deriving DecidableEq

/-- What a log source returns for one call of `stream`: the records it yields, in order, and how
the stream ends. A call that fails at once yields nothing. -/
structure LogStream where
  records : List OpRecord
  ending : Except ReplicaError Unit

abbrev LogSource := Nat → LogStream

structure TailEntry where
  seq : Nat
  op : ChangeOp
  row : Row
  deriving DecidableEq

structure ReplicaTail where
  index : UserKey → Option TailEntry
  visibleSeq : Nat
  opsApplied : Nat

namespace ReplicaTail

def new : ReplicaTail := ⟨fun _ => none, 0, 0⟩

def seedVisibleSeq (tail : ReplicaTail) (seq : Nat) : ReplicaTail :=
  if tail.visibleSeq < seq then { tail with visibleSeq := seq } else tail

def get (tail : ReplicaTail) (pk : UserKey) : Option Row :=
  (tail.index pk).bind fun entry =>
    match entry.op with
    | .insert | .update => some entry.row
    | .delete => none

/-- Last writer wins: a record that is not newer than the one held for its key is dropped. -/
def apply (tail : ReplicaTail) (record : OpRecord) : ReplicaTail :=
  if (tail.index record.pk).any fun existing => record.seq ≤ existing.seq then tail
  else
    { index := Function.update tail.index record.pk (some ⟨record.seq, record.op, record.row⟩)
      visibleSeq := max tail.visibleSeq record.seq
      opsApplied := tail.opsApplied + 1 }

/-- The records before an error have been applied when the error is returned. -/
def advance (tail : ReplicaTail) (source : LogSource) : ReplicaTail × Except ReplicaError Unit :=
  let stream := source tail.visibleSeq
  (stream.records.foldl apply tail, stream.ending)

/-- The tail of a base that was opened or refreshed to `baseSeq`. -/
def seeded (baseSeq : Nat) : ReplicaTail :=
  if 0 < baseSeq then new.seedVisibleSeq baseSeq else new

end ReplicaTail

/-- The read-only database under the tail, as far as the replica uses it. -/
structure ReplicaBase where
  readSeq : Nat
  get : UserKey → Option Row

structure Replica where
  base : ReplicaBase
  tail : ReplicaTail

inductive AdvanceOutcome where
  | advanced
  | recovered (newBaseSeq : Nat)

namespace Replica

/-- `open`, given what opening the base returns. The log source is not drained. -/
def mount (opened : Except ReplicaError ReplicaBase) : Except ReplicaError Replica := do
  let base ← opened
  return ⟨base, .seeded base.readSeq⟩

def advance (replica : Replica) (source : LogSource) : Replica × Except ReplicaError Unit :=
  let drained := replica.tail.advance source
  ({ replica with tail := drained.1 }, drained.2)

def get (replica : Replica) (pk : UserKey) : Option Row :=
  if (replica.tail.index pk).isSome then replica.tail.get pk else replica.base.get pk

def visibleSeq (replica : Replica) : Nat := replica.tail.visibleSeq

/-- `refreshed` is the base after `MeruDB::refresh`, which keeps the old one when it fails. -/
def rebase (replica : Replica) (refreshed : Except ReplicaError ReplicaBase) (source : LogSource) :
    Replica × Except ReplicaError Unit :=
  match refreshed with
  | .error error => (replica, .error error)
  | .ok base =>
    let drained := (ReplicaTail.seeded base.readSeq).advance source
    (⟨base, drained.1⟩, drained.2)

/-- `timely` is false when the deadline passes before the new state is warm. -/
def rebaseHotswap (replica : Replica) (opened : Except ReplicaError ReplicaBase)
    (source : LogSource) (timely : Bool) : Replica × Except ReplicaError (Nat × Nat) :=
  if timely then
    match opened with
    | .error error => (replica, .error error)
    | .ok base =>
      let drained := (ReplicaTail.seeded base.readSeq).advance source
      match drained.2 with
      | .ok () | .error (.changeFeedBelowRetention _ _) =>
        (⟨base, drained.1⟩, .ok (base.readSeq, drained.1.visibleSeq))
      | .error other => (replica, .error other)
  else (replica, .error .failed)

def advanceOrRecover (replica : Replica) (source : LogSource)
    (opened : Except ReplicaError ReplicaBase) (again : LogSource) (timely : Bool) :
    Replica × Except ReplicaError AdvanceOutcome :=
  let advanced := replica.advance source
  match advanced.2 with
  | .ok () => (advanced.1, .ok .advanced)
  | .error (.changeFeedBelowRetention _ _) =>
    let recovered := advanced.1.rebaseHotswap opened again timely
    (recovered.1, recovered.2.map fun seqs => .recovered seqs.1)
  | .error other => (advanced.1, .error other)

end Replica

/-- The calls that change a replica, each with what the catalog and the log source return. -/
inductive ReplicaCall where
  | advance (source : LogSource)
  | rebase (refreshed : Except ReplicaError ReplicaBase) (source : LogSource)
  | rebaseHotswap (opened : Except ReplicaError ReplicaBase) (source : LogSource) (timely : Bool)
  | advanceOrRecover (source : LogSource) (opened : Except ReplicaError ReplicaBase)
      (again : LogSource) (timely : Bool)

def Replica.call (replica : Replica) : ReplicaCall → Replica
  | .advance source => (replica.advance source).1
  | .rebase refreshed source => (replica.rebase refreshed source).1
  | .rebaseHotswap opened source timely => (replica.rebaseHotswap opened source timely).1
  | .advanceOrRecover source opened again timely =>
    (replica.advanceOrRecover source opened again timely).1

/-- A committed operation of the primary: the value its key has afterwards. -/
structure Operation where
  seq : Nat
  key : UserKey
  value : Option Row
  deriving DecidableEq

def OpRecord.operation (record : OpRecord) : Operation where
  seq := record.seq
  key := record.pk
  value :=
    match record.op with
    | .insert | .update => some record.row
    | .delete => none

/-- The operations of a primary in commit order. Every operation has a number of its own. -/
structure PrimaryHistory where
  operations : List Operation
  increasing : operations.Pairwise fun a b => a.seq < b.seq

namespace PrimaryHistory

def upTo (history : PrimaryHistory) (seq : Nat) : List Operation :=
  history.operations.filter fun operation => operation.seq ≤ seq

def after (history : PrimaryHistory) (seq : Nat) : List Operation :=
  history.operations.filter fun operation => seq < operation.seq

/-- The value of a key after all operations numbered up to `seq`. -/
def valueAt (history : PrimaryHistory) (seq : Nat) (key : UserKey) : Option Row :=
  (newest Operation.key key (history.upTo seq)).bind Operation.value

theorem upTo_append_after (history : PrimaryHistory) (seq : Nat) :
    history.upTo seq ++ history.after seq = history.operations := by
  obtain ⟨operations, increasing⟩ := history
  simp only [upTo, after]
  induction operations with
  | nil => rfl
  | cons first rest ih =>
    obtain ⟨above, increasing⟩ := List.pairwise_cons.mp increasing
    have rest' := ih increasing
    by_cases early : first.seq ≤ seq
    · have late : ¬ seq < first.seq := by omega
      simp only [List.filter_cons, early, late, decide_true, decide_false, if_true,
        Bool.false_eq_true, if_false, List.cons_append, rest']
    · have none : rest.filter (fun operation => decide (operation.seq ≤ seq)) = [] := by
        refine List.filter_eq_nil_iff.mpr fun operation member => ?_
        have := above operation member
        simp only [decide_eq_true_eq]
        omega
      have all : rest.filter (fun operation => decide (seq < operation.seq)) = rest := by
        rw [none, List.nil_append] at rest'
        exact rest'
      have late : seq < first.seq := by omega
      simp only [List.filter_cons, early, late, decide_true, decide_false, if_true,
        Bool.false_eq_true, if_false, none, all, List.nil_append]

theorem after_cons {history : PrimaryHistory} {seq : Nat} {next : Operation}
    {rest : List Operation} (following : history.after seq = next :: rest) :
    seq < next.seq ∧ history.upTo next.seq = history.upTo seq ++ [next] ∧
      history.after next.seq = rest := by
  have split := history.upTo_append_after seq
  have increasing := history.increasing
  rw [following] at split
  have late : seq < next.seq := by
    have member : next ∈ history.after seq := by
      rw [following]
      exact List.mem_cons_self
    simpa [after] using (List.mem_filter.mp member).2
  have early : ∀ operation ∈ history.upTo seq, operation.seq ≤ seq := fun operation member => by
    simpa [upTo] using (List.mem_filter.mp member).2
  rw [← split] at increasing
  have above := (List.pairwise_cons.mp (List.pairwise_append.mp increasing).2.1).1
  have rest_late : rest.filter (fun operation => decide (operation.seq ≤ next.seq)) = [] := by
    refine List.filter_eq_nil_iff.mpr fun operation member => ?_
    have := above operation member
    simp only [decide_eq_true_eq]
    omega
  have kept : (history.upTo seq).filter (fun operation => decide (operation.seq ≤ next.seq)) =
      history.upTo seq := by
    refine List.filter_eq_self.mpr fun operation member => ?_
    have := early operation member
    simp only [decide_eq_true_eq]
    omega
  have upTo_next : history.upTo next.seq = history.upTo seq ++ [next] := by
    conv_lhs => rw [upTo, ← split]
    simp only [List.filter_append, kept, List.filter_cons, le_refl, decide_true, if_true, rest_late]
  refine ⟨late, upTo_next, ?_⟩
  have whole := history.upTo_append_after next.seq
  rw [upTo_next, ← split, List.append_assoc] at whole
  simpa using List.append_cancel_left whole

/-- The operations above `floor` among those numbered up to `seq`. -/
def between (history : PrimaryHistory) (floor seq : Nat) : List Operation :=
  (history.upTo seq).filter fun operation => floor < operation.seq

theorem between_self (history : PrimaryHistory) (seq : Nat) : history.between seq seq = [] := by
  refine List.filter_eq_nil_iff.mpr fun operation member => ?_
  have := (List.mem_filter.mp member).2
  simp_all

theorem upTo_append_between (history : PrimaryHistory) {floor seq : Nat} (above : floor ≤ seq) :
    history.upTo floor ++ history.between floor seq = history.upTo seq := by
  have split := upTo_append_after ⟨history.upTo seq, history.increasing.filter _⟩ floor
  have front : (history.upTo seq).filter (fun operation => decide (operation.seq ≤ floor)) =
      history.upTo floor := by
    simp only [upTo, List.filter_filter]
    refine List.filter_congr fun operation _ => ?_
    rw [Bool.eq_iff_iff]
    simp only [Bool.and_eq_true, decide_eq_true_eq]
    omega
  rw [← front]
  exact split

end PrimaryHistory

variable {history : PrimaryHistory} {source : LogSource}

/-- A base that answers with the value of every key after all operations up to its sequence
number. -/
def ReplicaBase.Answers (history : PrimaryHistory) (base : ReplicaBase) : Prop :=
  ∀ key, base.get key = history.valueAt base.readSeq key

/-- A log source that yields the operations after `since` in order and without omissions. The
stream may stop, with or without an error, after any prefix. -/
def LogSource.Yields (history : PrimaryHistory) (source : LogSource) : Prop :=
  ∀ since, (source since).records.map OpRecord.operation <+: history.after since

def ReplicaCall.Faithful (history : PrimaryHistory) : ReplicaCall → Prop
  | .advance source => source.Yields history
  | .rebase refreshed source =>
    (∀ base, refreshed = .ok base → base.Answers history) ∧ source.Yields history
  | .rebaseHotswap opened source _ =>
    (∀ base, opened = .ok base → base.Answers history) ∧ source.Yields history
  | .advanceOrRecover source opened again _ =>
    source.Yields history ∧ (∀ base, opened = .ok base → base.Answers history) ∧
      again.Yields history

/-- The operation a tail entry stands for. -/
def TailEntry.operation (key : UserKey) (entry : TailEntry) : Operation :=
  OpRecord.operation ⟨entry.seq, entry.op, entry.row, key⟩

/-- The tail holds, for each key, the newest operation above the base it was seeded at. -/
structure ReplicaTail.Holds (history : PrimaryHistory) (floor : Nat) (tail : ReplicaTail) :
    Prop where
  above : floor ≤ tail.visibleSeq
  latest : ∀ key, (tail.index key).map (TailEntry.operation key) =
    newest Operation.key key (history.between floor tail.visibleSeq)

theorem ReplicaTail.seeded_visibleSeq (floor : Nat) :
    (ReplicaTail.seeded floor).visibleSeq = floor ∧
      (ReplicaTail.seeded floor).index = fun _ => none := by
  unfold seeded
  split
  · rename_i positive
    simp [seedVisibleSeq, new, positive]
  · simp only [new, and_true]
    omega

theorem ReplicaTail.Holds.seeded (floor : Nat) :
    (ReplicaTail.seeded floor).Holds history floor := by
  obtain ⟨visible, index⟩ := ReplicaTail.seeded_visibleSeq floor
  refine ⟨visible.ge, fun key => ?_⟩
  rw [index, visible, history.between_self]
  rfl

variable {floor : Nat} {tail : ReplicaTail}

theorem ReplicaTail.Holds.seq_le (holds : tail.Holds history floor) {key : UserKey}
    {entry : TailEntry} (held : tail.index key = some entry) : entry.seq ≤ tail.visibleSeq := by
  have found := holds.latest key
  rw [held, Option.map_some] at found
  have member := (newest_mem found.symm).1
  have bounded := (List.mem_filter.mp (List.mem_filter.mp member).1).2
  exact of_decide_eq_true bounded

theorem ReplicaTail.Holds.apply (holds : tail.Holds history floor) {record : OpRecord}
    {rest : List Operation} (following : history.after tail.visibleSeq = record.operation :: rest) :
    (tail.apply record).Holds history floor ∧ (tail.apply record).visibleSeq = record.seq := by
  obtain ⟨late, extended, _⟩ := PrimaryHistory.after_cons following
  change tail.visibleSeq < record.seq at late
  change history.upTo record.seq = _ at extended
  have accepted : ¬ ((tail.index record.pk).any fun existing => record.seq ≤
    existing.seq) = true := by
    rw [Option.any_eq_true]
    rintro ⟨existing, held, older⟩
    have := holds.seq_le held
    have := of_decide_eq_true older
    omega
  have above := holds.above
  have visible : (tail.apply record).visibleSeq = record.seq := by
    simp only [ReplicaTail.apply, if_neg accepted]
    omega
  have window : history.between floor record.seq =
      history.between floor tail.visibleSeq ++ [record.operation] := by
    have beyond : floor < record.operation.seq := by
      change floor < record.seq
      omega
    simp only [PrimaryHistory.between, extended, List.filter_append, List.filter_cons, beyond,
      decide_true, if_true, List.filter_nil]
  refine ⟨⟨by omega, fun key => ?_⟩, visible⟩
  rw [visible, window, newest_append, ← holds.latest key]
  simp only [ReplicaTail.apply, if_neg accepted]
  by_cases same : key = record.pk
  · subst same
    have single : newest Operation.key record.pk [record.operation] = some record.operation := by
      simp [newest, OpRecord.operation]
    rw [Function.update_self, single]
    rfl
  · have single : newest Operation.key key [record.operation] = none := by
      simp [newest, OpRecord.operation, Ne.symm same]
    rw [Function.update_of_ne same, single, Option.none_or]

theorem ReplicaTail.Holds.drain {records : List OpRecord} (holds : tail.Holds history floor)
    (yielded : records.map OpRecord.operation <+: history.after tail.visibleSeq) :
    (records.foldl ReplicaTail.apply tail).Holds history floor := by
  induction records generalizing tail with
  | nil => exact holds
  | cons record rest ih =>
    obtain ⟨more, split⟩ := yielded
    rw [List.map_cons, List.cons_append] at split
    obtain ⟨applied, visible⟩ := holds.apply split.symm
    have remaining := (PrimaryHistory.after_cons split.symm).2.2
    refine ih applied ?_
    rw [visible]
    change history.after record.seq = _ at remaining
    rw [remaining]
    exact List.prefix_append _ _

theorem ReplicaTail.Holds.advance (holds : tail.Holds history floor)
    (yields : source.Yields history) : (tail.advance source).1.Holds history floor :=
  holds.drain (yields tail.visibleSeq)

/-- Base and tail together: the base is exact at its number, the tail holds what came later. -/
structure Replica.Exact (history : PrimaryHistory) (replica : Replica) : Prop where
  base : replica.base.Answers history
  tail : replica.tail.Holds history replica.base.readSeq

variable {replica : Replica}

theorem ReplicaTail.get_eq (tail : ReplicaTail) (key : UserKey) :
    tail.get key = ((tail.index key).map (TailEntry.operation key)).bind Operation.value := by
  unfold ReplicaTail.get
  cases tail.index key with
  | none => rfl
  | some entry => rfl

theorem Replica.Exact.get (exact : replica.Exact history) (key : UserKey) :
    replica.get key = history.valueAt replica.visibleSeq key := by
  have newestTail := exact.tail.latest key
  have split := history.upTo_append_between exact.tail.above
  unfold Replica.get PrimaryHistory.valueAt Replica.visibleSeq
  rw [← split, newest_append, ← newestTail]
  cases held : replica.tail.index key with
  | none =>
    simp only [Option.isSome_none, Bool.false_eq_true, if_false, Option.map_none, Option.none_or]
    exact exact.base key
  | some entry =>
    rw [ReplicaTail.get_eq, held]
    rfl

theorem Replica.Exact.fresh {base : ReplicaBase} (answers : base.Answers history)
    {tail : ReplicaTail} (holds : tail.Holds history base.readSeq) :
    (⟨base, tail⟩ : Replica).Exact history := ⟨answers, holds⟩

section

variable (exact : replica.Exact history)
include exact

theorem Replica.Exact.advance (yields : source.Yields history) :
    (replica.advance source).1.Exact history :=
  ⟨exact.base, exact.tail.advance yields⟩

theorem Replica.Exact.rebase {refreshed : Except ReplicaError ReplicaBase}
    (answers : ∀ base, refreshed = .ok base → base.Answers history)
    (yields : source.Yields history) :
    (replica.rebase refreshed source).1.Exact history := by
  cases refreshed with
  | error error => exact exact
  | ok base => exact .fresh (answers base rfl) ((ReplicaTail.Holds.seeded _).advance yields)

theorem Replica.Exact.rebaseHotswap {opened : Except ReplicaError ReplicaBase} {timely : Bool}
    (answers : ∀ base, opened = .ok base → base.Answers history) (yields : source.Yields history) :
    (replica.rebaseHotswap opened source timely).1.Exact history := by
  simp only [Replica.rebaseHotswap]
  split
  · split
    · exact exact
    · rename_i base
      have warm := Replica.Exact.fresh (answers base rfl)
        ((ReplicaTail.Holds.seeded base.readSeq).advance yields)
      split
      · exact warm
      · exact warm
      · exact exact
  · exact exact

theorem Replica.Exact.call {call : ReplicaCall} (faithful : call.Faithful history) :
    (replica.call call).Exact history := by
  cases call with
  | advance source => exact exact.advance faithful
  | rebase refreshed source => exact exact.rebase faithful.1 faithful.2
  | rebaseHotswap opened source timely => exact exact.rebaseHotswap faithful.1 faithful.2
  | advanceOrRecover source opened again timely =>
    obtain ⟨yields, answers, yieldsAgain⟩ := faithful
    have advanced := exact.advance yields
    change (replica.advanceOrRecover source opened again timely).1.Exact history
    simp only [Replica.advanceOrRecover]
    split
    · exact advanced
    · exact advanced.rebaseHotswap answers yieldsAgain
    · exact advanced

theorem Replica.Exact.calls {calls : List ReplicaCall}
    (faithful : ∀ call ∈ calls, call.Faithful history) :
    (calls.foldl Replica.call replica).Exact history := by
  induction calls generalizing replica with
  | nil => exact exact
  | cons call rest ih =>
    exact ih (exact.call (faithful call List.mem_cons_self))
      fun other member => faithful other (List.mem_cons_of_mem _ member)

end

/-- A replica answers with the state of the primary at its visible sequence number, whatever calls
were made on it since it was opened and wherever their streams stopped. -/
theorem replica_get_exact (history : PrimaryHistory) (opened : Except ReplicaError ReplicaBase)
    (first : Replica) (mounted : Replica.mount opened = .ok first)
    (answers : ∀ base, opened = .ok base → base.Answers history) (calls : List ReplicaCall)
    (faithful : ∀ call ∈ calls, call.Faithful history) (key : UserKey) :
    let replica := calls.foldl Replica.call first
    replica.get key = history.valueAt replica.visibleSeq key := by
  cases opened with
  | error error => cases mounted
  | ok base =>
    cases mounted
    have exact := Replica.Exact.fresh (answers base rfl) (ReplicaTail.Holds.seeded base.readSeq)
    exact (exact.calls faithful).get key

/-- A log source over a list of records that stops with `ending` after `count` of them. -/
def LogSource.ofRecords (records : List OpRecord) (count : Nat)
    (ending : Except ReplicaError Unit) :
    LogSource := fun since => ⟨(records.filter fun record => since < record.seq).take count, ending⟩

theorem LogSource.ofRecords_yields {records : List OpRecord} {count : Nat}
    {ending : Except ReplicaError Unit}
    (same : history.operations = records.map OpRecord.operation) :
    (LogSource.ofRecords records count ending).Yields history := by
  intro since
  have filtered : history.after since =
      (records.filter fun record => since < record.seq).map OpRecord.operation := by
    rw [PrimaryHistory.after, same, List.filter_map]
    rfl
  rw [filtered]
  exact (List.take_prefix _ _).map _

namespace Replica.Sample

def key : UserKey := ⟨[1], by decide⟩

def row (byte : UInt8) : Row := ⟨[some (.bytes [byte])]⟩

def records : List OpRecord :=
  [⟨1, .insert, row 1, key⟩, ⟨2, .update, row 2, key⟩, ⟨3, .delete, row 2, key⟩]

def committed : PrimaryHistory := ⟨records.map OpRecord.operation, by decide⟩

def base (seq : Nat) : ReplicaBase := ⟨seq, committed.valueAt seq⟩

/-- The tail is drained to the end, then dropped by a rebase whose stream breaks after a record. -/
def calls : List ReplicaCall :=
  [.advance (.ofRecords records 3 (.ok ())),
    .rebase (.ok (base 1)) (.ofRecords records 1 (.error .failed))]

end Replica.Sample

open Replica.Sample in
theorem replica_get_exact_broken_rebase :
    (calls.foldl Replica.call ⟨base 1, .seeded 1⟩).visibleSeq = 2 ∧
      (calls.foldl Replica.call ⟨base 1, .seeded 1⟩).get key = committed.valueAt 2 key := by
  have visible : (calls.foldl Replica.call ⟨base 1, .seeded 1⟩).visibleSeq = 2 := by decide
  have yields : ∀ count ending, (LogSource.ofRecords records count ending).Yields committed :=
    fun _ _ => LogSource.ofRecords_yields rfl
  have answers : ∀ opened, .ok (base 1) = (.ok opened : Except ReplicaError ReplicaBase) →
      opened.Answers committed := by
    rintro _ ⟨⟩ _
    rfl
  have exact := replica_get_exact committed (.ok (base 1)) _ rfl answers calls (by
    intro call member
    simp only [calls, List.mem_cons, List.not_mem_nil, or_false] at member
    rcases member with rfl | rfl
    · exact yields _ _
    · exact ⟨answers, yields _ _⟩) key
  refine ⟨visible, ?_⟩
  rw [← visible]
  exact exact

end Merutable
