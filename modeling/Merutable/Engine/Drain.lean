import Merutable.Engine.ChangeFeed

/-! The stream of a log source over a primary that goes on writing: each call of `next_batch` meets
a primary of its own, with its visible number and what a scan finds in it. -/

namespace Merutable

/-- Every scan behind `sinceSeq` returns records up to the visible number, in order. -/
def EngineView.Scans (view : EngineView) : Prop :=
  ∀ sinceSeq, ∃ records, view.refill sinceSeq = .ok records ∧
    records.Pairwise (fun a b => a.seq ≤ b.seq) ∧
      ∀ record ∈ records, sinceSeq < record.seq ∧ record.seq ≤ view.readSeq

namespace ChangeFeedCursor

/-- How many scans the call makes. -/
def scansOf (view : EngineView) (cursor : ChangeFeedCursor) : Nat :=
  match cursor.inner with
  | .engine sinceSeq [] => if view.readSeq ≤ sinceSeq then 0 else 1
  | _ => 0

end ChangeFeedCursor

namespace InProcessLogSource

/-- The loop of `stream` with the scans counted; the call number `turn` meets `views turn`. -/
def drain (views : Nat → EngineView) (source : InProcessLogSource) (upper : Nat) :
    Nat → Nat → ChangeFeedCursor → List ChangeRecord → Nat →
      Option (Except MeruError (List ChangeRecord) × Nat)
  | 0, _, _, _, _ => none
  | fuel + 1, turn, cursor, out, scans =>
    let scans := scans + cursor.scansOf (views turn)
    match cursor.nextBatchOf (views turn) source.batchSize with
    | .error error => some (.error error, scans)
    | .ok (next, batch) =>
      if batch = [] then some (.ok out, scans)
      else
        let kept := batch.takeWhile fun record => record.seq ≤ upper
        if kept ≠ batch ∨ upper ≤ next.sinceSeq then some (.ok (out ++ kept), scans)
        else drain views source upper fuel (turn + 1) next (out ++ kept) scans

/-- `stream` when the primary shows `upper` first. -/
def streamOver (views : Nat → EngineView) (source : InProcessLogSource) (upper since fuel : Nat) :
    Option (Except MeruError (List ChangeRecord) × Nat) :=
  if upper ≤ since then some (.ok [], 0)
  else drain views source upper fuel 0 (.fromEngine since) [] 0

variable {views : Nat → EngineView} {source : InProcessLogSource}
  {upper since sinceSeq scans turn : Nat} {buffer out : List ChangeRecord}

/-- Between two turns: what was kept and what waits are in order, and every scan so far has moved
the cursor on. -/
structure Draining (upper since sinceSeq : Nat) (buffer out : List ChangeRecord) (scans : Nat) :
    Prop where
  ordered : (out ++ buffer).Pairwise fun a b => a.seq ≤ b.seq
  above : ∀ record ∈ out ++ buffer, since < record.seq
  kept : ∀ record ∈ out, record.seq ≤ sinceSeq
  ahead : ∀ record ∈ buffer, sinceSeq ≤ record.seq
  unreached : sinceSeq < upper
  paid : since + scans ≤ sinceSeq

theorem Draining.fill {cursor : ChangeFeedCursor} (inner : cursor.inner = .engine sinceSeq buffer)
    (draining : Draining upper since sinceSeq buffer out scans) {view : EngineView}
    (scanned : view.Scans) (maxRows : Nat) : ∃ available,
      cursor.nextBatchOf view maxRows = .ok (cursor.serve sinceSeq available maxRows) ∧
      Draining upper since sinceSeq available out scans ∧
      (available = buffer ∧ cursor.scansOf view = 0 ∨
        cursor.scansOf view = 1 ∧ ∀ record ∈ available, sinceSeq < record.seq) := by
  rcases cursor with ⟨_, skip⟩
  cases inner
  cases buffer with
  | cons record rest => exact ⟨_, rfl, draining, .inl ⟨rfl, rfl⟩⟩
  | nil =>
    by_cases done : view.readSeq ≤ sinceSeq
    · refine ⟨[], ?_, draining, .inl ⟨rfl, if_pos done⟩⟩
      simp [ChangeFeedCursor.nextBatchOf, ChangeFeedCursor.serve, done]
    · obtain ⟨records, found, ordered, range⟩ := scanned sinceSeq
      refine ⟨records, ?_, ?_, .inr ⟨if_neg done, fun record member => (range record member).1⟩⟩
      · simp [ChangeFeedCursor.nextBatchOf, done, found, bind, Except.bind, pure, Except.pure]
      · have behind := draining.ordered
        have above := draining.above
        rw [List.append_nil] at behind above
        have later : ∀ record ∈ records, since < record.seq := by
          intro record member
          have := (range record member).1
          have := draining.paid
          omega
        refine ⟨List.pairwise_append.mpr ⟨behind, ordered, ?_⟩, ?_, draining.kept, ?_,
          draining.unreached, draining.paid⟩
        · intro early inOut late inRecords
          exact (draining.kept early inOut).trans (range late inRecords).1.le
        · intro record member
          rcases List.mem_append.mp member with old | new
          · exact above record old
          · exact later record new
        · exact fun record member => (range record member).1.le

/-- The records of a stream up to `upper`, and what the scans for them are paid with. -/
structure Drained (upper since : Nat) (out : List ChangeRecord) (scans : Nat) : Prop where
  ordered : out.Pairwise fun a b => a.seq ≤ b.seq
  range : ∀ record ∈ out, since < record.seq ∧ record.seq ≤ upper
  paid : since + scans ≤ upper

theorem Draining.stop {more : Nat} {kept : List ChangeRecord}
    (draining : Draining upper since sinceSeq buffer out scans) (one : more ≤ 1)
    (served : kept.Sublist buffer) (bounded : ∀ record ∈ kept, record.seq ≤ upper) :
    Drained upper since (out ++ kept) (scans + more) := by
  have part : (out ++ kept).Sublist (out ++ buffer) := served.append_left out
  refine ⟨draining.ordered.sublist part, fun record member => ?_, ?_⟩
  · refine ⟨draining.above record (part.subset member), ?_⟩
    rcases List.mem_append.mp member with old | new
    · exact (draining.kept record old).trans draining.unreached.le
    · exact bounded record new
  · have := draining.paid
    have := draining.unreached
    omega

theorem Draining.next {more maxRows : Nat} {last : ChangeRecord}
    (draining : Draining upper since sinceSeq buffer out scans)
    (ends : (buffer.take maxRows).getLast? = some last) (open' : last.seq < upper)
    (moved : sinceSeq + more ≤ last.seq) :
    Draining upper since last.seq (buffer.drop maxRows) (out ++ buffer.take maxRows)
      (scans + more) := by
  obtain ⟨front, batch⟩ := List.getLast?_eq_some_iff.mp ends
  have whole : out ++ buffer.take maxRows ++ buffer.drop maxRows = out ++ buffer := by
    rw [List.append_assoc, List.take_append_drop]
  have ordered := draining.ordered
  have above := draining.above
  rw [← whole] at ordered above
  obtain ⟨early, _, across⟩ := List.pairwise_append.mp ordered
  have paid := draining.paid
  refine ⟨ordered, above, fun record member => ?_, fun record member => ?_, open', by omega⟩
  · rw [batch, ← List.append_assoc] at early member
    rcases List.mem_append.mp member with before | final
    · exact (List.pairwise_append.mp early).2.2 record before last List.mem_cons_self
    · rw [List.mem_singleton.mp final]
  · exact across last (by simp [batch]) record member

theorem drain_ends (scanned : ∀ turn, (views turn).Scans) (turn sinceSeq : Nat)
    (buffer out : List ChangeRecord) (scans : Nat) {cursor : ChangeFeedCursor}
    (inner : cursor.inner = .engine sinceSeq buffer)
    (draining : Draining upper since sinceSeq buffer out scans) : ∃ fuel kept total,
      source.drain views upper fuel turn cursor out scans = some (.ok kept, total) ∧
        Drained upper since kept total := by
  obtain ⟨available, called, filled, origin⟩ :=
    draining.fill inner (scanned turn) source.batchSize
  have one : cursor.scansOf (views turn) ≤ 1 := by omega
  by_cases empty : available.take source.batchSize = []
  · refine ⟨1, out ++ [], _, ?_, filled.stop one (List.nil_sublist _) nofun⟩
    simp [drain, called, ChangeFeedCursor.serve, empty]
  · obtain ⟨last, ends⟩ := Option.isSome_iff_exists.mp (List.getLast?_isSome.mpr empty)
    have served := List.mem_of_mem_take (List.mem_of_getLast? ends)
    let next : ChangeFeedCursor :=
      ⟨.engine last.seq (available.drop source.batchSize), cursor.skipUpdateDiscrimination⟩
    have called : cursor.nextBatchOf (views turn) source.batchSize =
        .ok (next, available.take source.batchSize) := by
      rw [called, ChangeFeedCursor.serve, ends]
      rfl
    let kept := (available.take source.batchSize).takeWhile fun record => record.seq ≤ upper
    by_cases stops : kept ≠ available.take source.batchSize ∨ upper ≤ last.seq
    · refine ⟨1, out ++ kept, _, ?_, filled.stop one ?_ fun record member => ?_⟩
      · rw [drain, called]
        exact (if_neg empty).trans (if_pos stops)
      · exact (List.takeWhile_sublist _).trans (List.take_sublist _ _)
      · have bounded := List.mem_takeWhile_imp member
        exact of_decide_eq_true bounded
    · have moved : sinceSeq + cursor.scansOf (views turn) ≤ last.seq := by
        rcases origin with ⟨rfl, none⟩ | ⟨once, above⟩
        · rw [none]
          exact filled.ahead last served
        · rw [once]
          exact above last served
      obtain ⟨all, open'⟩ := not_or.mp stops
      have inner : next.inner = .engine last.seq (available.drop source.batchSize) := rfl
      obtain ⟨fuel, result, total, ended, drained⟩ := drain_ends scanned (turn + 1) last.seq _ _ _
        inner (filled.next ends (Nat.not_le.mp open') moved)
      refine ⟨fuel + 1, result, total, ?_, drained⟩
      rw [← not_not.mp all] at ended
      rw [drain, called]
      exact (if_neg empty).trans ((if_neg stops).trans ended)
termination_by (upper - sinceSeq, buffer.length)
decreasing_by
  rcases origin with ⟨rfl, _⟩ | ⟨_, _⟩
  · have := List.length_pos_of_mem served
    have := source.positive
    apply Prod.Lex.right'
    · omega
    · rw [List.length_drop]
      omega
  · apply Prod.Lex.left
    omega

end InProcessLogSource

/-- Whatever the primary writes, the stream ends, with no more scans than there are numbers to read
and with records up to the number the primary showed first. -/
theorem stream_drains (views : Nat → EngineView) (source : InProcessLogSource) (upper since : Nat)
    (scanned : ∀ turn, (views turn).Scans) : ∃ fuel out scans,
      source.streamOver views upper since fuel = some (.ok out, scans) ∧
        scans ≤ upper - since + 1 ∧ out.Pairwise (fun a b => a.seq ≤ b.seq) ∧
          ∀ record ∈ out, since < record.seq ∧ record.seq ≤ upper := by
  unfold InProcessLogSource.streamOver
  split
  · exact ⟨0, [], 0, rfl, Nat.zero_le _, .nil, nofun⟩
  · have draining : InProcessLogSource.Draining upper since since [] [] 0 :=
      ⟨.nil, nofun, nofun, nofun, by omega, le_rfl⟩
    have inner : (ChangeFeedCursor.fromEngine since).inner = .engine since [] := rfl
    obtain ⟨fuel, out, scans, ended, drained⟩ :=
      InProcessLogSource.drain_ends scanned 0 since [] [] 0 inner draining
    have := drained.paid
    exact ⟨fuel, out, scans, ended, by omega, drained.ordered, drained.range⟩

/-- A primary that commits one operation before every call. -/
def growingView (turn : Nat) : EngineView where
  readSeq := turn + 2
  refill sinceSeq :=
    .ok (if sinceSeq < turn + 2 then [⟨sinceSeq + 1, .insert, ⟨[]⟩, [1]⟩] else [])

theorem stream_drains_growing : ∃ fuel out scans,
    InProcessLogSource.new.streamOver growingView 2 0 fuel = some (.ok out, scans) ∧
      scans ≤ 2 - 0 + 1 ∧ out.Pairwise (fun a b => a.seq ≤ b.seq) ∧
        ∀ record ∈ out, 0 < record.seq ∧ record.seq ≤ 2 := by
  apply stream_drains
  intro turn sinceSeq
  refine ⟨_, rfl, ?_⟩
  split
  · rename_i before
    simpa [growingView] using Nat.le_of_lt_succ before
  · simp

end Merutable
