import Merutable.Engine.Compaction

/-! What readers at or above the watermark see of the output of the compaction iterator. -/

namespace Merutable.Compaction

open Foundation

/-- What a reader at `readSeq` sees of the key: the first visible version in internal-key order. -/
def seen (entries : List Entry) (key : UserKey) (readSeq : Nat) : Option Entry :=
  entries.find? fun entry => entry.key = key ∧ entry.seq ≤ readSeq

/-- The reader sees the same version, or nothing in place of a tombstone that was dropped. -/
def SameRead (input output : List Entry) (key : UserKey) (readSeq : Nat) : Prop :=
  seen output key readSeq = seen input key readSeq ∨
    seen output key readSeq = none ∧ ∃ tombstone, seen input key readSeq = some tombstone ∧
      tombstone.value.opType = .delete ∧ tombstone ∉ output

/-- A put that is seen at the watermark and lies below it is the newest version of its key. -/
def SettledAt (entries : List Entry) (watermark : Nat) : Prop :=
  ∀ key entry, seen entries key watermark = some entry → entry.value.opType = .put →
    entry.seq < watermark → ∀ other ∈ entries, other.key = key → other.seq ≤ watermark

/-- What the iterator keeps of the versions of one key. -/
def dedupeBlock (oldest : Nat) (drop : Bool) : List Entry → List Entry
  | [] => []
  | first :: rest =>
    let older := rest.filter fun entry => oldest ≤ entry.seq
    if drop ∧ first.value.opType = .delete ∧ first.seq < oldest then older else first :: older

section Block

variable {oldest readSeq : Nat} {drop : Bool} {entries : List Entry} {key : UserKey}

theorem seen_eq_block (entries : List Entry) (key : UserKey) (readSeq : Nat) :
    seen entries key readSeq =
      (entries.filter fun entry => entry.key = key).find? fun entry => entry.seq ≤ readSeq := by
  rw [seen, List.find?_filter]
  congr 1
  funext entry
  simp

theorem dedupe_block_behind (sorted : entries.Pairwise Entry.ikeyLe)
    (reached : ∀ entry ∈ entries, key ≤ entry.key) :
    (dedupe oldest drop (some key) entries).filter (fun entry => entry.key = key) =
      (entries.filter fun entry => entry.key = key).filter fun entry => oldest ≤ entry.seq := by
  induction entries with
  | nil => rfl
  | cons first rest ih =>
    obtain ⟨front, tail⟩ := List.pairwise_cons.mp sorted
    have later := ih tail fun entry member => reached entry (List.mem_cons_of_mem _ member)
    by_cases same : first.key = key
    · subst same
      rw [dedupe, if_pos rfl]
      by_cases recent : oldest ≤ first.seq
      · rw [if_pos recent]
        simp [recent, later]
      · rw [if_neg recent, later]
        simp [recent]
    · -- The key is past: neither list has a version of it.
      have above : key < first.key :=
        lt_of_le_of_ne (reached first List.mem_cons_self) (Ne.symm same)
      have past : ∀ entry ∈ first :: rest, entry.key ≠ key := by
        intro entry member
        rcases List.mem_cons.mp member with rfl | inRest
        · exact same
        · exact (above.trans_le (front entry inRest).versionOrder.key_le).ne'
      have none : (first :: rest).filter (fun entry => entry.key = key) = [] := by
        simpa [List.filter_eq_nil_iff] using past
      rw [none, List.filter_nil, List.filter_eq_nil_iff]
      intro entry member
      simpa using past entry ((dedupe_sublist _ _ _ _).subset member)

theorem dedupe_block {last : Option UserKey} (sorted : entries.Pairwise Entry.ikeyLe)
    (fresh : last ≠ some key) :
    (dedupe oldest drop last entries).filter (fun entry => entry.key = key) =
      dedupeBlock oldest drop (entries.filter fun entry => entry.key = key) := by
  induction entries generalizing last with
  | nil => rfl
  | cons first rest ih =>
    obtain ⟨front, tail⟩ := List.pairwise_cons.mp sorted
    by_cases same : first.key = key
    · have behind := @dedupe_block_behind oldest drop rest key tail fun entry member =>
        same ▸ (front entry member).versionOrder.key_le
      have new : last ≠ some first.key := same ▸ fresh
      rw [dedupe, if_neg new, same, List.filter_cons_of_pos (by simpa using same), dedupeBlock]
      split
      · rw [behind]
      · rw [List.filter_cons_of_pos (by simpa using same), behind]
    · have other : some first.key ≠ some key := fun equal => same (Option.some.inj equal)
      rw [List.filter_cons_of_neg (by simpa using same), dedupe]
      split
      · split
        · rw [List.filter_cons_of_neg (by simpa using same), ih tail fresh]
        · rw [ih tail fresh]
      · split
        · rw [ih tail other]
        · rw [List.filter_cons_of_neg (by simpa using same), ih tail other]

theorem find?_recent (descending : entries.Pairwise fun a b => b.seq ≤ a.seq) :
    (entries.filter fun entry => oldest ≤ entry.seq).find? (fun entry => entry.seq ≤ readSeq) =
      (entries.find? fun entry => entry.seq ≤ readSeq).filter fun entry => oldest ≤ entry.seq := by
  induction entries with
  | nil => rfl
  | cons first rest ih =>
    obtain ⟨front, tail⟩ := List.pairwise_cons.mp descending
    by_cases visible : first.seq ≤ readSeq
    · by_cases recent : oldest ≤ first.seq
      · simp [visible, recent, Option.filter_some]
      · have none : rest.filter (fun entry => oldest ≤ entry.seq) = [] := by
          rw [List.filter_eq_nil_iff]
          intro entry member
          have below := front entry member
          simp only [decide_eq_true_eq]
          omega
        simp [visible, recent, none, Option.filter_some]
    · rw [List.find?_cons_of_neg (by simpa using visible), ← ih tail]
      by_cases recent : oldest ≤ first.seq
      · rw [List.filter_cons_of_pos (by simpa using recent),
          List.find?_cons_of_neg (by simpa using visible)]
      · rw [List.filter_cons_of_neg (by simpa using recent)]

theorem block_descending (sorted : entries.Pairwise Entry.ikeyLe) (key : UserKey) :
    (entries.filter fun entry => entry.key = key).Pairwise fun a b => b.seq ≤ a.seq := by
  refine (sorted.filter _).imp_of_mem ?_
  intro a b first second ordered
  have sameFirst : a.key = key := by simpa using (List.mem_filter.mp first).2
  have sameSecond : b.key = key := by simpa using (List.mem_filter.mp second).2
  exact ordered.versionOrder.seq_le (sameFirst.trans sameSecond.symm)

/-- A reader from the watermark on loses a version exactly when it is a put below the watermark
behind a version that the reader does not see. -/
theorem sameRead_iff (sorted : entries.Pairwise Entry.ikeyLe) (above : oldest ≤ readSeq) :
    SameRead entries (dedupe oldest drop none entries) key readSeq ↔
      ¬ ∃ entry, seen entries key readSeq = some entry ∧ entry.value.opType = .put ∧
        entry.seq < oldest ∧ ∃ other ∈ entries, other.key = key ∧ readSeq < other.seq := by
  have kept := @dedupe_block oldest drop entries key none sorted (by simp)
  have descending := block_descending sorted key
  have inBlock : ∀ entry, entry ∈ entries.filter (fun entry => entry.key = key) ↔
      entry ∈ entries ∧ entry.key = key := by simp
  have output : ∀ entry ∈ dedupe oldest drop none entries, entry.key = key →
      entry ∈ dedupeBlock oldest drop (entries.filter fun entry => entry.key = key) := by
    intro entry member same
    rw [← kept]
    exact List.mem_filter.mpr ⟨member, by simpa using same⟩
  rw [SameRead, seen_eq_block, seen_eq_block, kept]
  cases block : entries.filter (fun entry => entry.key = key) with
  | nil => simp [dedupeBlock]
  | cons first rest =>
    rw [block] at descending output
    obtain ⟨front, tail⟩ := List.pairwise_cons.mp descending
    have present := (inBlock first).mp (block ▸ List.mem_cons_self)
    by_cases visible : first.seq ≤ readSeq
    · have found : (first :: rest).find? (fun entry => entry.seq ≤ readSeq) = some first :=
        List.find?_cons_of_pos (by simpa using visible)
      have newest : ¬ ∃ other ∈ entries, other.key = key ∧ readSeq < other.seq := by
        rintro ⟨other, member, same, newer⟩
        have listed := (inBlock other).mpr ⟨member, same⟩
        rw [block] at listed
        rcases List.mem_cons.mp listed with rfl | later
        · omega
        · have := front other later
          omega
      rw [found]
      refine iff_of_true ?_ fun ⟨_, _, _, _, newer⟩ => newest newer
      by_cases dropped : drop = true ∧ first.value.opType = .delete ∧ first.seq < oldest
      · have none : rest.filter (fun entry => oldest ≤ entry.seq) = [] := by
          rw [List.filter_eq_nil_iff]
          intro entry member
          have := front entry member
          simp only [decide_eq_true_eq]
          omega
        rw [dedupeBlock, if_pos dropped, none] at output ⊢
        exact .inr ⟨rfl, first, rfl, dropped.2.1, fun member =>
          List.not_mem_nil (output first member present.2)⟩
      · rw [dedupeBlock, if_neg dropped]
        exact .inl (List.find?_cons_of_pos (by simpa using visible))
    · have undropped : ¬ (drop = true ∧ first.value.opType = .delete ∧ first.seq < oldest) := by
        rintro ⟨_, _, below⟩
        omega
      rw [dedupeBlock, if_neg undropped] at output ⊢
      rw [List.find?_cons_of_neg (by simpa using visible),
        List.find?_cons_of_neg (by simpa using visible), find?_recent tail]
      cases found : rest.find? (fun entry => entry.seq ≤ readSeq) with
      | none => simp
      | some entry =>
        have low : entry.seq ≤ readSeq := by simpa using List.find?_some found
        by_cases recent : oldest ≤ entry.seq
        · have kept : ¬ entry.seq < oldest := by omega
          simp [recent, kept]
        · have newer : ∃ other ∈ entries, other.key = key ∧ readSeq < other.seq :=
            ⟨first, present.1, present.2, by omega⟩
          have same : entry.key = key :=
            ((inBlock entry).mp (block ▸ List.mem_cons_of_mem _
              (List.mem_of_find?_eq_some found))).2
          have lost : entry ∉ dedupe oldest drop none entries := by
            intro member
            rcases List.mem_cons.mp (output entry member same) with rfl | later
            · omega
            · have := (List.mem_filter.mp later).2
              simp [recent] at this
          have old : entry.seq < oldest := by omega
          simp only [Option.filter_some, recent, decide_false, Option.some.injEq, newer, and_true]
          cases op : entry.value.opType <;> simp [op, lost, old]

end Block

theorem seen_below {entries : List Entry} {key : UserKey} {oldest readSeq : Nat} {entry : Entry}
    (found : seen entries key readSeq = some entry) (above : oldest ≤ readSeq)
    (below : entry.seq < oldest) : seen entries key oldest = some entry := by
  rw [seen, List.find?_eq_some_iff_append] at found ⊢
  obtain ⟨holds, before, after, split, skipped⟩ := found
  simp only [decide_eq_true_eq] at holds
  refine ⟨by simpa using ⟨holds.1, below.le⟩, before, after, split, ?_⟩
  intro other member
  have hidden := skipped other member
  simp only [Bool.not_eq_true', decide_eq_false_iff_not, not_and, Nat.not_le] at hidden ⊢
  intro same
  have := hidden same
  omega

/-- The iterator keeps what every reader from the watermark on sees exactly when no put below the
watermark is seen at the watermark under a newer version. -/
theorem compaction_preserves_reads_iff (fileEntries : List (List Entry)) (oldest : Nat)
    (drop : Bool) :
    (∀ key readSeq, oldest ≤ readSeq →
      SameRead (Entry.sort fileEntries.flatten) (iterator fileEntries oldest drop) key readSeq) ↔
      SettledAt (Entry.sort fileEntries.flatten) oldest := by
  have sorted := Entry.sort_sorted fileEntries.flatten
  constructor
  · intro preserved key entry found put below other member same
    by_contra newer
    refine (sameRead_iff sorted le_rfl).mp (preserved key oldest le_rfl)
      ⟨entry, found, put, below, ?_⟩
    exact ⟨other, member, same, by omega⟩
  · intro settled key readSeq above
    refine (sameRead_iff sorted above).mpr ?_
    rintro ⟨entry, found, put, below, other, member, same, newer⟩
    have bound := settled key entry (seen_below found above below) put below other member same
    omega

/-- Two versions of a key around the watermark 5. -/
theorem compaction_loses_snapshot :
    let key : UserKey := ⟨[7], by decide⟩
    let old : Entry := ⟨key, 3, .put ⟨[]⟩⟩
    let new : Entry := ⟨key, 8, .put ⟨[]⟩⟩
    seen (Entry.sort [new, old]) key 5 = some old ∧ iterator [[new], [old]] 5 false = [new] ∧
      seen (iterator [[new], [old]] 5 false) key 5 = none := by
  decide

end Merutable.Compaction
