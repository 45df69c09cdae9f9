import Mathlib.Data.List.Basic
import Mathlib.Data.List.Nodup
import Mathlib.Order.Basic
import Mathlib.Order.Lattice
import Mathlib.Order.Nat

/-! Lists of versions: every item has a key and a sequence number. `newest` reads a list kept in
write order, `keepFirst` reads a list sorted by key with the newest version of a key in front. -/

namespace Merutable.Foundation

variable {V K : Type}

section Order

variable [LinearOrder K] {key : V → K} {seq : V → Nat} {a b : V}

/-- Key ascending, and the newer version of a key in front. -/
def VersionOrder (key : V → K) (seq : V → Nat) (a b : V) : Prop :=
  key a < key b ∨ key a = key b ∧ seq b ≤ seq a

theorem VersionOrder.key_le (ordered : VersionOrder key seq a b) : key a ≤ key b := by
  rcases ordered with less | ⟨same, _⟩
  · exact less.le
  · exact same.le

theorem VersionOrder.seq_le (ordered : VersionOrder key seq a b)
    (same : key a = key b) : seq b ≤ seq a := by
  rcases ordered with less | ⟨_, older⟩
  · exact absurd same less.ne
  · exact older

end Order

variable [DecidableEq K] (key : V → K) (seq : V → Nat)

/-- The last item of `key` in a list kept in write order. -/
def newest (k : K) (items : List V) : Option V :=
  (items.filter fun item => key item = k).getLast?

/-- Keeps the first item of every run of equal keys, `last` being the key emitted before. -/
def keepFirst : Option K → List V → List V
  | _, [] => []
  | last, item :: rest =>
    if last = some (key item) then keepFirst last rest
    else item :: keepFirst (some (key item)) rest

section Newest

variable {key seq} {k : K} {items later : List V} {item : V}

theorem newest_append : newest key k (items ++ later) =
    (newest key k later).or (newest key k items) := by
  simp [newest, List.getLast?_append]

theorem newest_mem (found : newest key k items = some item) : item ∈ items ∧ key item = k := by
  have member := List.mem_of_getLast? found
  simpa using member

theorem newest_eq_none : newest key k items = none ↔ ∀ item ∈ items, key item ≠ k := by
  simp [newest]

theorem newest_isSome (present : item ∈ items) : ∃ top, newest key (key item) items = some top := by
  cases found : newest key (key item) items with
  | none => exact absurd rfl (newest_eq_none.mp found item present)
  | some top => exact ⟨top, rfl⟩

omit [DecidableEq K] in
/-- Increasing sequence numbers identify the items. -/
theorem eq_of_seq_eq {other : V} (increasing : items.Pairwise fun a b => seq a < seq b)
    (present : item ∈ items) (present' : other ∈ items) (same : seq item = seq other) :
    item = other := by
  have distinct : (items.map seq).Nodup :=
    List.pairwise_map.mpr (increasing.imp fun less => Nat.ne_of_lt less)
  exact List.inj_on_of_nodup_map distinct present present' same

omit [DecidableEq K] in
/-- In a list with the newest version in front the first item carries the largest number. -/
theorem head?_eq_some_iff (descending : items.Pairwise fun a b => seq b ≤ seq a)
    (distinct : ∀ a ∈ items, ∀ b ∈ items, seq a = seq b → a = b) :
    items.head? = some item ↔ item ∈ items ∧ ∀ other ∈ items, seq other ≤ seq item := by
  cases items with
  | nil => simp
  | cons first rest =>
    have largest : ∀ other ∈ first :: rest, seq other ≤ seq first :=
      List.forall_mem_cons.mpr ⟨le_rfl, (List.pairwise_cons.mp descending).1⟩
    constructor
    · rintro ⟨⟩
      exact ⟨List.mem_cons_self, largest⟩
    · rintro ⟨member, top⟩
      have same := Nat.le_antisymm (top first List.mem_cons_self) (largest item member)
      rw [List.head?_cons, distinct first List.mem_cons_self item member same]

/-- In a list whose sequence numbers increase the last item of a key carries the largest one. -/
theorem newest_eq_some (increasing : items.Pairwise fun a b => seq a < seq b) :
    newest key k items = some item ↔
      item ∈ items ∧ key item = k ∧ ∀ other ∈ items, key other = k → seq other ≤ seq item := by
  have own := increasing.filter fun item => decide (key item = k)
  rw [newest, ← List.head?_reverse,
    head?_eq_some_iff (List.pairwise_reverse.mpr (own.imp Nat.le_of_lt)) fun a first b second =>
      eq_of_seq_eq own (List.mem_reverse.mp first) (List.mem_reverse.mp second)]
  simp [and_assoc]

end Newest

section Latest

variable {key seq} {k : K} {bound : Nat} {items : List V} {item : V}

/-- The item is the version of `k` with the greatest sequence number up to `bound`. -/
def Latest (key : V → K) (seq : V → Nat) (items : List V) (k : K) (bound : Nat) (item : V) : Prop :=
  item ∈ items ∧ key item = k ∧ seq item ≤ bound ∧
    ∀ other ∈ items, key other = k → seq other ≤ bound → seq other ≤ seq item

omit [DecidableEq K] in
theorem Latest.congr {items' : List V} (same : ∀ item, item ∈ items ↔ item ∈ items') :
    Latest key seq items k bound item ↔ Latest key seq items' k bound item := by
  simp only [Latest, same]

theorem newest_filter_eq_some (increasing : items.Pairwise fun a b => seq a < seq b) :
    newest key k (items.filter fun item => seq item ≤ bound) = some item ↔
      Latest key seq items k bound item := by
  rw [newest_eq_some (increasing.filter _)]
  simp only [Latest, List.mem_filter, decide_eq_true_eq]
  tauto

theorem newest_filter_all (bounded : ∀ item ∈ items, seq item ≤ bound) :
    newest key k (items.filter fun item => seq item ≤ bound) = newest key k items := by
  rw [List.filter_eq_self.mpr fun item member => decide_eq_true (bounded item member)]

variable [LinearOrder K]

/-- In a sorted list the versions of a key are one contiguous block. -/
theorem block_eq_filter (sorted : items.Pairwise (VersionOrder key seq)) (k : K) :
    (items.dropWhile fun item => key item < k).takeWhile (fun item => key item = k) =
      items.filter fun item => key item = k := by
  induction items with
  | nil => rfl
  | cons first rest ih =>
    obtain ⟨front, tail⟩ := List.pairwise_cons.mp sorted
    rcases lt_trichotomy (key first) k with less | same | greater
    · simp [less, less.ne, ih tail]
    · have stays : rest.dropWhile (fun item => key item < k) = rest := by
        cases rest with
        | nil => rfl
        | cons next others =>
          have le := (front next List.mem_cons_self).key_le
          rw [same] at le
          simp [not_lt.mpr le]
      have := ih tail
      rw [stays] at this
      simp [same, this]
    · have none : ∀ item ∈ rest, key item ≠ k := fun item member =>
        (greater.trans_le (front item member).key_le).ne'
      have empty : rest.filter (fun item => key item = k) = [] := by
        simpa [List.filter_eq_nil_iff] using none
      simp [greater.asymm, greater.ne', empty]

/-- The first visible version in a sorted list is the latest one. -/
theorem find?_block (sorted : items.Pairwise (VersionOrder key seq))
    (distinct : ∀ a ∈ items, ∀ b ∈ items, seq a = seq b → a = b) :
    (items.filter fun item => key item = k).find? (fun item => seq item ≤ bound) = some item ↔
      Latest key seq items k bound item := by
  have own : ((items.filter fun item => key item = k).filter fun item => seq item ≤ bound).Pairwise
      fun a b => seq b ≤ seq a := by
    refine List.Pairwise.filter _ ((sorted.filter _).imp_of_mem fun first second ordered => ?_)
    have keyed := List.of_mem_filter first
    have keyed' := List.of_mem_filter second
    exact ordered.seq_le ((of_decide_eq_true keyed).trans (of_decide_eq_true keyed').symm)
  have among : ∀ a ∈ (items.filter fun item => key item = k).filter fun item => seq item ≤ bound,
      a ∈ items := fun a member => List.mem_of_mem_filter (List.mem_of_mem_filter member)
  rw [← List.head?_filter, head?_eq_some_iff own fun a first b second =>
    distinct a (among a first) b (among b second)]
  simp only [Latest, List.mem_filter, decide_eq_true_eq, and_assoc, and_imp]

end Latest

section KeepFirst

variable {key seq} {last : Option K} {items : List V} {item : V}

theorem keepFirst_sublist : (keepFirst key last items).Sublist items := by
  induction items generalizing last with
  | nil => simp [keepFirst]
  | cons first rest ih =>
    simp only [keepFirst]
    split
    · exact ih.cons first
    · exact ih.cons_cons first

theorem keepFirst_map {W L : Type} [DecidableEq L] {key' : W → L} {f : V → W} {g : K → L}
    (injective : Function.Injective g) (same : ∀ item, key' (f item) = g (key item)) :
    keepFirst key' (last.map g) (items.map f) = (keepFirst key last items).map f := by
  induction items generalizing last with
  | nil => rfl
  | cons item rest ih =>
    have agree : last.map g = some (g (key item)) ↔ last = some (key item) := by
      rw [← Option.map_some, (Option.map_injective injective).eq_iff]
    simp only [List.map_cons, keepFirst, same, agree]
    split
    · exact ih
    · rw [List.map_cons, ← ih, Option.map_some]

theorem keepFirst_subset (member : item ∈ keepFirst key last items) : item ∈ items :=
  keepFirst_sublist.subset member

/-- No key is lost, apart from the one that was emitted before. -/
theorem keepFirst_covers (present : item ∈ items) (fresh : last ≠ some (key item)) :
    ∃ kept ∈ keepFirst key last items, key kept = key item := by
  induction items generalizing last with
  | nil => cases present
  | cons first rest ih =>
    simp only [keepFirst]
    rcases List.mem_cons.mp present with rfl | inRest
    · rw [if_neg fresh]
      exact ⟨item, List.mem_cons_self, rfl⟩
    · split
      · exact ih inRest fresh
      · by_cases same : key first = key item
        · exact ⟨first, List.mem_cons_self, same⟩
        · obtain ⟨kept, member, keyed⟩ := @ih (some (key first)) inRest (by simpa using same)
          exact ⟨kept, List.mem_cons_of_mem _ member, keyed⟩

variable [LinearOrder K]

section

variable (sorted : items.Pairwise (VersionOrder key seq))
  (above : ∀ k, last = some k → ∀ item ∈ items, k ≤ key item)
include sorted above

/-- The kept items have strictly ascending keys, all above the key emitted before. -/
theorem keepFirst_ascending :
    (keepFirst key last items).Pairwise (fun a b => key a < key b) ∧
      ∀ k, last = some k → ∀ item ∈ keepFirst key last items, k < key item := by
  induction items generalizing last with
  | nil => simp [keepFirst]
  | cons first rest ih =>
    obtain ⟨front, tail⟩ := List.pairwise_cons.mp sorted
    simp only [keepFirst]
    split
    · exact ih tail fun k same item member => above k same item (List.mem_cons_of_mem _ member)
    · rename_i fresh
      obtain ⟨ascending, later⟩ := @ih (some (key first)) tail (by
        rintro k ⟨⟩ item member
        exact (front item member).key_le)
      refine ⟨List.pairwise_cons.mpr ⟨later _ rfl, ascending⟩, ?_⟩
      intro k same item member
      have least : k < key first :=
        lt_of_le_of_ne (above k same first List.mem_cons_self) (by
          rintro rfl
          exact fresh same)
      rcases List.mem_cons.mp member with rfl | inRest
      · exact least
      · exact least.trans (later _ rfl item inRest)

/-- Each kept item is the newest version of its key. -/
theorem keepFirst_newest (kept : item ∈ keepFirst key last items) :
    ∀ other ∈ items, key other = key item → seq other ≤ seq item := by
  induction items generalizing last with
  | nil => simp
  | cons first rest ih =>
    obtain ⟨front, tail⟩ := List.pairwise_cons.mp sorted
    have larger := (keepFirst_ascending sorted above).2
    have aboveRest : ∀ k, last = some k → ∀ item ∈ rest, k ≤ key item := fun k same item member =>
      above k same item (List.mem_cons_of_mem _ member)
    simp only [keepFirst] at kept larger
    split at kept
    · rename_i repeated
      rw [if_pos repeated] at larger
      have strict := larger _ repeated item kept
      intro other member same
      rcases List.mem_cons.mp member with rfl | inRest
      · exact absurd same strict.ne
      · exact ih tail aboveRest kept other inRest same
    · have aboveFirst : ∀ k, some (key first) = some k → ∀ item ∈ rest, k ≤ key item := by
        rintro k ⟨⟩ item member
        exact (front item member).key_le
      intro other member same
      rcases List.mem_cons.mp kept with rfl | inTail
      · rcases List.mem_cons.mp member with rfl | inRest
        · exact le_rfl
        · exact (front other inRest).seq_le same.symm
      · have strict := (keepFirst_ascending tail aboveFirst).2 _ rfl item inTail
        rcases List.mem_cons.mp member with rfl | inRest
        · exact absurd same strict.ne
        · exact ih tail aboveFirst inTail other inRest same

end

/-- The items kept of the visible versions are the latest ones. -/
theorem mem_keepFirst_iff {bound : Nat} (sorted : items.Pairwise (VersionOrder key seq))
    (distinct : ∀ a ∈ items, ∀ b ∈ items, seq a = seq b → a = b) :
    item ∈ keepFirst key none (items.filter fun item => seq item ≤ bound) ↔
      Latest key seq items (key item) bound item := by
  have visible := sorted.filter (fun item => seq item ≤ bound)
  have listed : ∀ other, other ∈ items.filter (fun item => seq item ≤ bound) ↔
      other ∈ items ∧ seq other ≤ bound := by simp
  constructor
  · intro kept
    obtain ⟨member, low⟩ := (listed item).mp (keepFirst_subset kept)
    refine ⟨member, rfl, low, fun other present same lowOther => ?_⟩
    exact keepFirst_newest visible (by simp) kept other
      ((listed other).mpr ⟨present, lowOther⟩) same
  · rintro ⟨member, -, low, largest⟩
    obtain ⟨kept, inList, same⟩ := keepFirst_covers ((listed item).mpr ⟨member, low⟩)
      (show (none : Option K) ≠ some (key item) by simp)
    obtain ⟨present, lowKept⟩ := (listed kept).mp (keepFirst_subset inList)
    have upper := largest kept present same lowKept
    have lower := keepFirst_newest visible (by simp) inList item ((listed item).mpr ⟨member, low⟩)
      same.symm
    rwa [← distinct kept present item member (Nat.le_antisymm upper lower)]

end KeepFirst

/-- The fold that keeps the largest value; in the dual order, the smallest one. -/
theorem foldl_max_spec {O : Type*} [LinearOrder O] (value : V → O) (items : List V) (first : O) :
    first ≤ items.foldl (fun most item => max most (value item)) first ∧
      (∀ item ∈ items, value item ≤ items.foldl (fun most item => max most (value item)) first) ∧
      (items.foldl (fun most item => max most (value item)) first = first ∨
        ∃ item ∈ items, value item =
          items.foldl (fun most item => max most (value item)) first) := by
  induction items generalizing first with
  | nil => simp
  | cons item rest ih =>
    obtain ⟨above, each, attained⟩ := ih (max first (value item))
    simp only [List.foldl_cons, List.mem_cons, forall_eq_or_imp, exists_eq_or_imp]
    refine ⟨(le_max_left _ _).trans above, ⟨(le_max_right _ _).trans above, each⟩, ?_⟩
    rcases attained with same | found
    · rw [same]
      rcases le_total (value item) first with le | le
      · exact .inl (max_eq_left le)
      · exact .inr (.inl (max_eq_right le).symm)
    · exact .inr (.inr found)

end Merutable.Foundation
