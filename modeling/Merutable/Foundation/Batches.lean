import Mathlib.Data.List.Nodup

/-! Items in ascending order that are served batch by batch, up to the first batch that ends at the
bound. -/

namespace Merutable.Foundation

variable {A : Type} {rank : A → Nat} {size upper : Nat} {items : List A}

/-- The batches up to the one with the first item at the bound. -/
def served (rank : A → Nat) (size upper : Nat) (items : List A) : List A :=
  items.take (((items.filter fun item => rank item < upper).length / size + 1) * size)

/-- The items in order: those below the bound, then those at it. -/
theorem split_at_bound (ascending : items.Pairwise fun a b => rank a ≤ rank b)
    (bounded : ∀ item ∈ items, rank item ≤ upper) :
    items = (items.filter fun item => rank item < upper) ++
      items.filter fun item => rank item = upper := by
  induction items with
  | nil => rfl
  | cons item rest ih =>
    obtain ⟨front, tail⟩ := List.pairwise_cons.mp ascending
    have later := ih tail fun other member => bounded other (List.mem_cons_of_mem _ member)
    have bound := bounded item List.mem_cons_self
    by_cases below : rank item < upper
    · have notAt : rank item ≠ upper := by omega
      rw [List.filter_cons_of_pos (by simpa using below),
        List.filter_cons_of_neg (by simpa using notAt),
        List.cons_append, ← later]
    · have atBound : rank item = upper := by omega
      have none : rest.filter (fun item => rank item < upper) = [] := by
        apply List.filter_eq_nil_iff.mpr
        intro other member
        have := front other member
        simp only [decide_eq_true_eq]
        omega
      rw [none, List.nil_append] at later
      rw [List.filter_cons_of_neg (by simpa using below), none,
        List.filter_cons_of_pos (by simpa using atBound), ← later, List.nil_append]

/-- Items that do not reach the bound are all served. -/
theorem served_all (positive : 0 < size) (below : ∀ item ∈ items, rank item < upper) :
    served rank size upper items = items := by
  have whole : (items.filter fun item => rank item < upper) = items :=
    List.filter_eq_self.mpr fun item member => decide_eq_true (below item member)
  have division := Nat.div_add_mod items.length size
  have small := Nat.mod_lt items.length positive
  rw [served, whole]
  apply List.take_of_length_le
  rw [Nat.add_mul, Nat.mul_comm, Nat.one_mul]
  omega

/-- A batch that reaches the bound is the last one. -/
theorem served_last (ascending : items.Pairwise fun a b => rank a ≤ rank b)
    (bounded : ∀ item ∈ items, rank item ≤ upper)
    (reached : ∃ item ∈ items.take size, upper ≤ rank item) :
    served rank size upper items = items.take size := by
  have split := split_at_bound ascending bounded
  have short : (items.filter fun item => rank item < upper).length < size := by
    by_contra long
    obtain ⟨item, inBatch, atBound⟩ := reached
    rw [split, List.take_append_of_le_length (Nat.le_of_not_lt long)] at inBatch
    have below := (List.mem_filter.mp (List.mem_of_mem_take inBatch)).2
    simp only [decide_eq_true_eq] at below
    omega
  rw [served, Nat.div_eq_of_lt short, Nat.zero_add, Nat.one_mul]

/-- A full batch below the bound is followed by the batches of the rest. -/
theorem served_next (positive : 0 < size) (full : size ≤ items.length)
    (below : ∀ item ∈ items.take size, rank item < upper) :
    served rank size upper items =
      items.take size ++ served rank size upper (items.drop size) := by
  have first : ((items.take size).filter fun item => rank item < upper) = items.take size :=
    List.filter_eq_self.mpr fun item member => decide_eq_true (below item member)
  have count : (items.filter fun item => rank item < upper).length =
      ((items.drop size).filter fun item => rank item < upper).length + size := by
    conv_lhs => rw [← List.take_append_drop size items]
    rw [List.filter_append, first, List.length_append, List.length_take, Nat.min_eq_left full,
      Nat.add_comm]
  rw [served, count, Nat.add_div_right _ positive, Nat.succ_mul, Nat.add_comm, List.take_add]
  rfl

section

variable (positive : 0 < size) (ascending : items.Pairwise fun a b => rank a ≤ rank b)
  (bounded : ∀ item ∈ items, rank item ≤ upper)
include positive ascending bounded

/-- Of the items at the bound, those are served that fit into the batch of the first. -/
theorem served_eq :
    served rank size upper items = (items.filter fun item => rank item < upper) ++
      (items.filter fun item => rank item = upper).take
        (size - (items.filter fun item => rank item < upper).length % size) := by
  have split := split_at_bound ascending bounded
  have division := Nat.div_add_mod (items.filter fun item => rank item < upper).length size
  have small := Nat.mod_lt (items.filter fun item => rank item < upper).length positive
  have count : ((items.filter fun item => rank item < upper).length / size + 1) * size =
      (items.filter fun item => rank item < upper).length +
        (size - (items.filter fun item => rank item < upper).length % size) := by
    rw [Nat.add_mul, Nat.mul_comm, Nat.one_mul]
    omega
  calc served rank size upper items
      = ((items.filter fun item => rank item < upper) ++
          items.filter fun item => rank item = upper).take
          ((items.filter fun item => rank item < upper).length +
            (size - (items.filter fun item => rank item < upper).length % size)) := by
        rw [served, count, ← split]
    _ = _ := List.take_length_add_append _

/-- The first item of each rank is served. -/
theorem find_served {value : Nat} {item : A}
    (found : items.find? (fun item => rank item = value) = some item) :
    item ∈ served rank size upper items := by
  have member := List.mem_of_find?_eq_some found
  have same : rank item = value := by simpa using List.find?_some found
  have bound := bounded item member
  rw [served_eq positive ascending bounded, List.mem_append]
  by_cases below : rank item < upper
  · exact .inl (List.mem_filter.mpr ⟨member, by simpa using below⟩)
  · have equal : value = upper := by omega
    rw [equal, ← List.head?_filter] at found
    have small := Nat.mod_lt (items.filter fun item => rank item < upper).length positive
    obtain ⟨rest, whole⟩ := List.head?_eq_some_iff.mp found
    obtain ⟨room, positive⟩ : ∃ room, size -
        (items.filter fun item => rank item < upper).length % size = room + 1 :=
      Nat.exists_eq_succ_of_ne_zero (by omega)
    rw [whole, positive, List.take_succ_cons]
    exact .inr List.mem_cons_self

end

/-- The last batch has room for one more item only. -/
theorem room_le_one_iff {count : Nat} (positive : 0 < size) :
    size - count % size ≤ 1 ↔ size ∣ count + 1 := by
  have small := Nat.mod_lt count positive
  have division := Nat.div_add_mod count size
  have whole : size ∣ count + 1 ↔ size ∣ count % size + 1 := by
    have added : size ∣ size * (count / size) + (count % size + 1) ↔ size ∣ count % size + 1 :=
      Nat.dvd_add_right (Nat.dvd_mul_right size (count / size))
    rwa [← Nat.add_assoc, division] at added
  rw [whole]
  constructor
  · intro one
    have full : count % size + 1 = size := by omega
    exact ⟨1, by omega⟩
  · intro divides
    have := Nat.le_of_dvd (Nat.succ_pos _) divides
    omega

/-- Items of one rank are in strict order when there is at most one. -/
theorem pairwise_lt_of_rank (same : ∀ item ∈ items, rank item = upper) :
    items.Pairwise (fun a b => rank a < rank b) ↔ items.length ≤ 1 := by
  match items with
  | [] => simp
  | [_] => simp
  | first :: second :: rest =>
    have equal : rank first = rank second := by
      rw [same first List.mem_cons_self, same second (List.mem_cons_of_mem _ List.mem_cons_self)]
    simp [equal]

/-- No rank is served twice: below the bound there are no two items of one rank, and at the bound
there is one item or room for one. -/
theorem served_distinct_iff (positive : 0 < size)
    (ascending : items.Pairwise fun a b => rank a ≤ rank b)
    (bounded : ∀ item ∈ items, rank item ≤ upper) :
    (served rank size upper items).Pairwise (fun a b => rank a < rank b) ↔
      ((items.map rank).filter fun value => value < upper).Nodup ∧
        ((items.map rank).count upper ≤ 1 ∨
          size ∣ ((items.map rank).filter fun value => value < upper).length + 1) := by
  have below : ((items.map rank).filter fun value => value < upper) =
      (items.filter fun item => rank item < upper).map rank := by
    rw [List.filter_map]
    rfl
  have atBound : (items.map rank).count upper = (items.filter fun item =>
    rank item = upper).length := by
    rw [List.count, List.countP_map, List.countP_eq_length_filter]
    congr 1
  have strict : (items.filter fun item => rank item < upper).Pairwise (fun a b => rank a < rank b) ↔
      ((items.filter fun item => rank item < upper).map rank).Nodup := by
    rw [List.Nodup, List.pairwise_map]
    constructor
    · intro strict
      exact strict.imp fun less => Nat.ne_of_lt less
    · intro distinct
      have both := (ascending.filter _).and distinct
      exact both.imp fun ⟨le, ne⟩ => Nat.lt_of_le_of_ne le ne
  have single : ∀ room, ((items.filter fun item => rank item = upper).take room).Pairwise
      (fun a b => rank a < rank b) ↔
        (items.filter fun item => rank item = upper).length ≤ 1 ∨ room ≤ 1 := by
    intro room
    rw [pairwise_lt_of_rank, List.length_take]
    · omega
    · intro item member
      simpa using (List.mem_filter.mp (List.mem_of_mem_take member)).2
  rw [served_eq positive ascending bounded, List.pairwise_append, below, atBound, strict, single,
    room_le_one_iff positive, List.length_map]
  constructor
  · rintro ⟨distinct, one, _⟩
    exact ⟨distinct, one⟩
  · rintro ⟨distinct, one⟩
    refine ⟨distinct, one, ?_⟩
    intro a inBelow b inTop
    have less := (List.mem_filter.mp inBelow).2
    have top := (List.mem_filter.mp (List.mem_of_mem_take inTop)).2
    simp only [decide_eq_true_eq] at less top
    omega

end Merutable.Foundation
