import Mathlib.Data.List.Induction
import Merutable.Foundation.Versions

/-! Insertion into a list that is kept in order: maps with ordered keys as such lists, and lists of
versions. -/

namespace Merutable.Foundation

section SortedInsert

variable {A B : Type} (le : A → A → Prop) [DecidableRel le]

/-- An item that is equal in the order is replaced. -/
def sortedInsert (item : A) : List A → List A
  | [] => [item]
  | first :: rest =>
    if ¬ le first item then item :: first :: rest
    else if le item first then item :: rest
    else first :: sortedInsert item rest

variable {le} {item other : A} {list : List A}

theorem mem_of_mem_sortedInsert (member : other ∈ sortedInsert le item list) :
    other = item ∨ other ∈ list := by
  induction list with
  | nil => exact .inl (List.mem_singleton.mp member)
  | cons first rest ih =>
    unfold sortedInsert at member
    split at member
    · exact List.mem_cons.mp member
    · split at member
      · exact (List.mem_cons.mp member).imp_right (List.mem_cons_of_mem _)
      · rcases List.mem_cons.mp member with rfl | later
        · exact .inr List.mem_cons_self
        · exact (ih later).imp_right (List.mem_cons_of_mem _)

/-- A new item is added and nothing is replaced. -/
theorem sortedInsert_perm (fresh : ∀ present ∈ list, le present item → ¬ le item present) :
    (sortedInsert le item list).Perm (item :: list) := by
  induction list with
  | nil => exact .refl _
  | cons first rest ih =>
    have others := ih fun present member => fresh present (List.mem_cons_of_mem _ member)
    unfold sortedInsert
    split
    · exact .refl _
    · rename_i before
      rw [if_neg (fresh first List.mem_cons_self (not_not.mp before))]
      exact (others.cons first).trans (.swap _ _ _)

theorem sortedInsert_ascending [Std.Total le] [IsTrans A le]
    (ascending : list.Pairwise fun a b => ¬ le b a) :
    (sortedInsert le item list).Pairwise fun a b => ¬ le b a := by
  induction list with
  | nil => exact List.pairwise_singleton _ _
  | cons first rest ih =>
    obtain ⟨front, tail⟩ := List.pairwise_cons.mp ascending
    unfold sortedInsert
    split
    · rename_i after
      have before : le item first := (Std.Total.total item first).resolve_right after
      refine List.pairwise_cons.mpr ⟨List.forall_mem_cons.mpr ⟨after, ?_⟩, ascending⟩
      exact fun present member below => front present member (IsTrans.trans _ _ _ below before)
    · split
      · rename_i before
        refine List.pairwise_cons.mpr ⟨fun present member below => ?_, tail⟩
        exact front present member (IsTrans.trans _ _ _ below before)
      · rename_i after
        refine List.pairwise_cons.mpr ⟨fun present member => ?_, ih tail⟩
        rcases mem_of_mem_sortedInsert member with rfl | later
        · exact after
        · exact front present later

theorem map_sortedInsert (le' : B → B → Prop) [DecidableRel le'] {f : A → B}
    (agree : ∀ present ∈ list, (le' (f present) (f item) ↔ le present item) ∧
      (le' (f item) (f present) ↔ le item present)) :
    (sortedInsert le item list).map f = sortedInsert le' (f item) (list.map f) := by
  induction list with
  | nil => rfl
  | cons first rest ih =>
    obtain ⟨⟨below, above⟩, others⟩ := List.forall_mem_cons.mp agree
    simp only [sortedInsert, List.map_cons, below, above, ← ih others]
    split
    · rfl
    · split <;> rfl

/-- What inserting the items one after the other leaves. -/
def sortedAll (le : A → A → Prop) [DecidableRel le] (items : List A) : List A :=
  items.foldl (fun list item => sortedInsert le item list) []

theorem sortedAll_concat (items : List A) :
    sortedAll le (items ++ [item]) = sortedInsert le item (sortedAll le items) := by
  simp [sortedAll]

theorem mem_of_mem_sortedAll {items : List A} (member : item ∈ sortedAll le items) :
    item ∈ items := by
  induction items using List.reverseRecOn with
  | nil => exact member
  | append_singleton items last ih =>
    rw [sortedAll_concat] at member
    rcases mem_of_mem_sortedInsert member with rfl | before
    · exact List.mem_append_right _ List.mem_cons_self
    · exact List.mem_append_left _ (ih before)

theorem sortedAll_ascending [Std.Total le] [IsTrans A le] (items : List A) :
    (sortedAll le items).Pairwise fun a b => ¬ le b a := by
  induction items using List.reverseRecOn with
  | nil => exact .nil
  | append_singleton items last ih =>
    rw [sortedAll_concat]
    exact sortedInsert_ascending ih

theorem sortedAll_perm {items : List A} (apart : items.Pairwise fun a b => le a b → ¬ le b a) :
    (sortedAll le items).Perm items := by
  induction items using List.reverseRecOn with
  | nil => exact .refl _
  | append_singleton items last ih =>
    obtain ⟨earlier, _, fresh⟩ := List.pairwise_append.mp apart
    rw [sortedAll_concat]
    refine (sortedInsert_perm fun present member => ?_).trans
      (((ih earlier).cons last).trans (List.perm_append_singleton last items).symm)
    exact fresh present (mem_of_mem_sortedAll member) last List.mem_cons_self

theorem map_sortedAll (le' : B → B → Prop) [DecidableRel le'] {f : A → B} {items : List A}
    (agree : ∀ a ∈ items, ∀ b ∈ items, le' (f a) (f b) ↔ le a b) :
    (sortedAll le items).map f = sortedAll le' (items.map f) := by
  induction items using List.reverseRecOn with
  | nil => rfl
  | append_singleton items last ih =>
    have earlier := ih fun a first b second =>
      agree a (List.mem_append_left _ first) b (List.mem_append_left _ second)
    rw [sortedAll_concat, List.map_append, List.map_singleton, sortedAll_concat, ← earlier]
    refine map_sortedInsert le' fun present member => ?_
    have first := List.mem_append_left [last] (mem_of_mem_sortedAll member)
    have second := List.mem_append_right items (List.mem_singleton_self last)
    exact ⟨agree _ first _ second, agree _ second _ first⟩

end SortedInsert

section Versions

variable {V K : Type} [LinearOrder K] {key : V → K} {seq : V → Nat} {le : V → V → Prop}
  [DecidableRel le] {items : List V} {item : V} {k : K} {bound : Nat}

theorem sortedAll_distinct (increasing : items.Pairwise fun a b => seq a < seq b) :
    ∀ a ∈ sortedAll le items, ∀ b ∈ sortedAll le items, seq a = seq b → a = b :=
  fun _ first _ second => eq_of_seq_eq increasing (mem_of_mem_sortedAll first)
    (mem_of_mem_sortedAll second)

variable (ordered : ∀ a ∈ items, ∀ b ∈ items, le a b → VersionOrder key seq a b)
include ordered

theorem sortedAll_versions_perm (increasing : items.Pairwise fun a b => seq a < seq b) :
    (sortedAll le items).Perm items := by
  refine sortedAll_perm (increasing.imp_of_mem fun {a b} first second less before after => ?_)
  have down := ordered a first b second before
  have up := ordered b second a first after
  exact absurd less (not_lt.mpr (down.seq_le (le_antisymm down.key_le up.key_le)))

variable [Std.Total le] [IsTrans V le]

theorem sortedAll_versions : (sortedAll le items).Pairwise (VersionOrder key seq) := by
  refine (sortedAll_ascending items).imp_of_mem fun {a b} first second after => ?_
  exact ordered a (mem_of_mem_sortedAll first) b (mem_of_mem_sortedAll second)
    ((Std.Total.total a b).resolve_right after)

variable [DecidableEq K] (increasing : items.Pairwise fun a b => seq a < seq b)
include increasing

theorem find?_sortedAll :
    (((sortedAll le items).dropWhile fun item => key item < k).takeWhile
      fun item => key item = k).find? (fun item => seq item ≤ bound) = some item ↔
      Latest key seq items k bound item := by
  have sorted := sortedAll_versions ordered
  rw [block_eq_filter sorted, find?_block sorted (sortedAll_distinct increasing)]
  exact Latest.congr fun _ => (sortedAll_versions_perm ordered increasing).mem_iff

theorem mem_keepFirst_sortedAll :
    item ∈ keepFirst key none ((sortedAll le items).filter fun item => seq item ≤ bound) ↔
      Latest key seq items (key item) bound item := by
  rw [mem_keepFirst_iff (sortedAll_versions ordered)
    (sortedAll_distinct increasing)]
  exact Latest.congr fun _ => (sortedAll_versions_perm ordered increasing).mem_iff

end Versions

namespace OrderedMap

variable {K V : Type} [LinearOrder K]

/-- The value of a key that is present is replaced. -/
def insert (key : K) (value : V) (map : List (K × V)) : List (K × V) :=
  sortedInsert (fun a b => a.1 ≤ b.1) (key, value) map

/-- The keys are strictly ascending. -/
abbrev Ascending (map : List (K × V)) : Prop := map.Pairwise fun a b => a.1 < b.1

variable {key : K} {value : V} {map : List (K × V)}

theorem insert_ascending (ascending : Ascending map) : Ascending (insert key value map) := by
  have total : Std.Total fun a b : K × V => a.1 ≤ b.1 := ⟨fun a b => le_total a.1 b.1⟩
  have trans : IsTrans (K × V) fun a b => a.1 ≤ b.1 := ⟨fun _ _ _ => le_trans⟩
  exact (sortedInsert_ascending (ascending.imp not_le.mpr)).imp not_le.mp

end OrderedMap

end Merutable.Foundation
