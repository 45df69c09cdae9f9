import Mathlib.Data.List.Pairwise
import Mathlib.Order.Interval.Set.Disjoint
import Mathlib.Data.Int.ConditionallyCompleteOrder
import Mathlib.Order.ConditionallyCompleteLattice.Basic
import Mathlib.Order.CompletePartialOrder

/-! Half-open intervals of integers handed out one after the other from a running cursor. -/

namespace Merutable.Foundation

variable {A : Type} {first : A → Int} {size : A → Nat} {start middle last : Int}
  {items rest : List A}

/-- The intervals of the items, in order, cover everything from `start` up to `last`. -/
inductive Tiles (first : A → Int) (size : A → Nat) : Int → List A → Int → Prop
  | nil (cursor : Int) : Tiles first size cursor [] cursor
  | cons {item : A} {rest : List A} {cursor last : Int} (here : first item = cursor)
      (later : Tiles first size (cursor + size item) rest last) :
      Tiles first size cursor (item :: rest) last

theorem Tiles.append (front : Tiles first size start items middle)
    (back : Tiles first size middle rest last) : Tiles first size start (items ++ rest) last := by
  induction front with
  | nil => exact back
  | cons here _ ih => exact .cons here (ih back)

section

variable (tiles : Tiles first size start items last)
include tiles

theorem Tiles.le : start ≤ last := by
  induction tiles with
  | nil => exact le_rfl
  | cons _ _ ih => omega

theorem Tiles.bounds :
    ∀ item ∈ items, start ≤ first item ∧ first item + size item ≤ last := by
  induction tiles with
  | nil => simp
  | cons here later ih =>
    have onward := later.le
    refine List.forall_mem_cons.mpr ⟨⟨here.ge, here ▸ onward⟩, fun item member => ?_⟩
    have inside := ih item member
    omega

/-- No two of the intervals meet. -/
theorem Tiles.disjoint : items.Pairwise fun one other =>
    Disjoint (Set.Ico (first one) (first one + size one))
      (Set.Ico (first other) (first other + size other)) := by
  induction tiles with
  | nil => exact .nil
  | cons here later ih =>
    refine .cons (fun item member => ?_) ih
    rw [here]
    exact Set.Ico_disjoint_Ico_same.mono_right
      (Set.Ico_subset_Ico_left (later.bounds item member).1)

end

end Merutable.Foundation
