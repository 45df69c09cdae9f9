import Mathlib.Data.List.Infix
import Mathlib.Data.Set.Defs
import Mathlib.Order.Compare
import Mathlib.Order.Lattice

/-! Codes that compare as the values they stand for. A comparison settles two lists when nothing
that follows them can overturn it, so codes may be written one behind the other. -/

namespace Merutable.Foundation

variable {B : Type} [Ord B] {order later : Ordering} {x y : B} {xs ys left right : List B}

/-- The two lists compare as `order`; what follows them counts only where that is `eq`. -/
def Settles (order : Ordering) (xs ys : List B) : Prop :=
  ∀ left right, compare (xs ++ left) (ys ++ right) = order.then (compare left right)

theorem compare_cons (x y : B) (xs ys : List B) :
    compare (x :: xs) (y :: ys) = (compare x y).then (compare xs ys) :=
  List.compareLex_cons_cons

namespace Settles

theorem nil : Settles .eq ([] : List B) [] := fun _ _ => rfl

theorem compare_eq (settled : Settles order xs ys) : compare xs ys = order := by
  have alone := settled [] []
  rw [List.append_nil, List.append_nil] at alone
  cases order <;> exact alone

theorem cons (settled : Settles order xs ys) :
    Settles ((compare x y).then order) (x :: xs) (y :: ys) := by
  intro left right
  rw [List.cons_append, List.cons_append, compare_cons, settled, Ordering.then_assoc]

theorem single (x y : B) : Settles (compare x y) [x] [y] := by
  intro left right
  exact compare_cons x y left right

theorem lt (less : compare x y = .lt) : Settles .lt (x :: xs) (y :: ys) := by
  intro left right
  rw [List.cons_append, List.cons_append, compare_cons, less]
  rfl

theorem gt (greater : compare x y = .gt) : Settles .gt (x :: xs) (y :: ys) := by
  intro left right
  rw [List.cons_append, List.cons_append, compare_cons, greater]
  rfl

theorem append (settled : Settles order xs ys) (rest : Settles later left right) :
    Settles (order.then later) (xs ++ left) (ys ++ right) := by
  intro front back
  rw [List.append_assoc, List.append_assoc, settled, rest, Ordering.then_assoc]

/-- Codes of one length are settled. -/
theorem of_length (sized : xs.length = ys.length) : Settles (compare xs ys) xs ys := by
  induction xs generalizing ys with
  | nil =>
    cases List.length_eq_zero_iff.mp sized.symm
    exact nil
  | cons x xs ih =>
    cases ys with
    | nil => cases sized
    | cons y ys =>
      rw [compare_cons]
      exact (ih (Nat.succ.inj sized)).cons

/-- A settled code is a prefix of the other only if both are the same. -/
theorem eq_of_isPrefix [Std.ReflOrd B] (settled : Settles order xs ys)
    (before : xs <+: ys) : order = .eq := by
  obtain ⟨rest, rfl⟩ := before
  have same := settled rest []
  rw [List.append_nil, Std.ReflOrd.compare_self] at same
  cases order with
  | lt | gt => cases same
  | eq => rfl

/-- Codes of which none is a prefix of the other are settled at their first difference. -/
theorem of_not_isPrefix [Std.LawfulEqOrd B] (first : ¬ xs <+: ys) (second : ¬ ys <+: xs) :
    Settles (compare xs ys) xs ys := by
  induction xs generalizing ys with
  | nil => exact absurd List.nil_prefix first
  | cons x xs ih =>
    cases ys with
    | nil => exact absurd List.nil_prefix second
    | cons y ys =>
      rw [compare_cons]
      cases compared : compare x y with
      | lt => exact lt compared
      | gt => exact gt compared
      | eq =>
        obtain rfl := Std.LawfulEqOrd.compare_eq_iff_eq.mp compared
        rw [List.cons_prefix_cons] at first second
        have rest := (ih (fun before => first ⟨rfl, before⟩)
          fun before => second ⟨rfl, before⟩).cons (x := x) (y := x)
        rwa [compared] at rest

end Settles

/-- No code of the set is a prefix of another. -/
def PrefixFree (codes : Set (List B)) : Prop :=
  ∀ xs ∈ codes, ∀ ys ∈ codes, xs <+: ys → xs = ys

/-- Codes of a prefix-free set are settled. -/
theorem PrefixFree.settles [Std.LawfulEqOrd B] {codes : Set (List B)}
    (free : PrefixFree codes) (first : xs ∈ codes) (second : ys ∈ codes) :
    Settles (compare xs ys) xs ys := by
  by_cases same : xs = ys
  · exact .of_length (congrArg List.length same)
  · exact .of_not_isPrefix (fun before => same (free xs first ys second before))
      fun before => same (free ys second xs first before).symm

theorem compare_eq_lt {A : Type} [LinearOrder A] {xs ys : List A} :
    compare xs ys = .lt ↔ xs < ys := by
  induction xs generalizing ys with
  | nil =>
    cases ys with
    | nil => simp
    | cons y ys => exact ⟨fun _ => List.nil_lt_cons y ys, fun _ => rfl⟩
  | cons x xs ih =>
    cases ys with
    | nil => exact ⟨nofun, fun less => absurd less (List.not_lt_nil _)⟩
    | cons y ys =>
      rw [compare_cons, Ordering.then_eq_lt, ih, List.cons_lt_cons_iff, compare_lt_iff_lt,
        compare_eq_iff_eq]

end Merutable.Foundation
