import Mathlib.Data.List.Flatten
import Mathlib.Data.List.Forall2
import Mathlib.Data.List.Nodup
import Mathlib.Data.List.Sort

/-! Lists paired item by item, and traversals that stop at the first error. -/

namespace Merutable.Foundation

variable {A B E : Type} {r t : A → B → Prop} {xs : List A} {ys : List B}

/-- A list with one value for each item can be chosen item by item. -/
theorem exists_forall₂ (xs : List A) : (∃ ys, List.Forall₂ r xs ys) ↔ ∀ x ∈ xs, ∃ y, r x y := by
  induction xs with
  | nil => simp
  | cons x xs ih =>
    rw [List.forall_mem_cons, ← ih]
    constructor
    · rintro ⟨_, all⟩
      cases all with
      | cons first rest => exact ⟨⟨_, first⟩, _, rest⟩
    · rintro ⟨⟨y, first⟩, ys, rest⟩
      exact ⟨y :: ys, .cons first rest⟩

theorem forall₂_and :
    List.Forall₂ (fun x y => r x y ∧ t x y) xs ys ↔ List.Forall₂ r xs ys ∧
      List.Forall₂ t xs ys := by
  induction xs generalizing ys with
  | nil => simp
  | cons x xs ih =>
    cases ys with
    | nil => simp
    | cons y ys =>
      simp only [List.forall₂_cons, ih]
      tauto

theorem forall₂_right {p : B → Prop} (sized : xs.length = ys.length) :
    List.Forall₂ (fun _ y => p y) xs ys ↔ ∀ y ∈ ys, p y := by
  induction xs generalizing ys with
  | nil => cases ys <;> simp_all
  | cons x xs ih =>
    cases ys with
    | nil => cases sized
    | cons y ys => rw [List.forall₂_cons, ih (Nat.succ.inj sized), List.forall_mem_cons]

theorem forall₂_congr_right (same : ∀ y ∈ ys, ∀ x, r x y ↔ t x y) :
    List.Forall₂ r xs ys ↔ List.Forall₂ t xs ys := by
  induction ys generalizing xs with
  | nil => simp
  | cons y ys ih =>
    have rest := fun xs => @ih xs fun other member => same other (List.mem_cons_of_mem _ member)
    simp only [List.forall₂_cons_right_iff, same y List.mem_cons_self, rest]

theorem exists_left_of_forall₂ (all : List.Forall₂ r xs ys) : ∀ y ∈ ys, ∃ x ∈ xs, r x y := by
  induction all with
  | nil => intro y member; cases member
  | cons here _ ih =>
    intro y member
    rcases List.mem_cons.mp member with rfl | later
    · exact ⟨_, List.mem_cons_self, here⟩
    · obtain ⟨x, inXs, related⟩ := ih y later
      exact ⟨x, List.mem_cons_of_mem _ inXs, related⟩

theorem forall₂_comp {C : Type} {u : B → C → Prop} {v : A → C → Prop} {zs : List C}
    (first : List.Forall₂ r xs ys) (second : List.Forall₂ u ys zs)
    (both : ∀ x y z, r x y → u y z → v x z) : List.Forall₂ v xs zs := by
  induction first generalizing zs with
  | nil =>
    cases second
    exact .nil
  | cons here _ ih =>
    cases second with
    | cons there later => exact .cons (both _ _ _ here there) (ih later)

section Sorting

variable {le : A → A → Prop} {le' : B → B → Prop} [DecidableRel le] [DecidableRel le'] {x : A}
  {y : B} (agree : ∀ a b c d, r a b → r c d → (le a c ↔ le' b d))
include agree

theorem forall₂_orderedInsert (related : r x y) (all : List.Forall₂ r xs ys) :
    List.Forall₂ r (xs.orderedInsert le x) (ys.orderedInsert le' y) := by
  induction all with
  | nil => exact .cons related .nil
  | cons here later ih =>
    simp only [List.orderedInsert_cons, agree _ _ _ _ related here]
    split
    · exact .cons related (.cons here later)
    · exact .cons here ih

theorem forall₂_insertionSort (all : List.Forall₂ r xs ys) :
    List.Forall₂ r (xs.insertionSort le) (ys.insertionSort le') :=
  List.rel_foldr (fun _ _ related _ _ rest => forall₂_orderedInsert agree related rest) .nil all

end Sorting

theorem map_eq_of_forall₂ {C : Type} {f : A → C} {g : B → C} (all : List.Forall₂ r xs ys)
    (same : ∀ x y, r x y → f x = g y) : xs.map f = ys.map g := by
  induction all with
  | nil => rfl
  | cons here _ ih => rw [List.map_cons, List.map_cons, same _ _ here, ih]

theorem find_of_forall₂ {p : A → Bool} {q : B → Bool} {y : B} (all : List.Forall₂ r xs ys)
    (same : ∀ x y, r x y → p x = q y) (found : ys.find? q = some y) :
    ∃ x, xs.find? p = some x ∧ r x y := by
  induction all with
  | nil => cases found
  | @cons x first xs rest here _ ih =>
    cases picked : q first with
    | true =>
      rw [List.find?_cons_of_pos picked] at found
      rw [← Option.some.inj found]
      exact ⟨x, List.find?_cons_of_pos ((same x first here).trans picked), here⟩
    | false =>
      rw [List.find?_cons_of_neg (by simp [picked])] at found
      have skipped : ¬ p x = true := by simp [same x first here, picked]
      rw [List.find?_cons_of_neg skipped]
      exact ih found

theorem forall₂_flatten {f : A → List B} {C : Type} {link : B → C → Prop} {lists : List (List C)}
    (all : List.Forall₂ (fun x list => List.Forall₂ link (f x) list) xs lists) :
    List.Forall₂ link (xs.flatMap f) lists.flatten := by
  induction all with
  | nil => exact .nil
  | cons here _ ih =>
    rw [List.flatMap_cons, List.flatten_cons]
    exact List.rel_append here ih

/-- A traversal succeeds when every item does, with the values in order. -/
theorem mapM_eq_ok {f : A → Except E B} :
    xs.mapM f = .ok ys ↔ List.Forall₂ (fun x y => f x = .ok y) xs ys := by
  induction xs generalizing ys with
  | nil =>
    cases ys with
    | nil => simp [pure, Except.pure]
    | cons y ys => simp [pure, Except.pure]
  | cons x xs ih =>
    rw [List.mapM_cons, List.forall₂_cons_left_iff]
    cases first : f x with
    | error error => simp [bind, Except.bind]
    | ok value =>
      cases rest : xs.mapM f with
      | error error =>
        simp [bind, Except.bind, ← ih, rest]
      | ok values =>
        simp only [bind, Except.bind, pure, Except.pure, Except.ok.injEq, ← ih, rest]
        constructor
        · rintro rfl
          exact ⟨value, values, rfl, rfl, rfl⟩
        · rintro ⟨_, _, rfl, rfl, rfl⟩
          rfl

theorem mapM_isOk {f : A → Except E B} :
    (∃ ys, xs.mapM f = .ok ys) ↔ ∀ x ∈ xs, ∃ y, f x = .ok y := by
  simp only [mapM_eq_ok, exists_forall₂]

theorem forM_eq_ok {f : A → Except E Unit} : xs.forM f = .ok () ↔ ∀ x ∈ xs, f x = .ok () := by
  induction xs with
  | nil => exact ⟨nofun, fun _ => rfl⟩
  | cons x xs ih =>
    rw [List.forall_mem_cons, ← ih]
    change (f x >>= fun _ => xs.forM f) = .ok () ↔ _
    cases f x <;> simp [bind, Except.bind]

/-- A replaced item with the same image leaves the images as they are. -/
theorem map_set_of_eq {f : A → B} {index : Nat} {old new : A} (found : xs[index]? = some old)
    (same : f new = f old) : (xs.set index new).map f = xs.map f := by
  obtain ⟨bound, rfl⟩ := List.getElem?_eq_some_iff.mp found
  have bound' : index < (xs.map f).length := by rwa [List.length_map]
  have own : f new = (xs.map f)[index] := by rw [List.getElem_map, same]
  rw [List.map_set, own, List.set_getElem_self]

/-- Two lists without repetitions give the same values if they agree where there is a value. -/
theorem filterMap_perm {f : A → Option B} {keys others : List A} (distinct : keys.Nodup)
    (distinct' : others.Nodup)
    (same : ∀ key, (f key).isSome → (key ∈ keys ↔ key ∈ others)) :
    (keys.filterMap f).Perm (others.filterMap f) := by
  have defined : ∀ list : List A, list.filterMap f =
      (list.filter fun key => (f key).isSome).filterMap f := by
    intro list
    induction list with
    | nil => rfl
    | cons key rest ih =>
      cases value : f key with
      | none => simp [value, ih]
      | some result => simp [value, ih]
  rw [defined keys, defined others]
  apply List.Perm.filterMap
  apply (List.perm_ext_iff_of_nodup (distinct.filter _) (distinct'.filter _)).mpr
  intro key
  rw [List.mem_filter, List.mem_filter]
  constructor
  · intro found
    exact ⟨(same key found.2).mp found.1, found.2⟩
  · intro found
    exact ⟨(same key found.2).mpr found.1, found.2⟩

/-- Parts that together are as long as the wholes are the wholes. -/
theorem eq_of_flatMap_length {part whole : A → List B} {items : List A}
    (within : ∀ item ∈ items, (part item).Sublist (whole item))
    (sized : (items.flatMap part).length = (items.flatMap whole).length) :
    ∀ item ∈ items, part item = whole item := by
  induction items with
  | nil => intro item member; cases member
  | cons first rest ih =>
    rw [List.flatMap_cons, List.flatMap_cons, List.length_append, List.length_append] at sized
    have here := within first List.mem_cons_self
    have others : ∀ item ∈ rest, (part item).Sublist (whole item) :=
      fun item member => within item (List.mem_cons_of_mem _ member)
    have below := (List.Sublist.flatMap_right rest others).length_le
    have above := here.length_le
    intro item member
    rcases List.mem_cons.mp member with rfl | later
    · exact here.eq_of_length (by omega)
    · exact ih others (by omega) item later

end Merutable.Foundation
