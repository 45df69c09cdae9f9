import Merutable.Foundation.Traversal
import Merutable.Schema

/-! The field ids of a schema after `TableSchema::validate`. -/

namespace Merutable.TableSchema

variable {schema : TableSchema} {last nextId : Nat} {seen : List Nat} {cols : List ColumnDef}

theorem checkFieldIds_eq_ok {done : Unit} : checkFieldIds last seen cols = .ok done ↔
    (∀ id ∈ cols.filterMap ColumnDef.fieldId, id ∉ seen ∧ id ≤ last) ∧
      (cols.filterMap ColumnDef.fieldId).Nodup := by
  induction cols generalizing seen with
  | nil => simp [checkFieldIds]
  | cons col rest ih =>
    rw [checkFieldIds]
    cases given : col.fieldId with
    | none => rw [List.filterMap_cons_none given, ih]
    | some id =>
      rw [List.filterMap_cons_some given, List.forall_mem_cons, List.nodup_cons]
      simp only [Except.bind_eq_ok, okIf_eq_ok, exists_const, ih, List.mem_cons, not_or]
      constructor
      · rintro ⟨fresh, bound, others, distinct⟩
        refine ⟨⟨⟨fresh, bound⟩, fun other member => ?_⟩, fun again => ?_, distinct⟩
        · exact ⟨(others other member).1.2, (others other member).2⟩
        · exact (others id again).1.1 rfl
      · rintro ⟨⟨⟨fresh, bound⟩, others⟩, alone, distinct⟩
        refine ⟨fresh, bound, fun other member => ?_, distinct⟩
        exact ⟨⟨fun same => alone (same ▸ member), (others other member).1⟩,
          (others other member).2⟩

/-- A column after ids were assigned: the same but for an id it lacked. -/
structure Kept (old new : ColumnDef) : Prop where
  assigned : new.fieldId ≠ none
  preset : old.fieldId ≠ none → new = old
  same : new = { old with fieldId := new.fieldId }

theorem assignFieldIds_kept :
    List.Forall₂ Kept cols (assignFieldIds nextId cols).1 := by
  induction cols generalizing nextId with
  | nil => exact .nil
  | cons col rest ih =>
    rw [assignFieldIds]
    split
    · rename_i missing
      refine .cons ⟨Option.some_ne_none _, fun given => ?_, rfl⟩ ih
      exact absurd (Option.isNone_iff_eq_none.mp missing) given
    · rename_i given
      rw [Option.isNone_iff_eq_none] at given
      exact .cons ⟨given, fun _ => rfl, rfl⟩ ih

theorem assignFieldIds_next (bound : nextId ≤ u32Max) : (assignFieldIds nextId cols).2 ≤ u32Max ∧
    (¬ (cols.all fun col => col.fieldId.isSome) = true →
      nextId ∈ (assignFieldIds nextId cols).1.filterMap ColumnDef.fieldId) := by
  induction cols generalizing nextId with
  | nil => simpa [assignFieldIds] using bound
  | cons col rest ih =>
    rw [assignFieldIds]
    cases given : col.fieldId with
    | none =>
      exact ⟨(ih (Nat.min_le_right _ _)).1, fun _ => List.mem_cons_self⟩
    | some id =>
      refine ⟨(ih bound).1, fun missing => ?_⟩
      simp only [List.all_cons, given, Option.isSome_some, Bool.true_and] at missing
      exact List.mem_filterMap.mpr (by
        obtain ⟨other, member, own⟩ := List.mem_filterMap.mp ((ih bound).2 missing)
        exact ⟨other, List.mem_cons_of_mem _ member, own⟩)

theorem normalizeFieldIds_kept :
    List.Forall₂ Kept schema.columns schema.normalizeFieldIds.columns := by
  rw [normalizeFieldIds]
  split
  · rename_i given
    refine List.forall₂_same.mpr fun col member => ⟨?_, fun _ => rfl, rfl⟩
    exact Option.isSome_iff_ne_none.mp (List.all_eq_true.mp given col member)
  · exact assignFieldIds_kept

/-- An accepted schema has an id on every column, distinct and up to `last_column_id`; what was set
stays as it was, and validating once more changes nothing. -/
theorem validate_sets_field_ids (schema after : TableSchema)
    (accepted : schema.validate = (after, .ok ())) :
    (∀ col ∈ after.columns, ∃ id, col.fieldId = some id ∧ id ≤ after.lastColumnId) ∧
      (after.columns.filterMap ColumnDef.fieldId).Nodup ∧
      List.Forall₂ Kept schema.columns after.columns ∧
      schema.lastColumnId ≤ after.lastColumnId ∧ after.validate = (after, .ok ()) := by
  obtain ⟨rfl, valid⟩ := Prod.mk.inj accepted
  have kept := @normalizeFieldIds_kept schema
  have given : ∀ col ∈ schema.normalizeFieldIds.columns, col.fieldId ≠ none := by
    intro col member
    obtain ⟨old, _, keeps⟩ := Foundation.exists_left_of_forall₂ kept col member
    exact keeps.assigned
  have again : schema.normalizeFieldIds.normalizeFieldIds = schema.normalizeFieldIds := by
    refine if_pos (List.all_eq_true.mpr fun col member => ?_)
    exact Option.isSome_iff_ne_none.mpr (given col member)
  have checked := valid
  simp only [validateReadonly, Except.bind_eq_ok, okIf_eq_ok, exists_const,
    checkFieldIds_eq_ok] at checked
  obtain ⟨_, _, _, _, bounds, distinct⟩ := checked
  refine ⟨fun col member => ?_, distinct, kept, ?_, ?_⟩
  · obtain ⟨id, own⟩ := Option.ne_none_iff_exists'.mp (given col member)
    exact ⟨id, own, (bounds id (List.mem_filterMap.mpr ⟨col, member, own⟩)).2⟩
  · rw [normalizeFieldIds] at bounds ⊢
    split at bounds
    · rename_i all
      rw [if_pos all]
    · rename_i missing
      obtain ⟨below, taken⟩ :=
        @assignFieldIds_next (min (schema.lastColumnId + 1) u32Max) schema.columns
          (min_le_right _ _)
      -- a counter that saturates is below the id it has given away, which the check refuses
      have bound := (bounds _ (taken missing)).2
      have positive : 0 < u32Max := by decide
      rw [if_neg missing]
      dsimp only at bound ⊢
      omega
  · rw [validate, again, valid]

/-- A column without an id, and one that has the id up to which ids were given. -/
def mixed : TableSchema :=
  ⟨"t", [⟨"id", .int64, false, none, none, none⟩, ⟨"note", .int64, true, some 2, none, none⟩], [0],
    0, 2⟩

theorem validate_sets_field_ids_mixed :
    mixed.validate.1.lastColumnId = 3 ∧ mixed.lastColumnId ≤ mixed.validate.1.lastColumnId ∧
      mixed.validate.1.validate = (mixed.validate.1, .ok ()) :=
  ⟨by decide, (validate_sets_field_ids mixed _ (by decide +kernel)).2.2.2⟩

end Merutable.TableSchema
