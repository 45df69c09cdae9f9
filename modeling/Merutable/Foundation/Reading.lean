import Mathlib.Data.List.Infix

/-! Readers that take values off the front of an input, and codes that they read back. -/

namespace Merutable.Foundation

variable {E B A C : Type}

/-- The reader takes exactly the code off an input that starts with it, and fails on an input that
ends inside the code. -/
structure Decodes (read : StateT (List B) (Except E) A) (code : List B) (value : A) : Prop where
  whole : ∀ rest, read.run (code ++ rest) = .ok (value, rest)
  cut : ∀ start, start <+: code → start ≠ code → ∃ error, read.run start = .error error

/-- The reader `count` times in a row. -/
def takeMany (read : StateT (List B) (Except E) A) : Nat → StateT (List B) (Except E) (List A)
  | 0 => pure []
  | count + 1 => do
      let value ← read
      let later ← takeMany read count
      return value :: later

/-- The next `count` items. -/
def takeExact (count : Nat) (error : Nat → E) : StateT (List B) (Except E) (List B) := fun data =>
  if data.length < count then .error (error data.length)
  else .ok (data.take count, data.drop count)

variable {read : StateT (List B) (Except E) A} {next : A → StateT (List B) (Except E) C}
variable {code more : List B} {value : A} {result : C}

theorem run_bind_ok {data rest : List B} (ran : read.run data = .ok (value, rest)) :
    (read >>= next).run data = (next value).run rest := by
  rw [StateT.run_bind, ran]
  rfl

namespace Decodes

theorem pure (value : A) : Decodes (E := E) (B := B) (Pure.pure value) [] value where
  whole _ := rfl
  cut _ short proper := absurd (List.prefix_nil.mp short) proper

theorem exact (code : List B) (error : Nat → E) :
    Decodes (takeExact code.length error) code code where
  whole rest := by
    simp [StateT.run, takeExact]
  cut start short proper := by
    have less : start.length < code.length := by
      refine lt_of_le_of_ne short.length_le fun same => ?_
      exact proper (short.eq_of_length same)
    exact ⟨error start.length, if_pos less⟩

theorem bind (first : Decodes read code value) (second : Decodes (next value) more result) :
    Decodes (read >>= next) (code ++ more) result where
  whole rest := by
    rw [List.append_assoc, run_bind_ok (first.whole _)]
    exact second.whole rest
  cut start short proper := by
    by_cases past : code <+: start
    · -- The first code is whole, so the input ends inside the second one.
      obtain ⟨later, rfl⟩ := past
      rw [run_bind_ok (first.whole later)]
      apply second.cut later
      · exact (List.prefix_append_right_inj code).mp short
      · intro same
        exact proper (congrArg (code ++ ·) same)
    · have inside : start <+: code :=
        (List.prefix_or_prefix_of_prefix short (List.prefix_append code more)).resolve_right past
      obtain ⟨error, failed⟩ := first.cut start inside fun same => past (same ▸ List.prefix_rfl)
      rw [StateT.run_bind, failed]
      exact ⟨error, rfl⟩

theorem map (first : Decodes read code value)
    (f : A → C) : Decodes (f <$> read) code (f value) := by
  have both : Decodes (read >>= fun value => Pure.pure (f value)) (code ++ []) (f value) :=
    first.bind (pure (f value))
  rw [List.append_nil] at both
  rwa [map_eq_pure_bind]

theorem many {item : C → List B} {image : C → A} (items : List C)
    (each : ∀ x ∈ items, Decodes read (item x) (image x)) :
    Decodes (takeMany read items.length) (items.flatMap item) (items.map image) := by
  induction items with
  | nil => exact pure []
  | cons x rest ih =>
    have later := ih fun y member => each y (List.mem_cons_of_mem x member)
    exact (each x List.mem_cons_self).bind (later.map (image x :: ·))

end Decodes

end Merutable.Foundation
