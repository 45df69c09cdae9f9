import Mathlib.Logic.Basic

/-! Runs of a transition system given by a partial step function, with a guard that every step of
the run has to meet in the state it starts from. -/

namespace Merutable.Foundation

variable {S A : Type}

/-- Executes the actions in order, stopping with `none` at the first one that is not enabled. -/
def execute (step : S → A → Option S) : S → List A → Option S
  | state, [] => some state
  | state, action :: rest =>
    match step state action with
    | some next => execute step next rest
    | none => none

/-- A run whose steps all meet `guard`. -/
inductive Run (step : S → A → Option S) (guard : S → A → Prop) : S → List A → S → Prop
  | nil (state : S) : Run step guard state [] state
  | cons {state next last : S} {action : A} {rest : List A}
      (met : guard state action) (fired : step state action = some next)
      (later : Run step guard next rest last) : Run step guard state (action :: rest) last

variable {step : S → A → Option S} {guard : S → A → Prop} {state middle last : S}
  {actions rest : List A}

/-- An executed sequence is a run under every guard that its actions always meet. -/
theorem Run.of_execute (free : ∀ action ∈ actions, ∀ state, guard state action)
    (executed : execute step state actions = some last) : Run step guard state actions last := by
  induction actions generalizing state with
  | nil =>
    cases executed
    exact .nil _
  | cons action rest ih =>
    simp only [execute] at executed
    cases fired : step state action with
    | none => simp [fired] at executed
    | some next =>
      rw [fired] at executed
      have later := ih (fun other member => free other (List.mem_cons_of_mem _ member)) executed
      exact .cons (free action List.mem_cons_self state) fired later

/-- The last state of an execution, or the first one if it gets stuck. -/
def final (step : S → A → Option S) (state : S) (actions : List A) : S :=
  (execute step state actions).getD state

theorem execute_final (ran : (execute step state actions).isSome) :
    execute step state actions = some (final step state actions) := by
  obtain ⟨last, executed⟩ := Option.isSome_iff_exists.mp ran
  rw [final, executed, Option.getD_some]

theorem Run.append (first : Run step guard state actions middle)
    (second : Run step guard middle rest last) : Run step guard state (actions ++ rest) last := by
  induction first with
  | nil => exact second
  | cons met fired _ ih => exact .cons met fired (ih second)

theorem execute_append : execute step state (actions ++ rest) =
    (execute step state actions).bind fun middle => execute step middle rest := by
  induction actions generalizing state with
  | nil => rfl
  | cons action others ih =>
    simp only [List.cons_append, execute]
    cases step state action with
    | none => rfl
    | some next => exact ih

/-- A run goes on with an action that meets the guard and others that always do. -/
theorem Run.extend {action : A} (first : Run step guard state actions (final step state actions))
    (ran : (execute step state (actions ++ action :: rest)).isSome)
    (met : guard (final step state actions) action)
    (free : ∀ other ∈ rest, ∀ state, guard state other) :
    Run step guard state (actions ++ action :: rest)
      (final step state (actions ++ action :: rest)) := by
  have executed := execute_final ran
  rw [execute_append, Option.bind_eq_some_iff] at executed
  obtain ⟨middle, before, after⟩ := executed
  have reached : final step state actions = middle := by rw [final, before, Option.getD_some]
  rw [reached] at first met
  simp only [execute] at after
  cases fired : step middle action with
  | none => simp [fired] at after
  | some next =>
    rw [fired] at after
    exact first.append (.cons met fired (.of_execute free after))

/-- The step function with a test in front of it. -/
def checked (step : S → A → Option S) (check : S → A → Bool) (state : S) (action : A) : Option S :=
  if check state action then step state action else none

/-- An execution that passes the test is a run under a guard that the test decides where `inv`
holds. -/
theorem Run.of_checked {check : S → A → Bool} (inv : S → Prop)
    (sound : ∀ state action, inv state → check state action = true → guard state action)
    (kept : ∀ state action next, inv state → check state action = true →
      step state action = some next → inv next)
    (initially : inv state) (passed : (execute (checked step check) state actions).isSome) :
    Run step guard state actions (final step state actions) ∧ inv (final step state actions) := by
  have checks : ∃ last, Run step guard state actions last ∧ inv last ∧
      execute step state actions = some last := by
    induction actions generalizing state with
    | nil => exact ⟨state, .nil _, initially, rfl⟩
    | cons action rest ih =>
      simp only [execute, checked] at passed ⊢
      split at passed
      · rename_i next fired
        split at fired
        · rename_i good
          obtain ⟨last, later, held, executed⟩ := ih (kept _ _ _ initially good fired) passed
          refine ⟨last, .cons (sound _ _ initially good) fired later, held, ?_⟩
          rw [fired]
          exact executed
        · cases fired
      · cases passed
  obtain ⟨last, run, held, executed⟩ := checks
  rw [final, executed]
  exact ⟨run, held⟩

theorem Run.of_decided [∀ state action, Decidable (guard state action)]
    (passed : (execute (checked step fun state action => decide (guard state action)) state
      actions).isSome) : Run step guard state actions (final step state actions) :=
  (Run.of_checked (fun _ => True) (fun _ _ _ met => of_decide_eq_true met)
    (fun _ _ _ _ _ _ => trivial) trivial passed).1

/-- The guard of a run may be replaced by one its actions meet whenever they meet the first. -/
theorem Run.mono {other : S → A → Prop}
    (implies : ∀ action ∈ actions, ∀ state, guard state action → other state action)
    (run : Run step guard state actions last) : Run step other state actions last := by
  induction run with
  | nil => exact .nil _
  | cons met fired _ ih =>
    have later := ih fun action member => implies action (List.mem_cons_of_mem _ member)
    exact .cons (implies _ List.mem_cons_self _ met) fired later

/-- The step function decides the states of a run, so two guards can be met together. -/
theorem Run.and {other : S → A → Prop} (first : Run step guard state actions last)
    (second : Run step other state actions last) :
    Run step (fun state action => guard state action ∧ other state action) state actions last := by
  induction first with
  | nil => exact .nil _
  | cons met fired _ ih =>
    cases second with
    | cons met' fired' later =>
      have same := fired.symm.trans fired'
      cases same
      exact .cons ⟨met, met'⟩ fired (ih later)

/-- What every guarded step preserves holds at the end of every guarded run. -/
theorem Run.invariant (inv : S → Prop)
    (preserved : ∀ state action next, inv state → guard state action →
      step state action = some next → inv next)
    (run : Run step guard state actions last) (initially : inv state) : inv last := by
  induction run with
  | nil => exact initially
  | cons met fired _ ih => exact ih (preserved _ _ _ initially met fired)

/-- The same for a property of the state and of the actions that led to it. -/
theorem Run.past_invariant (inv : List A → S → Prop)
    (preserved : ∀ past state action next, inv past state → guard state action →
      step state action = some next → inv (past ++ [action]) next)
    (run : Run step guard state actions last) {past : List A} (initially : inv past state) :
    inv (past ++ actions) last := by
  induction run generalizing past with
  | nil =>
    rw [List.append_nil]
    exact initially
  | cons met fired _ ih =>
    have next := ih (preserved _ _ _ _ initially met fired)
    rwa [List.append_assoc] at next

/-- A relation to the first state that every guarded step extends holds across the run. -/
theorem Run.relation (inv : S → Prop) (rel : S → S → Prop) (refl : ∀ state, rel state state)
    (trans : ∀ first second third, rel first second → rel second third → rel first third)
    (preserved : ∀ state action next, inv state → guard state action →
      step state action = some next → inv next ∧ rel state next)
    (run : Run step guard state actions last) (initially : inv state) : rel state last := by
  induction run with
  | nil => exact refl _
  | cons met fired _ ih =>
    have one := preserved _ _ _ initially met fired
    exact trans _ _ _ one.2 (ih one.1)

end Merutable.Foundation
