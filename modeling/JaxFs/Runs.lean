import Mathlib.Tactic

/-!
# Runs

A run folds a step function over a list of actions.  Conditions on the steps are
evaluated in the states in which the steps take place, and a property that every
step under its condition keeps holds at the end of every such run.
-/

section

variable {σ α : Type*} {step : σ → α → σ}

/-- Every action of the run meets the condition in the state it finds. -/
def AlongRun (step : σ → α → σ) (allowed : σ → α → Prop) : σ → List α → Prop
  | _, [] => True
  | state, action :: rest =>
      allowed state action ∧ AlongRun step allowed (step state action) rest

theorem alongRun_of_forall {allowed : σ → α → Prop} (h : ∀ state action, allowed state action)
    (state : σ) (actions : List α) : AlongRun step allowed state actions := by
  induction actions generalizing state with
  | nil => trivial
  | cons action rest ih => exact ⟨h state action, ih _⟩

/-- The condition can be checked along a run. -/
instance AlongRun.decidable {allowed : σ → α → Prop}
    [∀ state action, Decidable (allowed state action)] :
    ∀ (actions : List α) (state : σ), Decidable (AlongRun step allowed state actions)
  | [], _ => isTrue trivial
  | action :: rest, state =>
      have : Decidable (AlongRun step allowed (step state action) rest) :=
        AlongRun.decidable rest (step state action)
      inferInstanceAs (Decidable (allowed state action ∧ _))

/-- An invariant of the steps is an invariant of the runs. -/
theorem AlongRun.invariant {allowed : σ → α → Prop} {inv : σ → Prop}
    (hstep : ∀ state action, inv state → allowed state action → inv (step state action))
    {state : σ} (hstate : inv state) {actions : List α}
    (h : AlongRun step allowed state actions) : inv (actions.foldl step state) := by
  induction actions generalizing state with
  | nil => exact hstate
  | cons action rest ih => exact ih (hstep state action hstate h.1) h.2

end
