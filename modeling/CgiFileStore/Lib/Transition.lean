import Mathlib.Logic.Basic

/-!
# Runs of labelled transition systems

A system is a state to start from and a relation between a state, an event and the next
state. `Run` is the relation between a history of events and the states it can lead to, and
`Run.invariant` is the rule by which a property of all reachable states is shown.
-/

namespace Transition

variable {σ ε : Type*} {init : σ} {step : σ → ε → σ → Prop}

/-- The state reached by a history of events, the latest in front. -/
inductive Run (init : σ) (step : σ → ε → σ → Prop) : List ε → σ → Prop
  | nil : Run init step [] init
  | cons {history s e s'} : Run init step history s → step s e s' →
      Run init step (e :: history) s'

namespace Run

theorem single {e : ε} {s : σ} (h : step init e s) : Run init step [e] s := cons nil h

/-- A run can be continued by a run from the state it leads to. -/
theorem append {history history' : List ε} {s s' : σ} (h : Run init step history s)
    (h' : Run s step history' s') : Run init step (history' ++ history) s' := by
  induction h' with
  | nil => exact h
  | cons _ hstep ih => exact ih.cons hstep

/-- A property of the first state that every step preserves holds of every state reached. -/
theorem invariant {Inv : σ → Prop} {history : List ε} {s : σ} (hrun : Run init step history s)
    (hinit : Inv init) (hstep : ∀ s e s', Inv s → step s e s' → Inv s') : Inv s := by
  induction hrun with
  | nil => exact hinit
  | cons _ h ih => exact hstep _ _ _ ih h

/-- Steps that a stronger relation allows are a run of the weaker one. -/
theorem mono {strong : σ → ε → σ → Prop} {history : List ε} {s : σ}
    (hstep : ∀ s e s', strong s e s' → step s e s') (h : Run init strong history s) :
    Run init step history s := by
  induction h with
  | nil => exact nil
  | cons _ h ih => exact ih.cons (hstep _ _ _ h)

end Run

end Transition
