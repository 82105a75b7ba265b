import Mathlib.Data.List.Basic

/-!
# Runs of a labelled transition system

A system is a relation `step s o t`: the operation `o` takes the state `s` to the state `t`. A run
is a finite sequence of steps. Since every prefix of a run is a run, a property of the last state
of every run is a property of every state that is reached.

A *guarded* run is one whose steps all meet a condition on the operation and on the state before
it. `Run.invariant` is the induction rule: a property that every guarded step keeps holds at the
end of every guarded run.

## Main definitions

* `Run step s os t` — the operations `os` lead from `s` to `t`
* `guarded guard step` — the steps that meet the guard

## Main results

* `Run.invariant` — the invariant rule
-/

namespace MinimalKernel.Lib

variable {σ : Type*} {ο : Type*}

/-- `Run step s os t`: the operations `os`, in this order, lead from `s` to `t`. -/
inductive Run (step : σ → ο → σ → Prop) : σ → List ο → σ → Prop
  | nil {s : σ} : Run step s [] s
  | cons {o : ο} {os : List ο} {s t u : σ} (first : step s o t) (rest : Run step t os u) :
      Run step s (o :: os) u

/-- The steps whose operation meets `guard` in the state before the step. -/
def guarded (guard : σ → ο → Prop) (step : σ → ο → σ → Prop) : σ → ο → σ → Prop :=
  fun s o t => guard s o ∧ step s o t

namespace Run

variable {step : σ → ο → σ → Prop} {s t : σ} {os : List ο}

/-- **Invariant rule.** What every step keeps holds at the end of every run. -/
theorem invariant {I : σ → Prop} (hstep : ∀ s o t, I s → step s o t → I t)
    (h : Run step s os t) (hs : I s) : I t := by
  induction h with
  | nil => exact hs
  | cons first _ ih => exact ih (hstep _ _ _ hs first)

theorem append {u : σ} {os' : List ο} (h : Run step s os t) (h' : Run step t os' u) :
    Run step s (os ++ os') u := by
  induction h with
  | nil => exact h'
  | cons first _ ih => exact .cons first (ih h')

end Run

end MinimalKernel.Lib
