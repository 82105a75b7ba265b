import Mathlib.Init

/-!
# Computations in `Except`

A computation that ends with a value has passed all of its steps. The two rules take such a result
apart, so that a proof can follow the steps without unfolding the monad.

## Main results

* `ok_of_bind`, `ok_of_map` — the steps behind a result
-/

namespace MinimalKernel.Lib

variable {ε α β : Type*}

theorem ok_of_bind {x : Except ε α} {f : α → Except ε β} {b : β} (h : x.bind f = .ok b) :
    ∃ a, x = .ok a ∧ f a = .ok b := by
  cases x with
  | error e => cases h
  | ok a => exact ⟨a, rfl, h⟩

theorem ok_of_map {x : Except ε α} {f : α → β} {b : β} (h : x.map f = .ok b) :
    ∃ a, x = .ok a ∧ f a = b := by
  cases x with
  | error e => cases h
  | ok a => exact ⟨a, rfl, Except.ok.inj h⟩

end MinimalKernel.Lib
