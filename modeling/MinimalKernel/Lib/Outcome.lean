import Mathlib.Init

/-!
# Computations that may fail

Rules for programs in `EStateM ε σ`: computations that change a state and end with a value or with
an error, and keep the state that they have reached in either case.

`Corresponds` compares the outcomes of two programs that run side by side. The second one has to end
as the first one does, except where the first one gives up with an error: such an *escape* is
allowed whenever the predicate `esc` holds.

## Main definitions

* `Corresponds` — correspondence between the outcomes of two programs

## Main results

* `Corresponds.bind` — sequential composition
-/

namespace MinimalKernel.Lib

variable {ε σ τ α β γ δ : Type}

@[simp] theorem bind_apply (x : EStateM ε σ α) (f : α → EStateM ε σ β) (s : σ) :
    (x >>= f) s = match x s with
      | .ok a t => f a t
      | .error e t => .error e t := rfl

@[simp] theorem map_apply (f : α → β) (x : EStateM ε σ α) (s : σ) :
    (f <$> x) s = match x s with
      | .ok a t => .ok (f a) t
      | .error e t => .error e t := rfl

@[simp] theorem pure_apply (a : α) (s : σ) : (pure a : EStateM ε σ α) s = .ok a s := rfl

@[simp] theorem throw_apply (e : ε) (s : σ) : (throw e : EStateM ε σ α) s = .error e s := rfl

theorem bind_ok {x : EStateM ε σ α} {f : α → EStateM ε σ β} {s t : σ} {a : α} (h : x s = .ok a t) :
    (x >>= f) s = f a t := by
  rw [bind_apply, h]

theorem bind_error {x : EStateM ε σ α} {f : α → EStateM ε σ β} {s t : σ} {e : ε}
    (h : x s = .error e t) : (x >>= f) s = .error e t := by
  rw [bind_apply, h]

theorem ite_apply {p : Prop} [Decidable p] (x y : EStateM ε σ α) (s : σ) :
    (if p then x else y) s = if p then x s else y s := by
  split <;> rfl

/-! ### Two programs -/

/-- The outcome of the second program corresponds to that of the first: both succeed in `Q`, both
fail with the same error in `F`, or the first one has escaped. -/
inductive Corresponds (esc : ε → σ → Prop) (F : σ → τ → Prop) (Q : α → β → σ → τ → Prop) :
    EStateM.Result ε σ α → EStateM.Result ε τ β → Prop
  | ok {a b s t} : Q a b s t → Corresponds esc F Q (.ok a s) (.ok b t)
  | error {e s t} : F s t → Corresponds esc F Q (.error e s) (.error e t)
  | escape {e s r} : esc e s → Corresponds esc F Q (.error e s) r

section Corresponds

variable {esc : ε → σ → Prop} {F : σ → τ → Prop} {Q : α → β → σ → τ → Prop}
  {Q' : γ → δ → σ → τ → Prop} {x : EStateM ε σ α} {y : EStateM ε τ β}

theorem Corresponds.mono {r : EStateM.Result ε σ α} {r' : EStateM.Result ε τ β}
    {Q' : α → β → σ → τ → Prop} (h : Corresponds esc F Q r r')
    (hQ : ∀ a b s t, Q a b s t → Q' a b s t) : Corresponds esc F Q' r r' := by
  cases h with
  | ok h => exact .ok (hQ _ _ _ _ h)
  | error h => exact .error h
  | escape h => exact .escape h

theorem Corresponds.bind {s : σ} {t : τ} {f : α → EStateM ε σ γ} {g : β → EStateM ε τ δ}
    (hx : Corresponds esc F Q (x s) (y t))
    (hf : ∀ a b s t, Q a b s t → Corresponds esc F Q' (f a s) (g b t)) :
    Corresponds esc F Q' ((x >>= f) s) ((y >>= g) t) := by
  rw [bind_apply, bind_apply]
  generalize x s = r at hx
  generalize y t = r' at hx
  cases hx with
  | ok h => exact hf _ _ _ _ h
  | error h => exact .error h
  | escape h => exact .escape h

end Corresponds

end MinimalKernel.Lib
