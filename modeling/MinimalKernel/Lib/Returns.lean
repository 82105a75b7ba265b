import MinimalKernel.Basic

/-!
# Loops that return

A loop of the source that is not bounded by its own text is a function with a bound on the number of
its rounds, which fails with `hang` when the bound is reached. `Returns f a` says that the loop
ends: from some bound on, `f` succeeds with `a`. A proof goes along the rounds (`Returns.of_add`,
`Returns.round`), and a loop that calls other loops gives them a bound of their own (`ReturnsIn`).

## Main definitions

* `Returns f a` — the loop ends with `a`
* `ReturnsIn f a` — the loop ends with `a` when the loops in its body have enough rounds too

## Main results

* `Returns.round`, `Returns.bind`, `ReturnsIn.round` — the rules
* `Returns.unique` — a loop ends in one way only
-/

namespace MinimalKernel.Lib

universe u

variable {ε : Type*} {α β : Type u} {f g : ℕ → Except ε α} {a b : α}

/-- Given enough rounds, the loop ends with `a`. -/
def Returns (f : ℕ → Except ε α) (a : α) : Prop := ∃ N, ∀ n ≥ N, f n = .ok a

/-- Given enough rounds, for the loops in its body and for itself, the loop ends with `a`. -/
def ReturnsIn (f : ℕ → ℕ → Except ε α) (a : α) : Prop := ∃ N, ∀ k ≥ N, ∀ n ≥ N, f k n = .ok a

namespace Returns

theorem of_add (k : ℕ) (h : ∀ n, f (n + k) = .ok a) : Returns f a := by
  refine ⟨k, fun n hn => ?_⟩
  obtain ⟨j, rfl⟩ := Nat.exists_eq_add_of_le' hn
  exact h j

theorem round (hg : Returns g a) (h : ∀ n, f (n + 1) = g n) : Returns f a := by
  obtain ⟨N, hN⟩ := hg
  refine ⟨N + 1, fun n hn => ?_⟩
  obtain ⟨j, rfl⟩ := Nat.exists_eq_add_of_le' (Nat.le_of_add_left_le hn)
  exact (h j).trans (hN j (by omega))

theorem bind {F : α → ℕ → Except ε β} {b : β} (hf : Returns f a) (hF : Returns (F a) b) :
    Returns (fun n => f n >>= fun a => F a n) b := by
  obtain ⟨M, hM⟩ := hf
  obtain ⟨N, hN⟩ := hF
  refine ⟨max M N, fun n hn => ?_⟩
  show (f n >>= fun a => F a n) = _
  rw [hM n (le_of_max_le_left hn)]
  exact hN n (le_of_max_le_right hn)

theorem unique (ha : Returns f a) (hb : Returns f b) : a = b := by
  obtain ⟨M, hM⟩ := ha
  obtain ⟨N, hN⟩ := hb
  have h := hM (max M N) (le_max_left ..)
  rw [hN (max M N) (le_max_right ..)] at h
  exact (Except.ok.inj h).symm

end Returns

namespace ReturnsIn

variable {F G : ℕ → ℕ → Except ε α}

/-- The first round, with a bound from which on its calls return. -/
theorem round (hG : ReturnsIn G a) (N : ℕ) (h : ∀ k ≥ N, ∀ n, F k (n + 1) = G k n) :
    ReturnsIn F a := by
  obtain ⟨M, hM⟩ := hG
  refine ⟨max M N + 1, fun k hk n hn => ?_⟩
  obtain ⟨j, rfl⟩ := Nat.exists_eq_add_of_le' (Nat.le_of_add_left_le hn)
  exact (h k (by omega) j).trans (hM k (by omega) j (by omega))

theorem of_round (N : ℕ) (h : ∀ k ≥ N, ∀ n, F k (n + 1) = .ok a) : ReturnsIn F a :=
  round (G := fun _ _ => .ok a) ⟨0, fun _ _ _ _ => rfl⟩ N h

theorem diag (h : ReturnsIn F a) : Returns (fun n => F n n) a := by
  obtain ⟨N, hN⟩ := h
  exact ⟨N, fun n hn => hN n hn n hn⟩

end ReturnsIn

end MinimalKernel.Lib
