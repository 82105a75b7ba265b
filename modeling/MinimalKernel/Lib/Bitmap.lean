import Mathlib.Order.Bounds.Basic

/-!
# Searching a bitmap

A bitmap is a function from positions to bits; its length is an argument of the search. The search
for a bit goes from a start position upwards and answers the length if there is no such bit.

## Main definitions

* `findNext` — the next position from `start` on that satisfies a test

## Main results

* `test_findNext`, `not_test_of_lt_findNext` — what the answer says
-/

namespace MinimalKernel.Lib

/-- The next position in `[start, start + n)` that satisfies `test`, or `start + n`. -/
def findFrom (test : ℕ → Bool) : ℕ → ℕ → ℕ
  | 0, start => start
  | n + 1, start => if test start then start else findFrom test n (start + 1)

/-- The next position from `start` on that satisfies `test`, or `size` if there is none below it. -/
def findNext (test : ℕ → Bool) (size start : ℕ) : ℕ :=
  if start < size then findFrom test (size - start) start else size

variable {test : ℕ → Bool} {start : ℕ}

theorem findFrom_le (n start : ℕ) : findFrom test n start ≤ start + n := by
  induction n generalizing start with
  | zero => exact le_rfl
  | succ n ih =>
    rw [findFrom]
    split
    · omega
    · have := ih (start + 1)
      omega

theorem le_findFrom (n start : ℕ) : start ≤ findFrom test n start := by
  induction n generalizing start with
  | zero => exact le_rfl
  | succ n ih =>
    rw [findFrom]
    split
    · exact le_rfl
    · exact (Nat.le_succ start).trans (ih (start + 1))

theorem test_findFrom {n : ℕ} (h : findFrom test n start < start + n) :
    test (findFrom test n start) := by
  induction n generalizing start with
  | zero => exact absurd h (lt_irrefl _)
  | succ n ih =>
    rw [findFrom] at h ⊢
    split
    · assumption
    · rename_i hn
      rw [if_neg hn] at h
      exact ih (by omega)

theorem not_test_of_lt_findFrom {n i : ℕ} (hs : start ≤ i) (h : i < findFrom test n start) :
    test i = false := by
  induction n generalizing start with
  | zero => exact absurd (h.trans_le hs) (lt_irrefl _)
  | succ n ih =>
    rw [findFrom] at h
    split at h
    · omega
    · rename_i hn
      rcases Nat.eq_or_lt_of_le hs with rfl | hlt
      · exact Bool.eq_false_iff.2 hn
      · exact ih hlt h

theorem findNext_le (size start : ℕ) : findNext test size start ≤ size := by
  rw [findNext]
  split
  · rename_i hlt
    refine (findFrom_le _ _).trans ?_
    omega
  · exact le_rfl

theorem le_findNext {size : ℕ} (h : start ≤ size) : start ≤ findNext test size start := by
  rw [findNext]
  split
  · exact le_findFrom _ _
  · exact h

theorem test_findNext {size : ℕ} (h : findNext test size start < size) :
    test (findNext test size start) := by
  rw [findNext] at h ⊢
  split
  · rename_i hlt
    rw [if_pos hlt] at h
    exact test_findFrom (by omega)
  · rename_i hn
    rw [if_neg hn] at h
    exact absurd h (lt_irrefl _)

theorem not_test_of_lt_findNext {size i : ℕ} (hs : start ≤ i) (h : i < findNext test size start) :
    test i = false := by
  have hlt : start < size := (hs.trans_lt h).trans_le (findNext_le size start)
  rw [findNext, if_pos hlt] at h
  exact not_test_of_lt_findFrom hs h

end MinimalKernel.Lib
