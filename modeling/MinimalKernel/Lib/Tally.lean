import Mathlib.Data.Finset.Card
import Mathlib.Data.Fintype.Basic

/-!
# How many arguments have a value

`tally f x` is the number of arguments at which `f` has the value `x`. Reference counts are such
numbers: `f` says what each holder holds.

## Main results

* `tally_update` — changing one value
-/

namespace MinimalKernel.Lib

open Finset Function

variable {ι : Type*} {α : Type*} [Fintype ι] [DecidableEq α]

/-- The number of arguments at which `f` has the value `x`. -/
def tally (f : ι → α) (x : α) : ℕ := (univ.filter fun i => f i = x).card

theorem tally_pos {f : ι → α} {i : ι} {x : α} (h : f i = x) : 0 < tally f x :=
  card_pos.2 ⟨i, mem_filter.2 ⟨mem_univ i, h⟩⟩

theorem tally_const_of_ne {x y : α} (h : y ≠ x) : tally (fun _ : ι => y) x = 0 := by
  simp [tally, h]

variable [DecidableEq ι]

/-- One value more, one value less. -/
theorem tally_update (f : ι → α) (i : ι) (b x : α) :
    tally (update f i b) x + (if f i = x then 1 else 0) =
      tally f x + (if b = x then 1 else 0) := by
  have hne : ∀ g : ι → α, (univ.filter fun j => g j = x).erase i =
      univ.filter fun j => j ≠ i ∧ g j = x := by
    intro g
    ext j
    simp
  have hsplit : ∀ g : ι → α, tally g x =
      (univ.filter fun j => j ≠ i ∧ g j = x).card + if g i = x then 1 else 0 := by
    intro g
    rw [← hne g]
    split_ifs with hg
    · exact (card_erase_add_one (by simpa using hg)).symm
    · rw [erase_eq_of_notMem (by simpa using hg), Nat.add_zero, tally]
  have hsame : (univ.filter fun j => j ≠ i ∧ update f i b j = x) =
      univ.filter fun j => j ≠ i ∧ f j = x := by
    refine filter_congr fun j _ => and_congr_right fun hj => ?_
    rw [update_of_ne hj]
  rw [hsplit f, hsplit (update f i b), hsame, update_self]
  omega

end MinimalKernel.Lib
