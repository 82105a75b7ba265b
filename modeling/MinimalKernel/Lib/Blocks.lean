import Mathlib.Algebra.Order.BigOperators.Group.Finset
import Mathlib.Tactic.Ring

/-!
# Blocks on shelves

A *block* of order `o` is a run of `2 ^ o` consecutive frames. A family of *shelves* keeps lists of
blocks, all the blocks of one shelf having the same order. The frames of all the blocks form a
multiset: that it has no duplicates says that every frame lies in at most one block of at most one
shelf, and moving or splitting blocks is an equation between such multisets.

## Main definitions

* `frames o p` — the frames of the block of order `o` that starts at `p`
* `shelved size ks lists` — the frames of all the blocks on the shelves `ks`

## Main results

* `frames_succ` — a block is the union of its halves
* `shelved_insert`, `shelved_head` — putting a block on a shelf and taking it off
-/

namespace MinimalKernel.Lib

open Function Multiset

/-! ### Blocks -/

variable (o p : ℕ)

/-- The frames of the block of order `o` that starts at `p`. -/
def frames : Multiset ℕ := (Multiset.range (2 ^ o)).map (p + ·)

theorem mem_frames {o p f : ℕ} : f ∈ frames o p ↔ p ≤ f ∧ f < p + 2 ^ o := by
  unfold frames
  rw [mem_map]
  constructor
  · rintro ⟨i, hi, rfl⟩
    rw [mem_range] at hi
    omega
  · rintro ⟨hlo, hhi⟩
    exact ⟨f - p, mem_range.2 (by omega), by omega⟩

theorem start_mem_frames : p ∈ frames o p :=
  mem_frames.2 ⟨le_rfl, Nat.lt_add_of_pos_right (Nat.two_pow_pos o)⟩

theorem frames_nodup : (frames o p).Nodup :=
  (nodup_range _).map fun _ _ h => Nat.add_left_cancel h

/-- A block is the union of its two halves. -/
theorem frames_succ : frames (o + 1) p = frames o p + frames o (p + 2 ^ o) := by
  unfold frames
  rw [show 2 ^ (o + 1) = 2 ^ o + 2 ^ o by ring, range_add, map_add, map_map]
  congr 1
  exact map_congr rfl fun i _ => by simp only [comp_apply]; ring

theorem frames_disjoint : Disjoint (frames o p) (frames o (p + 2 ^ o)) :=
  disjoint_left.2 fun h h' => by
    rw [mem_frames] at h h'
    omega

/-! ### Shelves -/

variable {κ : Type*} (size : κ → ℕ) (ks : Finset κ) (lists : κ → List ℕ)

/-- The frames of the blocks on the shelves `ks`; the blocks on the shelf `k` are of order
`size k`. -/
def shelved : Multiset ℕ := ∑ k ∈ ks, (lists k : Multiset ℕ).bind (frames (size k))

variable {size ks lists} {k : κ} {p : ℕ}

/-- The first frame of a block on a shelf. -/
theorem mem_shelved (hk : k ∈ ks) (hp : p ∈ lists k) : p ∈ shelved size ks lists := by
  unfold shelved
  rw [mem_sum]
  exact ⟨k, hk, mem_bind.2 ⟨p, hp, start_mem_frames _ _⟩⟩

variable [DecidableEq κ] (size : κ → ℕ)

/-- Exchanging the contents of a shelf. -/
theorem shelved_update (lists : κ → List ℕ) (hk : k ∈ ks) (l : List ℕ) :
    shelved size ks (update lists k l) + (lists k : Multiset ℕ).bind (frames (size k)) =
      (l : Multiset ℕ).bind (frames (size k)) + shelved size ks lists := by
  have hrest : ∑ j ∈ ks.erase k,
      (update lists k l j : Multiset ℕ).bind (frames (size j)) =
      ∑ j ∈ ks.erase k, (lists j : Multiset ℕ).bind (frames (size j)) :=
    Finset.sum_congr rfl fun j hj => by
      rw [update_of_ne (Finset.ne_of_mem_erase hj)]
  unfold shelved
  rw [← Finset.add_sum_erase ks _ hk, ← Finset.add_sum_erase ks _ hk, hrest, update_self, add_assoc]
  congr 1
  exact add_comm _ _

/-- Putting a block somewhere on a shelf. -/
theorem shelved_insert {l : List ℕ} (hk : k ∈ ks) (hl : l.Perm (p :: lists k)) :
    shelved size ks (update lists k l) =
      frames (size k) p + shelved size ks lists := by
  have h := shelved_update size lists hk l
  rw [coe_eq_coe.2 hl, ← cons_coe, cons_bind, add_assoc,
    add_comm _ (shelved size ks lists), ← add_assoc] at h
  exact add_right_cancel h

/-- Taking the first block off a shelf. -/
theorem shelved_head {l : List ℕ} (hk : k ∈ ks) (hl : lists k = p :: l) :
    shelved size ks lists = frames (size k) p + shelved size ks (update lists k l) := by
  have hperm : (lists k).Perm (p :: update lists k l k) := by
    rw [update_self, hl]
  have h := shelved_insert size hk hperm
  rwa [update_idem, update_eq_self] at h

end MinimalKernel.Lib
