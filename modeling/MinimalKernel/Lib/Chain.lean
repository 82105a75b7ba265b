import Mathlib.Data.List.Nodup

/-!
# Doubly linked lists without repetition

A doubly linked list of distinct nodes is the list of its nodes: the neighbours of a node are found
by its place in the list. The lemmas compute the neighbours and the insertion at a place
`l₁ ++ x :: l₂` where `x` does not occur in `l₁`.

## Main definitions

* `nextOf`, `prevOf` — the neighbours of a node
* `insertAfter` — put a node behind another one, or at the head
* `upTo` — the part of the list that ends with a node
-/

namespace MinimalKernel.Lib

open List

variable {α : Type*} [DecidableEq α] {l l₁ l₂ : List α} {x y : α}

/-- The node behind `x`. -/
def nextOf (l : List α) (x : α) : Option α := (l.dropWhile (· ≠ x)).tail.head?

/-- The node before `x`. -/
def prevOf (l : List α) (x : α) : Option α := (l.takeWhile (· ≠ x)).getLast?

/-- Put `y` behind the node `prev`, or at the head of the list if there is no such node. -/
def insertAfter (l : List α) (prev : Option α) (y : α) : List α :=
  match prev with
  | none => y :: l
  | some x => l.takeWhile (· ≠ x) ++ (l.dropWhile (· ≠ x)).take 1 ++
      y :: (l.dropWhile (· ≠ x)).tail

/-- The part of the list up to and including the node `prev`. -/
def upTo (l : List α) : Option α → List α
  | none => []
  | some x => l.takeWhile (· ≠ x) ++ [x]

theorem takeWhile_ne (h : x ∉ l₁) : (l₁ ++ x :: l₂).takeWhile (· ≠ x) = l₁ := by
  rw [takeWhile_append_of_pos]
  · simp
  · intro a ha
    simpa using fun hax : a = x => h (hax ▸ ha)

theorem dropWhile_ne (h : x ∉ l₁) : (l₁ ++ x :: l₂).dropWhile (· ≠ x) = x :: l₂ := by
  rw [dropWhile_append_of_pos]
  · simp
  · intro a ha
    simpa using fun hax : a = x => h (hax ▸ ha)

theorem nextOf_append_cons (h : x ∉ l₁) : nextOf (l₁ ++ x :: l₂) x = l₂.head? := by
  rw [nextOf, dropWhile_ne h, tail_cons]

theorem mem_of_nextOf {y : α} (h : nextOf l x = some y) : y ∈ l :=
  (dropWhile_sublist _).subset (mem_of_mem_tail (mem_of_mem_head? h))

theorem mem_of_prevOf {y : α} (h : prevOf l x = some y) : y ∈ l :=
  (takeWhile_sublist _).subset (mem_of_mem_getLast? h)

theorem prevOf_append_cons (h : x ∉ l₁) : prevOf (l₁ ++ x :: l₂) x = l₁.getLast? := by
  rw [prevOf, takeWhile_ne h]

omit [DecidableEq α] in
theorem not_mem_of_nodup_concat (h : (l ++ [x] ++ l₂).Nodup) : x ∉ l := fun hx =>
  (nodup_append.1 (nodup_append.1 h).1).2.2 x hx x (by simp) rfl

theorem upTo_getLast? (h : (l₁ ++ l₂).Nodup) : upTo (l₁ ++ l₂) l₁.getLast? = l₁ := by
  rcases eq_nil_or_concat l₁ with rfl | ⟨l, x, rfl⟩
  · rfl
  · rw [concat_eq_append] at h ⊢
    rw [List.getLast?_concat, upTo, append_assoc, singleton_append,
      takeWhile_ne (not_mem_of_nodup_concat h)]

/-- The node behind the last node of the first part. -/
theorem nextOf_of_nodup_concat (h : (l ++ [x] ++ l₂).Nodup) :
    nextOf (l ++ [x] ++ l₂) x = l₂.head? := by
  rw [append_assoc, singleton_append, nextOf_append_cons (not_mem_of_nodup_concat h)]

/-- Insertion behind the last node of the first part. -/
theorem insertAfter_getLast? (h : (l₁ ++ l₂).Nodup) :
    insertAfter (l₁ ++ l₂) l₁.getLast? y = l₁ ++ y :: l₂ := by
  rcases eq_nil_or_concat l₁ with rfl | ⟨l, x, rfl⟩
  · simp [insertAfter]
  · rw [concat_eq_append] at h ⊢
    have hx : x ∉ l := not_mem_of_nodup_concat h
    have hl : l ++ [x] ++ l₂ = l ++ x :: l₂ := by simp
    rw [List.getLast?_concat, insertAfter, hl, takeWhile_ne hx, dropWhile_ne hx]
    simp

end MinimalKernel.Lib
