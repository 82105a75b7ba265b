import Mathlib.Data.List.Nodup

/-!
# Singly linked lists in memory

A memory `next` holds one pointer for each node. `Linked null next head l` says that the pointers
lead from `head` through the nodes `l` to the pointer `null`.

## Main definitions

* `Linked null next head l` — the list that starts at `head`

## Main results

* `Linked.update` — a pointer outside of the list may change
* `Linked.push` — a node is put in front of the list
-/

namespace MinimalKernel.Lib

variable {α : Type*} {null head x y : α} {next next' : α → α} {l : List α}

/-- The pointers lead from `head` through the nodes `l` to `null`. -/
def Linked (null : α) (next : α → α) : α → List α → Prop
  | head, [] => head = null
  | head, x :: l => head = x ∧ x ≠ null ∧ Linked null next (next x) l

namespace Linked

section

variable (h : Linked null next head l)
include h

theorem congr (hl : ∀ y ∈ l, next' y = next y) : Linked null next' head l := by
  induction l generalizing head with
  | nil => exact h
  | cons x l ih =>
    obtain ⟨hx, hne, hrest⟩ := h
    refine ⟨hx, hne, ?_⟩
    rw [hl x List.mem_cons_self]
    exact ih hrest fun y hy => hl y (List.mem_cons_of_mem x hy)

/-- A pointer outside of the list may change. -/
theorem update [DecidableEq α] (hx : x ∉ l) (y : α) :
    Linked null (Function.update next x y) head l :=
  h.congr fun _ hz => Function.update_of_ne (ne_of_mem_of_not_mem hz hx) _ _

/-- A node is put in front of the list. -/
theorem push [DecidableEq α] (hx : x ∉ l) (hne : x ≠ null) :
    Linked null (Function.update next x head) x (x :: l) := by
  refine ⟨rfl, hne, ?_⟩
  rw [Function.update_self]
  exact h.update hx head

theorem eq_null_iff : head = null ↔ l = [] := by
  cases l with
  | nil => exact ⟨fun _ => rfl, fun _ => h⟩
  | cons x l =>
    obtain ⟨rfl, hne, -⟩ := h
    exact ⟨fun hnull => absurd hnull hne, fun hl => nomatch hl⟩

/-- A list that is not empty starts with its first node. -/
theorem exists_cons (hne : head ≠ null) :
    ∃ l', l = head :: l' ∧ Linked null next (next head) l' := by
  cases l with
  | nil => exact absurd h hne
  | cons x l =>
    obtain ⟨rfl, -, hrest⟩ := h
    exact ⟨l, rfl, hrest⟩

end

end Linked

end MinimalKernel.Lib
