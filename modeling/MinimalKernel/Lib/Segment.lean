import Mathlib.Data.List.Basic

/-!
# Segments of linked lists

A memory `next` holds one pointer for each node, and `none` is the null pointer. A segment leads
from a pointer through some nodes to another pointer; a list is a segment that leads to `none`.
Segments are taken apart and put together at any place (`Segment.append_iff`), which is what a loop
that stops in the middle of a list needs.

## Main definitions

* `Segment next start l stop` — the pointers lead from `start` through the nodes `l` to `stop`

## Main results

* `Segment.append_iff` — a segment of two parts
* `Segment.congr`, `Segment.setLast` — what a change of the pointers does to a segment
-/

namespace MinimalKernel.Lib

variable {α : Type*} {next next' : α → Option α} {start stop mid : Option α} {l l₁ l₂ : List α}
  {x y : α}

/-- The pointers lead from `start` through the nodes `l` to `stop`. -/
def Segment (next : α → Option α) : Option α → List α → Option α → Prop
  | start, [], stop => start = stop
  | start, x :: l, stop => start = some x ∧ Segment next (next x) l stop

namespace Segment

theorem congr (h : Segment next start l stop) (hl : ∀ x ∈ l, next' x = next x) :
    Segment next' start l stop := by
  induction l generalizing start with
  | nil => exact h
  | cons x l ih =>
    obtain ⟨hx, hrest⟩ := h
    refine ⟨hx, ?_⟩
    rw [hl x List.mem_cons_self]
    exact ih hrest fun y hy => hl y (List.mem_cons_of_mem x hy)

/-- A pointer outside of the segment may change. -/
theorem update [DecidableEq α] (h : Segment next start l stop) (hx : x ∉ l) (p : Option α) :
    Segment (Function.update next x p) start l stop :=
  h.congr fun y hy => Function.update_of_ne (fun e : y = x => hx (e ▸ hy)) _ _

theorem append_iff : Segment next start (l₁ ++ l₂) stop ↔
    ∃ mid, Segment next start l₁ mid ∧ Segment next mid l₂ stop := by
  induction l₁ generalizing start with
  | nil => exact ⟨fun h => ⟨start, rfl, h⟩, fun ⟨mid, hmid, h⟩ => hmid ▸ h⟩
  | cons x l₁ ih =>
    constructor
    · rintro ⟨hx, h⟩
      obtain ⟨mid, h₁, h₂⟩ := ih.1 h
      exact ⟨mid, ⟨hx, h₁⟩, h₂⟩
    · rintro ⟨mid, ⟨hx, h₁⟩, h₂⟩
      exact ⟨hx, ih.2 ⟨mid, h₁, h₂⟩⟩

theorem append (h₁ : Segment next start l₁ mid) (h₂ : Segment next mid l₂ stop) :
    Segment next start (l₁ ++ l₂) stop := append_iff.2 ⟨mid, h₁, h₂⟩

/-- A segment starts with its first node. -/
theorem start_eq (h : Segment next start l none) : start = l.head? := by
  cases l with
  | nil => exact h
  | cons x l => exact h.1

/-- The pointers determine the nodes of a list. -/
theorem unique (h₁ : Segment next start l₁ none) (h₂ : Segment next start l₂ none) : l₁ = l₂ := by
  induction l₁ generalizing start l₂ with
  | nil =>
    cases l₂ with
    | nil => rfl
    | cons y l₂ =>
      obtain rfl : start = none := h₁
      cases h₂.1
  | cons x l₁ ih =>
    obtain ⟨rfl, h₁⟩ := h₁
    cases l₂ with
    | nil => cases h₂
    | cons y l₂ =>
      obtain ⟨hy, h₂⟩ := h₂
      cases hy
      rw [ih h₁ h₂]

/-- The last pointer of a segment is the pointer of its last node. -/
theorem next_last (h : Segment next start (l ++ [x]) stop) : next x = stop := by
  obtain ⟨mid, -, -, hx⟩ := append_iff.1 h
  exact hx

/-- The pointer of the last node is set. -/
theorem setLast [DecidableEq α] (h : Segment next start (l ++ [x]) stop) (hx : x ∉ l)
    (p : Option α) : Segment (Function.update next x p) start (l ++ [x]) p := by
  obtain ⟨mid, h₁, hmid, -⟩ := append_iff.1 h
  exact (h₁.update hx p).append ⟨hmid, Function.update_self ..⟩

end Segment

end MinimalKernel.Lib
