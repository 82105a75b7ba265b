import Mathlib.Data.List.Pairwise
import Mathlib.Data.List.Nodup
import Mathlib.Data.List.TakeWhile

/-!
# Lists of disjoint intervals in ascending order

The elements of a list `l` denote half-open intervals `[lo a, hi a)` of natural numbers, given by
two functions rather than stored in the elements, so that moving a bound is a change of the
functions and leaves the list as it is. `Ordered lo hi l` says that the intervals are non-empty and
that each ends before the next one begins.

## Main definitions

* `Ordered lo hi l` — non-empty, pairwise disjoint, ascending
* `at? lo hi l x` — the element whose interval holds `x`

## Main results

* `Ordered.eq_of_mem` — at most one interval holds a given number
* `Ordered.at?_eq_some` — the lookup finds exactly the interval that holds the number
* `Ordered.mono`, `Ordered.insert` — shrinking bounds, and inserting an interval into a gap
-/

namespace MinimalKernel.Lib

open List

variable {ι : Type*} {lo hi lo' hi' : ι → ℕ} {l l₁ l₂ : List ι} {a b : ι} {x : ℕ}

/-- The intervals `[lo a, hi a)` for `a ∈ l` are non-empty, and each ends before the next begins. -/
structure Ordered (lo hi : ι → ℕ) (l : List ι) : Prop where
  /-- An earlier interval ends before a later one begins. -/
  pairwise : l.Pairwise fun a b => hi a ≤ lo b
  /-- No interval is empty. -/
  lt : ∀ a ∈ l, lo a < hi a

instance (lo hi : ι → ℕ) (l : List ι) : Decidable (Ordered lo hi l) :=
  decidable_of_iff (l.Pairwise (fun a b => hi a ≤ lo b) ∧ ∀ a ∈ l, lo a < hi a)
    ⟨fun h => ⟨h.1, h.2⟩, fun h => ⟨h.pairwise, h.lt⟩⟩

/-- The first element of `l` whose interval holds `x`. -/
def at? (lo hi : ι → ℕ) (l : List ι) (x : ℕ) : Option ι :=
  l.find? fun a => lo a ≤ x ∧ x < hi a

/-- What `dropWhile` leaves has no element with `p`, if `p` is never regained along the list. -/
theorem not_of_mem_dropWhile {p : ι → Bool} (h : l.Pairwise fun a b => p b → p a)
    (ha : a ∈ l.dropWhile p) : ¬ p a := by
  induction l with
  | nil => simp at ha
  | cons b l ih =>
    obtain ⟨hb, hl⟩ := pairwise_cons.1 h
    by_cases hpb : p b
    · exact ih hl (by simpa [dropWhile_cons, hpb] using ha)
    · rw [dropWhile_cons_of_neg hpb] at ha
      rcases mem_cons.1 ha with rfl | ha
      · exact hpb
      · exact fun hpa => hpb (hb a ha hpa)

namespace Ordered

theorem nil : Ordered lo hi [] := ⟨.nil, by simp⟩

theorem singleton (h : lo a < hi a) : Ordered lo hi [a] := ⟨by simp, by simpa using h⟩

theorem sublist (h : Ordered lo hi l) (hl : l₁.Sublist l) : Ordered lo hi l₁ :=
  ⟨h.pairwise.sublist hl, fun a ha => h.lt a (hl.subset ha)⟩

theorem append_iff : Ordered lo hi (l₁ ++ l₂) ↔
    Ordered lo hi l₁ ∧ Ordered lo hi l₂ ∧ ∀ a ∈ l₁, ∀ b ∈ l₂, hi a ≤ lo b := by
  constructor
  · intro h
    refine ⟨h.sublist (sublist_append_left _ _), h.sublist (sublist_append_right _ _),
      (pairwise_append.1 h.pairwise).2.2⟩
  · rintro ⟨h₁, h₂, h₁₂⟩
    refine ⟨pairwise_append.2 ⟨h₁.pairwise, h₂.pairwise, h₁₂⟩, fun a ha => ?_⟩
    rcases mem_append.1 ha with ha | ha
    · exact h₁.lt a ha
    · exact h₂.lt a ha

theorem cons_iff : Ordered lo hi (a :: l) ↔
    lo a < hi a ∧ Ordered lo hi l ∧ ∀ b ∈ l, hi a ≤ lo b := by
  constructor
  · intro h
    exact ⟨h.lt a (by simp), h.sublist (sublist_cons_self a l), (pairwise_cons.1 h.pairwise).1⟩
  · rintro ⟨ha, hl, hal⟩
    refine ⟨pairwise_cons.2 ⟨hal, hl.pairwise⟩, fun b hb => ?_⟩
    rcases mem_cons.1 hb with rfl | hb
    · exact ha
    · exact hl.lt b hb

theorem of_map {κ : Type*} {f : κ → ι} {l : List κ} (h : Ordered lo hi (l.map f)) :
    Ordered (fun k => lo (f k)) (fun k => hi (f k)) l :=
  ⟨pairwise_map.1 h.pairwise, fun _ hk => h.lt _ (mem_map_of_mem hk)⟩

section

variable (h : Ordered lo hi l)
include h

theorem nodup : l.Nodup := by
  refine h.pairwise.imp_of_mem fun {a b} ha _ hab => ?_
  rintro rfl
  have := h.lt a ha
  omega

/-- Intervals that only shrink, without becoming empty, stay in order. -/
theorem mono (hm : ∀ a ∈ l, lo a ≤ lo' a ∧ lo' a < hi' a ∧ hi' a ≤ hi a) : Ordered lo' hi' l := by
  refine ⟨h.pairwise.imp_of_mem fun {a b} ha hb hab => ?_, fun a ha => (hm a ha).2.1⟩
  have := hm a ha
  have := hm b hb
  omega

theorem congr (hm : ∀ a ∈ l, lo' a = lo a ∧ hi' a = hi a) : Ordered lo' hi' l := by
  refine h.mono fun a ha => ?_
  have := h.lt a ha
  have := hm a ha
  omega

end

/-- An interval that lies in the gap between two parts of the list can be put there. -/
theorem insert (h : Ordered lo hi (l₁ ++ l₂)) (ha : lo a < hi a) (h₁ : ∀ b ∈ l₁, hi b ≤ lo a)
    (h₂ : ∀ b ∈ l₂, hi a ≤ lo b) : Ordered lo hi (l₁ ++ a :: l₂) := by
  obtain ⟨hl₁, hl₂, h₁₂⟩ := append_iff.1 h
  refine append_iff.2 ⟨hl₁, cons_iff.2 ⟨ha, hl₂, h₂⟩, fun b hb c hc => ?_⟩
  rcases mem_cons.1 hc with rfl | hc
  · exact h₁ b hb
  · exact h₁₂ b hb c hc

section

variable (h : Ordered lo hi l)
include h

/-- At most one interval holds a number. -/
theorem eq_of_mem (ha : a ∈ l) (hb : b ∈ l) (hax : lo a ≤ x ∧ x < hi a)
    (hbx : lo b ≤ x ∧ x < hi b) : a = b := by
  obtain ⟨l₁, l₂, rfl⟩ := append_of_mem ha
  obtain ⟨-, h₂, h₁₂⟩ := append_iff.1 h
  rcases mem_append.1 hb with hb | hb
  · have := h₁₂ b hb a (by simp)
    omega
  · rcases mem_cons.1 hb with rfl | hb
    · rfl
    · have := (cons_iff.1 h₂).2.2 b hb
      omega

theorem at?_eq_some : at? lo hi l x = some a ↔ a ∈ l ∧ lo a ≤ x ∧ x < hi a := by
  constructor
  · intro hf
    exact ⟨mem_of_find?_eq_some hf, by simpa using find?_some hf⟩
  · rintro ⟨ha, hx⟩
    obtain ⟨b, hb⟩ : ∃ b, at? lo hi l x = some b := by
      rw [← Option.isSome_iff_exists, at?, find?_isSome]
      exact ⟨a, ha, by simpa using hx⟩
    have hbx : lo b ≤ x ∧ x < hi b := by simpa using find?_some hb
    rw [hb, h.eq_of_mem (mem_of_find?_eq_some hb) ha hbx hx]

theorem lt_hi_of_mem_dropWhile (ha : a ∈ l.dropWhile fun b => hi b ≤ x) : x < hi a := by
  have hp : l.Pairwise fun a b => decide (hi b ≤ x) → decide (hi a ≤ x) :=
    h.pairwise.imp_of_mem fun {a b} _ hb hab => by
      have := h.lt b hb
      simp only [decide_eq_true_eq]
      omega
  simpa using not_of_mem_dropWhile hp ha

theorem le_lo_of_mem_dropWhile (ha : a ∈ l.dropWhile fun b => lo b < x) : x ≤ lo a := by
  have hp : l.Pairwise fun a b => decide (lo b < x) → decide (lo a < x) :=
    h.pairwise.imp_of_mem fun {a b} ha _ hab => by
      have := h.lt a ha
      simp only [decide_eq_true_eq]
      omega
  simpa using not_of_mem_dropWhile hp ha

/-- The interval that holds `x` is the first one that ends after `x`. -/
theorem find?_eq_of_mem (ha : a ∈ l) (hx : lo a ≤ x ∧ x < hi a) :
    l.find? (fun b => x < hi b) = some a := by
  obtain ⟨l₁, l₂, rfl⟩ := append_of_mem ha
  obtain ⟨-, -, h₁₂⟩ := append_iff.1 h
  refine find?_eq_some_iff_append.2 ⟨by simpa using hx.2, l₁, l₂, rfl, fun b hb => ?_⟩
  have := h₁₂ b hb a (by simp)
  simpa using by omega

/-- The first interval that ends after `x` begins before every other such interval. -/
theorem lo_le_of_find? (ha : l.find? (fun b => x < hi b) = some a) (hb : b ∈ l) (hx : x < hi b) :
    lo a ≤ lo b := by
  obtain ⟨-, l₁, l₂, rfl, h₁⟩ := find?_eq_some_iff_append.1 ha
  obtain ⟨-, hl₂, -⟩ := append_iff.1 h
  obtain ⟨hlt, -, hal⟩ := cons_iff.1 hl₂
  rcases mem_append.1 hb with hb | hb
  · have : hi b ≤ x := by simpa using h₁ b hb
    omega
  · rcases mem_cons.1 hb with rfl | hb
    · exact le_rfl
    · exact hlt.le.trans (hal b hb)

/-- The last interval begins and ends behind every other one. -/
theorem le_getLast? (ha : l.getLast? = some a) (hb : b ∈ l) : lo b ≤ lo a ∧ hi b ≤ hi a := by
  obtain ⟨l₁, rfl⟩ := getLast?_eq_some_iff.1 ha
  obtain ⟨h₁, h₂, h₁₂⟩ := append_iff.1 h
  have hlt := h₂.lt a (by simp)
  rcases mem_append.1 hb with hb | hb
  · have := h₁₂ b hb a (by simp)
    have := h₁.lt b hb
    omega
  · rw [mem_singleton.1 hb]
    exact ⟨le_rfl, le_rfl⟩

end

/-- An interval gets new bounds between those of its neighbours. -/
theorem rebound (h : Ordered lo hi (l₁ ++ a :: l₂)) (hlt : lo' a < hi' a)
    (h₁ : ∀ b ∈ l₁, hi b ≤ lo' a) (h₂ : ∀ b ∈ l₂, hi' a ≤ lo b)
    (hne : ∀ b, b ≠ a → lo' b = lo b ∧ hi' b = hi b) : Ordered lo' hi' (l₁ ++ a :: l₂) := by
  have hnodup := h.nodup
  rw [nodup_middle, nodup_cons] at hnodup
  have hne' : ∀ b ∈ l₁ ++ l₂, lo' b = lo b ∧ hi' b = hi b := fun b hb =>
    hne b fun hba => hnodup.1 (hba ▸ hb)
  refine ((h.sublist ((sublist_cons_self a l₂).append_left l₁)).congr hne').insert hlt
    (fun b hb => ?_) fun b hb => ?_
  · rw [(hne' b (mem_append_left _ hb)).2]
    exact h₁ b hb
  · rw [(hne' b (mem_append_right _ hb)).1]
    exact h₂ b hb

theorem at?_eq_none : at? lo hi l x = none ↔ ∀ a ∈ l, ¬ (lo a ≤ x ∧ x < hi a) := by
  simp [at?]

end Ordered

end MinimalKernel.Lib
