import Mathlib.Data.List.Flatten
import Mathlib.Data.List.TakeWhile

/-!
# Sweeping over two sorted lists

Two lists are walked together to find the pairs that meet, each found from where the last one left
off: a search moves on in the second list until an element is not `before` the first element `a` of
the first list any more. If that element is `past` it, `a` is done; otherwise both meet, and the
search goes on behind the one that ends first.

What makes the sweep complete is an order of both lists, given by four facts about the comparisons;
nothing else is assumed of the elements.

## Main definitions

* `Sweep` — the comparisons
* `Sweep.next`, `Sweep.run` — the next pair, and all of them
* `Sweep.pairs` — the pairs that meet, in the order of the lists

## Main results

* `Sweep.run_eq` — the sweep ends, and finds the pairs that meet
* `Sweep.pairs_reverse` — a sweep from the ends finds them in reverse
-/

namespace MinimalKernel.Lib

open List

variable {α β : Type*}

/-- The comparisons of a sweep. -/
structure Sweep (α β : Type*) where
  /-- The element of the first list is passed over. -/
  skip : α → Bool
  /-- The element of the second list lies behind the one of the first list. -/
  past : α → β → Bool
  /-- The element of the second list lies in front of the one of the first list. -/
  before : α → β → Bool
  /-- The element of the first list does not reach beyond the one of the second list. -/
  ends : α → β → Bool

namespace Sweep

variable (S : Sweep α β) {a : α} {b : β} {as : List α} {bs : List β}

/-- A search moves on from `b`. -/
def drops (a : α) (b : β) : Bool := !S.past a b && S.before a b

/-- The next pair that meets, with what is left of the lists. -/
def next : List α → List β → Option ((α × β) × List α × List β)
  | [], _ => none
  | a :: as, bs =>
    if S.skip a then next as bs
    else
      match bs.dropWhile (S.drops a) with
      | [] => next as []
      | b :: bs =>
        if S.past a b then next as (b :: bs)
        else some ((a, b), if S.ends a b then (as, b :: bs) else (a :: as, bs))

/-- All pairs, by at most `n` searches. -/
def run : ℕ → List α → List β → Option (List (α × β))
  | 0, _, _ => none
  | n + 1, as, bs =>
    match S.next as bs with
    | none => some []
    | some (p, as, bs) => (run n as bs).map (p :: ·)

def meets (a : α) (b : β) : Bool := !S.skip a && !S.past a b && !S.before a b

/-- The pairs that meet. -/
def pairs (as : List α) (bs : List β) : List (α × β) :=
  as.flatMap fun a => (bs.filter (S.meets a)).map (a, ·)

/-- Both lists are in order. -/
structure Sorted (as : List α) (bs : List β) : Prop where
  past : bs.Pairwise fun b b' => ∀ a ∈ as, S.past a b → S.past a b'
  ends : bs.Pairwise fun b b' => ∀ a ∈ as, S.ends a b → S.past a b'
  before : as.Pairwise fun a a' => ∀ b ∈ bs, S.before a b → S.before a' b
  beyond : as.Pairwise fun a a' => ∀ b ∈ bs, ¬ S.ends a b → S.before a' b

variable {S}

theorem Sorted.sublist (h : S.Sorted as bs) {as' : List α} {bs' : List β} (has : as'.Sublist as)
    (hbs : bs'.Sublist bs) : S.Sorted as' bs' where
  past := (h.past.sublist hbs).imp fun h a ha => h a (has.subset ha)
  ends := (h.ends.sublist hbs).imp fun h a ha => h a (has.subset ha)
  before := (h.before.sublist has).imp fun h b hb => h b (hbs.subset hb)
  beyond := (h.beyond.sublist has).imp fun h b hb => h b (hbs.subset hb)

/-! ### What a step of the search leaves out -/

theorem drops_iff : S.drops a b ↔ ¬ S.past a b ∧ S.before a b := by
  simp [drops]

theorem pairs_cons (a : α) (as : List α) (bs : List β) :
    S.pairs (a :: as) bs = (bs.filter (S.meets a)).map (a, ·) ++ S.pairs as bs := rfl

theorem pairs_nil (as : List α) : S.pairs as [] = [] := by
  simp [pairs]

theorem pairs_of_skip (h : S.skip a) : S.pairs (a :: as) bs = S.pairs as bs := by
  have hnone : bs.filter (S.meets a) = [] := by simp [meets, h]
  rw [pairs_cons, hnone]
  rfl

/-- The sweep from the ends of the lists. -/
theorem pairs_reverse (S' : Sweep α β) (h : ∀ a b, S'.meets a b = S.meets a b) (as : List α)
    (bs : List β) : S'.pairs as.reverse bs.reverse = (S.pairs as bs).reverse := by
  have hmeets : ∀ a, S'.meets a = S.meets a := fun a => funext (h a)
  simp only [pairs, hmeets, reverse_flatMap, filter_reverse, map_reverse, Function.comp_def]

/-- An element in front of all others meets none of them. -/
theorem pairs_of_before (h : ∀ a ∈ as, S.before a b) : S.pairs as (b :: bs) = S.pairs as bs := by
  induction as with
  | nil => rfl
  | cons a as ih =>
    have hnot : ¬ S.meets a b := by simp [meets, h a mem_cons_self]
    rw [pairs_cons, pairs_cons, filter_cons_of_neg hnot, ih fun a ha => h a (mem_cons_of_mem _ ha)]

theorem filter_meets_of_past (h : ∀ b ∈ bs, S.past a b) : bs.filter (S.meets a) = [] := by
  rw [filter_eq_nil_iff]
  intro b hb
  simp [meets, h b hb]

theorem Sorted.before_of_mem (h : S.Sorted (a :: as) (b :: bs)) (hb : S.before a b) :
    ∀ a' ∈ a :: as, S.before a' b := by
  intro a' ha'
  rcases mem_cons.1 ha' with rfl | ha'
  · exact hb
  · exact (pairwise_cons.1 h.before).1 a' ha' b mem_cons_self hb

theorem Sorted.past_of_mem (h : S.Sorted (a :: as) (b :: bs)) (hb : S.past a b) :
    ∀ b' ∈ b :: bs, S.past a b' := by
  intro b' hb'
  rcases mem_cons.1 hb' with rfl | hb'
  · exact hb
  · exact (pairwise_cons.1 h.past).1 b' hb' a mem_cons_self hb

/-- The elements that are dropped meet nothing. -/
theorem Sorted.pairs_dropWhile (h : S.Sorted (a :: as) bs) :
    S.pairs (a :: as) (bs.dropWhile (S.drops a)) =
      S.pairs (a :: as) bs := by
  induction bs with
  | nil => rfl
  | cons b bs ih =>
    rw [dropWhile_cons]
    split_ifs with hdrop
    · have hbefore : S.before a b := (drops_iff.1 hdrop).2
      rw [ih (h.sublist (.refl _) (sublist_cons_self _ _)),
        pairs_of_before (h.before_of_mem hbefore)]
    · rfl

/-- Behind an element of the second list that `a` does not reach beyond, `a` meets nothing. -/
theorem Sorted.pairs_of_ends (h : S.Sorted (a :: as) (b :: bs)) (hm : S.meets a b)
    (hends : S.ends a b) : S.pairs (a :: as) (b :: bs) = (a, b) :: S.pairs as (b :: bs) := by
  have hpast : ∀ b' ∈ bs, S.past a b' := fun b' hb' =>
    (pairwise_cons.1 h.ends).1 b' hb' a mem_cons_self hends
  rw [pairs_cons, filter_cons_of_pos hm, filter_meets_of_past hpast]
  rfl

/-- An element of the second list that `a` reaches beyond lies in front of all behind `a`. -/
theorem Sorted.pairs_of_not_ends (h : S.Sorted (a :: as) (b :: bs)) (hm : S.meets a b)
    (hends : ¬ S.ends a b) : S.pairs (a :: as) (b :: bs) = (a, b) :: S.pairs (a :: as) bs := by
  have hbefore : ∀ a' ∈ as, S.before a' b := fun a' ha' =>
    (pairwise_cons.1 h.beyond).1 a' ha' b mem_cons_self hends
  rw [pairs_cons, filter_cons_of_pos hm, pairs_of_before hbefore]
  rfl

/-- A search finds the first pair that meets, and leaves the others. -/
structure Found (S : Sweep α β) (as : List α) (bs : List β) (p : α × β) (as' : List α)
    (bs' : List β) : Prop where
  pairs : S.pairs as bs = p :: S.pairs as' bs'
  sorted : S.Sorted as' bs'
  shorter : as'.length + bs'.length < as.length + bs.length
  more : as ≠ [] ∧ bs ≠ []

/-- **One search.** -/
theorem Sorted.next_eq (h : S.Sorted as bs) :
    (S.next as bs = none ∧ S.pairs as bs = []) ∨
      ∃ p as' bs', S.next as bs = some (p, as', bs') ∧ S.Found as bs p as' bs' := by
  induction as generalizing bs with
  | nil => exact .inl ⟨rfl, rfl⟩
  | cons a as ih =>
    -- the search behind `a`, in a part of the second list that has all that meets `as`
    have hrest : ∀ ds : List β, ds.Sublist bs → S.pairs (a :: as) bs = S.pairs as ds →
        (S.next as ds = none ∧ S.pairs (a :: as) bs = []) ∨
          ∃ p as' bs', S.next as ds = some (p, as', bs') ∧ S.Found (a :: as) bs p as' bs' := by
      intro ds hds heq
      have hlen := hds.length_le
      rcases ih (h.sublist (sublist_cons_self _ _) hds) with ⟨hn, hp⟩ | ⟨p, as', bs', hn, hf⟩
      · exact .inl ⟨hn, heq.trans hp⟩
      · have hshort := hf.shorter
        refine .inr ⟨p, as', bs', hn, heq.trans hf.pairs, hf.sorted, ?_, by simp, ?_⟩
        · rw [length_cons]
          omega
        · rintro rfl
          exact hf.more.2 (eq_nil_of_sublist_nil hds)
    rw [next]
    split_ifs with hskip
    · exact hrest bs (.refl _) (pairs_of_skip hskip)
    · have hsub := dropWhile_sublist (S.drops a) (l := bs)
      have hdrop := h.pairs_dropWhile
      have hhead := List.head?_dropWhile_not (S.drops a) bs
      generalize bs.dropWhile (S.drops a) = ds at hsub hdrop hhead
      cases ds with
      | nil =>
        refine hrest [] hsub ?_
        rw [← hdrop, pairs_nil, pairs_nil]
      | cons b ds =>
        have hsorted := h.sublist (.refl _) hsub
        have hlen := hsub.length_le
        have hne : bs ≠ [] := by
          rintro rfl
          cases hsub
        have hm : ¬ S.past a b → S.meets a b := by
          intro hpast
          simp_all [meets, drops]
        rw [length_cons] at hlen
        dsimp only
        split_ifs with hpast hends
        · refine hrest (b :: ds) hsub ?_
          rw [← hdrop, pairs_cons, filter_meets_of_past (hsorted.past_of_mem hpast)]
          rfl
        · have hmeets := hm hpast
          refine .inr ⟨_, _, _, rfl, ?_, hsorted.sublist (sublist_cons_self _ _) (.refl _), ?_,
            by simp, hne⟩
          · rw [← hdrop, hsorted.pairs_of_ends hmeets hends]
          · simp only [length_cons]
            omega
        · have hmeets := hm hpast
          refine .inr ⟨_, _, _, rfl, ?_, hsorted.sublist (.refl _) (sublist_cons_self _ _), ?_,
            by simp, hne⟩
          · rw [← hdrop, hsorted.pairs_of_not_ends hmeets hends]
          · simp only [length_cons]
            omega

/-- **All searches.** The sweep ends, and it finds the pairs that meet. -/
theorem run_eq {n : ℕ} (h : S.Sorted as bs) (hn : as.length + bs.length ≤ n) (hpos : 0 < n) :
    S.run n as bs = some (S.pairs as bs) := by
  induction n generalizing as bs with
  | zero => omega
  | succ n ih =>
    rw [run]
    rcases h.next_eq with ⟨hnext, hpairs⟩ | ⟨p, as', bs', hnext, hf⟩
    · rw [hnext, hpairs]
    · have ha := length_pos_iff.2 hf.more.1
      have hb := length_pos_iff.2 hf.more.2
      have hshort := hf.shorter
      simp only [hnext, ih hf.sorted (by omega) (by omega), hf.pairs]
      rfl

end Sweep

end MinimalKernel.Lib
