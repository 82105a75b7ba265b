import MinimalKernel.Resource.Tree
import Mathlib.Data.List.Nodup
import Mathlib.Order.WellFounded

/-!
# The resources as a forest

`ForestOk m live kids` says that the pointers of the resources form trees: `kids r` are the children
of `r`, in the order of their list. The calls change a forest in three ways: they link a resource
between two children, unlink a child with all that is below it, or let a resource take the place of
the children that it covers. In each case the loop of the call has stopped at a place in a list of
children, `kids p = l₁ ++ l₂`, and holds the address of the field behind `l₁`, which is
`slotAfter p l₁`.

## Main definitions

* `ForestOk` — the pointers form trees
* `Below` — a resource and all that is below it
* `slotAfter` — the field that points behind some of the children

## Main results

* `ForestOk.link`, `ForestOk.unlink`, `ForestOk.cover` — the three changes keep a forest
* `ForestOk.wf` — going down from parent to child ends
-/

namespace MinimalKernel.Resource

open Function Lib List Relation ResourceMem

/-- `t` is `r`, or is below it. -/
def Below (kids : ℕ → List ℕ) (r t : ℕ) : Prop := ReflTransGen (fun r c => c ∈ kids r) r t

/-- The pointers of the resources form trees: the children of `r` are `kids r`. They are sorted,
disjoint, inside of `r` and point back to it; a child is deeper than its parent, up to a greatest
depth. -/
structure ForestOk (m : ResourceMem) (live : ℕ → Bool) (kids : ℕ → List ℕ) : Prop where
  list : ∀ r, live r → Segment m.sibling (m.child r) (kids r) none
  dead : ∀ r, live r = false → kids r = []
  parent : ∀ r, ∀ c ∈ kids r, m.parent c = some r
  live : ∀ r, ∀ c ∈ kids r, live c
  range : ∀ r, ∀ c ∈ kids r, m.start r ≤ m.start c ∧ m.start c ≤ m.stop c ∧ m.stop c ≤ m.stop r
  sorted : ∀ r, (kids r).Pairwise fun a b => m.stop a < m.start b
  depth : ∃ (d : ℕ → ℕ) (n : ℕ), ∀ r, ∀ c ∈ kids r, d r < d c ∧ d c ≤ n

variable {m m' : ResourceMem} {live live' : ℕ → Bool} {kids : ℕ → List ℕ} {root new r c p t : ℕ}
  {l l₁ l₂ : List ℕ}

theorem ne_of_dead (hr : live r = false) (hp : live p) : r ≠ p := by
  rintro rfl
  rw [hp] at hr
  cases hr

theorem pairwise_between {R : ℕ → ℕ → Prop} (h : (l₁ ++ l₂).Pairwise R) (h₁ : ∀ a ∈ l₁, R a new)
    (h₂ : ∀ b ∈ l₂, R new b) : (l₁ ++ new :: l₂).Pairwise R := by
  obtain ⟨hl₁, hl₂, hl⟩ := pairwise_append.1 h
  exact pairwise_append.2 ⟨hl₁, pairwise_cons.2 ⟨h₂, hl₂⟩, fun a ha =>
    forall_mem_cons.2 ⟨h₁ a ha, hl a ha⟩⟩

namespace ForestOk

section

variable (h : ForestOk m live kids)
include h

theorem live_parent (hc : c ∈ kids r) : live r := by
  by_contra hr
  rw [h.dead r (by simpa using hr)] at hc
  cases hc

theorem parent_unique (hc : c ∈ kids r) (hc' : c ∈ kids p) : r = p :=
  Option.some.inj ((h.parent r c hc).symm.trans (h.parent p c hc'))

theorem nodup (r : ℕ) : (kids r).Nodup := by
  refine (h.sorted r).imp_of_mem fun ha _ hab e => ?_
  have := (h.range r _ ha).2.1
  rw [e] at this hab
  omega

theorem ne_parent (hc : c ∈ kids r) : c ≠ r := by
  obtain ⟨d, n, hd⟩ := h.depth
  rintro rfl
  exact lt_irrefl _ (hd c c hc).1

/-- Going down ends. -/
theorem wf : WellFounded fun c r => c ∈ kids r := by
  obtain ⟨d, n, hd⟩ := h.depth
  refine Subrelation.wf (fun {c r} hc => ?_) (measure fun r => n - d r).wf
  have := hd r c hc
  show n - d c < n - d r
  omega

theorem child_iff (hr : live r) : Child m r c ↔ c ∈ kids r := by
  constructor
  · rintro ⟨l, hl, hc⟩
    rwa [← hl.unique (h.list r hr)]
  · exact fun hc => ⟨kids r, h.list r hr, hc⟩

theorem below_child (hb : Below kids r t) : ReflTransGen (Child m) r t := by
  induction hb with
  | refl => exact .refl
  | tail _ hc ih => exact ih.tail ((h.child_iff (h.live_parent hc)).2 hc)

theorem dead_update (hp : live p) (hr : live r = false) : update kids p l r = [] := by
  rw [update_of_ne (ne_of_dead hr hp)]
  exact h.dead r hr

theorem sorted_update (hl : l.Pairwise fun a b => m.stop a < m.start b) (r : ℕ) :
    (update kids p l r).Pairwise fun a b => m.stop a < m.start b := by
  rcases eq_or_ne r p with rfl | hne
  · rwa [update_self]
  · rw [update_of_ne hne]
    exact h.sorted r

/-- What is below a resource is inside of it. -/
theorem range_of_below (hb : Below kids r t) : m.start r ≤ m.start t ∧ m.stop t ≤ m.stop r := by
  induction hb with
  | refl => exact ⟨le_rfl, le_rfl⟩
  | tail _ hc ih =>
    have := h.range _ _ hc
    omega

/-- A resource that is in no list and without children may change in every way. -/
theorem congr (hstart : ∀ r, live r → m'.start r = m.start r)
    (hstop : ∀ r, live r → m'.stop r = m.stop r) (hparent : ∀ r, live r → m'.parent r = m.parent r)
    (hsibling : ∀ r, live r → m'.sibling r = m.sibling r)
    (hchild : ∀ r, live r → m'.child r = m.child r) : ForestOk m' live kids where
  __ := h
  list := fun r hr => by
    rw [hchild r hr]
    exact (h.list r hr).congr fun c hc => hsibling c (h.live r c hc)
  parent := fun r c hc => by
    rw [hparent c (h.live r c hc)]
    exact h.parent r c hc
  range := fun r c hc => by
    rw [hstart r (h.live_parent hc), hstart c (h.live r c hc), hstop c (h.live r c hc),
      hstop r (h.live_parent hc)]
    exact h.range r c hc
  sorted := fun r => by
    refine (h.sorted r).imp_of_mem fun ha hb hab => ?_
    rwa [hstop _ (h.live r _ ha), hstart _ (h.live r _ hb)]

/-- A resource without children comes to be, or one that is in no list ceases to be. -/
theorem setLive (b : Bool) (hr : kids r = []) (hchild : b → m.child r = none)
    (hlinked : b = false → ∀ p, r ∉ kids p) : ForestOk m (update live r b) kids where
  __ := h
  list := fun q hq => by
    rcases eq_or_ne q r with rfl | hne
    · rw [update_self] at hq
      rw [hchild hq, hr]
      rfl
    · rw [update_of_ne hne] at hq
      exact h.list q hq
  dead := fun q hq => by
    rcases eq_or_ne q r with rfl | hne
    · exact hr
    · rw [update_of_ne hne] at hq
      exact h.dead q hq
  live := fun q c hc => by
    rcases eq_or_ne c r with rfl | hne
    · rw [update_self]
      exact Bool.of_not_eq_false fun hb => hlinked hb q hc
    · rw [update_of_ne hne]
      exact h.live q c hc

end

end ForestOk

/-! ### Links -/

/-- The field that points behind the children `l` of `root`. -/
def slotAfter (root : ℕ) (l : List ℕ) : Slot :=
  match l.getLast? with
  | none => .child root
  | some c => .sibling c

theorem slotAfter_nil : slotAfter root [] = .child root := rfl

theorem slotAfter_concat : slotAfter root (l ++ [c]) = .sibling c := by
  rw [slotAfter, List.getLast?_concat]

/-- What the field behind the first children points to. -/
theorem read_slotAfter (h : Segment m.sibling (m.child root) (l₁ ++ l₂) none) :
    Segment m.sibling (m.read (slotAfter root l₁)) l₂ none := by
  rcases eq_nil_or_concat l₁ with rfl | ⟨l, c, rfl⟩
  · exact h
  · rw [concat_eq_append] at h ⊢
    obtain ⟨mid, h₁, h₂⟩ := Segment.append_iff.1 h
    rw [slotAfter_concat]
    show Segment m.sibling (m.sibling c) l₂ none
    rw [h₁.next_last]
    exact h₂

/-- A list of children after a store to the field behind the first ones. -/
theorem segment_write {q : Option ℕ} (h : Segment m.sibling (m.child root) (l₁ ++ l₂) none)
    (hnodup : (l₁ ++ l₂).Nodup) (hl : Segment m.sibling q l none) (hdisj : ∀ c ∈ l₁, c ∉ l) :
    Segment (m.write (slotAfter root l₁) q).sibling ((m.write (slotAfter root l₁) q).child root)
      (l₁ ++ l) none := by
  rcases eq_nil_or_concat l₁ with rfl | ⟨k, c, rfl⟩
  · rw [slotAfter_nil]
    show Segment m.sibling (update m.child root q root) l none
    rwa [update_self]
  · rw [concat_eq_append] at h hnodup hdisj ⊢
    rw [slotAfter_concat]
    show Segment (update m.sibling c q) (m.child root) (k ++ [c] ++ l) none
    obtain ⟨mid, h₁, -⟩ := Segment.append_iff.1 h
    have hc : c ∉ k := by
      intro hk
      have := (nodup_append.1 (nodup_append.1 hnodup).1).2.2 c hk c (by simp)
      exact this rfl
    exact (h₁.setLast hc q).append (hl.update (hdisj c (by simp)) q)

/-- A store to such a field is nothing to another list. -/
theorem segment_write_other {q : Option ℕ} (h : Segment m.sibling (m.child r) l none)
    (hr : r ≠ root) (hdisj : ∀ c ∈ l₁, c ∉ l) :
    Segment (m.write (slotAfter root l₁) q).sibling ((m.write (slotAfter root l₁) q).child r) l
      none := by
  rcases eq_nil_or_concat l₁ with rfl | ⟨k, c, rfl⟩
  · rw [slotAfter_nil]
    show Segment m.sibling (update m.child root q r) l none
    rwa [update_of_ne hr]
  · rw [concat_eq_append] at hdisj ⊢
    rw [slotAfter_concat]
    exact h.update (hdisj c (by simp)) q

namespace ResourceMem

variable (s : Slot) (q : Option ℕ)

@[simp] theorem write_start : (m.write s q).start = m.start := by cases s <;> rfl

@[simp] theorem write_stop : (m.write s q).stop = m.stop := by cases s <;> rfl

@[simp] theorem write_parent : (m.write s q).parent = m.parent := by cases s <;> rfl

end ResourceMem

namespace ForestOk

theorem mem_of_mem_update {k : List ℕ} (hk : ∀ c ∈ k, c = new ∨ c ∈ kids root)
    (hc : c ∈ update kids root k r) : r = root ∧ c = new ∨ c ∈ kids r := by
  rcases eq_or_ne r root with rfl | hne
  · rw [update_self] at hc
    exact (hk c hc).imp_left fun e => ⟨rfl, e⟩
  · rw [update_of_ne hne] at hc
    exact .inr hc

section

variable (h : ForestOk m live kids)
include h

/-- When `new` is linked below `root`, what is below `new` moves down with it. -/
theorem depth_link {kids' : ℕ → List ℕ} (hnew : ∀ p, new ∉ kids p)
    (hbelow : ¬Below kids new root) (hmem : ∀ r c, c ∈ kids' r → r = root ∧ c = new ∨ c ∈ kids r) :
    ∃ (d : ℕ → ℕ) (n : ℕ), ∀ r, ∀ c ∈ kids' r, d r < d c ∧ d c ≤ n := by
  classical
  obtain ⟨d, n, hd⟩ := h.depth
  refine ⟨fun x => if Below kids new x then d x + (d root + 1) else d x,
    n + d new + (d root + 1), fun r c hc => ?_⟩
  rcases hmem r c hc with ⟨rfl, rfl⟩ | hc
  · simp only [if_neg hbelow, if_pos (show Below kids c c from .refl)]
    omega
  · have hdc := hd r c hc
    by_cases hb : Below kids new r
    · have hbc : Below kids new c := hb.tail hc
      simp only [if_pos hb, if_pos hbc]
      omega
    · have hbc : ¬Below kids new c := by
        intro hbc
        rcases ReflTransGen.cases_tail hbc with rfl | ⟨p, hbp, hp⟩
        · exact hnew r hc
        · exact hb (h.parent_unique hp hc ▸ hbp)
      simp only [if_neg hb, if_neg hbc]
      omega

/-- `new` is linked between two children of `root`. -/
theorem link (hk : kids root = l₁ ++ l₂) (hroot : live root)
    (hnew : ∀ p, new ∉ kids p) (hlive : live new) (hbelow : ¬Below kids new root)
    (hrange : m.start root ≤ m.start new ∧ m.start new ≤ m.stop new ∧ m.stop new ≤ m.stop root)
    (h₁ : ∀ c ∈ l₁, m.stop c < m.start new) (h₂ : ∀ c ∈ l₂, m.stop new < m.start c) :
    ForestOk (m.link root new (slotAfter root l₁)) live
      (update kids root (l₁ ++ new :: l₂)) := by
  have hnodup : (l₁ ++ l₂).Nodup := hk ▸ h.nodup root
  have hnew' : new ∉ l₁ ++ l₂ := hk ▸ hnew root
  have hmem : ∀ r c, c ∈ update kids root (l₁ ++ new :: l₂) r →
      r = root ∧ c = new ∨ c ∈ kids r := by
    refine fun r c => mem_of_mem_update fun c hc => ?_
    rw [hk]
    simp only [mem_append, mem_cons] at hc ⊢
    tauto
  have hlist := h.list root hroot
  rw [hk] at hlist
  -- the lists after the store to the new resource
  have hseg := hlist.update hnew' (m.read (slotAfter root l₁))
  have htail := (read_slotAfter hlist).update (fun hc => hnew' (mem_append_right l₁ hc))
    (m.read (slotAfter root l₁))
  refine ⟨fun r hr => ?_, fun r hr => ?_, fun r c hc => ?_, fun r c hc => ?_, fun r c hc => ?_,
    fun r => ?_, h.depth_link hnew hbelow hmem⟩
  · rcases eq_or_ne r root with rfl | hne
    · rw [update_self]
      refine segment_write (m := m.setSibling new (m.read (slotAfter r l₁))) hseg hnodup
        ⟨rfl, ?_⟩ fun c hc hc' => ?_
      · show Segment (update m.sibling new _) (update m.sibling new _ new) l₂ none
        rw [update_self]
        exact htail
      · rcases mem_cons.1 hc' with rfl | hc'
        · exact hnew' (mem_append_left l₂ hc)
        · exact (nodup_append.1 hnodup).2.2 c hc c hc' rfl
    · rw [update_of_ne hne]
      refine segment_write_other (m := m.setSibling new (m.read (slotAfter root l₁)))
        ((h.list r hr).update (hnew r) _) hne fun c hc hc' => hne ?_
      exact h.parent_unique hc' (hk ▸ mem_append_left l₂ hc)
  · exact h.dead_update hroot hr
  · show update (write _ _ _).parent new (some root) c = some r
    rw [write_parent]
    rcases hmem r c hc with ⟨rfl, rfl⟩ | hc
    · exact update_self ..
    · rw [update_of_ne fun e : c = new => hnew r (e ▸ hc)]
      exact h.parent r c hc
  · rcases hmem r c hc with ⟨rfl, rfl⟩ | hc
    · exact hlive
    · exact h.live r c hc
  · simp only [ResourceMem.link, setParent, write_start, write_stop]
    rcases hmem r c hc with ⟨rfl, rfl⟩ | hc
    · exact hrange
    · exact h.range r c hc
  · simp only [ResourceMem.link, setParent, write_start, write_stop]
    exact h.sorted_update (pairwise_between (hk ▸ h.sorted root) h₁ h₂) r

/-- A child is unlinked, with what is below it. -/
theorem unlink (hk : kids p = l₁ ++ c :: l₂) (q : Option ℕ) :
    ForestOk ((m.write (slotAfter p l₁) (m.sibling c)).setParent c q) live
      (update kids p (l₁ ++ l₂)) := by
  have hnodup : (l₁ ++ c :: l₂).Nodup := hk ▸ h.nodup p
  have hmem : ∀ x ∈ l₁ ++ l₂, x ∈ kids p := fun x hx => by
    rw [hk]
    simp only [mem_append, mem_cons] at hx ⊢
    tauto
  have hc : c ∈ kids p := by simp [hk]
  have hsub : ∀ r x, x ∈ update kids p (l₁ ++ l₂) r → x ∈ kids r := by
    intro r x hx
    rcases eq_or_ne r p with rfl | hne
    · rw [update_self] at hx
      exact hmem x hx
    · rwa [update_of_ne hne] at hx
  have hlist := h.list p (h.live_parent hc)
  rw [hk] at hlist
  refine ⟨fun r hr => ?_, fun r hr => ?_, fun r x hx => ?_, fun r x hx => h.live r x (hsub r x hx),
    fun r x hx => ?_, fun r => ?_, ?_⟩
  · show Segment (write _ _ _).sibling ((write _ _ _).child r) _ none
    rcases eq_or_ne r p with rfl | hne
    · rw [update_self]
      obtain ⟨mid, -, -, htail⟩ := Segment.append_iff.1 hlist
      exact segment_write hlist hnodup htail fun x hx hx' =>
        (nodup_append.1 hnodup).2.2 x hx x (mem_cons_of_mem c hx') rfl
    · rw [update_of_ne hne]
      refine segment_write_other (h.list r hr) hne fun x hx hx' => hne ?_
      exact h.parent_unique hx' (hmem x (mem_append_left l₂ hx))
  · exact h.dead_update (h.live_parent hc) hr
  · show update (write _ _ _).parent c q x = some r
    rw [write_parent, update_of_ne]
    · exact h.parent r x (hsub r x hx)
    · rintro rfl
      obtain rfl := h.parent_unique hc (hsub r x hx)
      rw [update_self] at hx
      rw [nodup_middle, nodup_cons] at hnodup
      exact hnodup.1 hx
  · simp only [setParent, write_start, write_stop]
    exact h.range r x (hsub r x hx)
  · simp only [setParent, write_start, write_stop]
    exact h.sorted_update
      ((hk ▸ h.sorted p).sublist (.append_left (sublist_cons_self c l₂) l₁)) r
  · obtain ⟨d, n, hd⟩ := h.depth
    exact ⟨d, n, fun r x hx => hd r x (hsub r x hx)⟩

end

end ForestOk

/-! ### A resource that covers others -/

namespace ResourceMem

/-- The parent of all of `l` is set. -/
def setParents (m : ResourceMem) (l : List ℕ) (x : Option ℕ) : ResourceMem :=
  { m with parent := fun c => if c ∈ l then x else m.parent c }

/-- The stores of `__insert_resource` to `new` and to `next`, which is the last resource that it
covers. -/
def takeOver (m : ResourceMem) (parent new first next : ℕ) : ResourceMem :=
  (((m.setParent new (some parent)).setSibling new (m.sibling next)).setChild new
    (some first)).setSibling next none

end ResourceMem

namespace ForestOk

variable {first next : ℕ} {k : List ℕ}

theorem depth_cover (h : ForestOk m live kids) {kids' : ℕ → List ℕ} (hne : new ≠ p)
    (hmem : ∀ r c, c ∈ kids' r → r = p ∧ c = new ∨ r = new ∧ c ∈ kids p ∧ c ≠ new ∨
      r ≠ new ∧ c ∈ kids r ∧ c ≠ new) :
    ∃ (d : ℕ → ℕ) (n : ℕ), ∀ r, ∀ c ∈ kids' r, d r < d c ∧ d c ≤ n := by
  obtain ⟨d, n, hd⟩ := h.depth
  -- between two depths there is room for one more
  refine ⟨update (fun x => 2 * d x) new (2 * d p + 1), 2 * n + 2 * d p + 1, fun r c hc => ?_⟩
  rcases hmem r c hc with ⟨rfl, rfl⟩ | ⟨rfl, hc, hcn⟩ | ⟨hr, hc, hcn⟩
  · rw [update_self, update_of_ne hne.symm]
    omega
  · have := hd p c hc
    rw [update_self, update_of_ne hcn]
    omega
  · have := hd r c hc
    rw [update_of_ne hr, update_of_ne hcn]
    omega

section

variable (h : ForestOk m live kids) (hk : kids p = l₁ ++ (k ++ [next]) ++ l₂)
  (hfirst : (k ++ [next]).head? = some first) (hnew : ∀ p, new ∉ kids p)
include h hk hfirst hnew

/-- The lists of children while `new` takes over: that of `p` ends with `next`. -/
theorem takeOver_lists :
    Segment (m.takeOver p new first next).sibling (some first) (k ++ [next]) none ∧
      Segment (m.takeOver p new first next).sibling (m.child p) (l₁ ++ (k ++ [next])) none := by
  have hnodup : (l₁ ++ (k ++ [next]) ++ l₂).Nodup := hk ▸ h.nodup p
  have hlast : next ∉ l₁ ++ k := fun hc => by
    have := (nodup_append.1 hnodup).1
    rw [← append_assoc, nodup_append] at this
    exact this.2.2 next hc next (by simp) rfl
  have hmem : ∀ c ∈ l₁ ++ (k ++ [next]), c ∈ kids p := fun c hc => hk ▸ mem_append_left l₂ hc
  have hlist := h.list p (h.live_parent (hmem next (by simp)))
  rw [hk] at hlist
  obtain ⟨mid, hfront, -⟩ := Segment.append_iff.1 hlist
  obtain ⟨q, -, hcov⟩ := Segment.append_iff.1 hfront
  have hq : q = some first := by
    cases k with
    | nil | cons a k => exact hcov.1.trans hfirst
  constructor
  · rw [← hq]
    have hnew' : new ∉ k ++ [next] := fun hc => hnew p (hmem new (mem_append_right l₁ hc))
    exact (hcov.update hnew' _).setLast (fun hc => hlast (mem_append_right l₁ hc)) none
  · rw [← append_assoc] at hfront hmem ⊢
    exact (hfront.update (fun hc => hnew p (hmem new hc)) _).setLast hlast none

/-- `new` takes the place of the children of `p` that it covers. -/
theorem cover (hlive : live new) (hne : new ≠ p)
    (hrange : m.start p ≤ m.start new ∧ m.start new ≤ m.stop new ∧ m.stop new ≤ m.stop p)
    (hcover : ∀ c ∈ k ++ [next], m.start new ≤ m.start c ∧ m.stop c ≤ m.stop new)
    (h₁ : ∀ c ∈ l₁, m.stop c < m.start new) (h₂ : ∀ c ∈ l₂, m.stop new < m.start c) :
    ForestOk (((m.takeOver p new first next).setParents (k ++ [next]) (some new)).write
      (slotAfter p l₁) (some new)) live
      (update (update kids p (l₁ ++ new :: l₂)) new (k ++ [next])) := by
  have hnodup : (l₁ ++ (k ++ [next]) ++ l₂).Nodup := hk ▸ h.nodup p
  have hin : ∀ c, c ∈ l₁ ∨ c ∈ k ++ [next] ∨ c ∈ l₂ ↔ c ∈ kids p := fun c => by
    rw [hk, mem_append (s := l₁ ++ (k ++ [next])), mem_append (s := l₁), or_assoc]
  have hcov : ∀ c ∈ k ++ [next], c ∈ kids p := fun c hc => (hin c).1 (.inr (.inl hc))
  have hnext : next ∈ k ++ [next] := by simp
  have hdisj : ∀ c ∈ l₁ ++ (k ++ [next]), c ∉ l₂ := fun c hc hc' =>
    (nodup_append.1 hnodup).2.2 c hc c hc' rfl
  have hdisj₁ : ∀ c ∈ l₁, c ∉ k ++ [next] := fun c hc hc' =>
    (nodup_append.1 (nodup_append.1 hnodup).1).2.2 c hc c hc' rfl
  have hmem : ∀ r c, c ∈ update (update kids p (l₁ ++ new :: l₂)) new
      (k ++ [next]) r → r = p ∧ c = new ∨ r = new ∧ c ∈ k ++ [next] ∨
        r ≠ new ∧ c ∈ kids r ∧ c ∉ k ++ [next] := by
    intro r c hc
    rcases eq_or_ne r new with rfl | hrn
    · rw [update_self] at hc
      exact .inr (.inl ⟨rfl, hc⟩)
    · rw [update_of_ne hrn] at hc
      rcases eq_or_ne r p with rfl | hrp
      · rw [update_self, mem_append, mem_cons] at hc
        rcases hc with hc | rfl | hc
        · exact .inr (.inr ⟨hrn, (hin c).1 (.inl hc), hdisj₁ c hc⟩)
        · exact .inl ⟨rfl, rfl⟩
        · exact .inr (.inr ⟨hrn, (hin c).1 (.inr (.inr hc)),
            fun hc' => hdisj c (mem_append_right l₁ hc') hc⟩)
      · rw [update_of_ne hrp] at hc
        exact .inr (.inr ⟨hrn, hc, fun hc' => hrp (h.parent_unique hc (hcov c hc'))⟩)
  have hne' : ∀ r c, c ∈ kids r → c ≠ new := fun r c hc e => hnew r (e ▸ hc)
  have hlist := h.list p (h.live_parent (hcov next hnext))
  rw [hk] at hlist
  obtain ⟨mid, hfront, htail⟩ := Segment.append_iff.1 hlist
  have hmid : m.sibling next = mid := by
    rw [← append_assoc] at hfront
    exact hfront.next_last
  refine ⟨fun r hr => ?_, fun r hr => ?_, fun r c hc => ?_, fun r c hc => ?_, fun r c hc => ?_,
    fun r => ?_, h.depth_cover hne fun r c hc => ?_⟩
  · rcases eq_or_ne r new with rfl | hrn
    · rw [update_self]
      refine segment_write_other ?_ hne hdisj₁
      show Segment (m.takeOver p r first next).sibling (update m.child r (some first) r) _
        none
      rw [update_self]
      exact (h.takeOver_lists hk hfirst hnew).1
    · rw [update_of_ne hrn]
      rcases eq_or_ne r p with rfl | hrp
      · rw [update_self]
        have hfront' : Segment (m.takeOver r new first next).sibling
            (update m.child new (some first) r) (l₁ ++ (k ++ [next])) none := by
          rw [update_of_ne hrn]
          exact (h.takeOver_lists hk hfirst hnew).2
        refine segment_write hfront' (nodup_append.1 hnodup).1 ⟨rfl, ?_⟩ fun c hc hc' => ?_
        · show Segment (update (update m.sibling new (m.sibling next)) next none)
            (update (update m.sibling new (m.sibling next)) next none new) _ none
          rw [update_of_ne (hne' r next (hcov next hnext)).symm, update_self, hmid]
          exact (htail.update (fun hc => hne' r new ((hin new).1 (.inr (.inr hc))) rfl) _).update
            (hdisj next (mem_append_right l₁ hnext)) none
        · rcases mem_cons.1 hc' with rfl | hc'
          · exact hne' r c ((hin c).1 (.inl hc)) rfl
          · exact hdisj c (mem_append_left _ hc) hc'
      · rw [update_of_ne hrp]
        refine segment_write_other ?_ hrp fun c hc hc' =>
          hrp (h.parent_unique hc' ((hin c).1 (.inl hc)))
        show Segment (update (update m.sibling new _) next none)
            (update m.child new (some first) r) _ none
        rw [update_of_ne hrn]
        exact ((h.list r hr).update (hnew r) _).update
          (fun hc => hrp (h.parent_unique hc (hcov next hnext))) none
  · rw [update_of_ne (ne_of_dead hr hlive)]
    exact h.dead_update (h.live_parent (hcov next hnext)) hr
  · rw [write_parent]
    show (if c ∈ k ++ [next] then some new else update m.parent new (some p) c) = some r
    rcases hmem r c hc with ⟨rfl, rfl⟩ | ⟨rfl, hck⟩ | ⟨-, hcr, hnot⟩
    · rw [if_neg fun hc => hnew r (hcov c hc), update_self]
    · rw [if_pos hck]
    · rw [if_neg hnot, update_of_ne (hne' r c hcr)]
      exact h.parent r c hcr
  · rcases hmem r c hc with ⟨rfl, rfl⟩ | ⟨rfl, hck⟩ | ⟨-, hcr, -⟩
    · exact hlive
    · exact h.live p c (hcov c hck)
    · exact h.live r c hcr
  · rw [write_start, write_stop]
    show m.start r ≤ m.start c ∧ m.start c ≤ m.stop c ∧ m.stop c ≤ m.stop r
    rcases hmem r c hc with ⟨rfl, rfl⟩ | ⟨rfl, hck⟩ | ⟨-, hcr, -⟩
    · exact hrange
    · exact ⟨(hcover c hck).1, (h.range p c (hcov c hck)).2.1, (hcover c hck).2⟩
    · exact h.range r c hcr
  · rw [write_start, write_stop]
    show List.Pairwise (fun a b => m.stop a < m.start b) _
    have hsorted := h.sorted p
    rw [hk, pairwise_append, pairwise_append] at hsorted
    rcases eq_or_ne r new with rfl | hrn
    · rw [update_self]
      exact hsorted.1.2.1
    · rw [update_of_ne hrn]
      refine h.sorted_update (pairwise_between ?_ h₁ h₂) r
      exact pairwise_append.2 ⟨hsorted.1.1, hsorted.2.1, fun a ha => hsorted.2.2 a (by simp [ha])⟩
  · rcases hmem r c hc with hrc | ⟨hr, hck⟩ | ⟨hr, hcr, -⟩
    · exact .inl hrc
    · exact .inr (.inl ⟨hr, hcov c hck, hne' p c (hcov c hck)⟩)
    · exact .inr (.inr ⟨hr, hcr, hne' r c hcr⟩)

end

end ForestOk

end MinimalKernel.Resource
