import Mathlib.Data.List.Nodup

/-!
# Red-black trees, edited at a path

A binary tree whose nodes carry a colour, together with the *path* from the root to a hole in it.
Every operation of an intrusive red-black tree is an edit at such a path: a descent finds the hole,
the new node is put there red and the tree is recoloured and rotated upwards; an erasure replaces a
node by one of its children or by its successor and repairs the tree from the place that lost a
black node.

The order of the elements is what the users of the tree rely on, so the results are about
`RbTree.toList`: an insertion at a path puts the new element between `Path.before` and `Path.after`
(`toList_insertAt`), an erasure removes one element (`toList_erase`), and the two searches
`findFrom` and `descend` agree with the corresponding searches of the list.

## Total repairs

The pointer code may assume that a red node has a parent and that a doubly black node has a
sibling. The repairs here are total: where a tree that is not red-black would make the pointer code
follow a null pointer, they leave the tree as it is.

## Main definitions

* `RbTree`, `Path`, `Path.fill` — trees, paths to a hole, and filling the hole
* `Path.insertFixup`, `Path.eraseFixup` — the two upward repairs
* `RbTree.insertAt`, `RbTree.erase` — insertion at a path and erasure of an element
* `RbTree.endPath` — the path to the place behind the last element
* `RbTree.findFrom`, `RbTree.descend` — searches by a monotone predicate
-/

namespace MinimalKernel.Lib

/-- The colour of a node. -/
inductive Color
  | red
  | black
  deriving DecidableEq, Repr

/-- A binary tree with coloured nodes. -/
inductive RbTree (α : Type*)
  | nil
  | node (c : Color) (l : RbTree α) (x : α) (r : RbTree α)
  deriving DecidableEq, Repr

/-- The way from a hole up to the root. `left c x r up` says that the hole is the left child of a
node of colour `c` that holds `x` and has the right subtree `r`. -/
inductive Path (α : Type*)
  | root
  | left (c : Color) (x : α) (r : RbTree α) (up : Path α)
  | right (c : Color) (l : RbTree α) (x : α) (up : Path α)
  deriving DecidableEq, Repr

variable {α : Type*} {t : RbTree α} {x : α}

namespace RbTree

/-- The elements from left to right. -/
def toList : RbTree α → List α
  | nil => []
  | node _ l x r => l.toList ++ x :: r.toList

@[simp] theorem toList_nil : (nil : RbTree α).toList = [] := rfl

@[simp] theorem toList_node (c : Color) (l : RbTree α) (x : α) (r : RbTree α) :
    (node c l x r).toList = l.toList ++ x :: r.toList := rfl

/-- Colour the root black. -/
def blacken : RbTree α → RbTree α
  | nil => nil
  | node _ l x r => node .black l x r

@[simp] theorem blacken_blacken : t.blacken.blacken = t.blacken := by cases t <;> rfl

@[simp] theorem toList_blacken (t : RbTree α) : t.blacken.toList = t.toList := by
  cases t <;> rfl

/-- A child that is missing or black. -/
def IsBlack : RbTree α → Prop
  | node .red _ _ _ => False
  | _ => True

instance (t : RbTree α) : Decidable t.IsBlack := by
  rcases t with _ | ⟨_ | _, _, _, _⟩ <;> unfold IsBlack <;> infer_instance

end RbTree

open RbTree

namespace Path

/-- Put a tree into the hole. -/
def fill : Path α → RbTree α → RbTree α
  | root, t => t
  | left c x r up, t => up.fill (node c t x r)
  | right c l x up, t => up.fill (node c l x t)

/-- The elements left of the hole, in order. -/
def before : Path α → List α
  | root => []
  | left _ _ _ up => up.before
  | right _ l x up => up.before ++ (l.toList ++ [x])

/-- The elements right of the hole, in order. -/
def after : Path α → List α
  | root => []
  | left _ x r up => x :: (r.toList ++ up.after)
  | right _ _ _ up => up.after

@[simp] theorem before_root : (root : Path α).before = [] := rfl

@[simp] theorem after_root : (root : Path α).after = [] := rfl

theorem toList_fill (p : Path α) (t : RbTree α) :
    (p.fill t).toList = p.before ++ t.toList ++ p.after := by
  induction p generalizing t with
  | root => simp [fill]
  | left c x r up ih | right c l x up ih => simp [fill, ih, before, after]

/-! ### The repair after an insertion -/

/-- `__rb_insert`: the red node `(l, x, r)` has been put into the hole of the path. A red parent is
either recoloured together with a red uncle, and the repair goes on at the grandparent, or rotated
into the grandparent's place. -/
def insertFixup : Path α → RbTree α → α → RbTree α → RbTree α
  | root, l, x, r => node .black l x r
  | left .black p s up, l, x, r => up.fill (node .black (node .red l x r) p s)
  | right .black s p up, l, x, r => up.fill (node .black s p (node .red l x r))
  | left .red p s root, l, x, r => node .red (node .red l x r) p s
  | right .red s p root, l, x, r => node .red s p (node .red l x r)
  | left .red p s (left _ g (node .red ul u ur) up), l, x, r =>
    up.insertFixup (node .black (node .red l x r) p s) g (node .black ul u ur)
  | right .red s p (left _ g (node .red ul u ur) up), l, x, r =>
    up.insertFixup (node .black s p (node .red l x r)) g (node .black ul u ur)
  | left .red p s (right _ (node .red ul u ur) g up), l, x, r =>
    up.insertFixup (node .black ul u ur) g (node .black (node .red l x r) p s)
  | right .red s p (right _ (node .red ul u ur) g up), l, x, r =>
    up.insertFixup (node .black ul u ur) g (node .black s p (node .red l x r))
  | left .red p s (left gc g u up), l, x, r =>
    up.fill (node gc (node .red l x r) p (node .red s.blacken g u))
  | right .red s p (left gc g u up), l, x, r =>
    up.fill (node gc (node .red s p l.blacken) x (node .red r.blacken g u))
  | left .red p s (right gc u g up), l, x, r =>
    up.fill (node gc (node .red u g l.blacken) x (node .red r.blacken p s))
  | right .red s p (right gc u g up), l, x, r =>
    up.fill (node gc (node .red u g s.blacken) p (node .red l x r))

theorem toList_insertFixup (p : Path α) (l : RbTree α) (x : α) (r : RbTree α) :
    (p.insertFixup l x r).toList = p.before ++ (l.toList ++ x :: r.toList) ++ p.after := by
  fun_induction insertFixup p l x r <;> simp_all [toList_fill, before, after]

/-! ### The repair after an erasure -/

/-- One turn of `____rb_erase_color` where the place that lost a black node is a left child: the
tree that takes the parent's place, and whether this tree still lacks a black node. -/
def eraseStepLeft (pc : Color) (t : RbTree α) (p : α) : RbTree α → RbTree α × Bool
  | nil => (node pc t p nil, false)
  | node .red nil sx sr => (node pc t p (node .red nil sx sr), false)
  | node .red (node _ a s b) sx sr =>
    -- a red sibling is rotated up first, so the parent is red and the repair ends here
    let parent : RbTree α :=
      if b.IsBlack then
        match a with
        | node .red a₁ y a₂ => node .red (node .black t p a₁) y (node .black a₂.blacken s b)
        | a => node .black t p (node .red a s b)
      else node .red (node .black t p a) s b.blacken
    (node pc parent sx sr, false)
  | node .black sl sx sr =>
    if sr.IsBlack then
      match sl with
      | node .red a y b => (node pc (node .black t p a) y (node .black b.blacken sx sr), false)
      | sl => (node .black t p (node .red sl sx sr), pc == .black)
    else (node pc (node .black t p sl) sx sr.blacken, false)

/-- The mirror image of `eraseStepLeft`. -/
def eraseStepRight (pc : Color) (p : α) (t : RbTree α) : RbTree α → RbTree α × Bool
  | nil => (node pc nil p t, false)
  | node .red sl sx nil => (node pc (node .red sl sx nil) p t, false)
  | node .red sl sx (node _ a s b) =>
    let parent : RbTree α :=
      if a.IsBlack then
        match b with
        | node .red b₁ y b₂ => node .red (node .black a s b₁.blacken) y (node .black b₂ p t)
        | b => node .black (node .red a s b) p t
      else node .red a.blacken s (node .black b p t)
    (node pc sl sx parent, false)
  | node .black sl sx sr =>
    if sl.IsBlack then
      match sr with
      | node .red a y b => (node pc (node .black sl sx a.blacken) y (node .black b p t), false)
      | sr => (node .black (node .red sl sx sr) p t, pc == .black)
    else (node pc sl.blacken sx (node .black sr p t), false)

theorem toList_eraseStepLeft (pc : Color) (t : RbTree α) (p : α) (s : RbTree α) :
    (eraseStepLeft pc t p s).1.toList = t.toList ++ p :: s.toList := by
  fun_cases eraseStepLeft pc t p s <;> simp_all
  grind [toList_node, toList_blacken]

theorem toList_eraseStepRight (pc : Color) (p : α) (t s : RbTree α) :
    (eraseStepRight pc p t s).1.toList = s.toList ++ p :: t.toList := by
  fun_cases eraseStepRight pc p t s <;> simp_all
  grind [toList_node, toList_blacken]

/-- `____rb_erase_color`: the subtree in the hole lacks a black node. -/
def eraseFixup : Path α → RbTree α → RbTree α
  | root, t => t
  | left pc p s up, t =>
    let (t', more) := eraseStepLeft pc t p s
    if more then up.eraseFixup t' else up.fill t'
  | right pc s p up, t =>
    let (t', more) := eraseStepRight pc p t s
    if more then up.eraseFixup t' else up.fill t'

theorem toList_eraseFixup (p : Path α) (t : RbTree α) :
    (p.eraseFixup t).toList = p.before ++ t.toList ++ p.after := by
  induction p generalizing t with
  | root => simp [eraseFixup]
  | left pc p s up ih =>
    have h := toList_eraseStepLeft pc t p s
    simp only [eraseFixup]
    split <;> simp [ih, toList_fill, h, before, after]
  | right pc s p up ih =>
    have h := toList_eraseStepRight pc p t s
    simp only [eraseFixup]
    split <;> simp [ih, toList_fill, h, before, after]

end Path

open Path

namespace RbTree

/-! ### Insertion and erasure -/

variable (p : Path α)

/-- Link a new red node into the hole and repair the tree. -/
def insertAt (x : α) : RbTree α := p.insertFixup nil x nil

theorem toList_insertAt (x : α) : (insertAt p x).toList = p.before ++ x :: p.after := by
  simp [insertAt, toList_insertFixup]

/-- The hole right of the last element. -/
def endPath : RbTree α → Path α → Path α
  | nil, p => p
  | node c l x r, p => r.endPath (.right c l x p)

theorem before_endPath (t : RbTree α) (p : Path α) :
    (t.endPath p).before = p.before ++ t.toList := by
  induction t generalizing p with
  | nil => simp [endPath]
  | node c l x r _ ih => simp [endPath, ih, before]

theorem after_endPath (t : RbTree α) (p : Path α) : (t.endPath p).after = p.after := by
  induction t generalizing p with
  | nil => rfl
  | node c l x r _ ih => rw [endPath, ih, after]

/-- The leftmost node of a nonempty tree: its element, its colour, its right child, and the path
from the tree's own place down to it. -/
def popMin (c : Color) : RbTree α → α → RbTree α → α × Color × RbTree α × (Path α → Path α)
  | nil, x, r => (x, c, r, id)
  | node lc ll lx lr, x, r =>
    let (k, kc, child, f) := popMin lc ll lx lr
    (k, kc, child, fun up => f (.left c x r up))

theorem popMin_spec (c : Color) (l : RbTree α) (x : α) (r : RbTree α) (up : Path α) :
    let (k, _, child, f) := popMin c l x r
    l.toList ++ x :: r.toList ++ up.after = k :: child.toList ++ (f up).after
      ∧ (f up).before = up.before := by
  fun_induction popMin c l x r generalizing up with
  | case1 => simp
  | case2 c lc ll lx lr x r k kc child f hk ih =>
    have h := ih (.left c x r up)
    simp only [hk] at h
    refine ⟨?_, h.2⟩
    rw [← h.1]
    simp [after]

/-- `__rb_erase_augmented` and the repair after it: remove the node of colour `c` with the children
`l` and `r` that stands at the path. -/
def eraseAt (c : Color) : RbTree α → RbTree α → RbTree α
  | nil, nil => if c = .black then p.eraseFixup nil else p.fill nil
  | nil, node _ a y b => p.fill (node c a y b)
  | node _ a y b, nil => p.fill (node c a y b)
  | node lc ll lx lr, node rc rl rx rr =>
    let (k, kc, child, f) := popMin rc rl rx rr
    let hole := f (.right c (node lc ll lx lr) k p)
    match child with
    | node _ a y b => hole.fill (node .black a y b)
    | nil => if kc = .black then hole.eraseFixup nil else hole.fill nil

theorem toList_eraseAt (c : Color) (l r : RbTree α) :
    (eraseAt p c l r).toList = p.before ++ (l.toList ++ r.toList) ++ p.after := by
  fun_cases eraseAt p c l r with
  | case1 => simp [toList_eraseFixup]
  | case2 => simp [toList_fill]
  | case3 => simp [toList_fill]
  | case4 => simp [toList_fill]
  | case5 lc ll lx lr rc rl rx rr k kc f hole cc a y b hk =>
    have h := popMin_spec rc rl rx rr (.right c (node lc ll lx lr) k p)
    simp only [hk] at h
    simp_all [toList_fill, before, after, hole]
  | case6 lc ll lx lr rc rl rx rr k f hole hk =>
    have h := popMin_spec rc rl rx rr (.right c (node lc ll lx lr) k p)
    simp only [hk] at h
    simp_all [toList_eraseFixup, before, after, hole]
  | case7 lc ll lx lr rc rl rx rr k kc f hole hk =>
    have h := popMin_spec rc rl rx rr (.right c (node lc ll lx lr) k p)
    simp_all [toList_fill, before, after, hole]

variable [DecidableEq α]

/-- The place of an element: the path to its node, the node's colour and children. -/
def locate (x : α) : RbTree α → Path α → Option (Path α × Color × RbTree α × RbTree α)
  | nil, _ => none
  | node c l y r, p =>
    if x = y then some (p, c, l, r)
    else (locate x l (.left c y r p)).or (locate x r (.right c l y p))

/-- `rb_erase_augmented`. A tree that does not hold the element is left as it is. -/
def erase (x : α) (t : RbTree α) : RbTree α :=
  match locate x t .root with
  | none => t
  | some (p, c, l, r) => eraseAt p c l r

theorem locate_eq_none {p : Path α} (h : locate x t p = none) : x ∉ t.toList := by
  induction t generalizing p with
  | nil => simp
  | node c l y r ihl ihr =>
    rw [locate] at h
    split at h
    · simp at h
    · next hxy =>
      obtain ⟨hl, hr⟩ := Option.or_eq_none_iff.1 h
      simp [ihl hl, ihr hr, hxy]

/-- The located node splits the elements of the tree and of the path above it. -/
theorem locate_eq_some {p p' : Path α} {c : Color} {l r : RbTree α}
    (h : locate x t p = some (p', c, l, r)) :
    p.before ++ t.toList ++ p.after = p'.before ++ (l.toList ++ x :: r.toList) ++ p'.after := by
  induction t generalizing p with
  | nil => simp [locate] at h
  | node c l y r ihl ihr =>
    rw [locate] at h
    split at h
    · next hxy =>
      subst hxy
      cases h
      simp
    · rcases Option.or_eq_some_iff.1 h with hl | ⟨-, hr⟩
      · rw [← ihl hl]
        simp [before, after]
      · rw [← ihr hr]
        simp [before, after]

/-- Erasure removes the element and keeps the order of the others. -/
theorem toList_erase (ht : t.toList.Nodup) : (t.erase x).toList = t.toList.erase x := by
  unfold erase
  split
  · next h => rw [List.erase_of_not_mem (locate_eq_none h)]
  · next p c l r h =>
    have hl := locate_eq_some h
    simp only [before_root, List.nil_append, after_root, List.append_nil] at hl
    rw [hl] at ht
    have hx : x ∉ p.before ++ l.toList := by
      intro hmem
      rw [List.nodup_append] at ht
      grind
    rw [toList_eraseAt, hl, show p.before ++ (l.toList ++ x :: r.toList) ++ p.after
        = (p.before ++ l.toList) ++ x :: (r.toList ++ p.after) by simp,
      List.erase_append_right _ hx, List.erase_cons_head]
    simp

/-- Erasing a contiguous part of the elements one after the other. -/
theorem toList_foldl_erase {l₁ xs l₂ : List α} (ht : t.toList = l₁ ++ (xs ++ l₂))
    (hn : t.toList.Nodup) : (xs.foldl (fun t x => t.erase x) t).toList = l₁ ++ l₂ := by
  induction xs generalizing t with
  | nil => simpa using ht
  | cons x xs ih =>
    have hx : x ∉ l₁ := by
      rw [ht] at hn
      exact fun hx => (List.nodup_append.1 hn).2.2 x hx x (by simp) rfl
    have he : (t.erase x).toList = l₁ ++ (xs ++ l₂) := by
      rw [toList_erase hn, ht, List.erase_append_right _ hx, List.cons_append, List.erase_cons_head]
    rw [List.foldl_cons]
    refine ih he ?_
    rw [toList_erase hn]
    exact hn.erase x

end RbTree

/-! ### Searches by a monotone predicate

Along a sorted tree the predicate `p` is false up to some place and true from there on. -/

namespace RbTree

/-- The first element with `p`: go left from an element with `p`, remembering it, and right from
one without. `stop` ends the search early. -/
def findFrom (p stop : α → Bool) : RbTree α → Option α → Option α
  | nil, best => best
  | node _ l x r, best =>
    if p x then if stop x then some x else l.findFrom p stop (some x)
    else r.findFrom p stop best

/-- The search agrees with the search of the list, provided `p` is monotone and `stop` only holds
of an element that nothing with `p` precedes. -/
theorem findFrom_eq {p stop : α → Bool}
    (hp : t.toList.Pairwise fun a b => (p a → p b) ∧ (stop b → ¬ p a)) (best : Option α) :
    t.findFrom p stop best = (t.toList.find? p).or best := by
  induction t generalizing best with
  | nil => simp [findFrom]
  | node c l x r ihl ihr =>
    simp only [toList_node, List.pairwise_append, List.pairwise_cons] at hp
    obtain ⟨hl, ⟨hxr, hr⟩, hlx⟩ := hp
    have hl' : ∀ a ∈ l.toList, (p a → p x) ∧ (stop x → ¬ p a) := fun a ha =>
      hlx a ha x List.mem_cons_self
    rw [findFrom, toList_node, List.find?_append, List.find?_cons]
    by_cases hpx : p x
    · simp only [hpx, if_true]
      split
      · next hs =>
        have : l.toList.find? p = none :=
          List.find?_eq_none.2 fun a ha => (hl' a ha).2 hs
        simp [this]
      · rw [ihl hl]
        simp
    · have : l.toList.find? p = none :=
        List.find?_eq_none.2 fun a ha hpa => hpx ((hl' a ha).1 hpa)
      simp [hpx, this, ihr hr]

/-- Descend to the hole where an element belongs that comes after everything without `p` and before
everything with it, remembering the last element without `p`. An element with `p` and `bad` ends
the descent in failure. -/
def descend (p bad : α → Bool) : RbTree α → Path α → Option α → Option (Path α × Option α)
  | nil, path, prev => some (path, prev)
  | node c l x r, path, prev =>
    if p x then if bad x then none else l.descend p bad (.left c x r path) prev
    else r.descend p bad (.right c l x path) (some x)

theorem descend_eq_none {p bad : α → Bool} {path : Path α} {prev : Option α}
    (h : t.descend p bad path prev = none) : ∃ x ∈ t.toList, p x ∧ bad x := by
  induction t generalizing path prev with
  | nil => simp [descend] at h
  | node c l x r ihl ihr =>
    rw [descend] at h
    split at h
    · next hpx =>
      split at h
      · next hb => exact ⟨x, by simp, hpx, hb⟩
      · obtain ⟨y, hy, hy'⟩ := ihl h
        exact ⟨y, by simp [hy], hy'⟩
    · obtain ⟨y, hy, hy'⟩ := ihr h
      exact ⟨y, by simp [hy], hy'⟩

theorem takeWhile_append_cons_of_neg {q : α → Bool} (hx : ¬ q x) (l r : List α) :
    (l ++ x :: r).takeWhile q = l.takeWhile q := by
  induction l with
  | nil => simp [hx]
  | cons a l ih => by_cases ha : q a <;> simp [ha, ih]

theorem dropWhile_append_cons_of_neg {q : α → Bool} (hx : ¬ q x) (l r : List α) :
    (l ++ x :: r).dropWhile q = l.dropWhile q ++ x :: r := by
  induction l with
  | nil => simp [hx]
  | cons a l ih => by_cases ha : q a <;> simp [ha, ih]

/-- A successful descent meets no bad element and stops at the place of the new one. -/
theorem descend_eq_some {p bad : α → Bool} {path path' : Path α} {prev prev' : Option α}
    (hp : t.toList.Pairwise fun a b => (p a → p b) ∧ (p b ∧ bad b → p a → bad a))
    (h : t.descend p bad path prev = some (path', prev')) :
    path'.before = path.before ++ t.toList.takeWhile (fun x => !p x)
      ∧ path'.after = t.toList.dropWhile (fun x => !p x) ++ path.after
      ∧ prev' = ((t.toList.takeWhile fun x => !p x).getLast?).or prev
      ∧ ∀ x ∈ t.toList, p x → ¬ bad x := by
  induction t generalizing path prev with
  | nil =>
    cases h
    simp
  | node c l x r ihl ihr =>
    simp only [toList_node, List.pairwise_append, List.pairwise_cons] at hp
    obtain ⟨hl, ⟨hxr, hr⟩, hlx⟩ := hp
    have hl' : ∀ a ∈ l.toList, (p a → p x) ∧ (p x ∧ bad x → p a → bad a) := fun a ha =>
      hlx a ha x List.mem_cons_self
    rw [descend] at h
    split at h
    · next hpx =>
      split at h
      · simp at h
      · next hb =>
        obtain ⟨hbef, haft, hprev, hbad⟩ := ihl hl h
        have hx : ¬ (!p x) := by simp [hpx]
        rw [toList_node, takeWhile_append_cons_of_neg (q := fun x => !p x) hx,
          dropWhile_append_cons_of_neg (q := fun x => !p x) hx]
        refine ⟨hbef, by simp [haft, after], hprev, fun y hy hpy => ?_⟩
        rcases List.mem_append.1 hy with hy | hy
        · exact hbad y hy hpy
        · rcases List.mem_cons.1 hy with rfl | hy
          · exact hb
          · exact fun hby => hb ((hxr y hy).2 ⟨hpy, hby⟩ hpx)
    · next hpx =>
      obtain ⟨hbef, haft, hprev, hbad⟩ := ihr hr h
      have hx : (!p x) := by simp [hpx]
      have hneg : ∀ a ∈ l.toList, (!p a) := fun a ha => by
        simpa using fun hpa => hpx ((hl' a ha).1 hpa)
      rw [toList_node, List.takeWhile_append_of_pos hneg, List.dropWhile_append_of_pos hneg,
        List.takeWhile_cons_of_pos (p := fun x => !p x) hx,
        List.dropWhile_cons_of_pos (p := fun x => !p x) hx]
      refine ⟨by simp [hbef, before], haft, ?_, fun y hy hpy => ?_⟩
      · rw [hprev, List.getLast?_append, List.getLast?_cons]
        cases (r.toList.takeWhile fun x => !p x).getLast? <;> simp
      · rcases List.mem_append.1 hy with hy | hy
        · exact absurd hpy (by simpa using hneg y hy)
        · rcases List.mem_cons.1 hy with rfl | hy
          · exact absurd hpy hpx
          · exact hbad y hy hpy

end RbTree

end MinimalKernel.Lib
