import MinimalKernel.Lib.RbTree

/-!
# Red-black trees with a cached maximum

Every node of the tree keeps, next to its element, a number that is meant to be the largest size in
its subtree. The number is repaired after each edit: a rotation gives the number of the old top to
the new one and computes that of the old top anew, and after a change at a node the numbers are
computed upwards from there, until one of them does not change (`Path.propagate`).

A new node comes with a number that means nothing. Until it is repaired, the numbers of the other
nodes are right for the sizes in which the new element counts for nothing, and `AugmentedBut`
exempts the new node. The rotations of the insertion never read the number of the new node.

## Main definitions

* `RbTree.cachedMax`, `subtreeMax` — the number at the root, and the number that a node should have
* `RbTree.Augmented`, `RbTree.AugmentedBut`, `Path.Augmented` — the numbers are right
* `Path.insertFixupMax`, `RbTree.eraseMax`, `RbTree.propagateFrom` — the operations

## Main results

* `augmented_insert` — insertion of a node and propagation from it
* `augmented_eraseMax` — erasure
* `augmented_propagateFrom` — propagation from an element whose size has changed
-/

namespace MinimalKernel.Lib

variable {α : Type*} {size' : α → ℕ} {x : α × ℕ} {c : Color} {y : α}

namespace RbTree

/-- The elements without their numbers. -/
def keys (t : RbTree (α × ℕ)) : List α := t.toList.map Prod.fst

/-- The number at the root. -/
def cachedMax : RbTree (α × ℕ) → ℕ
  | nil => 0
  | node _ _ x _ => x.2

variable {c : Color} {l r t : RbTree (α × ℕ)} {x : α × ℕ}

@[simp] theorem keys_nil : (nil : RbTree (α × ℕ)).keys = [] := rfl

@[simp] theorem keys_node : (node c l x r).keys = l.keys ++ x.1 :: r.keys := by
  simp [keys]

@[simp] theorem keys_blacken : t.blacken.keys = t.keys := by
  simp [keys]

end RbTree

open Function RbTree

variable (size : α → ℕ) (l : RbTree (α × ℕ))

/-- The number that a node with these children should have. -/
def subtreeMax (x : α) (r : RbTree (α × ℕ)) : ℕ :=
  max (size x) (max l.cachedMax r.cachedMax)

/-- The element with the right number. -/
def renew (x : α × ℕ) (r : RbTree (α × ℕ)) : α × ℕ :=
  (x.1, subtreeMax size l x.1 r)

@[simp] theorem renew_fst (x : α × ℕ) (r : RbTree (α × ℕ)) :
    (renew size l x r).1 = x.1 := rfl

namespace Path

/-- The elements left of the hole, without their numbers. -/
def keysBefore (p : Path (α × ℕ)) : List α := p.before.map Prod.fst

/-- The elements right of the hole, without their numbers. -/
def keysAfter (p : Path (α × ℕ)) : List α := p.after.map Prod.fst

section Keys

variable (c : Color) (l : RbTree (α × ℕ)) (x : α × ℕ) (r : RbTree (α × ℕ)) (up : Path (α × ℕ))

@[simp] theorem keysBefore_root : (root : Path (α × ℕ)).keysBefore = [] := rfl

@[simp] theorem keysAfter_root : (root : Path (α × ℕ)).keysAfter = [] := rfl

@[simp] theorem keysBefore_left : (left c x r up).keysBefore = up.keysBefore := rfl

@[simp] theorem keysAfter_left : (left c x r up).keysAfter = x.1 :: (r.keys ++ up.keysAfter) := by
  simp [keysAfter, after, RbTree.keys]

@[simp] theorem keysBefore_right :
    (right c l x up).keysBefore = up.keysBefore ++ (l.keys ++ [x.1]) := by
  simp [keysBefore, before, RbTree.keys]

@[simp] theorem keysAfter_right : (right c l x up).keysAfter = up.keysAfter := rfl

theorem keys_fill (p : Path (α × ℕ)) (t : RbTree (α × ℕ)) :
    (p.fill t).keys = p.keysBefore ++ t.keys ++ p.keysAfter := by
  simp [RbTree.keys, keysBefore, keysAfter, toList_fill]

end Keys

/-- The numbers are computed from the hole upwards, where the subtree in the hole has the number
`v`; a number that does not change ends the computation. -/
def propagate (v : ℕ) : Path (α × ℕ) → Path (α × ℕ)
  | root => root
  | left c x r up =>
    let m := max (size x.1) (max v r.cachedMax)
    if m = x.2 then left c x r up else left c (x.1, m) r (propagate m up)
  | right c l x up =>
    let m := max (size x.1) (max l.cachedMax v)
    if m = x.2 then right c l x up else right c l (x.1, m) (propagate m up)

/-- `Path.insertFixup` with the callback of the rotations. -/
def insertFixupMax : Path (α × ℕ) → RbTree (α × ℕ) → α × ℕ → RbTree (α × ℕ) → RbTree (α × ℕ)
  | root, l, x, r => node .black l x r
  | left .black p s up, l, x, r => up.fill (node .black (node .red l x r) p s)
  | right .black s p up, l, x, r => up.fill (node .black s p (node .red l x r))
  | left .red p s root, l, x, r => node .red (node .red l x r) p s
  | right .red s p root, l, x, r => node .red s p (node .red l x r)
  | left .red p s (left _ g (node .red ul u ur) up), l, x, r =>
    up.insertFixupMax (node .black (node .red l x r) p s) g (node .black ul u ur)
  | right .red s p (left _ g (node .red ul u ur) up), l, x, r =>
    up.insertFixupMax (node .black s p (node .red l x r)) g (node .black ul u ur)
  | left .red p s (right _ (node .red ul u ur) g up), l, x, r =>
    up.insertFixupMax (node .black ul u ur) g (node .black (node .red l x r) p s)
  | right .red s p (right _ (node .red ul u ur) g up), l, x, r =>
    up.insertFixupMax (node .black ul u ur) g (node .black s p (node .red l x r))
  | left .red p s (left gc g u up), l, x, r =>
    up.fill (node gc (node .red l x r) (p.1, g.2) (node .red s.blacken (renew size s g u) u))
  | right .red s p (left gc g u up), l, x, r =>
    up.fill (node gc (node .red s (renew size s p l) l.blacken) (x.1, g.2)
      (node .red r.blacken (renew size r g u) u))
  | left .red p s (right gc u g up), l, x, r =>
    up.fill (node gc (node .red u (renew size u g l) l.blacken) (x.1, g.2)
      (node .red r.blacken (renew size r p s) s))
  | right .red s p (right gc u g up), l, x, r =>
    up.fill (node gc (node .red u (renew size u g s) s.blacken) (p.1, g.2) (node .red l x r))

/-- `Path.eraseStepLeft` with the callback of the rotations, where the sibling is black. -/
def blackSiblingLeft (pc : Color) (t : RbTree (α × ℕ)) (p : α × ℕ) (sl : RbTree (α × ℕ))
    (sx : α × ℕ) (sr : RbTree (α × ℕ)) : RbTree (α × ℕ) × Bool :=
  if sr.IsBlack then
    match sl with
    | node .red a y b =>
      (node pc (node .black t (renew size t p a) a) (y.1, p.2)
        (node .black b.blacken (renew size b sx sr) sr), false)
    | sl => (node .black t p (node .red sl sx sr), pc == .black)
  else (node pc (node .black t (renew size t p sl) sl) (sx.1, p.2) sr.blacken, false)

/-- `Path.eraseStepLeft` with the callback of the rotations. -/
def eraseStepLeftMax (pc : Color) (t : RbTree (α × ℕ)) (p : α × ℕ) :
    RbTree (α × ℕ) → RbTree (α × ℕ) × Bool
  | nil => (node pc t p nil, false)
  | node .red nil sx sr => (node pc t p (node .red nil sx sr), false)
  | node .red (node sc a s b) sx sr =>
    -- a red sibling is rotated up first, so the parent is red and the repair ends here
    let parent := blackSiblingLeft size .red t (renew size t p (node sc a s b)) a s b
    (node pc parent.1 (sx.1, p.2) sr, false)
  | node .black sl sx sr => blackSiblingLeft size pc t p sl sx sr

/-- The mirror image of `blackSiblingLeft`. -/
def blackSiblingRight (pc : Color) (p : α × ℕ) (t : RbTree (α × ℕ)) (sl : RbTree (α × ℕ))
    (sx : α × ℕ) (sr : RbTree (α × ℕ)) : RbTree (α × ℕ) × Bool :=
  if sl.IsBlack then
    match sr with
    | node .red a y b =>
      (node pc (node .black sl (renew size sl sx a) a.blacken) (y.1, p.2)
        (node .black b (renew size b p t) t), false)
    | sr => (node .black (node .red sl sx sr) p t, pc == .black)
  else (node pc sl.blacken (sx.1, p.2) (node .black sr (renew size sr p t) t), false)

/-- The mirror image of `eraseStepLeftMax`. -/
def eraseStepRightMax (pc : Color) (p : α × ℕ) (t : RbTree (α × ℕ)) :
    RbTree (α × ℕ) → RbTree (α × ℕ) × Bool
  | nil => (node pc nil p t, false)
  | node .red sl sx nil => (node pc (node .red sl sx nil) p t, false)
  | node .red sl sx (node sc a s b) =>
    let parent := blackSiblingRight size .red (renew size (node sc a s b) p t) t a s b
    (node pc sl (sx.1, p.2) parent.1, false)
  | node .black sl sx sr => blackSiblingRight size pc p t sl sx sr

/-- `Path.eraseFixup` with the callback of the rotations. -/
def eraseFixupMax : Path (α × ℕ) → RbTree (α × ℕ) → RbTree (α × ℕ)
  | root, t => t
  | left pc p s up, t =>
    let (t', more) := eraseStepLeftMax size pc t p s
    if more then up.eraseFixupMax t' else up.fill t'
  | right pc s p up, t =>
    let (t', more) := eraseStepRightMax size pc p t s
    if more then up.eraseFixupMax t' else up.fill t'

/-- One path on top of another. -/
def append : Path α → Path α → Path α
  | root, q => q
  | left c x r up, q => left c x r (up.append q)
  | right c l x up, q => right c l x (up.append q)

end Path

open Path

namespace RbTree

/-- `__rb_erase_augmented` and the repair after it, for a node with the number `m`: the successor of
the node takes its place and its number, and the numbers are computed again from where a node has
left the tree. -/
def eraseAtMax (p : Path (α × ℕ)) (c : Color) (m : ℕ) :
    RbTree (α × ℕ) → RbTree (α × ℕ) → RbTree (α × ℕ)
  | nil, nil =>
    if c = .black then (p.propagate size 0).eraseFixupMax size nil
    else (p.propagate size 0).fill nil
  | nil, node _ a y b => (p.propagate size y.2).fill (node c a y b)
  | node _ a y b, nil => (p.propagate size y.2).fill (node c a y b)
  | node lc ll lx lr, node rc rl rx rr =>
    let (k, kc, child, f) := popMin rc rl rx rr
    let below := (f .root).propagate size child.cachedMax
    let m' := subtreeMax size (node lc ll lx lr) k.1 (below.fill child)
    let above := if m' = m then p else p.propagate size m'
    let hole := below.append (.right c (node lc ll lx lr) (k.1, m') above)
    match child with
    | node _ a y b => hole.fill (node .black a y b)
    | nil => if kc = .black then hole.eraseFixupMax size nil else hole.fill nil

variable [DecidableEq α]

/-- The place of an element: the path to its node, and the node. -/
def locateKey (x : α) :
    RbTree (α × ℕ) → Path (α × ℕ) →
      Option (Path (α × ℕ) × Color × RbTree (α × ℕ) × ℕ × RbTree (α × ℕ))
  | nil, _ => none
  | node c l y r, p =>
    if x = y.1 then some (p, c, l, y.2, r)
    else (locateKey x l (.left c y r p)).or (locateKey x r (.right c l y p))

/-- `rb_erase_augmented`. -/
def eraseMax (x : α) (t : RbTree (α × ℕ)) : RbTree (α × ℕ) :=
  match locateKey x t .root with
  | none => t
  | some (p, c, l, m, r) => eraseAtMax size p c m l r

/-- The number at an element is set. -/
def setMax (x : α) (m : ℕ) : RbTree (α × ℕ) → RbTree (α × ℕ)
  | nil => nil
  | node c l y r =>
    if x = y.1 then node c l (x, m) r else node c (l.setMax x m) y (r.setMax x m)

/-- The callback `propagate`, from the node of an element up to the root. -/
def propagateFrom (x : α) (t : RbTree (α × ℕ)) : RbTree (α × ℕ) :=
  match locateKey x t .root with
  | none => t
  | some (p, c, l, m, r) =>
    let m' := subtreeMax size l x r
    if m' = m then t else (p.propagate size m').fill (node c l (x, m') r)

end RbTree

/-! ### The order of the elements -/

section Order

namespace Path

@[simp] theorem keysBefore_propagate (p : Path (α × ℕ)) (v : ℕ) :
    (p.propagate size v).keysBefore = p.keysBefore := by
  induction p generalizing v with
  | root => rfl
  | left c x r up ih | right c l x up ih =>
    rw [propagate]
    split <;> simp [ih]

@[simp] theorem keysAfter_propagate (p : Path (α × ℕ)) (v : ℕ) :
    (p.propagate size v).keysAfter = p.keysAfter := by
  induction p generalizing v with
  | root => rfl
  | left c x r up ih | right c l x up ih =>
    rw [propagate]
    split <;> simp [ih]

variable {l r t s sl sr : RbTree (α × ℕ)} {p x sx : α × ℕ} {pc : Color} (up : Path (α × ℕ))

theorem keys_insertFixupMax : (up.insertFixupMax size l x r).keys =
    up.keysBefore ++ (l.keys ++ x.1 :: r.keys) ++ up.keysAfter := by
  fun_induction insertFixupMax size up l x r <;> simp_all [keys_fill, renew]

theorem keys_blackSiblingLeft : (blackSiblingLeft size pc t p sl sx sr).1.keys =
    t.keys ++ p.1 :: (sl.keys ++ sx.1 :: sr.keys) := by
  fun_cases blackSiblingLeft size pc t p sl sx sr <;> simp_all [renew]

theorem keys_eraseStepLeftMax :
    (eraseStepLeftMax size pc t p s).1.keys = t.keys ++ p.1 :: s.keys := by
  fun_cases eraseStepLeftMax size pc t p s with
  | case3 sc a s b sx sr parent => simp [parent, keys_blackSiblingLeft, renew]
  | case4 => simp [keys_blackSiblingLeft]
  | _ => simp

theorem keys_blackSiblingRight : (blackSiblingRight size pc p t sl sx sr).1.keys =
    sl.keys ++ sx.1 :: (sr.keys ++ p.1 :: t.keys) := by
  fun_cases blackSiblingRight size pc p t sl sx sr <;> simp_all [renew]

theorem keys_eraseStepRightMax :
    (eraseStepRightMax size pc p t s).1.keys = s.keys ++ p.1 :: t.keys := by
  fun_cases eraseStepRightMax size pc p t s with
  | case3 sl sx sc a s b parent => simp [parent, keys_blackSiblingRight, renew]
  | case4 => simp [keys_blackSiblingRight]
  | _ => simp

theorem keys_eraseFixupMax :
    (up.eraseFixupMax size t).keys = up.keysBefore ++ t.keys ++ up.keysAfter := by
  induction up generalizing t with
  | root => simp [eraseFixupMax]
  | left pc p s up ih =>
    simp only [eraseFixupMax]
    split <;> simp [ih, keys_fill, keys_eraseStepLeftMax]
  | right pc s p up ih =>
    simp only [eraseFixupMax]
    split <;> simp [ih, keys_fill, keys_eraseStepRightMax]

@[simp] theorem keysBefore_append (p q : Path (α × ℕ)) :
    (p.append q).keysBefore = q.keysBefore ++ p.keysBefore := by
  induction p with
  | root => simp [append]
  | left c x r up ih | right c l x up ih => simp [append, ih]

@[simp] theorem keysAfter_append (p q : Path (α × ℕ)) :
    (p.append q).keysAfter = p.keysAfter ++ q.keysAfter := by
  induction p with
  | root => simp [append]
  | left c x r up ih | right c l x up ih => simp [append, ih]

end Path

namespace RbTree

theorem keys_popMin {kc : Color} {l r child : RbTree (α × ℕ)} {k : α × ℕ}
    {f : Path (α × ℕ) → Path (α × ℕ)} (h : popMin c l x r = (k, kc, child, f)) :
    l.keys ++ x.1 :: r.keys = k.1 :: child.keys ++ (f .root).keysAfter ∧
      (f .root).keysBefore = [] := by
  have hs := popMin_spec c l x r .root
  simp only [h] at hs
  refine ⟨?_, by simp [keysBefore, hs.2]⟩
  simpa [keys, keysAfter] using congrArg (List.map Prod.fst) hs.1

theorem keys_eraseAtMax (p : Path (α × ℕ)) (c : Color) (m : ℕ) (l r : RbTree (α × ℕ)) :
    (eraseAtMax size p c m l r).keys = p.keysBefore ++ (l.keys ++ r.keys) ++ p.keysAfter := by
  have habove : ∀ m', (if m' = m then p else p.propagate size m').keysBefore = p.keysBefore ∧
      (if m' = m then p else p.propagate size m').keysAfter = p.keysAfter := by
    intro m'
    split <;> simp
  fun_cases eraseAtMax size p c m l r with
  | case1 => simp [keys_eraseFixupMax]
  | case2 => simp [keys_fill]
  | case3 => simp [keys_fill]
  | case4 => simp [keys_fill]
  | case5 lc ll lx lr rc rl rx rr k kc f cc a y b hk below m' above hole =>
    have h := keys_popMin hk
    simp_all [keys_fill, hole, above, below]
  | case6 lc ll lx lr rc rl rx rr k f below m' above hole hk =>
    have h := keys_popMin hk
    simp_all [keys_eraseFixupMax, hole, above, below]
  | case7 lc ll lx lr rc rl rx rr k kc f hne hk below m' above hole =>
    have h := keys_popMin hk
    simp_all [keys_fill, hole, above, below]

end RbTree

end Order

/-! ### The numbers -/

section Numbers

namespace RbTree

/-- The largest size in a tree. -/
def largest : RbTree (α × ℕ) → ℕ
  | nil => 0
  | node _ l x r => max (size x.1) (max (l.largest) (r.largest))

/-- The number at every node that is not exempt is the largest size in its subtree. -/
def AugmentedBut (exempt : α → Prop) : RbTree (α × ℕ) → Prop
  | nil => True
  | node c l x r => l.AugmentedBut exempt ∧ r.AugmentedBut exempt ∧
      (¬ exempt x.1 → x.2 = (node c l x r).largest size)

/-- The number at every node is the largest size in its subtree. -/
def Augmented (t : RbTree (α × ℕ)) : Prop := t.AugmentedBut size fun _ => False

variable {size} {exempt : α → Prop} {c : Color} {l r t : RbTree (α × ℕ)} {x : α × ℕ}

@[simp] theorem largest_nil : (nil : RbTree (α × ℕ)).largest size = 0 := rfl

@[simp] theorem largest_node :
    (node c l x r).largest size = max (size x.1) (max (l.largest size) (r.largest size)) := rfl

@[simp] theorem largest_blacken : t.blacken.largest size = t.largest size := by
  cases t <;> rfl

@[simp] theorem augmentedBut_node : (node c l x r).AugmentedBut size exempt ↔
    l.AugmentedBut size exempt ∧ r.AugmentedBut size exempt ∧
      (¬ exempt x.1 → x.2 = max (size x.1) (max (l.largest size) (r.largest size))) := Iff.rfl

@[simp] theorem augmentedBut_blacken :
    t.blacken.AugmentedBut size exempt ↔ t.AugmentedBut size exempt := by
  cases t <;> rfl

@[simp] theorem augmented_node : (node c l x r).Augmented size ↔
    l.Augmented size ∧ r.Augmented size ∧
      x.2 = max (size x.1) (max (l.largest size) (r.largest size)) := by
  simp [Augmented]

@[simp] theorem augmented_blacken : t.blacken.Augmented size ↔ t.Augmented size :=
  augmentedBut_blacken

theorem Augmented.but (h : t.Augmented size) : t.AugmentedBut size exempt := by
  induction t with
  | nil => trivial
  | node c l x r ihl ihr =>
    obtain ⟨hl, hr, hx⟩ := augmented_node.1 h
    exact ⟨ihl hl, ihr hr, fun _ => hx⟩

theorem Augmented.cachedMax_eq (h : t.Augmented size) : t.cachedMax = t.largest size := by
  cases t with
  | nil => rfl
  | node c l x r => exact (augmented_node.1 h).2.2

theorem le_largest (size : α → ℕ) (hy : y ∈ t.keys) : size y ≤ t.largest size := by
  induction t with
  | nil => simp at hy
  | node c l x r ihl ihr =>
    simp only [keys_node, List.mem_append, List.mem_cons] at hy
    rw [largest_node]
    rcases hy with hy | rfl | hy
    · have := ihl hy
      omega
    · omega
    · have := ihr hy
      omega

theorem largest_congr (h : ∀ y ∈ t.keys, size y = size' y) : t.largest size = t.largest size' := by
  induction t with
  | nil => rfl
  | node c l x r ihl ihr => simp_all

/-- The sizes of the elements of the tree, and which of them are exempt, are all that matters. -/
theorem AugmentedBut.congr {exempt' : α → Prop} (h : t.AugmentedBut size exempt)
    (hs : ∀ y ∈ t.keys, size y = size' y) (he : ∀ y ∈ t.keys, exempt y → exempt' y) :
    t.AugmentedBut size' exempt' := by
  induction t with
  | nil => trivial
  | node c l x r ihl ihr =>
    obtain ⟨hl, hr, hx⟩ := h
    refine ⟨ihl hl (by simp_all) (by simp_all), ihr hr (by simp_all) (by simp_all), fun hn => ?_⟩
    rw [hx fun hex => hn (he x.1 (by simp) hex), largest_congr hs]

end RbTree

namespace Path

/-- The numbers of a path are right when the largest size in the subtree at the hole is `v`. -/
def Augmented : Path (α × ℕ) → ℕ → Prop
  | root, _ => True
  | left _ x r up, v => r.Augmented size ∧ x.2 = max (size x.1) (max v (r.largest size)) ∧
      up.Augmented x.2
  | right _ l x up, v => l.Augmented size ∧ x.2 = max (size x.1) (max (l.largest size) v) ∧
      up.Augmented x.2

/-- Two size functions agree on the elements that stand on the path itself. -/
def Agree (size' : α → ℕ) : Path (α × ℕ) → Prop
  | root => True
  | left _ x _ up => size x.1 = size' x.1 ∧ up.Agree size'
  | right _ _ x up => size x.1 = size' x.1 ∧ up.Agree size'

variable {size} {exempt : α → Prop} {p q : Path (α × ℕ)} {t : RbTree (α × ℕ)} {v v' : ℕ}

theorem Augmented.fill_but (hp : p.Augmented size v) (hv : t.largest size = v)
    (ht : t.AugmentedBut size exempt) : (p.fill t).AugmentedBut size exempt := by
  subst hv
  induction p generalizing t with
  | root => exact ht
  | left c x r up ih =>
    obtain ⟨hr, hx, hup⟩ := hp
    exact ih ⟨ht, hr.but, fun _ => hx⟩ (by rwa [largest_node, ← hx])
  | right c l x up ih =>
    obtain ⟨hl, hx, hup⟩ := hp
    exact ih ⟨hl.but, ht, fun _ => hx⟩ (by rwa [largest_node, ← hx])

theorem augmentedBut_of_fill (h : (p.fill t).AugmentedBut size exempt)
    (hp : ∀ y ∈ p.keysBefore ++ p.keysAfter, ¬ exempt y) :
    t.AugmentedBut size exempt ∧ p.Augmented size (t.largest size) := by
  induction p generalizing t with
  | root => exact ⟨h, trivial⟩
  | left c x r up ih =>
    obtain ⟨⟨ht, hr, hx⟩, hup⟩ := ih h fun y hy => hp y (by simp at hy ⊢; tauto)
    have hx := hx (hp x.1 (by simp))
    exact ⟨ht, hr.congr (fun _ _ => rfl) (fun y hy => hp y (by simp [hy])), hx, hx ▸ hup⟩
  | right c l x up ih =>
    obtain ⟨⟨hl, ht, hx⟩, hup⟩ := ih h fun y hy => hp y (by simp at hy ⊢; tauto)
    have hx := hx (hp x.1 (by simp))
    exact ⟨ht, hl.congr (fun _ _ => rfl) (fun y hy => hp y (by simp [hy])), hx, hx ▸ hup⟩

/-- Where the size in the hole changes, the propagation makes the path right again. -/
theorem Augmented.propagate (hp : p.Augmented size v) (v' : ℕ) :
    (p.propagate size v').Augmented size v' := by
  induction p generalizing v v' with
  | root => trivial
  | left c x r up ih | right c l x up ih =>
    obtain ⟨hr, hx, hup⟩ := hp
    rw [Path.propagate, hr.cachedMax_eq]
    split
    next hm => exact ⟨hr, hm.symm, hup⟩
    next => exact ⟨hr, rfl, ih hup _⟩

variable {l r : RbTree (α × ℕ)}

theorem Augmented.fill_node {x : α} (hp : p.Augmented size v)
    (hl : l.AugmentedBut size exempt) (hr : r.AugmentedBut size exempt)
    (hv : v = max (size x) (max (l.largest size) (r.largest size))) :
    (p.fill (node c l (x, v) r)).AugmentedBut size exempt :=
  hp.fill_but hv.symm ⟨hl, hr, fun _ => hv⟩

theorem renew_snd (hl : l.cachedMax = l.largest size)
    (hr : r.cachedMax = r.largest size) (hx : size' x.1 = size x.1) :
    (renew size' l x r).2 = max (size x.1) (max (l.largest size) (r.largest size)) := by
  rw [renew, subtreeMax, hl, hr, hx]

/-- A node with the right number; the colours of its children do not matter. -/
theorem augmentedBut_renew {l l' r r' : RbTree (α × ℕ)} (hl : l.AugmentedBut size exempt)
    (hlm : l.cachedMax = l.largest size) (hr : r.AugmentedBut size exempt)
    (hrm : r.cachedMax = r.largest size) (hx : size' x.1 = size x.1) (hl' : l'.blacken = l.blacken)
    (hr' : r'.blacken = r.blacken) :
    (node c l' (renew size' l x r) r').AugmentedBut size exempt := by
  refine ⟨?_, ?_, fun _ => ?_⟩
  · rwa [← augmentedBut_blacken, hl', augmentedBut_blacken]
  · rwa [← augmentedBut_blacken, hr', augmentedBut_blacken]
  · rw [largest_node, ← largest_blacken (t := l'), ← largest_blacken (t := r'), hl', hr',
      largest_blacken, largest_blacken]
    exact renew_snd hlm hrm hx

/-- **The rotations of an insertion keep the numbers right**, and do not read the number of the new
node. -/
theorem Augmented.insertFixupMax
    (hp : p.Augmented size (max (size x.1) (max (l.largest size) (r.largest size))))
    (hl : l.AugmentedBut size exempt) (hlm : l.cachedMax = l.largest size)
    (hr : r.AugmentedBut size exempt) (hrm : r.cachedMax = r.largest size)
    (hx : ¬ exempt x.1 → x.2 = max (size x.1) (max (l.largest size) (r.largest size)))
    (hs : p.Agree size' size) : (p.insertFixupMax size' l x r).AugmentedBut size exempt := by
  fun_induction Path.insertFixupMax size' p l x r with
  | case1 => exact ⟨hl, hr, hx⟩
  | case2 p s up l x r =>
    obtain ⟨hsib, hpar, hup⟩ := hp
    exact hup.fill_but hpar.symm ⟨⟨hl, hr, hx⟩, hsib.but, fun _ => hpar⟩
  | case3 s p up l x r =>
    obtain ⟨hsib, hpar, hup⟩ := hp
    exact hup.fill_but hpar.symm ⟨hsib.but, ⟨hl, hr, hx⟩, fun _ => hpar⟩
  | case4 =>
    obtain ⟨hsib, hpar, -⟩ := hp
    exact ⟨⟨hl, hr, hx⟩, hsib.but, fun _ => hpar⟩
  | case5 =>
    obtain ⟨hsib, hpar, -⟩ := hp
    exact ⟨hsib.but, ⟨hl, hr, hx⟩, fun _ => hpar⟩
  | case6 p s gc g ul u ur up l x r ih =>
    obtain ⟨hsib, hpar, hunc, hgr, hup⟩ := hp
    rw [hpar] at hgr
    exact ih (hgr ▸ hup) ⟨⟨hl, hr, hx⟩, hsib.but, fun _ => hpar⟩ hpar hunc.but hunc.cachedMax_eq
      (fun _ => hgr) hs.2.2
  | case7 s p gc g ul u ur up l x r ih =>
    obtain ⟨hsib, hpar, hunc, hgr, hup⟩ := hp
    rw [hpar] at hgr
    exact ih (hgr ▸ hup) ⟨hsib.but, ⟨hl, hr, hx⟩, fun _ => hpar⟩ hpar hunc.but hunc.cachedMax_eq
      (fun _ => hgr) hs.2.2
  | case8 p s gc ul u ur g up l x r ih =>
    obtain ⟨hsib, hpar, hunc, hgr, hup⟩ := hp
    rw [hpar] at hgr
    exact ih (hgr ▸ hup) hunc.but hunc.cachedMax_eq ⟨⟨hl, hr, hx⟩, hsib.but, fun _ => hpar⟩ hpar
      (fun _ => hgr) hs.2.2
  | case9 s p gc ul u ur g up l x r ih =>
    obtain ⟨hsib, hpar, hunc, hgr, hup⟩ := hp
    rw [hpar] at hgr
    exact ih (hgr ▸ hup) hunc.but hunc.cachedMax_eq ⟨hsib.but, ⟨hl, hr, hx⟩, fun _ => hpar⟩ hpar
      (fun _ => hgr) hs.2.2
  -- the grandparent is rotated down: the top of the subtree keeps the number that it had
  | case10 p s gc g u up l x r =>
    obtain ⟨hsib, hpar, hunc, hgr, hup⟩ := hp
    refine hup.fill_node ⟨hl, hr, hx⟩ (augmentedBut_renew hsib.but hsib.cachedMax_eq hunc.but
      hunc.cachedMax_eq hs.2.1 blacken_blacken rfl) ?_
    rw [hgr, hpar]
    simp only [largest_node, largest_blacken, renew_fst]
    ac_rfl
  | case11 s p gc g u up l x r =>
    obtain ⟨hsib, hpar, hunc, hgr, hup⟩ := hp
    refine hup.fill_node
      (augmentedBut_renew hsib.but hsib.cachedMax_eq hl hlm hs.1 rfl blacken_blacken)
      (augmentedBut_renew hr hrm hunc.but hunc.cachedMax_eq hs.2.1 blacken_blacken rfl) ?_
    rw [hgr, hpar]
    simp only [largest_node, largest_blacken, renew_fst]
    ac_rfl
  | case12 p s gc u g up l x r =>
    obtain ⟨hsib, hpar, hunc, hgr, hup⟩ := hp
    refine hup.fill_node
      (augmentedBut_renew hunc.but hunc.cachedMax_eq hl hlm hs.2.1 rfl blacken_blacken)
      (augmentedBut_renew hr hrm hsib.but hsib.cachedMax_eq hs.1 blacken_blacken rfl) ?_
    rw [hgr, hpar]
    simp only [largest_node, largest_blacken, renew_fst]
    ac_rfl
  | case13 s p gc u g up l x r =>
    obtain ⟨hsib, hpar, hunc, hgr, hup⟩ := hp
    refine hup.fill_node (augmentedBut_renew hunc.but hunc.cachedMax_eq hsib.but hsib.cachedMax_eq
      hs.2.1 rfl blacken_blacken) ⟨hl, hr, hx⟩ ?_
    rw [hgr, hpar]
    simp only [largest_node, largest_blacken, renew_fst]
    ac_rfl

section EraseStep

variable {c : Color} {l r t sl sr s : RbTree (α × ℕ)} {p x sx : α × ℕ}

theorem augmented_renew {l' r' : RbTree (α × ℕ)} (hl : l.Augmented size) (hr : r.Augmented size)
    (hl' : l'.blacken = l.blacken) (hr' : r'.blacken = r.blacken) :
    (node c l' (renew size l x r) r').Augmented size :=
  augmentedBut_renew hl hl.cachedMax_eq hr hr.cachedMax_eq rfl hl' hr'

/-- The top of a subtree after a rotation. -/
theorem augmented_top {n : ℕ} (hl : l.Augmented size) (hr : r.Augmented size)
    (hn : n = max (size y) (max (l.largest size) (r.largest size))) :
    (node c l (y, n) r).Augmented size ∧ (node c l (y, n) r).largest size = n :=
  ⟨augmented_node.2 ⟨hl, hr, hn⟩, hn.symm⟩

section

variable (ht : t.Augmented size)
include ht

/-- A step of the repair after an erasure keeps the numbers right, and the top of the subtree has
the number of the old top. -/
theorem augmented_blackSiblingLeft (hl : sl.Augmented size) (hr : sr.Augmented size)
    (hp : p.2 = max (size p.1) (max (t.largest size) ((node .black sl sx sr).largest size)))
    (hsx : sx.2 = max (size sx.1) (max (sl.largest size) (sr.largest size))) :
    (blackSiblingLeft size c t p sl sx sr).1.Augmented size ∧
      (blackSiblingLeft size c t p sl sx sr).1.largest size = p.2 := by
  fun_cases blackSiblingLeft size c t p sl sx sr with
  | case1 hb a y b =>
    obtain ⟨ha, hb, hy⟩ := augmented_node.1 hl
    refine augmented_top (augmented_renew ht ha rfl rfl)
      (augmented_renew hb hr blacken_blacken rfl) ?_
    rw [hp]
    simp only [largest_node, largest_blacken, renew_fst]
    ac_rfl
  | case2 => exact augmented_top ht (augmented_node.2 ⟨hl, hr, hsx⟩) hp
  | case3 =>
    refine augmented_top (augmented_renew ht hl rfl rfl) (augmented_blacken.2 hr) ?_
    rw [hp]
    simp only [largest_node, largest_blacken, renew_fst]
    ac_rfl

theorem augmented_blackSiblingRight (hl : sl.Augmented size) (hr : sr.Augmented size)
    (hp : p.2 = max (size p.1) (max ((node .black sl sx sr).largest size) (t.largest size)))
    (hsx : sx.2 = max (size sx.1) (max (sl.largest size) (sr.largest size))) :
    (blackSiblingRight size c p t sl sx sr).1.Augmented size ∧
      (blackSiblingRight size c p t sl sx sr).1.largest size = p.2 := by
  fun_cases blackSiblingRight size c p t sl sx sr with
  | case1 hb a y b =>
    obtain ⟨ha, hb, hy⟩ := augmented_node.1 hr
    refine augmented_top (augmented_renew hl ha rfl blacken_blacken)
      (augmented_renew hb ht rfl rfl) ?_
    rw [hp]
    simp only [largest_node, largest_blacken, renew_fst]
    ac_rfl
  | case2 => exact augmented_top (augmented_node.2 ⟨hl, hr, hsx⟩) ht hp
  | case3 =>
    refine augmented_top (augmented_blacken.2 hl) (augmented_renew hr ht rfl rfl) ?_
    rw [hp]
    simp only [largest_node, largest_blacken, renew_fst]
    ac_rfl

theorem augmented_eraseStepLeftMax (hs : s.Augmented size)
    (hp : p.2 = max (size p.1) (max (t.largest size) (s.largest size))) :
    (eraseStepLeftMax size c t p s).1.Augmented size ∧
      (eraseStepLeftMax size c t p s).1.largest size = p.2 := by
  fun_cases eraseStepLeftMax size c t p s with
  | case1 | case2 => exact augmented_top ht hs hp
  | case3 sc a s b sx sr parent =>
    obtain ⟨hn, hr, hsx⟩ := augmented_node.1 hs
    obtain ⟨ha, hb, hs⟩ := augmented_node.1 hn
    have hnew := renew_snd (x := p) ht.cachedMax_eq hn.cachedMax_eq rfl
    obtain ⟨hpar, hpl⟩ := augmented_blackSiblingLeft (c := .red)
      (p := renew size t p (node sc a s b)) ht ha hb hnew hs
    refine augmented_top hpar hr ?_
    simp only [hp, show parent.1.largest size = _ from hpl.trans hnew, largest_node]
    ac_rfl
  | case4 sl sx sr =>
    obtain ⟨hl, hr, hsx⟩ := augmented_node.1 hs
    exact augmented_blackSiblingLeft ht hl hr hp hsx

theorem augmented_eraseStepRightMax (hs : s.Augmented size)
    (hp : p.2 = max (size p.1) (max (s.largest size) (t.largest size))) :
    (eraseStepRightMax size c p t s).1.Augmented size ∧
      (eraseStepRightMax size c p t s).1.largest size = p.2 := by
  fun_cases eraseStepRightMax size c p t s with
  | case1 | case2 => exact augmented_top hs ht hp
  | case3 sl sx sc a s b parent =>
    obtain ⟨hl, hn, hsx⟩ := augmented_node.1 hs
    obtain ⟨ha, hb, hs⟩ := augmented_node.1 hn
    have hnew := renew_snd (x := p) hn.cachedMax_eq ht.cachedMax_eq rfl
    obtain ⟨hpar, hpl⟩ := augmented_blackSiblingRight (c := .red)
      (p := renew size (node sc a s b) p t) ht ha hb hnew hs
    refine augmented_top hl hpar ?_
    simp only [hp, show parent.1.largest size = _ from hpl.trans hnew, largest_node]
    ac_rfl
  | case4 sl sx sr =>
    obtain ⟨hl, hr, hsx⟩ := augmented_node.1 hs
    exact augmented_blackSiblingRight ht hl hr hp hsx

end

end EraseStep

theorem Augmented.eraseFixupMax (hp : p.Augmented size (t.largest size)) (ht : t.Augmented size) :
    (p.eraseFixupMax size t).Augmented size := by
  induction p generalizing t with
  | root => exact ht
  | left c x s up ih =>
    obtain ⟨hs, hx, hup⟩ := hp
    obtain ⟨haug, htop⟩ := augmented_eraseStepLeftMax (c := c) ht hs hx
    simp only [Path.eraseFixupMax]
    split
    · exact ih (htop ▸ hup) haug
    · exact hup.fill_but htop haug
  | right c s x up ih =>
    obtain ⟨hs, hx, hup⟩ := hp
    obtain ⟨haug, htop⟩ := augmented_eraseStepRightMax (c := c) ht hs hx
    simp only [Path.eraseFixupMax]
    split
    · exact ih (htop ▸ hup) haug
    · exact hup.fill_but htop haug

theorem Augmented.append (hp : p.Augmented size (t.largest size))
    (hq : q.Augmented size ((p.fill t).largest size)) :
    (p.append q).Augmented size (t.largest size) := by
  induction p generalizing t with
  | root => exact hq
  | left c x r up ih =>
    obtain ⟨hr, hx, hup⟩ := hp
    have h := ih (t := node c t x r) (by rwa [largest_node, ← hx]) hq
    exact ⟨hr, hx, by rwa [largest_node, ← hx] at h⟩
  | right c l x up ih =>
    obtain ⟨hl, hx, hup⟩ := hp
    have h := ih (t := node c l x t) (by rwa [largest_node, ← hx]) hq
    exact ⟨hl, hx, by rwa [largest_node, ← hx] at h⟩

end Path

namespace RbTree

variable {size} {p : Path (α × ℕ)} {c kc : Color} {l r child : RbTree (α × ℕ)} {x k : α × ℕ}
  {f : Path (α × ℕ) → Path (α × ℕ)} {m v : ℕ}

theorem augmented_popMin (h : popMin c l x r = (k, kc, child, f)) (up : Path (α × ℕ))
    (ht : (node c l x r).Augmented size) (hup : up.Augmented size x.2) :
    child.Augmented size ∧ ∃ v, (f up).Augmented size v := by
  fun_induction popMin c l x r generalizing up k kc child f with
  | case1 c x r =>
    obtain ⟨rfl, rfl, rfl, rfl⟩ := h
    exact ⟨(augmented_node.1 ht).2.1, _, hup⟩
  | case2 c lc ll lx lr x r k' kc' child' f' hk ih =>
    obtain ⟨rfl, rfl, rfl, rfl⟩ := h
    obtain ⟨hl, hr, hx⟩ := augmented_node.1 ht
    rw [← hl.cachedMax_eq] at hx
    exact ih hk (.left c x r up) hl ⟨hr, hx, hup⟩

/-- The path to the child of the successor, after the successor has taken the place of the erased
node. -/
theorem augmented_hole (pc : Color) (hk : popMin c l x r = (k, kc, child, f))
    (ht : (node c l x r).Augmented size) (hp : p.Augmented size m) {left : RbTree (α × ℕ)}
    (hleft : left.Augmented size) : let below := (f .root).propagate size child.cachedMax
    let m' := subtreeMax size left k.1 (below.fill child)
    let above := if m' = m then p else p.propagate size m'
    (below.append (.right pc left (k.1, m') above)).Augmented size (child.largest size) := by
  intro below m' above
  obtain ⟨hchild, v, hf⟩ := augmented_popMin hk .root ht trivial
  have hbelow : below.Augmented size (child.largest size) :=
    hchild.cachedMax_eq ▸ hf.propagate child.cachedMax
  have hm : m' = max (size k.1) (max (left.largest size) ((below.fill child).largest size)) := by
    have hfill : (below.fill child).Augmented size := hbelow.fill_but rfl hchild
    rw [← hleft.cachedMax_eq, ← hfill.cachedMax_eq]
    rfl
  have habove : above.Augmented size m' := by
    by_cases h : m' = m
    · simpa [above, h] using hp
    · simpa [above, h] using hp.propagate m'
  exact hbelow.append ⟨hleft, hm, habove⟩

/-- **An erasure keeps the numbers right.** -/
theorem augmented_eraseAtMax (hp : p.Augmented size m) (hl : l.Augmented size)
    (hr : r.Augmented size) : (eraseAtMax size p c m l r).Augmented size := by
  fun_cases eraseAtMax size p c m l r with
  | case1 => exact (hp.propagate 0).eraseFixupMax trivial
  | case2 => exact (hp.propagate 0).fill_but rfl trivial
  | case3 cc a y b => exact (hp.propagate y.2).fill_but hr.cachedMax_eq.symm hr
  | case4 cc a y b => exact (hp.propagate y.2).fill_but hl.cachedMax_eq.symm hl
  | case5 lc ll lx lr rc rl rx rr k kc f cc a y b hk below m' above hole =>
    have hhole := augmented_hole c hk hr hp hl
    have hchild := (augmented_popMin hk .root hr trivial).1
    exact hhole.fill_but rfl hchild
  | case6 lc ll lx lr rc rl rx rr k f below m' above hole hk =>
    have hhole := augmented_hole c hk hr hp hl
    exact hhole.eraseFixupMax trivial
  | case7 lc ll lx lr rc rl rx rr k kc f hne hk below m' above hole =>
    have hhole := augmented_hole c hk hr hp hl
    exact hhole.fill_but rfl trivial

end RbTree

end Numbers

/-! ### Operations at an element -/

section Elements

namespace Path

variable {size} {p : Path (α × ℕ)} {v : ℕ}

theorem Augmented.congr (hp : p.Augmented size v)
    (hs : ∀ y ∈ p.keysBefore ++ p.keysAfter, size y = size' y) : p.Augmented size' v := by
  induction p generalizing v with
  | root => trivial
  | left c x sib up ih | right c sib x up ih =>
    obtain ⟨hsib, hx, hup⟩ := hp
    have hs' : ∀ y ∈ sib.keys, size y = size' y := fun y hy => hs y (by simp [hy])
    refine ⟨AugmentedBut.congr hsib hs' fun _ _ h => h, ?_, ih hup fun y hy => hs y ?_⟩
    · rw [hx, hs x.1 (by simp), largest_congr hs']
    · simp at hy ⊢
      tauto

theorem agree_of_keys (hs : ∀ y ∈ p.keysBefore ++ p.keysAfter, size y = size' y) :
    p.Agree size size' := by
  induction p with
  | root => trivial
  | left c x r up ih | right c l x up ih =>
    refine ⟨hs x.1 (by simp), ih fun y hy => hs y ?_⟩
    simp at hy ⊢
    tauto

end Path

namespace RbTree

variable [DecidableEq α] {size} {x : α} {t l r : RbTree (α × ℕ)} {p p' : Path (α × ℕ)} {c : Color}
  {m : ℕ}

theorem locateKey_eq_none (h : locateKey x t p = none) : x ∉ t.keys := by
  induction t generalizing p with
  | nil => simp
  | node c l y r ihl ihr =>
    rw [locateKey] at h
    split at h
    · simp at h
    · next hxy =>
      obtain ⟨hl, hr⟩ := Option.or_eq_none_iff.1 h
      simp [ihl hl, ihr hr, hxy]

theorem fill_locateKey (h : locateKey x t p = some (p', c, l, m, r)) :
    p'.fill (node c l (x, m) r) = p.fill t := by
  induction t generalizing p with
  | nil => simp [locateKey] at h
  | node c l y r ihl ihr =>
    rw [locateKey] at h
    split at h
    · next hxy =>
      subst hxy
      cases h
      rfl
    · rcases Option.or_eq_some_iff.1 h with hl | ⟨-, hr⟩
      · exact ihl hl
      · exact ihr hr

section

variable (h : locateKey x t .root = some (p, c, l, m, r))
include h

theorem keys_locateKey : t.keys = (p.keysBefore ++ l.keys) ++ x :: (r.keys ++ p.keysAfter) := by
  have hk := congrArg keys (fill_locateKey h)
  simpa [keys_fill] using hk.symm

/-- An element that stands only once stands at its place and nowhere else. -/
theorem ne_of_locateKey (hn : t.keys.Nodup)
    (hy : y ∈ p.keysBefore ++ p.keysAfter ∨ y ∈ l.keys ∨ y ∈ r.keys) : y ∈ t.keys ∧ y ≠ x := by
  rw [keys_locateKey h] at hn ⊢
  refine ⟨by simp at hy ⊢; tauto, ?_⟩
  rintro rfl
  rw [List.nodup_middle, List.nodup_cons] at hn
  exact hn.1 (by simp at hy ⊢; tauto)

end

theorem keys_eraseMax (hn : t.keys.Nodup) : (t.eraseMax size x).keys = t.keys.erase x := by
  unfold eraseMax
  split
  · next h => rw [List.erase_of_not_mem (locateKey_eq_none h)]
  · next p c l m r h =>
    have hx : x ∉ p.keysBefore ++ l.keys := fun hx =>
      (ne_of_locateKey h hn (by simp at hx ⊢; tauto)).2 rfl
    rw [keys_eraseAtMax, keys_locateKey h, List.erase_append_right _ hx, List.erase_cons_head]
    simp

@[simp] theorem keys_setMax (v : ℕ) : (t.setMax x v).keys = t.keys := by
  induction t with
  | nil => rfl
  | node c l y r ihl ihr =>
    rw [setMax]
    split
    · next hxy => simp [hxy]
    · simp [ihl, ihr]

@[simp] theorem keys_propagateFrom : (t.propagateFrom size x).keys = t.keys := by
  unfold propagateFrom
  split
  · rfl
  · next p c l m r h =>
    simp only
    split
    · rfl
    · simp [keys_fill, keys_locateKey h]

/-- The parts of a tree around the place of an element, where the sizes may be other ones there. -/
theorem augmented_of_locateKey {exempt : α → Prop} (h : locateKey x t .root = some (p, c, l, m, r))
    (hn : t.keys.Nodup) (ht : t.AugmentedBut size exempt) (he : ∀ y, exempt y → y = x)
    (hs : ∀ y ∈ t.keys, y ≠ x → size y = size' y) :
    l.Augmented size' ∧ r.Augmented size' ∧
      p.Augmented size' (max (size x) (max (l.largest size') (r.largest size'))) ∧
      (¬ exempt x → m = max (size x) (max (l.largest size') (r.largest size'))) := by
  have hne {y : α} (hy : y ∈ p.keysBefore ++ p.keysAfter ∨ y ∈ l.keys ∨ y ∈ r.keys) :=
    ne_of_locateKey h hn hy
  have hsz {y : α} (hy : y ∈ p.keysBefore ++ p.keysAfter ∨ y ∈ l.keys ∨ y ∈ r.keys) :
      size y = size' y := hs y (hne hy).1 (hne hy).2
  rw [show t = p.fill (node c l (x, m) r) from (fill_locateKey h).symm] at ht
  obtain ⟨⟨hl, hr, hx⟩, hp⟩ := augmentedBut_of_fill ht fun y hy hex => (hne (.inl hy)).2 (he y hex)
  rw [← largest_congr fun y hy => hsz (.inr (.inl hy)),
    ← largest_congr fun y hy => hsz (.inr (.inr hy))]
  exact ⟨hl.congr (fun y hy => hsz (.inr (.inl hy)))
      fun y hy hex => (hne (.inr (.inl hy))).2 (he y hex),
    hr.congr (fun y hy => hsz (.inr (.inr hy)))
      fun y hy hex => (hne (.inr (.inr hy))).2 (he y hex),
    hp.congr fun y hy => hsz (.inl hy), hx⟩

/-- **Erasure keeps the numbers right**, and does not read the size of the erased element. -/
theorem augmented_eraseMax (ht : t.Augmented size) (hn : t.keys.Nodup)
    (hs : ∀ y ∈ t.keys, y ≠ x → size y = size' y) : (t.eraseMax size' x).Augmented size' := by
  unfold eraseMax
  split
  · next h =>
    have hx := locateKey_eq_none h
    exact AugmentedBut.congr ht (fun y hy => hs y hy fun hxy => hx (hxy ▸ hy)) fun _ _ h => h
  · next p c l m r h =>
    obtain ⟨hl, hr, hp, hm⟩ := augmented_of_locateKey h hn ht (fun _ h => h.elim) hs
    rw [← hm id] at hp
    exact augmented_eraseAtMax hp hl hr

omit [DecidableEq α] in
/-- Propagation from an element, where the numbers above it are right for the size `v` of its
subtree: it ends at once only if that is still the size. -/
theorem augmented_propagate_node {v : ℕ} (hl : l.Augmented size) (hr : r.Augmented size)
    (hp : p.Augmented size v) (hv : subtreeMax size l x r = m → v = m) :
    ((if subtreeMax size l x r = m then p else p.propagate size (subtreeMax size l x r)).fill
      (node c l (x, subtreeMax size l x r) r)).Augmented size := by
  have hnode : subtreeMax size l x r = max (size x) (max (l.largest size) (r.largest size)) := by
    rw [subtreeMax, hl.cachedMax_eq, hr.cachedMax_eq]
  refine Path.Augmented.fill_but (v := subtreeMax size l x r) ?_ hnode.symm ⟨hl, hr, fun _ => hnode⟩
  split
  · next hm => rwa [hm, ← hv hm]
  · exact hp.propagate _

theorem propagateFrom_eq (h : locateKey x t .root = some (p, c, l, m, r)) :
    t.propagateFrom size x =
      (if subtreeMax size l x r = m then p else p.propagate size (subtreeMax size l x r)).fill
        (node c l (x, subtreeMax size l x r) r) := by
  simp only [propagateFrom, h]
  split
  · next hm => rw [hm, fill_locateKey h]; rfl
  · rfl

/-- **Propagation from the only element whose size has changed makes the numbers right.** -/
theorem augmented_propagateFrom (ht : t.Augmented size) (hn : t.keys.Nodup)
    (hs : ∀ y ∈ t.keys, y ≠ x → size y = size' y) : (t.propagateFrom size' x).Augmented size' := by
  cases h : locateKey x t .root with
  | none =>
    have hx := locateKey_eq_none h
    rw [propagateFrom, h]
    exact AugmentedBut.congr ht (fun y hy => hs y hy fun hxy => hx (hxy ▸ hy)) fun _ _ h => h
  | some place =>
    obtain ⟨p, c, l, m, r⟩ := place
    obtain ⟨hl, hr, hp, hm⟩ := augmented_of_locateKey h hn ht (fun _ h => h.elim) hs
    rw [propagateFrom_eq h]
    exact augmented_propagate_node hl hr hp fun _ => (hm id).symm

theorem largest_setMax (v : ℕ) : (t.setMax x v).largest size = t.largest size := by
  induction t with
  | nil => rfl
  | node c l y r ihl ihr =>
    rw [setMax]
    split
    · next hxy => simp [hxy]
    · simp [ihl, ihr]

theorem AugmentedBut.setMax (ht : t.AugmentedBut size (· = x)) (v : ℕ) :
    (t.setMax x v).AugmentedBut size (· = x) := by
  induction t with
  | nil => trivial
  | node c l y r ihl ihr =>
    obtain ⟨hl, hr, hy⟩ := ht
    rw [RbTree.setMax]
    split
    · next hxy => exact ⟨hl, hr, fun h => (h rfl).elim⟩
    · exact ⟨ihl hl, ihr hr, by simpa [largest_setMax] using hy⟩

theorem locateKey_setMax {v : ℕ} (h : locateKey x (t.setMax x v) p = some (p', c, l, m, r)) :
    m = v := by
  induction t generalizing p with
  | nil => simp [setMax, locateKey] at h
  | node c l y r ihl ihr =>
    rw [setMax] at h
    split at h
    · next hxy =>
      simp only [locateKey, if_true] at h
      cases h
      rfl
    · next hxy =>
      rw [locateKey, if_neg hxy] at h
      rcases Option.or_eq_some_iff.1 h with hl | ⟨-, hr⟩
      · exact ihl hl
      · exact ihr hr

/-- **Insertion of a new element and propagation from it**: the number that the new node comes with
does not matter. -/
theorem augmented_insert (hp : (p.fill nil).Augmented size) (j : ℕ)
    (hn : (p.keysBefore ++ x :: p.keysAfter).Nodup) :
    (((p.insertFixupMax size nil (x, j) nil).setMax x 0).propagateFrom size x).Augmented size := by
  have hx : ∀ y ∈ p.keysBefore ++ p.keysAfter, y ≠ x := by
    rintro y hy rfl
    rw [List.nodup_middle, List.nodup_cons] at hn
    exact hn.1 hy
  -- as long as the new element counts for nothing, all numbers but its own are right
  let size₀ := update size x 0
  have hs : ∀ y, y ≠ x → size₀ y = size y := fun y hy => update_of_ne hy _ _
  have hx₀ : size₀ x = 0 := update_self ..
  have hp₀ : p.Augmented size₀ 0 :=
    (augmentedBut_of_fill hp fun _ _ h => h).2.congr fun y hy => (hs y (hx y hy)).symm
  have hins : (p.insertFixupMax size nil (x, j) nil).AugmentedBut size₀ (· = x) :=
    Path.Augmented.insertFixupMax (by simpa [hx₀] using hp₀) trivial rfl trivial rfl
      (fun h => (h rfl).elim) (agree_of_keys fun y hy => (hs y (hx y hy)).symm)
  have hk : ((p.insertFixupMax size nil (x, j) nil).setMax x 0).keys =
      p.keysBefore ++ x :: p.keysAfter := by
    simp [keys_insertFixupMax]
  cases h : locateKey x ((p.insertFixupMax size nil (x, j) nil).setMax x 0) .root with
  | none => exact absurd (by simp [hk]) (locateKey_eq_none h)
  | some place =>
    obtain ⟨q, c, l, m, r⟩ := place
    obtain ⟨hl, hr, hq, -⟩ := augmented_of_locateKey h (hk ▸ hn) (hins.setMax 0) (fun _ h => h)
      fun y _ hy => hs y hy
    rw [propagateFrom_eq h]
    refine augmented_propagate_node hl hr hq fun hm => ?_
    rw [locateKey_setMax h] at hm ⊢
    rw [subtreeMax, hl.cachedMax_eq, hr.cachedMax_eq] at hm
    rw [hx₀]
    omega

end RbTree

end Elements

end MinimalKernel.Lib
