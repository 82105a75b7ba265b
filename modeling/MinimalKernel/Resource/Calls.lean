import MinimalKernel.Resource.Forest
import Mathlib.Data.List.Pairwise

/-!
# What the calls do to the forest

For each call on a forest of resources: the call returns, when it succeeds the pointers form a
forest again, and when it fails the memory is what it was. Whether it succeeds depends only on the
resources that overlap with the new one.

`insert_resource` and `__request_region` go down as long as a child is in the way and contains the
new resource. Since siblings are disjoint there is one such child at most, and what is in the way of
the new resource is below it (`ForestOk.allowed_iff`). So the answer can be given for all that is
below the parent at once.

## Main definitions

* `Fits`, `Overlaps`, `Contains` — two ranges
* `Allowed` — nothing is in the way of a new resource
* `Nested`, `Passable` — what is not in the way of `insert_resource` and `__request_region`

## Main results

* `ForestOk.request`, `ForestOk.insert`, `ForestOk.requestRegion`, `ForestOk.release`,
  `ForestOk.releaseRegion` — the calls
-/

namespace MinimalKernel.Resource

open Function Lib List Relation ResourceMem

variable {m m' : ResourceMem} {live : ℕ → Bool} {kids : ℕ → List ℕ} {root new r c p t x : ℕ}
  {l l₁ l₂ : List ℕ} {q : Option ℕ} {first : ℕ}

/-! ### Ranges -/

/-- The range of `new` is not empty and inside of that of `r`. -/
def Fits (m : ResourceMem) (r new : ℕ) : Prop :=
  m.start r ≤ m.start new ∧ m.start new ≤ m.stop new ∧ m.stop new ≤ m.stop r

def Overlaps (m : ResourceMem) (a b : ℕ) : Prop := m.start a ≤ m.stop b ∧ m.start b ≤ m.stop a

/-- The range of `b` is inside of that of `a`. -/
def Contains (m : ResourceMem) (a b : ℕ) : Prop := m.start a ≤ m.start b ∧ m.stop b ≤ m.stop a

/-- `new` fits into `root`, and everything below `root` that overlaps with it is as `Q` says. -/
def Allowed (m : ResourceMem) (kids : ℕ → List ℕ) (Q : ℕ → Prop) (root new : ℕ) : Prop :=
  Fits m root new ∧ ∀ c ∈ kids root, ∀ t, Below kids c t → Overlaps m t new → Q t

namespace ForestOk

section

variable (h : ForestOk m live kids)
include h

theorem disjoint (hx : x ∈ kids r) (hc : c ∈ kids r) (hne : x ≠ c) : ¬Overlaps m x c := by
  have hsorted : (kids r).Pairwise fun a b => m.stop a < m.start b ∨ m.stop b < m.start a :=
    (h.sorted r).imp Or.inl
  have : Std.Symm fun a b => m.stop a < m.start b ∨ m.stop b < m.start a := ⟨fun _ _ => Or.symm⟩
  have := hsorted.forall hx hc hne
  rintro ⟨h₁, h₂⟩
  omega

/-- What lies before or behind `new` is not in its way, nor is what is below. -/
theorem not_overlaps (hk : kids root = l₁ ++ l₂)
    (h₁ : ∀ c ∈ l₁, m.stop c < m.start new) (h₂ : ∀ c ∈ l₂, m.stop new < m.start c)
    (hc : c ∈ kids root) (ht : Below kids c t) : ¬Overlaps m t new := by
  have hrange := h.range_of_below ht
  rintro ⟨hov₁, hov₂⟩
  rw [hk] at hc
  rcases mem_append.1 hc with hc | hc
  · have := h₁ c hc
    omega
  · have := h₂ c hc
    omega

/-- Whether `new` may be put below `root` is decided in the child that contains it. -/
theorem allowed_iff {Q : ℕ → Prop} (hc : c ∈ kids root)
    (hfits : Fits m root new) (hcont : Contains m c new) (hQ : Q c) :
    Allowed m kids Q root new ↔ Allowed m kids Q c new := by
  constructor
  · rintro ⟨-, hall⟩
    refine ⟨⟨hcont.1, hfits.2.1, hcont.2⟩, fun x hx t ht => hall c hc t ?_⟩
    exact ReflTransGen.head hx ht
  · rintro ⟨-, hall⟩
    refine ⟨hfits, fun x hx t ht hov => ?_⟩
    have hrange := h.range_of_below ht
    obtain rfl : x = c := by
      by_contra hne
      refine h.disjoint hx hc hne ?_
      obtain ⟨-, hne', -⟩ := hfits
      obtain ⟨h₁, h₂⟩ := hov
      obtain ⟨h₃, h₄⟩ := hcont
      exact ⟨by omega, by omega⟩
    rcases ReflTransGen.cases_head ht with rfl | ⟨y, hy, hyt⟩
    · exact hQ
    · exact hall y hy t hyt hov

end

end ForestOk

theorem not_below (hempty : kids new = []) (hne : new ≠ p) : ¬Below kids new p := by
  intro hb
  rcases ReflTransGen.cases_head hb with he | ⟨y, hy, -⟩
  · exact hne he
  · rw [hempty] at hy
    cases hy

/-- In `m'` the pointers form trees again, and a resource that no caller can name has kept its
children. -/
def Stays (live : ℕ → Bool) (m m' : ResourceMem) : Prop :=
  ∃ kids, ForestOk m' live kids ∧ ∀ r, live r = false → m'.child r = m.child r

theorem write_child_of_ne (hne : r ≠ p) : (m.write (slotAfter p l) q).child r = m.child r := by
  rcases eq_nil_or_concat l with rfl | ⟨k, c, rfl⟩
  · exact update_of_ne hne ..
  · rw [concat_eq_append, slotAfter_concat]
    rfl

/-! ### `__request_resource` -/

/-- The loop passes what lies before `new`, and stops at the first resource behind it, or at one
that overlaps with it. -/
theorem requestLoop_spec (hseg : Segment m.sibling (m.read (slotAfter root l₁)) l₂ none)
    (hsorted : l₂.Pairwise fun a b => m.stop a < m.start b) (hne : ∀ c ∈ l₂, m.start c ≤ m.stop c) :
    (∃ a b, l₂ = a ++ b ∧ (∀ c ∈ a, m.stop c < m.start new) ∧ (∀ c ∈ b, m.stop new < m.start c) ∧
      Returns (m.requestLoop root new · (slotAfter root l₁))
        (m.link root new (slotAfter root (l₁ ++ a)), none)) ∨
    (∃ a c b, l₂ = a ++ c :: b ∧ (∀ x ∈ a, m.stop x < m.start new) ∧ Overlaps m c new ∧
      Returns (m.requestLoop root new · (slotAfter root l₁)) (m, some c)) := by
  induction l₂ generalizing l₁ with
  | nil =>
    refine .inl ⟨[], [], rfl, nofun, nofun, .of_add 1 fun n => ?_⟩
    have hread : m.read (slotAfter root l₁) = none := hseg
    simp only [requestLoop, hread, append_nil]
  | cons x l ih =>
    obtain ⟨hread, hrest⟩ := hseg
    obtain ⟨hx, hsorted⟩ := pairwise_cons.1 hsorted
    have hxne := hne x mem_cons_self
    by_cases hafter : m.stop new < m.start x
    · refine .inl ⟨[], x :: l, rfl, nofun, forall_mem_cons.2 ⟨hafter, fun c hc => ?_⟩,
        .of_add 1 fun n => ?_⟩
      · have := hx c hc
        omega
      · simp only [requestLoop, hread, if_pos hafter, append_nil]
    · by_cases hbefore : m.stop x < m.start new
      · have hslot : slotAfter root (l₁ ++ [x]) = .sibling x := slotAfter_concat
        have hstep : ∀ n, m.requestLoop root new (n + 1) (slotAfter root l₁) =
            m.requestLoop root new n (slotAfter root (l₁ ++ [x])) := fun n => by
          simp only [requestLoop, hread, if_neg hafter, if_pos hbefore, hslot]
        have hpre : ∀ {a : List ℕ}, (∀ c ∈ a, m.stop c < m.start new) →
            ∀ c ∈ x :: a, m.stop c < m.start new := fun ha => forall_mem_cons.2 ⟨hbefore, ha⟩
        rcases @ih (l₁ ++ [x]) (by rw [hslot]; exact hrest) hsorted
            fun c hc => hne c (mem_cons_of_mem x hc) with
          ⟨a, b, rfl, ha, hb, hret⟩ | ⟨a, c, b, rfl, ha, hc, hret⟩
        · refine .inl ⟨x :: a, b, rfl, hpre ha, hb, .round ?_ hstep⟩
          simpa only [append_assoc, singleton_append] using hret
        · exact .inr ⟨x :: a, c, b, rfl, hpre ha, hc, hret.round hstep⟩
      · refine .inr
          ⟨[], x, l, rfl, nofun, ⟨not_lt.1 hafter, not_lt.1 hbefore⟩, .of_add 1 fun n => ?_⟩
        simp only [requestLoop, hread, if_neg hafter, if_neg hbefore]

theorem requestResourceConflict_of_fits (h : Fits m root new) (fuel : ℕ) :
    m.requestResourceConflict root new fuel = m.requestLoop root new fuel (.child root) := by
  obtain ⟨h₁, h₂, h₃⟩ := h
  rw [requestResourceConflict, if_neg (not_lt.2 h₂), if_neg (not_lt.2 h₁), if_neg (not_lt.2 h₃)]

theorem requestResourceConflict_of_not_fits (h : ¬Fits m root new) (fuel : ℕ) :
    m.requestResourceConflict root new fuel = .ok (m, some root) := by
  simp only [requestResourceConflict]
  split
  · rfl
  · split
    · rfl
    · split
      · rfl
      · exact absurd ⟨by omega, by omega, by omega⟩ h

/-- What `__request_resource` returns. -/
theorem ForestOk.request_spec (h : ForestOk m live kids) (hroot : live root) (new : ℕ) :
    (Fits m root new ∧ ∃ l₁ l₂, kids root = l₁ ++ l₂ ∧ (∀ c ∈ l₁, m.stop c < m.start new) ∧
      (∀ c ∈ l₂, m.stop new < m.start c) ∧ Returns (m.requestResourceConflict root new)
        (m.link root new (slotAfter root l₁), none)) ∨
    (Fits m root new ∧ ∃ l₁ c l₂, kids root = l₁ ++ c :: l₂ ∧ (∀ x ∈ l₁, m.stop x < m.start new) ∧
      Overlaps m c new ∧ Returns (m.requestResourceConflict root new) (m, some c)) ∨
    (¬Fits m root new ∧ Returns (m.requestResourceConflict root new) (m, some root)) := by
  by_cases hfits : Fits m root new
  · rw [funext (requestResourceConflict_of_fits hfits)]
    have hseg : Segment m.sibling (m.read (slotAfter root [])) (kids root) none := h.list root hroot
    rcases requestLoop_spec hseg (h.sorted root) (fun c hc => (h.range root c hc).2.1) with
      ⟨a, b, hk, ha, hb, hret⟩ | ⟨a, c, b, hk, ha, hc, hret⟩
    · exact .inl ⟨hfits, a, b, hk, ha, hb, hret⟩
    · exact .inr (.inl ⟨hfits, a, c, b, hk, ha, hc, hret⟩)
  · exact .inr (.inr ⟨hfits, .of_add 0 (requestResourceConflict_of_not_fits hfits)⟩)

section

variable (h : ForestOk m live kids) (hlive : live new) (hnew : ∀ p, new ∉ kids p)
include h hlive hnew

theorem ForestOk.stays_link (hk : kids root = l₁ ++ l₂) (hroot : live root)
    (hbelow : ¬Below kids new root) (hfits : Fits m root new)
    (h₁ : ∀ c ∈ l₁, m.stop c < m.start new) (h₂ : ∀ c ∈ l₂, m.stop new < m.start c) :
    Stays live m (m.link root new (slotAfter root l₁)) :=
  ⟨_, h.link hk hroot hnew hlive hbelow hfits h₁ h₂,
    fun _ hr => write_child_of_ne (m := m.setSibling new _) (ne_of_dead hr hroot)⟩

/-- **`request_resource`** links `new` exactly when it fits into `root` and overlaps with none of
its children. -/
theorem ForestOk.request (hroot : live root) (hbelow : ¬Below kids new root) :
    ∃ m' o, Returns (m.requestResourceConflict root new) (m', o) ∧
      (o = none ↔ Fits m root new ∧ ∀ c ∈ kids root, ¬Overlaps m c new) ∧
      (o = none → Stays live m m') ∧ (o ≠ none → m' = m) := by
  rcases h.request_spec hroot new with ⟨hfits, l₁, l₂, hk, h₁, h₂, hret⟩ |
    ⟨hfits, l₁, c, l₂, hk, h₁, hov, hret⟩ | ⟨hfits, hret⟩
  · exact ⟨_, _, hret,
      ⟨fun _ => ⟨hfits, fun c hc => h.not_overlaps hk h₁ h₂ hc .refl⟩, fun _ => rfl⟩,
      fun _ => h.stays_link hlive hnew hk hroot hbelow hfits h₁ h₂, fun hne => absurd rfl hne⟩
  · refine ⟨_, _, hret, ⟨nofun, fun hno => ?_⟩, nofun, fun _ => rfl⟩
    exact absurd hov (hno.2 c (by simp [hk]))
  · exact ⟨_, _, hret, ⟨nofun, fun hno => absurd hno.1 hfits⟩, nofun, fun _ => rfl⟩

end

/-! ### `__insert_resource` -/

/-- The loop over the siblings from `x` on ends behind the last one that overlaps with `new`, or at
one that is not covered. -/
theorem coverLoop_spec (hseg : Segment m.sibling (m.sibling x) l none)
    (hsorted : (x :: l).Pairwise fun a b => m.stop a < m.start b)
    (hne : ∀ c ∈ x :: l, m.start c ≤ m.stop c) (hov : Overlaps m x new) :
    (∃ k y b, x :: l = k ++ [y] ++ b ∧ (∀ c ∈ k ++ [y], Contains m new c) ∧
      (∀ c ∈ b, m.stop new < m.start c) ∧ Returns (m.coverLoop new · x) (.ok y)) ∨
    (∃ y ∈ x :: l, Overlaps m y new ∧ ¬Contains m new y ∧
      Returns (m.coverLoop new · x) (.error y)) := by
  have hstop : ∀ {x}, (m.start x < m.start new ∨ m.stop new < m.stop x) →
      ¬Contains m new x ∧ Returns (m.coverLoop new · x) (.error x) := by
    refine fun hcover => ⟨fun ⟨h₁, h₂⟩ => ?_, .of_add 1 fun n => ?_⟩
    · omega
    · simp only [coverLoop, if_pos hcover]
  induction l generalizing x with
  | nil =>
    have hnext : m.sibling x = none := hseg
    by_cases hcover : m.start x < m.start new ∨ m.stop new < m.stop x
    · exact .inr ⟨x, mem_cons_self, hov, hstop hcover⟩
    · refine .inl ⟨[], x, [], rfl, forall_mem_singleton.2 ⟨by omega, by omega⟩, nofun,
        .of_add 1 fun n => ?_⟩
      simp only [coverLoop, if_neg hcover, hnext]
  | cons z l ih =>
    obtain ⟨hnext, hrest⟩ := hseg
    obtain ⟨hx, hsorted⟩ := pairwise_cons.1 hsorted
    have hxne := hne x mem_cons_self
    have hzne := hne z (by simp)
    have hxz := hx z mem_cons_self
    by_cases hcover : m.start x < m.start new ∨ m.stop new < m.stop x
    · exact .inr ⟨x, mem_cons_self, hov, hstop hcover⟩
    · have hcont : Contains m new x := ⟨by omega, by omega⟩
      by_cases hafter : m.stop new < m.start z
      · refine .inl ⟨[], x, z :: l, rfl, forall_mem_singleton.2 hcont,
          forall_mem_cons.2 ⟨hafter, fun c hc => ?_⟩, .of_add 1 fun n => ?_⟩
        · have := (pairwise_cons.1 hsorted).1 c hc
          omega
        · simp only [coverLoop, if_neg hcover, hnext, if_pos hafter]
      · have hstep : ∀ n, m.coverLoop new (n + 1) x = m.coverLoop new n z := fun n => by
          simp only [coverLoop, if_neg hcover, hnext, if_neg hafter]
        rcases ih hrest hsorted (fun c hc => hne c (mem_cons_of_mem x hc))
            ⟨not_lt.1 hafter, by omega⟩ with
          ⟨k, y, b, hk, hall, hb, hret⟩ | ⟨y, hy, hyov, hycont, hret⟩
        · exact .inl ⟨x :: k, y, b, congrArg (x :: ·) hk, forall_mem_cons.2 ⟨hcont, hall⟩, hb,
            hret.round hstep⟩
        · exact .inr ⟨y, mem_cons_of_mem x hy, hyov, hycont, hret.round hstep⟩

theorem adoptLoop_returns (hseg : Segment m.sibling q l none) :
    Returns (adoptLoop new · q m) (m.setParents l (some new)) := by
  induction l generalizing q m with
  | nil =>
    obtain rfl : q = none := hseg
    refine .of_add 1 fun n => ?_
    simp [adoptLoop, setParents]
  | cons x l ih =>
    obtain ⟨rfl, hrest⟩ := hseg
    have hret := (ih (m := m.setParent x (some new)) hrest).round
      (f := fun n => adoptLoop new n (some x) m) fun n => rfl
    convert hret using 1
    simp only [setParents, setParent, mem_cons]
    congr 1
    funext c
    by_cases hcl : c ∈ l
    · simp [hcl]
    · rcases eq_or_ne c x with rfl | hne
      · simp [hcl]
      · simp [hcl, hne]

section

variable (hseg : Segment m.sibling q (l ++ [c] ++ first :: l₂) none)
  (hnodup : (l ++ [c] ++ first :: l₂).Nodup)
include hseg hnodup

/-- Nothing before the end of `l ++ [c]` points to `first`. -/
theorem ne_first : q ≠ some first := by
  intro he
  rw [hseg.start_eq] at he
  have hmem : first ∈ l ++ [c] := by
    cases l with
    | nil | cons y l => simp at he; simp [he]
  exact (nodup_append.1 hnodup).2.2 first hmem first mem_cons_self rfl

theorem beforeLoop_returns : Returns (m.beforeLoop first · q) c := by
  induction l generalizing q with
  | nil =>
    obtain ⟨rfl, hfirst, -⟩ := hseg
    refine .of_add 1 fun n => ?_
    simp [beforeLoop, hfirst]
  | cons x l ih =>
    obtain ⟨rfl, hrest⟩ := hseg
    have hnodup' : (l ++ [c] ++ first :: l₂).Nodup := (nodup_cons.1 hnodup).2
    refine (ih hrest hnodup').round fun n => ?_
    simp only [beforeLoop, if_neg (ne_first hrest hnodup')]

end

section Insert

variable (h : ForestOk m live kids) (hlive : live new) (hnew : ∀ p, new ∉ kids p)
include h hlive hnew

/-- The second half of `__insert_resource`. -/
theorem ForestOk.cover_spec (hne : new ≠ p) (hk : kids p = l₁ ++ first :: l₂) (hfits : Fits m p new)
    (h₁ : ∀ c ∈ l₁, m.stop c < m.start new) (hov : Overlaps m first new) :
    ∃ m' o, Returns (m.cover p new first) (m', o) ∧
      (o = none → (∀ c ∈ kids p, Overlaps m c new → Contains m new c) ∧
        Stays live m m') ∧
      (o ≠ none → m' = m ∧ ∃ y ∈ kids p, Overlaps m y new ∧ ¬Contains m new y) := by
  have hlist := h.list p (h.live_parent (c := first) (by simp [hk]))
  have hsorted := h.sorted p
  rw [hk] at hlist hsorted
  obtain ⟨-, -, -, hseg⟩ := Segment.append_iff.1 hlist
  have hrange : ∀ c ∈ first :: l₂, m.start c ≤ m.stop c := fun c hc =>
    (h.range p c (hk ▸ mem_append_right l₁ hc)).2.1
  rcases coverLoop_spec hseg (pairwise_append.1 hsorted).2.1 hrange hov with
    ⟨k, next, b, hsplit, hcov, hb, hret⟩ | ⟨y, hy, hyov, hycont, hret⟩
  · have hk' : kids p = l₁ ++ (k ++ [next]) ++ b := by simp only [hk, hsplit, append_assoc]
    have hfirst : (k ++ [next]).head? = some first := by
      cases k with
      | nil | cons a k => simp at hsplit; simp [hsplit.1]
    obtain ⟨hcovered, hfront⟩ := h.takeOver_lists hk' hfirst hnew
    have hnodup : (l₁ ++ (k ++ [next])).Nodup :=
      (nodup_append.1 (hk' ▸ h.nodup p)).1
    have hp : live p := h.live_parent (c := first) (by simp [hk])
    refine ⟨_, none, ?_, fun _ => ⟨fun c hc hcov' => ?_,
      _, h.cover hk' hfirst hnew hlive hne hfits hcov h₁ hb, fun r hr => ?_⟩,
      fun hno => absurd rfl hno⟩
    · refine hret.bind (.bind (adoptLoop_returns hcovered) ?_)
      have hchild : ((m.takeOver p new first next).setParents (k ++ [next]) (some new)).child p =
          m.child p := update_of_ne hne.symm ..
      simp only [← takeOver.eq_1, hchild]
      rcases eq_nil_or_concat l₁ with rfl | ⟨l, c, rfl⟩
      · refine .of_add 0 fun n => ?_
        rw [if_pos (by rw [hlist.start_eq]; rfl)]
        rfl
      · rw [concat_eq_append] at hnodup hfront ⊢
        obtain ⟨k', hk''⟩ : ∃ k', k ++ [next] = first :: k' := List.head?_eq_some_iff.1 hfirst
        rw [hk''] at hfront hnodup
        simp only [if_neg (ne_first hfront hnodup), slotAfter_concat]
        refine Returns.bind (beforeLoop_returns
          (m := (m.takeOver p new first next).setParents (k ++ [next]) (some new)) hfront hnodup) ?_
        exact .of_add 0 fun _ => rfl
    · rw [hk', mem_append (s := l₁ ++ (k ++ [next])), mem_append (s := l₁)] at hc
      obtain ⟨hc₁, hc₂⟩ := hcov'
      rcases hc with (hc | hc) | hc
      · exact absurd (h₁ c hc) (not_lt.2 hc₂)
      · exact hcov c hc
      · exact absurd (hb c hc) (not_lt.2 hc₁)
    · rw [write_child_of_ne (ne_of_dead hr hp)]
      exact update_of_ne (ne_of_dead hr hlive) ..
  · exact ⟨m, some y, hret.bind (.of_add 0 fun _ => rfl), nofun, fun _ =>
      ⟨rfl, y, hk ▸ mem_append_right l₁ hy, hyov, hycont⟩⟩

/-- The resources that `insert_resource` may meet: they contain `new` or are covered by it. -/
def Nested (m : ResourceMem) (new t : ℕ) : Prop := Contains m t new ∨ Contains m new t

theorem ForestOk.insertLoop_spec (hempty : kids new = []) (parent : ℕ) (hparent : live parent)
    (hne : new ≠ parent) :
    ∃ m' o, ReturnsIn (m.insertLoop new · · parent) (m', o) ∧
      (o = none ↔ Allowed m kids (Nested m new) parent new) ∧
      (o = none → Stays live m m') ∧ (o ≠ none → m' = m) := by
  induction parent using h.wf.induction with
  | h parent ih =>
  have hbelow := not_below hempty hne
  rcases h.request_spec hparent new with ⟨hfits, l₁, l₂, hk, h₁, h₂, N, hret⟩ |
    ⟨hfits, l₁, c, l₂, hk, h₁, hov, N, hret⟩ | ⟨hfits, N, hret⟩
  · refine ⟨_, none, .of_round N fun fuel hfuel n => ?_, ⟨fun _ => ⟨hfits, fun c hc t ht hov =>
      absurd hov (h.not_overlaps hk h₁ h₂ hc ht)⟩, fun _ => rfl⟩, fun _ =>
      h.stays_link hlive hnew hk hparent hbelow hfits h₁ h₂, fun hno => absurd rfl hno⟩
    simp only [insertLoop, hret fuel hfuel]
  · have hc : c ∈ kids parent := by simp [hk]
    have hcp : c ≠ parent := h.ne_parent hc
    have hcn : c ≠ new := fun e => hnew parent (e ▸ hc)
    have hstep : ∀ fuel ≥ N, ∀ n, m.insertLoop new fuel (n + 1) parent =
        if m.start new < m.start c ∨ m.stop c < m.stop new then m.cover parent new c fuel
        else if m.start c = m.start new ∧ m.stop c = m.stop new then m.cover parent new c fuel
        else m.insertLoop new fuel n c := fun fuel hfuel n => by
      simp only [insertLoop, hret fuel hfuel, if_neg hcp, if_neg hcn]
    by_cases hdown : Contains m c new ∧ ¬(m.start c = m.start new ∧ m.stop c = m.stop new)
    · obtain ⟨hcont, hneq⟩ := hdown
      obtain ⟨m', o, hret', hallowed, hok, hfail⟩ := ih c hc (h.live parent c hc) hcn.symm
      refine ⟨m', o, hret'.round N fun fuel hfuel n => ?_, ?_, hok, hfail⟩
      · rw [hstep fuel hfuel, if_neg (by obtain ⟨h₁, h₂⟩ := hcont; omega), if_neg hneq]
      · exact hallowed.trans (h.allowed_iff hc hfits hcont (.inl hcont)).symm
    · obtain ⟨m', o, ⟨N', hret'⟩, hgranted, hfail⟩ :=
        h.cover_spec hlive hnew hne hk hfits h₁ hov
      have hcover : ∀ fuel ≥ N, ∀ n, m.insertLoop new fuel (n + 1) parent =
          m.cover parent new c fuel := fun fuel hfuel n => by
        rw [hstep fuel hfuel]
        split
        · rfl
        · next hin =>
          have hcont : Contains m c new := ⟨by omega, by omega⟩
          rw [if_pos (by by_contra hneq; exact hdown ⟨hcont, hneq⟩)]
      refine ⟨m', o, .of_round (max N N') fun fuel hfuel n => ?_, ⟨fun ho => ⟨hfits, ?_⟩,
        fun hall => ?_⟩, fun ho => (hgranted ho).2, fun ho => (hfail ho).1⟩
      · rw [hcover fuel (by omega), hret' fuel (by omega)]
      · intro x hx t ht htov
        have hrange := h.range_of_below ht
        obtain ⟨ht₁, ht₂⟩ := htov
        obtain ⟨hx₁, hx₂⟩ := (hgranted ho).1 x hx ⟨by omega, by omega⟩
        exact .inr ⟨by omega, by omega⟩
      · by_contra ho
        obtain ⟨-, y, hy, hyov, hycont⟩ := hfail ho
        rcases hall.2 y hy y .refl hyov with hcont | hcont
        · -- a child that contains `new` is the one that was found first
          have hyc : y = c := by
            by_contra hne'
            refine h.disjoint hy hc hne' ?_
            obtain ⟨h₁, h₂⟩ := hcont
            obtain ⟨h₃, h₄⟩ := hov
            exact ⟨by omega, by omega⟩
          subst hyc
          obtain ⟨h₁, h₂⟩ := hcont
          have heq : m.start y = m.start new ∧ m.stop y = m.stop new := by
            by_contra hneq
            exact hdown ⟨⟨h₁, h₂⟩, hneq⟩
          exact hycont ⟨by omega, by omega⟩
        · exact hycont hcont
  · refine ⟨m, some parent, .of_round N fun fuel hfuel n => ?_, ⟨nofun, fun hall =>
      absurd hall.1 hfits⟩, nofun, fun _ => rfl⟩
    simp only [insertLoop, hret fuel hfuel, if_pos]

/-- **`insert_resource`** puts `new` into the tree exactly when it fits into `parent` and every
resource below that overlaps with it contains it or is covered by it. -/
theorem ForestOk.insert {parent : ℕ} (hempty : kids new = []) (hparent : live parent)
    (hne : new ≠ parent) :
    ∃ m' o, Returns (m.insertResourceConflict parent new) (m', o) ∧
      (o = none ↔ Allowed m kids (Nested m new) parent new) ∧
      (o = none → Stays live m m') ∧ (o ≠ none → m' = m) := by
  obtain ⟨m', o, hret, hrest⟩ := h.insertLoop_spec hlive hnew hempty parent hparent hne
  exact ⟨m', o, hret.diag, hrest⟩

end Insert

/-! ### `release_resource` -/

theorem releaseLoop_spec (hseg : Segment m.sibling (m.read (slotAfter p l₁)) l₂ none) :
    (∃ a b, l₂ = a ++ c :: b ∧ ReturnsIn (m.releaseLoop c true · · (slotAfter p l₁))
      ((m.write (slotAfter p (l₁ ++ a)) (m.sibling c)).setParent c none, .ok ())) ∨
    (c ∉ l₂ ∧ ReturnsIn (m.releaseLoop c true · · (slotAfter p l₁)) (m, .error .EINVAL)) := by
  induction l₂ generalizing l₁ with
  | nil =>
    refine .inr ⟨not_mem_nil, .of_round 0 fun fuel _ n => ?_⟩
    have hread : m.read (slotAfter p l₁) = none := hseg
    simp only [releaseLoop, hread]
  | cons x l ih =>
    obtain ⟨hread, hrest⟩ := hseg
    rcases eq_or_ne x c with rfl | hne
    · refine .inl ⟨[], l, rfl, .of_round 0 fun fuel _ n => ?_⟩
      simp only [releaseLoop, hread, if_true, append_nil]
      cases m.child x <;> rfl
    · have hslot : slotAfter p (l₁ ++ [x]) = .sibling x := slotAfter_concat
      have hstep : ∀ fuel ≥ 0, ∀ n, m.releaseLoop c true fuel (n + 1) (slotAfter p l₁) =
          m.releaseLoop c true fuel n (slotAfter p (l₁ ++ [x])) := fun fuel _ n => by
        simp only [releaseLoop, hread, if_neg hne, hslot]
      rcases @ih (l₁ ++ [x]) (by rw [hslot]; exact hrest) with ⟨a, b, rfl, hret⟩ | ⟨hno, hret⟩
      · refine .inl ⟨x :: a, b, rfl, .round ?_ 0 hstep⟩
        simpa only [append_assoc, singleton_append] using hret
      · exact .inr ⟨fun hc => (mem_cons.1 hc).elim hne.symm hno, hret.round 0 hstep⟩

section

variable (h : ForestOk m live kids)
include h

/-- **`release_resource`** unlinks a child of its parent, and fails for anything else. -/
theorem ForestOk.release (hp : m.parent c = some p) (hlive : live p) :
    ∃ m' o, Returns (m.releaseResource c) (m', o) ∧ (o = .ok () ↔ c ∈ kids p) ∧
      (o = .ok () → Stays live m m') ∧ (o ≠ .ok () → m' = m) := by
  have hseg : Segment m.sibling (m.read (slotAfter p [])) (kids p) none := h.list p hlive
  rw [show m.releaseResource c = fun n => m.releaseLoop c true n n (slotAfter p []) from
    funext fun n => by simp only [releaseResource, hp, slotAfter_nil]]
  rcases releaseLoop_spec hseg with ⟨a, b, hk, hret⟩ | ⟨hno, hret⟩
  · refine ⟨_, .ok (), hret.diag, ⟨fun _ => by simp [hk], fun _ => rfl⟩,
      fun _ => ⟨_, h.unlink hk none, fun r hr => ?_⟩, fun hno => absurd rfl hno⟩
    exact write_child_of_ne (ne_of_dead hr hlive)
  · exact ⟨m, .error .EINVAL, hret.diag, ⟨nofun, fun hc => absurd hc hno⟩, nofun, fun _ => rfl⟩

/-! ### `__release_region` -/

/-- A busy resource with exactly the given range is unlinked, or nothing. -/
def RegionGone (m : ResourceMem) (kids : ℕ → List ℕ) (start stop : ℕ) (m' : ResourceMem)
    (o : Option ℕ) : Prop :=
  o = none ∧ m' = m ∨ ∃ res p a b, o = some res ∧ busy (m.flags res) ∧ m.start res = start ∧
    m.stop res = stop ∧ kids p = a ++ res :: b ∧ m' = m.write (slotAfter p a) (m.sibling res)

/-- **`__release_region`** looks for the resource in one child after the other. -/
theorem ForestOk.releaseRegion {start stop : ℕ} (parent : ℕ) (hparent : live parent) :
    ∃ m' o, Returns (fun fuel => m.releaseRegionLoop start stop fuel (.child parent)) (m', o) ∧
      RegionGone m kids start stop m' o := by
  induction parent using h.wf.induction with
  | h parent ih =>
  -- along the list of the children
  have hlist : ∀ l₂ l₁, kids parent = l₁ ++ l₂ → ∃ m' o,
      Returns (fun fuel => m.releaseRegionLoop start stop fuel (slotAfter parent l₁)) (m', o) ∧
      RegionGone m kids start stop m' o := by
    intro l₂
    induction l₂ with
    | nil =>
      intro l₁ hk
      have hseg : Segment m.sibling (m.child parent) (l₁ ++ []) none := hk ▸ h.list parent hparent
      have hread : m.read (slotAfter parent l₁) = none := read_slotAfter hseg
      refine ⟨m, none, .of_add 1 fun n => ?_, .inl ⟨rfl, rfl⟩⟩
      simp only [releaseRegionLoop, hread]
    | cons x l ihl =>
      intro l₁ hk
      obtain ⟨hread, -⟩ := read_slotAfter (hk ▸ h.list parent hparent)
      have hx : x ∈ kids parent := by simp [hk]
      by_cases hin : m.start x ≤ start ∧ stop ≤ m.stop x
      · by_cases hbusy : busy (m.flags x) = false
        · obtain ⟨m', o, hret, hres⟩ := ih x hx (h.live parent x hx)
          refine ⟨m', o, hret.round fun n => ?_, hres⟩
          simp only [releaseRegionLoop, hread, if_pos hin, if_pos hbusy]
        · by_cases hexact : m.start x ≠ start ∨ m.stop x ≠ stop
          · refine ⟨m, none, .of_add 1 fun n => ?_, .inl ⟨rfl, rfl⟩⟩
            simp only [releaseRegionLoop, hread, if_pos hin, if_neg hbusy, if_pos hexact]
          · refine ⟨_, some x, .of_add 1 fun n => ?_, .inr ⟨x, parent, l₁, l, rfl,
              by simpa using hbusy, by omega, by omega, hk, rfl⟩⟩
            simp only [releaseRegionLoop, hread, if_pos hin, if_neg hbusy, if_neg hexact]
      · obtain ⟨m', o, hret, hres⟩ := ihl (l₁ ++ [x]) (by simpa using hk)
        refine ⟨m', o, hret.round fun n => ?_, hres⟩
        simp only [releaseRegionLoop, hread, if_neg hin, slotAfter_concat]
  exact hlist (kids parent) [] rfl

/-! ### `__request_region` -/

/-- The resources that `__request_region` may meet: they contain `new` and are not busy. -/
def Passable (m : ResourceMem) (new t : ℕ) : Prop := Contains m t new ∧ busy (m.flags t) = false

theorem ForestOk.setFlags (r x : ℕ) : ForestOk (m.setFlags r x) live kids := { h with }

/-- A round of the loop of `__request_region_locked` changes the flags of `new` only, until it is
linked. -/
theorem ForestOk.requestRegionLoop_spec (hlive : live new)
    (hnew : ∀ p, new ∉ kids p) (hempty : kids new = []) (flags parent : ℕ)
    (hparent : live parent) (hne : new ≠ parent) (x : ℕ) :
    ∃ m' o, ReturnsIn (requestRegionLoop new flags · · parent (m.setFlags new x)) (m', o) ∧
      (o = .granted ↔ Allowed m kids (Passable m new) parent new) ∧
      (o = .granted → Stays live m m') ∧
      (o ≠ .granted → ∃ y, m' = m.setFlags new y) ∧
      ∀ p, o = .wait p → live p ∧ new ≠ p := by
  induction parent using h.wf.induction generalizing x with
  | h parent ih =>
  have hbelow := not_below hempty hne
  let y := regionFlags ((m.setFlags new x).flags parent) flags
  have hset : (m.setFlags new x).setFlags new y = m.setFlags new y := by
    simp only [ResourceMem.setFlags, update_idem]
  have hflags : ∀ c, c ≠ new → (m.setFlags new y).flags c = m.flags c := fun c hc =>
    update_of_ne hc ..
  -- a conflict that is not passed
  have hstop : ∀ c, ∃ o, (if muxed ((m.setFlags new y).flags c &&& flags) then
        .ok (m.setFlags new y, .wait parent) else .ok (m.setFlags new y, .busy)) =
      (.ok (m.setFlags new y, o) : Except Oops (ResourceMem × RegionOutcome)) ∧ o ≠ .granted ∧
      ∀ p, o = .wait p → live p ∧ new ≠ p := by
    intro c
    split
    · refine ⟨_, rfl, nofun, fun p hp => ?_⟩
      cases hp
      exact ⟨hparent, hne⟩
    · exact ⟨_, rfl, nofun, nofun⟩
  rcases (h.setFlags new y).request_spec hparent new with
    ⟨hfits, l₁, l₂, hk, h₁, h₂, N, hret⟩ | ⟨hfits, l₁, c, l₂, hk, h₁, hov, N, hret⟩ |
    ⟨hfits, N, hret⟩
  · refine ⟨_, .granted, .of_round N fun fuel hfuel n => ?_, ⟨fun _ => ⟨hfits, fun c hc t ht hov =>
      absurd hov ((h.setFlags new y).not_overlaps hk h₁ h₂ hc ht)⟩, fun _ => rfl⟩, fun _ =>
      (h.setFlags new y).stays_link hlive hnew hk hparent hbelow hfits h₁ h₂,
      fun hno => absurd rfl hno, nofun⟩
    simp only [requestRegionLoop]
    rw [hset, hret fuel hfuel]
  · have hc : c ∈ kids parent := by simp [hk]
    have hcp : c ≠ parent := h.ne_parent hc
    have hcn : c ≠ new := fun e => hnew parent (e ▸ hc)
    by_cases hbusy : busy (m.flags c) = false
    · obtain ⟨m', o, hret', hallowed, hrest⟩ := ih c hc (h.live parent c hc) hcn.symm y
      refine ⟨m', o, hret'.round N fun fuel hfuel n => ?_, ?_, hrest⟩
      · have hcond : c ≠ parent ∧ busy ((m.setFlags new y).flags c) = false :=
          ⟨hcp, by rw [hflags c hcn, hbusy]⟩
        simp only [requestRegionLoop]
        rw [hset, hret fuel hfuel]
        simp only [if_pos hcond]
      · by_cases hcont : Contains m c new
        · exact hallowed.trans (h.allowed_iff hc hfits hcont ⟨hcont, hbusy⟩).symm
        · refine hallowed.trans ⟨fun hall => absurd ⟨hall.1.1, hall.1.2.2⟩ hcont, fun hall => ?_⟩
          exact absurd (hall.2 c hc c .refl hov).1 hcont
    · obtain ⟨o, ho, hno, hwait⟩ := hstop c
      refine ⟨_, o, .of_round N fun fuel hfuel n => ?_, ⟨fun hg => absurd hg hno, fun hall => ?_⟩,
        fun hg => absurd hg hno, fun _ => ⟨y, rfl⟩, hwait⟩
      · have hcond : ¬(c ≠ parent ∧ busy ((m.setFlags new y).flags c) = false) := fun hb =>
          hbusy (by rw [← hflags c hcn]; exact hb.2)
        simp only [requestRegionLoop]
        rw [hset, hret fuel hfuel]
        simp only [if_neg hcond]
        exact ho
      · exact absurd (hall.2 c hc c .refl hov).2 hbusy
  · obtain ⟨o, ho, hno, hwait⟩ := hstop parent
    refine ⟨_, o, .of_round N fun fuel hfuel n => ?_, ⟨fun hg => absurd hg hno, fun hall =>
      absurd hall.1 hfits⟩, fun hg => absurd hg hno, fun _ => ⟨y, rfl⟩, hwait⟩
    have hcond : ¬(parent ≠ parent ∧ busy ((m.setFlags new y).flags parent) = false) :=
      fun hb => hb.1 rfl
    simp only [requestRegionLoop]
    rw [hset, hret fuel hfuel]
    simp only [if_neg hcond]
    exact ho

/-- **`__request_region`** links its resource exactly when it fits into `parent` and every resource
below that overlaps with it contains it and is not busy. -/
theorem ForestOk.requestRegion (flags : ℕ) (hlive : live new)
    (hnew : ∀ p, new ∉ kids p) (hempty : kids new = []) {parent : ℕ}
    (hparent : live parent) (hne : new ≠ parent) :
    ∃ m' o, Returns (m.requestRegionLocked new parent flags) (m', o) ∧
      (o = .granted ↔ Allowed m kids (Passable m new) parent new) ∧
      (o = .granted → Stays live m m') ∧
      (o ≠ .granted → ∃ y, m' = m.setFlags new y) ∧
      ∀ p, o = .wait p → live p ∧ new ≠ p := by
  obtain ⟨m', o, hret, hrest⟩ := h.requestRegionLoop_spec hlive hnew hempty flags
    parent hparent hne (m.flags new)
  have hset : m.setFlags new (m.flags new) = m := by
    simp only [ResourceMem.setFlags, update_eq_self]
  rw [hset] at hret
  exact ⟨m', o, hret.diag, hrest⟩

end

end MinimalKernel.Resource
