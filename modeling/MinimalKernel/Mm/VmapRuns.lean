import MinimalKernel.Lib.Interval
import MinimalKernel.Lib.Run
import MinimalKernel.Mm.Vmap

/-!
# Runs of the vmalloc area allocator

The free areas are kept sorted, apart from one another and with the right numbers in their tree, and
the free and the allocated areas together make up the ranges that the allocator was given.

Everything that is done to the free areas takes some of them away and puts one area into the gap:
`FreeOk.place` is the one argument about their order. The numbers are right again after each edit by
the rules of `Lib.RbAugmented`.

## Main definitions

* `VmapState.FreeOk`, `VmapState.BusyOk` — the state of the two trees with their lists
* `VmapOk` — the invariant

## Main results

* `VmapState.FreeOk.mergeOrAdd` — a release adds the area to what is free
* `VmapState.FreeOk.allocFromFree` — an allocation takes its range from what is free, or changes
  nothing
* `vmap_ok_of_run` — the invariant holds after every run
-/

namespace MinimalKernel.Mm

open Function Lib Lib.RbTree List Prod

variable {k : ℕ}

namespace VmapState

/-! ### Links -/

section Links

variable {β : Type*} {lo hi : β → ℕ} {start stop : ℕ} {key : β → ℕ} {x va : ℕ} {l l₁ l₂ : List ℕ}

/-- **The link for an area lies between the areas below it and the areas above it.** -/
theorem findVaLinks_eq {t : RbTree β} (hlt : start < stop) (hord : Ordered lo hi t.toList)
    (hd : ∀ x ∈ t.toList, hi x ≤ start ∨ stop ≤ lo x) (p : Path β) :
    ∃ q l₁ l₂, findVaLinks lo hi start stop t p = some q ∧ q.fill .nil = p.fill t ∧
      t.toList = l₁ ++ l₂ ∧ q.before = p.before ++ l₁ ∧ q.after = l₂ ++ p.after ∧
      (∀ x ∈ l₁, hi x ≤ start) ∧ ∀ x ∈ l₂, stop ≤ lo x := by
  induction t generalizing p with
  | nil => exact ⟨p, [], [], rfl, rfl, rfl, by simp, by simp, by simp, by simp⟩
  | node c l x r ihl ihr =>
    obtain ⟨hl, hxr, hlr⟩ := Ordered.append_iff.1 hord
    obtain ⟨hx, hr, hxr⟩ := Ordered.cons_iff.1 hxr
    rw [findVaLinks]
    rcases hd x (by simp) with hxs | hxs
    · rw [if_neg (by omega), if_pos (by omega)]
      obtain ⟨q, l₁, l₂, hq, hfill, hlist, hb, ha, h₁, h₂⟩ :=
        ihr hr (fun y hy => hd y (by simp [hy])) (.right c l x p)
      refine ⟨q, l.toList ++ x :: l₁, l₂, hq, hfill, by simp [hlist], by simp [hb, Path.before], ha,
        fun y hy => ?_, h₂⟩
      rcases mem_append.1 hy with hy | hy
      · have := hlr y hy x (by simp)
        omega
      · rcases mem_cons.1 hy with rfl | hy
        · exact hxs
        · exact h₁ y hy
    · rw [if_pos (by omega)]
      obtain ⟨q, l₁, l₂, hq, hfill, hlist, hb, ha, h₁, h₂⟩ :=
        ihl hl (fun y hy => hd y (by simp [hy])) (.left c x r p)
      refine ⟨q, l₁, l₂ ++ x :: r.toList, hq, hfill, by simp [hlist], hb, by simp [ha, Path.after],
        h₁, fun y hy => ?_⟩
      rcases mem_append.1 hy with hy | hy
      · exact h₂ y hy
      · rcases mem_cons.1 hy with rfl | hy
        · exact hxs
        · have := hxr y hy
          omega

theorem insertBefore_eq (h : x ∉ l₁) : insertBefore x va (l₁ ++ x :: l₂) = l₁ ++ va :: x :: l₂ := by
  induction l₁ with
  | nil => simp [insertBefore]
  | cons y l₁ ih =>
    obtain ⟨hy, hl⟩ := not_or.1 (mem_cons.not.1 h)
    simp [insertBefore, Ne.symm hy, ih hl]

theorem insertAfter_eq (va : ℕ) (l₂ : List ℕ) (h : x ∉ l₁) :
    insertAfter x va (l₁ ++ x :: l₂) = l₁ ++ x :: va :: l₂ := by
  induction l₁ with
  | nil => simp [insertAfter]
  | cons y l₁ ih =>
    obtain ⟨hy, hl⟩ := not_or.1 (mem_cons.not.1 h)
    simp [insertAfter, Ne.symm hy, ih hl]

theorem nextOf_eq (l₂ : List ℕ) (h : x ∉ l₁) : nextOf x (l₁ ++ x :: l₂) = l₂.head? := by
  induction l₁ with
  | nil => simp [nextOf]
  | cons y l₁ ih =>
    obtain ⟨hy, hl⟩ := not_or.1 (mem_cons.not.1 h)
    simp [nextOf, Ne.symm hy, ih hl]

theorem notMem_before_left {c : Color} {x : β} {r : RbTree β} {up : Path β}
    (hn : ((Path.left c x r up).before.map key ++ (Path.left c x r up).after.map key).Nodup) :
    key x ∉ up.before.map key := fun hx =>
  (nodup_append.1 hn).2.2 _ hx (key x) (by simp [Path.after]) rfl

theorem notMem_before_right {c : Color} {l : RbTree β} {x : β} {up : Path β}
    (hn : ((Path.right c l x up).before.map key ++ (Path.right c l x up).after.map key).Nodup) :
    key x ∉ (up.before ++ l.toList).map key := by
  intro hx
  have hn' := (nodup_append.1 hn).1
  simp only [Path.before, ← append_assoc, map_append, map_cons] at hn'
  exact (nodup_append.1 hn').2.2 _ (by simpa using hx) (key x) (by simp) rfl

/-- The list part of `link_va` puts the area where the tree part puts it. -/
theorem linkList_eq (key : β → ℕ) (va : ℕ) (q : Path β)
    (hn : (q.before.map key ++ q.after.map key).Nodup) :
    linkList key va (q.before.map key ++ q.after.map key) q =
      q.before.map key ++ va :: q.after.map key := by
  cases q with
  | root => rfl
  | left c x r up =>
    have hx := notMem_before_left hn
    exact insertBefore_eq hx
  | right c l x up =>
    have h := insertAfter_eq va (up.after.map key) (notMem_before_right hn)
    simpa [linkList, Path.before, Path.after] using h

/-- The next sibling is the first area above the link; only an empty tree has none. -/
theorem getVaNextSibling_eq (q : Path β) (hn : (q.before.map key ++ q.after.map key).Nodup) :
    getVaNextSibling key (q.before.map key ++ q.after.map key) q =
      if q.before = [] ∧ q.after = [] then none else some (q.after.map key).head? := by
  cases q with
  | root => simp [getVaNextSibling]
  | left c x r up => simp [getVaNextSibling, Path.after]
  | right c l x up =>
    have h := nextOf_eq (up.after.map key) (notMem_before_right hn)
    simpa [getVaNextSibling, Path.before, Path.after] using h

theorem sublist_middle : (l₁ ++ l₂).Sublist (l₁ ++ x :: l₂) :=
  (sublist_cons_self x l₂).append_left l₁

theorem erase_middle (hn : (l₁ ++ x :: l₂).Nodup) : (l₁ ++ x :: l₂).erase x = l₁ ++ l₂ := by
  rw [erase_append_right, erase_cons_head]
  intro hx
  exact (nodup_append.1 hn).2.2 x hx x (by simp) rfl

theorem prevOf_eq (hn : (l₁ ++ l₂).Nodup) : prevOf (l₁ ++ l₂) l₂.head? = l₁.getLast? := by
  cases l₂ with
  | nil => simp [prevOf]
  | cons x l₂ =>
    have hx : ∀ y ∈ l₁, y ≠ x := fun y hy => (nodup_append.1 hn).2.2 y hy x (by simp)
    simp only [List.head?_cons, prevOf]
    rw [takeWhile_append_of_pos (by simpa using hx)]
    simp

end Links

/-! ### The free areas and the allocated areas -/

def lo (s : VmapState) (a : ℕ) : ℕ := (s.area a).vaStart

def hi (s : VmapState) (a : ℕ) : ℕ := (s.area a).vaEnd

/-- An address lies in an area of the list. -/
def Covers (s : VmapState) (l : List ℕ) (x : ℕ) : Prop := ∃ a ∈ l, s.lo a ≤ x ∧ x < s.hi a

/-- The free areas: the tree and the list agree, no two areas touch, and the numbers are right. -/
structure FreeOk (s : VmapState) : Prop where
  keys : s.freeRoot.keys = s.freeList
  /-- Each area ends before the next one begins, with a gap between them. -/
  apart : Ordered s.lo (fun a => s.hi a + 1) s.freeList
  lt : ∀ a ∈ s.freeList, s.lo a < s.hi a
  bound : ∀ a ∈ s.freeList, s.hi a < wordSize
  augmented : s.freeRoot.Augmented s.vaSize

/-- The allocated areas: the tree and the list agree, and no two areas overlap. -/
structure BusyOk (s : VmapState) : Prop where
  keys : s.busyRoot.toList = s.busyList
  ordered : Ordered s.lo s.hi s.busyList
  bound : ∀ a ∈ s.busyList, s.hi a < wordSize

section State

variable {s t : VmapState} {a va x w : ℕ} {l l₁ l₂ : List ℕ} {A : VmapArea} {p : Path (ℕ × ℕ)}

@[simp] theorem covers_nil : ¬ s.Covers [] x := by simp [Covers]

@[simp] theorem covers_cons :
    s.Covers (a :: l) x ↔ (s.lo a ≤ x ∧ x < s.hi a) ∨ s.Covers l x := by simp [Covers]

@[simp] theorem covers_append : s.Covers (l₁ ++ l₂) x ↔ s.Covers l₁ x ∨ s.Covers l₂ x := by
  simp [Covers, or_and_right, exists_or]

theorem lo_congr (h : t.area a = s.area a) : t.lo a = s.lo a := congrArg VmapArea.vaStart h

theorem hi_congr (h : t.area a = s.area a) : t.hi a = s.hi a := congrArg VmapArea.vaEnd h

theorem vaSize_congr (h : t.area a = s.area a) : t.vaSize a = s.vaSize a := by
  rw [vaSize, vaSize, h]

theorem covers_congr (h : ∀ a ∈ l, t.area a = s.area a) : t.Covers l x ↔ s.Covers l x := by
  refine exists_congr fun a => and_congr_right fun ha => ?_
  rw [lo_congr (h a ha), hi_congr (h a ha)]

theorem area_setArea_self : (s.setArea va A).area va = A := update_self ..

theorem area_setArea_ne (h : a ≠ va) : (s.setArea va A).area a = s.area a :=
  update_of_ne h ..

theorem lo_setStart_self : (s.setStart va x).lo va = x :=
  congrArg VmapArea.vaStart (area_setArea_self (s := s))

theorem hi_setStart_self : (s.setStart va x).hi va = s.hi va := by
  rw [hi, setStart, area_setArea_self]
  rfl

section

variable (h : s.FreeOk)
include h

theorem FreeOk.ordered : Ordered s.lo s.hi s.freeList :=
  h.apart.mono fun a ha => ⟨le_rfl, h.lt a ha, Nat.le_succ _⟩

theorem FreeOk.nodup : s.freeList.Nodup := h.ordered.nodup

/-- Free areas that stay as they are stay in order. -/
theorem FreeOk.areas (hsub : l.Sublist s.freeList)
    (harea : ∀ a ∈ l, t.area a = s.area a) : Ordered t.lo (fun a => t.hi a + 1) l ∧
      (∀ a ∈ l, t.lo a < t.hi a) ∧ ∀ a ∈ l, t.hi a < wordSize := by
  refine ⟨(h.apart.sublist hsub).congr fun a ha => ?_, fun a ha => ?_, fun a ha => ?_⟩
  · exact ⟨lo_congr (harea a ha), congrArg Nat.succ (hi_congr (harea a ha))⟩
  · rw [lo_congr (harea a ha), hi_congr (harea a ha)]
    exact h.lt a (hsub.subset ha)
  · rw [hi_congr (harea a ha)]
    exact h.bound a (hsub.subset ha)

theorem FreeOk.congr (hroot : t.freeRoot = s.freeRoot)
    (hlist : t.freeList = s.freeList) (harea : ∀ a ∈ s.freeList, t.area a = s.area a) :
    t.FreeOk := by
  obtain ⟨hapart, hlt, hbound⟩ := h.areas (List.Sublist.refl _) harea
  rw [← hlist] at hapart hlt hbound
  refine ⟨by rw [hroot, hlist, h.keys], hapart, hlt, hbound, ?_⟩
  rw [hroot]
  refine AugmentedBut.congr h.augmented (fun a ha => ?_) fun _ _ h => h
  exact (vaSize_congr (harea a (h.keys ▸ ha))).symm

end

theorem BusyOk.congr (h : s.BusyOk) (hroot : t.busyRoot = s.busyRoot)
    (hlist : t.busyList = s.busyList) (harea : ∀ a ∈ s.busyList, t.area a = s.area a) :
    t.BusyOk where
  keys := by rw [hroot, hlist, h.keys]
  ordered := by
    rw [hlist]
    exact h.ordered.congr fun a ha => ⟨lo_congr (harea a ha), hi_congr (harea a ha)⟩
  bound a ha := by
    rw [hlist] at ha
    rw [hi_congr (harea a ha)]
    exact h.bound a ha

/-- **An area in the gap that some of the free areas leave.** Every edit of the free areas is of
this kind. -/
theorem FreeOk.place (h : s.FreeOk) (hsub : (l₁ ++ l₂).Sublist s.freeList)
    (harea : ∀ a ∈ l₁ ++ l₂, t.area a = s.area a) (hlist : t.freeList = l₁ ++ va :: l₂)
    (hlt : t.lo va < t.hi va) (hbound : t.hi va < wordSize) (h₁ : ∀ a ∈ l₁, s.hi a < t.lo va)
    (h₂ : ∀ a ∈ l₂, t.hi va < s.lo a) (hkeys : t.freeRoot.keys = t.freeList)
    (haug : t.freeRoot.Augmented t.vaSize) : t.FreeOk := by
  have hmem : ∀ a ∈ t.freeList, a = va ∨ a ∈ l₁ ++ l₂ := by
    intro a ha
    simpa [hlist, or_left_comm] using ha
  obtain ⟨hapart, hlt', hbound'⟩ := h.areas hsub harea
  refine ⟨hkeys, ?_, fun a ha => ?_, fun a ha => ?_, haug⟩
  · rw [hlist]
    refine hapart.insert (by omega) (fun a ha => ?_) fun a ha => ?_
    · rw [hi_congr (harea a (by simp [ha]))]
      exact h₁ a ha
    · rw [lo_congr (harea a (by simp [ha]))]
      exact h₂ a ha
  · rcases hmem a ha with rfl | ha
    · exact hlt
    · exact hlt' a ha
  · rcases hmem a ha with rfl | ha
    · exact hbound
    · exact hbound' a ha

theorem covers_place (harea : ∀ a ∈ l₁ ++ l₂, t.area a = s.area a) :
    t.Covers (l₁ ++ va :: l₂) x ↔
      s.Covers (l₁ ++ l₂) x ∨ (t.lo va ≤ x ∧ x < t.hi va) := by
  rw [← covers_congr harea]
  simp only [covers_append, covers_cons]
  exact iff_of_eq (by ac_rfl)

theorem covers_middle :
    s.Covers (l₁ ++ va :: l₂) x ↔ s.Covers (l₁ ++ l₂) x ∨ (s.lo va ≤ x ∧ x < s.hi va) :=
  covers_place fun _ _ => rfl

section

variable (h : s.FreeOk)
include h

/-- An area is put at an empty link of the free tree. -/
theorem FreeOk.link (hva : va ∉ s.freeList) (q : Path (ℕ × ℕ)) (hq : q.fill .nil = s.freeRoot) :
    let t := (s.linkFree va q).augmentTreePropagateFrom va
    t.freeList = q.keysBefore ++ va :: q.keysAfter ∧ t.freeRoot.keys = t.freeList ∧
      t.freeRoot.Augmented t.vaSize := by
  intro t
  have hlist : q.keysBefore ++ q.keysAfter = s.freeList := by
    rw [← h.keys, ← hq, Path.keys_fill]
    simp
  have hnodup := h.nodup
  rw [← hlist] at hnodup hva
  have htlist : t.freeList = q.keysBefore ++ va :: q.keysAfter := by
    change linkList fst va s.freeList q = _
    rw [← hlist]
    exact linkList_eq fst va q hnodup
  refine ⟨htlist, ?_, ?_⟩
  · rw [htlist]
    simp only [t, augmentTreePropagateFrom, linkFree, keys_propagateFrom, keys_setMax,
      Path.keys_insertFixupMax]
    simp
  · refine augmented_insert ?_ _ (nodup_middle.2 (nodup_cons.2 ⟨hva, hnodup⟩))
    rw [hq]
    exact h.augmented

/-- An area leaves the free tree; its own bounds may be any. -/
theorem FreeOk.unlink (hlist : s.freeList = l₁ ++ va :: l₂) (hroot : t.freeRoot = s.freeRoot)
    (hfree : t.freeList = s.freeList) (harea : ∀ a ∈ l₁ ++ l₂, t.area a = s.area a) :
    (t.unlinkFree va).FreeOk ∧ (t.unlinkFree va).freeList = l₁ ++ l₂ := by
  have hnodup := h.nodup
  have hkeys : t.freeRoot.keys.Nodup := by rwa [hroot, h.keys]
  have herase : (t.unlinkFree va).freeList = l₁ ++ l₂ := by
    change t.freeList.erase va = _
    rw [hfree, hlist]
    exact erase_middle (hlist ▸ hnodup)
  obtain ⟨hapart, hlt, hbound⟩ := h.areas (hlist ▸ sublist_middle) harea
  rw [← herase] at hapart hlt hbound
  refine ⟨⟨?_, hapart, hlt, hbound, ?_⟩, herase⟩
  · change (RbTree.eraseMax t.vaSize va t.freeRoot).keys = t.freeList.erase va
    rw [keys_eraseMax hkeys, hroot, h.keys, hfree]
  · have haug : t.freeRoot.Augmented s.vaSize := hroot ▸ h.augmented
    refine augmented_eraseMax haug hkeys fun a ha hne => ?_
    rw [hroot, h.keys, hlist] at ha
    exact (vaSize_congr (harea a (by simpa [hne] using ha))).symm

/-- The bounds of one area change, and the numbers are computed from there. -/
theorem FreeOk.propagate (va : ℕ) (hroot : t.freeRoot = s.freeRoot)
    (harea : ∀ a ∈ s.freeList, a ≠ va → t.area a = s.area a) :
    (t.augmentTreePropagateFrom va).freeRoot.keys = s.freeList ∧
      (t.augmentTreePropagateFrom va).freeRoot.Augmented t.vaSize := by
  have hkeys : t.freeRoot.keys = s.freeList := by rw [hroot, h.keys]
  refine ⟨?_, ?_⟩
  · change (RbTree.propagateFrom t.vaSize va t.freeRoot).keys = _
    rw [keys_propagateFrom, hkeys]
  · have haug : t.freeRoot.Augmented s.vaSize := hroot ▸ h.augmented
    refine augmented_propagateFrom haug (hkeys ▸ h.nodup) fun a ha hne => ?_
    exact (vaSize_congr (harea a (hkeys ▸ ha) hne)).symm

theorem FreeOk.keys_eq {t : RbTree (ℕ × ℕ)} (hfill : p.fill t = s.freeRoot) :
    s.freeList = p.keysBefore ++ t.keys ++ p.keysAfter := by
  rw [← h.keys, ← hfill, Path.keys_fill]

/-- The link for an area, from a subtree on where it belongs. -/
theorem FreeOk.findFreeLinks {t : RbTree (ℕ × ℕ)} (hfill : p.fill t = s.freeRoot)
    (hp₁ : ∀ a ∈ p.keysBefore, s.hi a ≤ s.lo va) (hp₂ : ∀ a ∈ p.keysAfter, s.hi va ≤ s.lo a)
    (hlt : s.lo va < s.hi va) (hd : ∀ a ∈ s.freeList, s.hi a ≤ s.lo va ∨ s.hi va ≤ s.lo a) :
    ∃ q, s.findFreeLinks va t p = some q ∧ q.fill .nil = s.freeRoot ∧
      s.freeList = q.keysBefore ++ q.keysAfter ∧ (∀ a ∈ q.keysBefore, s.hi a ≤ s.lo va) ∧
      ∀ a ∈ q.keysAfter, s.hi va ≤ s.lo a := by
  have hlist := h.keys_eq hfill
  have hord : Ordered s.lo s.hi (t.toList.map fst) := by
    have hord := h.ordered
    rw [hlist] at hord
    exact (Ordered.append_iff.1 (Ordered.append_iff.1 hord).1).2.1
  have hd' : ∀ x ∈ t.toList, s.hi x.1 ≤ s.lo va ∨ s.hi va ≤ s.lo x.1 := fun x hx =>
    hd x.1 (by
      rw [hlist]
      exact mem_append_left _ (mem_append_right _ (mem_map_of_mem hx)))
  obtain ⟨q, l₁, l₂, hq, hqfill, -, hb, ha, h₁, h₂⟩ := findVaLinks_eq hlt hord.of_map hd' p
  refine ⟨q, hq, hqfill.trans hfill, ?_, ?_, ?_⟩
  · simpa using h.keys_eq (hqfill.trans hfill)
  · rw [Path.keysBefore, hb, map_append, forall_mem_append]
    exact ⟨hp₁, by simpa using h₁⟩
  · rw [Path.keysAfter, ha, map_append, forall_mem_append]
    exact ⟨by simpa using h₂, hp₂⟩

theorem FreeOk.neighbours (hlist : s.freeList = l₁ ++ va :: l₂) :
    (∀ a ∈ l₁, a ≠ va ∧ s.hi a < s.lo va) ∧ (∀ a ∈ l₂, a ≠ va ∧ s.hi va < s.lo a) ∧
      s.lo va < s.hi va ∧ s.hi va < wordSize := by
  have hva : va ∈ s.freeList := by simp [hlist]
  have hnodup := h.nodup
  have hord := h.apart
  rw [hlist] at hnodup hord
  obtain ⟨-, h₂, h₁₂⟩ := Ordered.append_iff.1 hord
  obtain ⟨-, hn₂, hn₁₂⟩ := nodup_append.1 hnodup
  refine ⟨fun a ha => ⟨hn₁₂ a ha va (by simp), h₁₂ a ha va (by simp)⟩, fun a ha => ⟨?_, ?_⟩,
    h.lt va hva, h.bound va hva⟩
  · rintro rfl
    exact (nodup_cons.1 hn₂).1 ha
  · exact (Ordered.cons_iff.1 h₂).2.2 a ha

/-- **A free area gets new bounds** that keep it apart from its neighbours. -/
theorem FreeOk.rebound (hlist : s.freeList = l₁ ++ va :: l₂) (hlt : A.vaStart < A.vaEnd)
    (hbound : A.vaEnd < wordSize) (h₁ : ∀ a ∈ l₁, s.hi a < A.vaStart)
    (h₂ : ∀ a ∈ l₂, A.vaEnd < s.lo a) : let t := (s.setArea va A).augmentTreePropagateFrom va
    t.FreeOk ∧ ∀ x, t.Covers t.freeList x ↔
      s.Covers (l₁ ++ l₂) x ∨ A.vaStart ≤ x ∧ x < A.vaEnd := by
  intro t
  obtain ⟨hn₁, hn₂, -, -⟩ := h.neighbours hlist
  have hself : t.area va = A := area_setArea_self
  have hne : ∀ a ∈ l₁ ++ l₂, t.area a = s.area a := by
    intro a ha
    rcases mem_append.1 ha with ha | ha
    · exact area_setArea_ne (hn₁ a ha).1
    · exact area_setArea_ne (hn₂ a ha).1
  have hlo : t.lo va = A.vaStart := congrArg VmapArea.vaStart hself
  have hhi : t.hi va = A.vaEnd := congrArg VmapArea.vaEnd hself
  obtain ⟨hkeys, haug⟩ := h.propagate (t := s.setArea va A) va rfl
    fun a _ hne => area_setArea_ne hne
  refine ⟨h.place (hlist ▸ sublist_middle) hne hlist (by rwa [hlo, hhi]) (by rwa [hhi])
    (by rwa [hlo]) (by rwa [hhi]) hkeys haug, fun x => ?_⟩
  rw [show t.freeList = l₁ ++ va :: l₂ from hlist, covers_place hne, hlo, hhi]

end

/-- What a release does to the free areas. -/
structure Merged (s t : VmapState) (va : ℕ) : Prop where
  ok : t.FreeOk
  covers : ∀ x, t.Covers t.freeList x ↔ s.Covers s.freeList x ∨ s.lo va ≤ x ∧ x < s.hi va
  area : ∀ a ∉ s.freeList, t.area a = s.area a
  mem : ∀ a ∈ t.freeList, a ∈ s.freeList ∨ a = va
  busyRoot : t.busyRoot = s.busyRoot
  busyList : t.busyList = s.busyList
  preload : t.preload = s.preload
  next : t.next = s.next

theorem mergeNext_cases (hd : ∀ a ∈ l, s.hi va ≤ s.lo a)
    (hord : Ordered s.lo (fun a => s.hi a + 1) l) :
    s.mergeNext va l.head? = (s, va, false) ∧ (∀ a ∈ l, s.hi va < s.lo a) ∨
      ∃ n l', l = n :: l' ∧ s.lo n = s.hi va ∧
        s.mergeNext va l.head? = (s.setStart n (s.lo va), n, true) := by
  cases l with
  | nil => exact .inl ⟨rfl, by simp⟩
  | cons n l =>
    by_cases hn : s.lo n = s.hi va
    · exact .inr ⟨n, l, rfl, hn, if_pos hn⟩
    · refine .inl ⟨if_neg hn, fun a ha => ?_⟩
      have hn' := hd n (by simp)
      rcases mem_cons.1 ha with rfl | ha
      · omega
      · have := (Ordered.cons_iff.1 hord).1
        have := (Ordered.cons_iff.1 hord).2.2 a ha
        omega

theorem mergePrev_cases (va : ℕ) (merged : Bool) (hd : ∀ a ∈ l, s.hi a ≤ s.lo va)
    (hord : Ordered s.lo (fun a => s.hi a + 1) l) (hlt : ∀ a ∈ l, s.lo a < s.hi a) :
    s.mergePrev va merged l.getLast? = (s, va, merged) ∧ (∀ a ∈ l, s.hi a < s.lo va) ∨
      ∃ l' q, l = l' ++ [q] ∧ s.hi q = s.lo va ∧ s.mergePrev va merged l.getLast? =
        ((if merged then s.unlinkFree va else s).setEnd q (s.hi va), q, true) := by
  rcases eq_nil_or_concat l with rfl | ⟨l, q, rfl⟩
  · exact .inl ⟨rfl, by simp⟩
  · rw [concat_eq_append] at *
    rw [List.getLast?_append]
    by_cases hq : s.hi q = s.lo va
    · exact .inr ⟨l, q, rfl, hq, if_pos hq⟩
    · refine .inl ⟨if_neg hq, fun a ha => ?_⟩
      have hq' := hd q (by simp)
      rcases mem_append.1 ha with ha | ha
      · have := (Ordered.append_iff.1 hord).2.2 a ha q (by simp)
        have := hlt q (by simp)
        omega
      · obtain rfl := mem_singleton.1 ha
        omega

section

variable (h : s.FreeOk) (hva : va ∉ s.freeList) (hlt : s.lo va < s.hi va) (hb : s.hi va < wordSize)
include h hva hlt hb

/-- The release of an area that touches no free area. -/
theorem FreeOk.merged_link {q : Path (ℕ × ℕ)} (hq : q.fill .nil = s.freeRoot)
    (hlist : s.freeList = q.keysBefore ++ q.keysAfter) (h₁ : ∀ a ∈ q.keysBefore, s.hi a < s.lo va)
    (h₂ : ∀ a ∈ q.keysAfter, s.hi va < s.lo a) :
    Merged s ((s.linkFree va q).augmentTreePropagateFrom va) va := by
  obtain ⟨hl, hk, haug⟩ := h.link hva q hq
  refine ⟨h.place (by rw [hlist]) (fun a _ => rfl) hl hlt hb h₁ h₂ hk haug, fun x => ?_,
    fun a _ => rfl, fun a ha => ?_, rfl, rfl, rfl, rfl⟩
  · rw [hl, hlist]
    exact covers_place fun a _ => rfl
  · rw [hl] at ha
    rw [hlist]
    simpa [or_comm, or_assoc, or_left_comm] using ha

/-- An area that touches no free area is put in, from a subtree on where it belongs. -/
theorem FreeOk.merged_apart {n : RbTree (ℕ × ℕ)}
    (hside : ∀ a ∈ s.freeList, s.hi a < s.lo va ∨ s.hi va < s.lo a) (hfill : p.fill n = s.freeRoot)
    (hp₁ : ∀ a ∈ p.keysBefore, s.hi a ≤ s.lo va) (hp₂ : ∀ a ∈ p.keysAfter, s.hi va ≤ s.lo a) :
    ∃ q, s.findFreeLinks va n p = some q ∧
      Merged s ((s.linkFree va q).augmentTreePropagateFrom va) va := by
  obtain ⟨q, hfind, hq, hlist, h₁, h₂⟩ := h.findFreeLinks hfill hp₁ hp₂ hlt
    fun a ha => (hside a ha).imp Nat.le_of_lt Nat.le_of_lt
  refine ⟨q, hfind, h.merged_link hva hlt hb hq hlist (fun a ha => ?_) fun a ha => ?_⟩
  all_goals
    have hmem : a ∈ s.freeList := by simp [hlist, ha]
    have := h.lt a hmem
    have := hside a hmem
  · have := h₁ a ha
    omega
  · have := h₂ a ha
    omega

end

/-- The release of an area that touches a free area, which gets its addresses. -/
theorem FreeOk.merged_rebound {n : ℕ} (h : s.FreeOk) (hlist : s.freeList = l₁ ++ n :: l₂)
    (hlt : A.vaStart < A.vaEnd) (hb : A.vaEnd < wordSize) (h₁ : ∀ a ∈ l₁, s.hi a < A.vaStart)
    (h₂ : ∀ a ∈ l₂, A.vaEnd < s.lo a) (hA : ∀ x, A.vaStart ≤ x ∧ x < A.vaEnd ↔
      (s.lo n ≤ x ∧ x < s.hi n) ∨ s.lo va ≤ x ∧ x < s.hi va) :
    Merged s ((s.setArea n A).augmentTreePropagateFrom n) va := by
  obtain ⟨hok, hcov⟩ := h.rebound hlist hlt hb h₁ h₂
  refine ⟨hok, fun x => ?_, fun a ha => area_setArea_ne fun hne => ha ?_, fun a ha => .inl ha,
    rfl, rfl, rfl, rfl⟩
  · rw [hlist, covers_middle, or_assoc, ← hA]
    exact hcov x
  · rw [hlist, hne]
    simp

/-- The release of an area that touches both of its neighbours: the next one is taken out. -/
theorem FreeOk.merged_both {q n : ℕ} (h : s.FreeOk) (hlt : s.lo va < s.hi va)
    (hlist : s.freeList = l₁ ++ q :: n :: l₂) (hq : s.hi q = s.lo va) (hn : s.lo n = s.hi va) :
    Merged s ((((s.setStart n (s.lo va)).unlinkFree n).setEnd q (s.hi n)).augmentTreePropagateFrom
      q) va := by
  have hlist' : s.freeList = (l₁ ++ [q]) ++ n :: l₂ := by simpa using hlist
  obtain ⟨hq₁, hq₂, hqlt, -⟩ := h.neighbours hlist
  obtain ⟨hn₁, hn₂, hnlt, hnb⟩ := h.neighbours hlist'
  let u := (s.setStart n (s.lo va)).unlinkFree n
  have hne : ∀ a, a ≠ n → u.area a = s.area a := fun a ha => area_setArea_ne ha
  have huarea : ∀ a ∈ l₁ ++ q :: l₂, u.area a = s.area a := by
    intro a ha
    refine hne a ?_
    rcases mem_append.1 ha with ha | ha
    · exact (hn₁ a (by simp [ha])).1
    · rcases mem_cons.1 ha with rfl | ha
      · exact (hn₁ a (by simp)).1
      · exact (hn₂ a ha).1
  obtain ⟨huok, hulist⟩ : u.FreeOk ∧ u.freeList = (l₁ ++ [q]) ++ l₂ :=
    h.unlink hlist' rfl rfl fun a ha => huarea a (by simpa using ha)
  replace hulist : u.freeList = l₁ ++ q :: l₂ := by simpa using hulist
  have hulo : u.lo q = s.lo q := lo_congr (huarea q (by simp))
  obtain ⟨hok, hcov⟩ := huok.rebound (A := { u.area q with vaEnd := s.hi n }) hulist
    (show u.lo q < s.hi n by omega) hnb
    (fun a ha => by
      rw [hi_congr (huarea a (by simp [ha]))]
      exact (hq₁ a ha).2.trans_eq hulo.symm)
    fun a ha => by
      rw [lo_congr (huarea a (by simp [ha]))]
      exact (hn₂ a ha).2
  refine ⟨hok, fun x => ?_, fun a ha => ?_, fun a ha => .inl ?_, rfl, rfl, rfl, rfl⟩
  · refine (hcov x).trans ?_
    rw [hlist', covers_middle, append_assoc, singleton_append, covers_middle, or_assoc,
      or_assoc, covers_congr fun a ha => huarea a (by simp at ha ⊢; tauto)]
    refine or_congr_right ?_
    change u.lo q ≤ x ∧ x < s.hi n ↔ _
    omega
  · have haq : a ≠ q := fun hne => ha (by simp [hlist, hne])
    have han : a ≠ n := fun hne => ha (by simp [hlist, hne])
    exact (area_setArea_ne haq).trans (hne a han)
  · have ha : a ∈ u.freeList := ha
    rw [hulist] at ha
    rw [hlist]
    simp at ha ⊢
    tauto

/-- **A release adds the area to what is free.** -/
theorem FreeOk.mergeOrAdd (h : s.FreeOk) (hva : va ∉ s.freeList) (hlt : s.lo va < s.hi va)
    (hb : s.hi va < wordSize) (hd : ∀ a ∈ s.freeList, s.hi a ≤ s.lo va ∨ s.hi va ≤ s.lo a) :
    Merged s (s.mergeOrAddVmapAreaAugment va) va := by
  obtain ⟨q, hfind, hq, hlist, h₁, h₂⟩ :=
    h.findFreeLinks (p := .root) rfl (by simp) (by simp) hlt hd
  have hnodup := h.nodup
  have hord := h.apart
  rw [hlist] at hnodup hord
  obtain ⟨hord₁, hord₂, -⟩ := Ordered.append_iff.1 hord
  have hnext : getVaNextSibling fst s.freeList q =
      if q.before = [] ∧ q.after = [] then none else some q.keysAfter.head? := by
    rw [hlist]
    exact getVaNextSibling_eq q hnodup
  have hprev : prevOf s.freeList q.keysAfter.head? = q.keysBefore.getLast? := by
    rw [hlist]
    exact prevOf_eq hnodup
  simp only [mergeOrAddVmapAreaAugment, mergeOrAddVmapArea, hfind, hnext]
  by_cases hempty : q.before = [] ∧ q.after = []
  · rw [if_pos hempty]
    exact h.merged_link hva hlt hb hq hlist (by simp [Path.keysBefore, hempty.1])
      (by simp [Path.keysAfter, hempty.2])
  rw [if_neg hempty]
  simp only [hprev]
  rcases mergeNext_cases h₂ hord₂ with ⟨hn, h₂'⟩ | ⟨n, l₂, hl₂, hnlo, hn⟩
  · rw [hn]
    rcases mergePrev_cases va false h₁ hord₁ fun a ha => h.lt a (by simp [hlist, ha])
      with ⟨hp, h₁'⟩ | ⟨l₁, p, hl₁, hphi, hp⟩
    · simp only [hp]
      exact h.merged_link hva hlt hb hq hlist h₁' h₂'
    · simp only [hp]
      have hlist' : s.freeList = l₁ ++ p :: q.keysAfter := by rw [hlist, hl₁]; simp
      obtain ⟨hp₁, -, hplt, -⟩ := h.neighbours hlist'
      exact h.merged_rebound (A := { s.area p with vaEnd := s.hi va }) hlist'
        (show s.lo p < s.hi va by omega) hb (fun a ha => (hp₁ a ha).2) h₂' fun x =>
          show s.lo p ≤ x ∧ x < s.hi va ↔ _ by omega
  · rw [hn]
    have hlist' : s.freeList = q.keysBefore ++ n :: l₂ := by rw [hlist, hl₂]
    have hne : ∀ a ∈ q.keysBefore, (s.setStart n (s.lo va)).area a = s.area a := fun a ha =>
      area_setArea_ne ((h.neighbours hlist').1 a ha).1
    have hord₁' := hord₁.congr fun a ha =>
      ⟨lo_congr (hne a ha), congrArg Nat.succ (hi_congr (hne a ha))⟩
    rcases mergePrev_cases (s := s.setStart n (s.lo va)) n true
      (fun a ha => by rw [hi_congr (hne a ha), lo_setStart_self]; exact h₁ a ha) hord₁'
      (fun a ha => by
        rw [lo_congr (hne a ha), hi_congr (hne a ha)]
        exact h.lt a (by simp [hlist, ha]))
      with ⟨hp, h₁'⟩ | ⟨l₁, p, hl₁, hphi, hp⟩
    · simp only [hp]
      obtain ⟨-, hn₂, hnlt, hnb⟩ := h.neighbours hlist'
      refine h.merged_rebound (A := { s.area n with vaStart := s.lo va }) hlist'
        (show s.lo va < s.hi n by omega) hnb (fun a ha => ?_) (fun a ha => (hn₂ a ha).2) fun x =>
          show s.lo va ≤ x ∧ x < s.hi n ↔ _ by omega
      have := h₁' a ha
      rwa [hi_congr (hne a ha), lo_setStart_self] at this
    · rw [hi_congr (hne p (by simp [hl₁])), lo_setStart_self] at hphi
      simp only [hp, if_true, hi_setStart_self]
      exact h.merged_both hlt (by rw [hlist', hl₁, append_assoc, singleton_append]) hphi
        hnlo

end State

/-! ### The search -/

section Search

variable {s : VmapState} {size align length vstart v va : ℕ} {t : RbTree (ℕ × ℕ)} {p : Path (ℕ × ℕ)}
  {Q : ℕ → Prop} {a : VmapArea}

/-- The search stands at a subtree, and looks for the first area with the property `Q`: none of the
areas before the subtree has it, and `v` cuts nothing off from those that have it. -/
structure Searching (s : VmapState) (size align : ℕ) (Q : ℕ → Prop) (t : RbTree (ℕ × ℕ))
    (p : Path (ℕ × ℕ)) (v : ℕ) : Prop where
  fill : p.fill t = s.freeRoot
  before : ∀ a ∈ p.keysBefore, ¬ Q a
  after : ∀ a ∈ p.keysAfter, v < s.lo a
  within : ∀ a ∈ s.freeList, Q a → isWithinThisVa (s.area a) size align v

/-- An area has room from `v` on, and none of the areas before it has the property `Q`. -/
structure FirstMatch (s : VmapState) (size align : ℕ) (Q : ℕ → Prop) (v va : ℕ) : Prop where
  split : ∃ l₁ l₂, s.freeList = l₁ ++ va :: l₂ ∧ ∀ a ∈ l₁, ¬ Q a
  within : isWithinThisVa (s.area va) size align v

/-- Fewer areas begin behind an area than from before it on. -/
theorem countP_lt {f : ℕ → ℕ} {l : List ℕ} {a : ℕ} (ha : a ∈ l) (hv : v ≤ f a) :
    l.countP (fun b => f a + 1 ≤ f b) < l.countP fun b => v ≤ f b := by
  obtain ⟨l₁, l₂, rfl⟩ := append_of_mem ha
  have hmono (l : List ℕ) : l.countP (fun b => f a + 1 ≤ f b) ≤ l.countP fun b => v ≤ f b := by
    refine countP_mono_left fun b _ hb => ?_
    simp only [decide_eq_true_eq] at hb ⊢
    omega
  have h₁ := hmono l₁
  have h₂ := hmono l₂
  have hself : ¬ f a + 1 ≤ f a := by omega
  simp only [countP_append, countP_cons, hv, hself, decide_true, decide_false, if_true,
    Bool.false_eq_true, if_false]
  omega

theorem le_vaEnd_of_isWithin (h : isWithinThisVa a size align v) : v ≤ a.vaEnd := by
  simp only [isWithinThisVa, Bool.if_false_left, Bool.and_eq_true, Bool.not_eq_true',
    decide_eq_false_iff_not, decide_eq_true_eq, not_or, not_lt] at h
  omega

section

variable (h : s.FreeOk) (hsize : ∀ a ∈ s.freeList, Q a → 0 < length ∧ length ≤ s.vaSize a)
include h hsize

/-- A subtree that the search leaves out for its number. -/
theorem FreeOk.not_of_cachedMax_lt (hfill : p.fill t = s.freeRoot) (hmax : ¬ length ≤ t.cachedMax) :
    ∀ a ∈ t.keys, ¬ Q a := by
  intro a ha hq
  have haug := h.augmented
  rw [← hfill] at haug
  have ht : t.Augmented s.vaSize := (Path.augmentedBut_of_fill haug fun _ _ => id).1
  have hle := (hsize a (by simp [h.keys_eq hfill, ha]) hq).2
  have hlargest := le_largest s.vaSize ha
  rw [← ht.cachedMax_eq] at hlargest
  omega

/-- **The search down the tree** passes no area with the property. -/
theorem FreeOk.searchDown (hs : Searching s size align Q t p v)
    (hmax : length ≤ t.cachedMax ∨ p = .root) : match s.searchDown size align length v t p with
    | .found va => FirstMatch s size align Q v va
    | .null => ∀ a ∈ s.freeList, ¬ Q a
    | .at t' p' v' => v' = v ∧ Searching s size align Q t' p' v ∧ ∀ a ∈ t'.keys, ¬ Q a := by
  induction t generalizing p with
  | nil =>
    intro a ha hq
    rcases hmax with hmax | rfl
    · exact (hsize a ha hq).1.not_ge hmax
    · simp [h.keys_eq hs.fill] at ha
  | node c l x r ihl ihr =>
    have hlist : s.freeList = (p.keysBefore ++ l.keys) ++ x.1 :: (r.keys ++ p.keysAfter) := by
      simp [h.keys_eq hs.fill]
    obtain ⟨hbelow, habove, hlt, -⟩ := h.neighbours hlist
    rw [VmapState.searchDown]
    by_cases hleft : length ≤ l.cachedMax ∧ v < (s.area x.1).vaStart
    · rw [if_pos hleft]
      refine ihl ⟨hs.fill, hs.before, fun a ha => ?_, hs.within⟩ (.inl hleft.1)
      have hv : v < s.lo x.1 := hleft.2
      rcases mem_cons.1 (Path.keysAfter_left c x r p ▸ ha) with rfl | ha
      · exact hv
      · have := (habove a ha).2
        omega
    -- what lies to the left is too small, or ends before `v`
    have hl : ∀ a ∈ l.keys, ¬ Q a := by
      intro a ha hq
      by_cases hl : length ≤ l.cachedMax
      · have hend : v ≤ s.hi a :=
          le_vaEnd_of_isWithin (hs.within a (by simp [hlist, ha]) hq)
        have hstart : s.lo x.1 ≤ v := not_lt.1 fun hv => hleft ⟨hl, hv⟩
        have := (hbelow a (by simp [ha])).2
        omega
      · exact h.not_of_cachedMax_lt hsize (p := .left c x r p) hs.fill hl a ha hq
    have hbefore := forall_mem_append.2 ⟨hs.before, hl⟩
    split_ifs with hwithin hright
    · exact ⟨⟨_, _, hlist, hbefore⟩, hwithin⟩
    all_goals
      have hx : ¬ Q x.1 := fun hq => hwithin (hs.within x.1 (by simp [hlist]) hq)
    · refine ihr ⟨hs.fill, ?_, hs.after, hs.within⟩ (.inl hright)
      rw [Path.keysBefore_right, ← append_assoc, forall_mem_append, forall_mem_singleton]
      exact ⟨hbefore, hx⟩
    · have hr := h.not_of_cachedMax_lt hsize (p := .right c l x p) hs.fill hright
      refine ⟨rfl, hs, ?_⟩
      rw [keys_node, forall_mem_append, forall_mem_cons]
      exact ⟨hl, hx, hr⟩

variable
  (hlater : ∀ a ∈ s.freeList, Q a → ∀ v < s.lo a, isWithinThisVa (s.area a) size align v)
include hlater

/-- **The search up the tree** goes down again only to the right of an area that it passes. -/
theorem FreeOk.searchUp (hs : Searching s size align Q t p v) (ht : ∀ a ∈ t.keys, ¬ Q a) :
    match s.searchUp size align length v t p with
    | .found va => FirstMatch s size align Q v va
    | .null => ∀ a ∈ s.freeList, ¬ Q a
    | .at t' p' v' => length ≤ t'.cachedMax ∧ Searching s size align Q t' p' v' ∧
        ∃ a ∈ s.freeList, v ≤ s.lo a ∧ v' = wadd (s.lo a) 1 := by
  -- the search turns at the area `x` to the subtree `t'` on its right
  have hturn {c : Color} {l t' : RbTree (ℕ × ℕ)} {x : ℕ × ℕ} {up : Path (ℕ × ℕ)}
      (hfill : (Path.right c l x up).fill t' = s.freeRoot)
      (hbefore : ∀ a ∈ (Path.right c l x up).keysBefore, ¬ Q a) (hv : v ≤ s.lo x.1) :
      Searching s size align Q t' (.right c l x up) (wadd (s.lo x.1) 1) ∧
        ∃ a ∈ s.freeList, v ≤ s.lo a ∧ wadd (s.lo x.1) 1 = wadd (s.lo a) 1 := by
    have hlist : s.freeList = (up.keysBefore ++ l.keys) ++ x.1 :: (t'.keys ++ up.keysAfter) := by
      simp [h.keys_eq hfill]
    obtain ⟨-, habove, hlt, hb⟩ := h.neighbours hlist
    have hgt : ∀ a ∈ t'.keys ++ up.keysAfter, s.lo x.1 + 1 < s.lo a := by
      intro a ha
      have := (habove a ha).2
      omega
    refine ⟨?_, x.1, by simp [hlist], hv, rfl⟩
    rw [wadd_of_lt (by omega)]
    refine ⟨hfill, hbefore, fun a ha => hgt a (by simp_all), fun a ha hq => ?_⟩
    refine hlater a ha hq _ (hgt a ?_)
    have := hbefore a
    simp only [hlist, Path.keysBefore_right, mem_append, mem_cons] at ha this ⊢
    tauto
  induction p generalizing t with
  | root =>
    intro a ha
    exact ht a (by simpa [h.keys_eq hs.fill] using ha)
  | left c x r up ih =>
    have hlist : s.freeList = (up.keysBefore ++ t.keys) ++ x.1 :: (r.keys ++ up.keysAfter) := by
      simp [h.keys_eq hs.fill]
    have hbefore := forall_mem_append.2 ⟨hs.before, ht⟩
    rw [VmapState.searchUp]
    split_ifs with hwithin hright
    · exact ⟨⟨_, _, hlist, hbefore⟩, hwithin⟩
    all_goals
      have hx : ¬ Q x.1 := fun hq => hwithin (hs.within x.1 (by simp [hlist]) hq)
    · refine ⟨hright.1, hturn hs.fill ?_ hright.2⟩
      rw [Path.keysBefore_right, ← append_assoc, forall_mem_append, forall_mem_singleton]
      exact ⟨hbefore, hx⟩
    · have hv : v ≤ s.lo x.1 := (hs.after x.1 (by simp)).le
      have hr := h.not_of_cachedMax_lt hsize (p := .right c t x up) hs.fill
        fun hle => hright ⟨hle, hv⟩
      refine ih ⟨hs.fill, hs.before, fun a ha => hs.after a (by simp [ha]), hs.within⟩ ?_
      rw [keys_node, forall_mem_append, forall_mem_cons]
      exact ⟨ht, hx, hr⟩
  | right c l x up ih =>
    have hlist : s.freeList = (up.keysBefore ++ l.keys) ++ x.1 :: (t.keys ++ up.keysAfter) := by
      simp [h.keys_eq hs.fill]
    have hbefore := hs.before
    rw [Path.keysBefore_right, ← append_assoc, forall_mem_append, forall_mem_singleton] at hbefore
    obtain ⟨hup, hl⟩ := forall_mem_append.1 hbefore.1
    rw [VmapState.searchUp]
    split_ifs with hwithin hright
    · exact ⟨⟨_, _, hlist, hbefore.1⟩, hwithin⟩
    · exact ⟨hright.1, hturn hs.fill hs.before hright.2⟩
    · refine ih ⟨hs.fill, hup, hs.after, hs.within⟩ ?_
      rw [keys_node, forall_mem_append, forall_mem_cons]
      exact ⟨hl, hbefore.2, ht⟩

/-- **The search ends**, and it passes no area with the property. -/
theorem FreeOk.searchLoop (n : ℕ) (hs : Searching s size align Q t p v)
    (hmax : length ≤ t.cachedMax ∨ p = .root)
    (hn : s.freeList.countP (fun a => v ≤ s.lo a) < n) (hv : vstart ≤ v) :
    ∃ found, s.searchLoop size align length n t p v = .ok found ∧
      match found with
      | none => ∀ a ∈ s.freeList, ¬ Q a
      | some va => ∃ v, vstart ≤ v ∧ FirstMatch s size align Q v va := by
  induction n generalizing t p v with
  | zero => omega
  | succ n ih =>
    have hdown := h.searchDown hsize hs hmax
    rw [VmapState.searchLoop]
    cases hd : s.searchDown size align length v t p with
    | found va =>
      rw [hd] at hdown
      exact ⟨some va, rfl, v, hv, hdown⟩
    | null =>
      rw [hd] at hdown
      exact ⟨none, rfl, hdown⟩
    | «at» t' p' v' =>
      rw [hd] at hdown
      obtain ⟨rfl, hs', ht'⟩ := hdown
      have hup := h.searchUp hsize hlater hs' ht'
      dsimp only
      cases hu : s.searchUp size align length v' t' p' with
      | found va =>
        rw [hu] at hup
        exact ⟨some va, rfl, v', hv, hup⟩
      | null =>
        rw [hu] at hup
        exact ⟨none, rfl, hup⟩
      | «at» t'' p'' v'' =>
        rw [hu] at hup
        obtain ⟨hmax'', hs'', a, ha, hva, rfl⟩ := hup
        have hlt := h.lt a ha
        have hb := h.bound a ha
        rw [wadd_of_lt (by omega)] at hs'' ⊢
        have hcount := countP_lt (f := s.lo) ha hva
        exact ih hs'' (.inl hmax'') (by omega) (by omega)

end

/-- The area has room for an aligned range from `vstart` on. -/
def Fits (s : VmapState) (size align vstart a : ℕ) : Prop :=
  ∃ x, align ∣ x ∧ vstart ≤ x ∧ s.lo a ≤ x ∧ x + size ≤ s.hi a

/-- The address in an area is the lowest one. -/
theorem nvaStartAddr_le {x : ℕ} (hk : k < 32) (hx : 2 ^ k ∣ x) (hlt : x < wordSize) (hv : v ≤ x)
    (ha : a.vaStart ≤ x) :
    nvaStartAddr a (2 ^ k) v ≤ x ∧ v ≤ nvaStartAddr a (2 ^ k) v ∧
      a.vaStart ≤ nvaStartAddr a (2 ^ k) v := by
  rw [nvaStartAddr]
  split
  · have := alignUp_le_of_dvd hk ha hx hlt
    omega
  · have := alignUp_le_of_dvd hk hv hx hlt
    omega

theorem Fits.isWithin {a : ℕ} (hf : s.Fits size (2 ^ k) vstart a) (hk : k < 32)
    (hb : s.hi a < wordSize) (hv : v ≤ vstart ∨ v < s.lo a) :
    isWithinThisVa (s.area a) size (2 ^ k) v := by
  obtain ⟨x, hx, hstart, hlo, hend⟩ := hf
  obtain ⟨hle, hge, -⟩ := nvaStartAddr_le (v := v) hk hx (by omega) (by omega) hlo
  have hhi : (s.area a).vaEnd = s.hi a := rfl
  rw [isWithinThisVa, wadd_of_lt (by omega), if_neg (by omega), hhi]
  exact decide_eq_true (by omega)

theorem Fits.le_vaSize {a : ℕ} (hf : s.Fits size align vstart a) (hb : s.hi a < wordSize) :
    size ≤ s.vaSize a := by
  obtain ⟨x, -, -, hlo, hend⟩ := hf
  have hsize : s.vaSize a = s.hi a - s.lo a := wsub_of_le (show s.lo a ≤ s.hi a by omega) hb
  omega

/-- **Room in an area from a later address on is room from the requested address on**, because
alignment is monotone. -/
theorem room_of_isWithin (hk : k < 32) (hsize : size < wordSize) (hv : vstart ≤ v)
    (hw : isWithinThisVa a size (2 ^ k) v) :
    nvaStartAddr a (2 ^ k) vstart + size ≤ a.vaEnd ∧
      (a.vaStart ≤ nvaStartAddr a (2 ^ k) vstart → vstart ≤ nvaStartAddr a (2 ^ k) vstart) := by
  have hlt (x : ℕ) : alignUp x (2 ^ k) < wordSize :=
    Nat.and_le_left.trans_lt (Nat.mod_lt _ (by decide))
  simp only [isWithinThisVa, Bool.if_false_left, Bool.and_eq_true, Bool.not_eq_true',
    decide_eq_false_iff_not, decide_eq_true_eq, not_or, not_lt] at hw
  obtain ⟨⟨hwrap, hle⟩, hend⟩ := hw
  have hroom : nvaStartAddr a (2 ^ k) v + size ≤ a.vaEnd := by
    have haddr : nvaStartAddr a (2 ^ k) v < wordSize := by
      unfold nvaStartAddr
      split <;> exact hlt _
    by_cases hover : nvaStartAddr a (2 ^ k) v + size < wordSize
    · rwa [wadd_of_lt hover] at hend
    · rw [wadd, Nat.mod_eq_sub_mod (by omega), Nat.mod_eq_of_lt (by omega)] at hwrap
      omega
  by_cases hstart : v < a.vaStart
  · -- the area begins behind both addresses
    have heq : nvaStartAddr a (2 ^ k) vstart = nvaStartAddr a (2 ^ k) v := by
      rw [nvaStartAddr, nvaStartAddr, if_pos hstart, if_pos (by omega)]
    rw [heq]
    exact ⟨hroom, fun h => by omega⟩
  · have hv' : nvaStartAddr a (2 ^ k) v = alignUp v (2 ^ k) := if_neg hstart
    rw [hv'] at hroom hle
    have hnowrap := add_lt_of_le_alignUp hk (by have := hlt v; omega) hle
    have hmono : nvaStartAddr a (2 ^ k) vstart ≤ alignUp v (2 ^ k) := by
      unfold nvaStartAddr
      split
      · exact alignUp_mono hk (by omega) hnowrap
      · exact alignUp_mono hk hv hnowrap
    refine ⟨by omega, fun h => ?_⟩
    by_cases hvs : vstart < a.vaStart
    · omega
    · rw [nvaStartAddr, if_neg hvs]
      exact le_alignUp hk (by omega)

end Search

/-! ### Allocation -/

section Alloc

variable {s t : VmapState} {va addr size align vstart vend : ℕ} {l₁ l₂ : List ℕ} {lva : ℕ}

/-- The names of the areas. -/
structure Named (s : VmapState) : Prop where
  free : ∀ a ∈ s.freeList, a < s.next ∧ a ∉ s.busyList
  busy : ∀ a ∈ s.busyList, a < s.next
  preload : ∀ a ∈ s.preload, a < s.next ∧ a ∉ s.freeList ∧ a ∉ s.busyList

/-- What an allocation does to the free areas. -/
structure Carved (s t : VmapState) (addr size : ℕ) : Prop where
  ok : t.FreeOk
  covers : ∀ x, s.Covers s.freeList x ↔ t.Covers t.freeList x ∨ addr ≤ x ∧ x < addr + size
  apart : ∀ x, ¬ (t.Covers t.freeList x ∧ addr ≤ x ∧ x < addr + size)
  names : t.Named
  area : ∀ a ∈ s.busyList, t.area a = s.area a
  busyRoot : t.busyRoot = s.busyRoot
  busyList : t.busyList = s.busyList

/-- The addresses of an area are in no other free area. -/
theorem FreeOk.not_covers (h : s.FreeOk) (hlist : s.freeList = l₁ ++ va :: l₂) (x : ℕ) :
    ¬ (s.Covers (l₁ ++ l₂) x ∧ s.lo va ≤ x ∧ x < s.hi va) := by
  obtain ⟨h₁, h₂, -, -⟩ := h.neighbours hlist
  rintro ⟨⟨a, ha, hx⟩, hva⟩
  rcases mem_append.1 ha with ha | ha
  · have := (h₁ a ha).2
    omega
  · have := (h₂ a ha).2
    omega

theorem FreeOk.carved_full (h : s.FreeOk) (hn : s.Named) (hlist : s.freeList = l₁ ++ va :: l₂)
    (hlo : s.lo va = addr) (hhi : s.hi va = addr + size) :
    Carved s (s.unlinkFree va) addr size := by
  subst hlo
  obtain ⟨hok, herase⟩ := h.unlink hlist rfl rfl fun a _ => rfl
  have hcov : ∀ x, (s.unlinkFree va).Covers (s.unlinkFree va).freeList x ↔ s.Covers (l₁ ++ l₂) x :=
    fun x => by
      rw [herase]
      exact covers_congr fun a _ => rfl
  have hsub : ∀ a ∈ (s.unlinkFree va).freeList, a ∈ s.freeList := by
    rw [herase, hlist]
    exact sublist_middle.subset
  refine ⟨hok, fun x => ?_, fun x => ?_, ⟨fun a ha => hn.free a (hsub a ha), hn.busy,
    fun a ha => ?_⟩, fun a _ => rfl, rfl, rfl⟩
  · rw [hcov, hlist, ← hhi, covers_middle]
  · rw [hcov, ← hhi]
    exact h.not_covers hlist x
  · obtain ⟨hlt, hf, hb⟩ := hn.preload a ha
    exact ⟨hlt, fun hmem => hf (hsub a hmem), hb⟩

/-- The free area keeps one side of what it was. -/
theorem FreeOk.carved_rebound {A : VmapArea} (h : s.FreeOk) (hn : s.Named)
    (hlist : s.freeList = l₁ ++ va :: l₂) (hA : A.vaStart < A.vaEnd)
    (hsize : 0 < size) (hside : s.lo va = addr ∧ A.vaStart = addr + size ∧ A.vaEnd = s.hi va ∨
      A.vaStart = s.lo va ∧ A.vaEnd = addr ∧ s.hi va = addr + size) :
    Carved s ((s.setArea va A).augmentTreePropagateFrom va) addr size := by
  obtain ⟨h₁, h₂, hlt, hb⟩ := h.neighbours hlist
  obtain ⟨hok, hcov⟩ := h.rebound hlist hA (by omega)
    (fun a ha => by have := (h₁ a ha).2; omega) fun a ha => by have := (h₂ a ha).2; omega
  refine ⟨hok, fun x => ?_, fun x => ?_, { hn with }, fun a ha => ?_, rfl, rfl⟩
  · rw [hcov, hlist, covers_middle, or_assoc]
    exact or_congr_right (by omega)
  · rw [hcov]
    rintro ⟨hfree | hfree, hx⟩
    · exact h.not_covers hlist x ⟨hfree, by omega⟩
    · omega
  · refine area_setArea_ne fun hne => ?_
    subst hne
    exact (hn.free a (by simp [hlist])).2 ha

/-- The second area of a split is none of the areas in use. -/
theorem takeSplitArea_spec {memory : Option ℕ} (hn : s.Named)
    (h : s.takeSplitArea memory = some (lva, t)) :
    lva < t.next ∧ lva ∉ s.freeList ∧ lva ∉ s.busyList ∧ t.preload = none ∧ s.next ≤ t.next ∧
      t.freeRoot = s.freeRoot ∧ t.freeList = s.freeList ∧ t.busyRoot = s.busyRoot ∧
      t.busyList = s.busyList ∧ ∀ a < s.next, t.area a = s.area a := by
  unfold takeSplitArea at h
  split at h
  next lva' hp =>
    cases h
    obtain ⟨hlt, hf, hb⟩ := hn.preload lva hp
    exact ⟨hlt, hf, hb, rfl, le_rfl, rfl, rfl, rfl, rfl, fun _ _ => rfl⟩
  next hp =>
    obtain ⟨w, -, hw⟩ := Option.map_eq_some_iff.1 h
    cases hw
    exact ⟨Nat.lt_succ_self _, fun hmem => (hn.free _ hmem).1.false,
      fun hmem => (hn.busy _ hmem).false, hp, Nat.le_succ _, rfl, rfl, rfl, rfl,
      fun a ha => area_setArea_ne ha.ne⟩

section

variable (h : s.FreeOk)
include h

/-- **The lower part of a split area is put in next to the upper part**, with a search that begins
at the upper part. -/
theorem FreeOk.insertBelow (hva : va ∈ s.freeList) (hlva : lva ∉ s.freeList)
    (hlt : s.lo lva < s.hi lva) (hb : s.hi lva < wordSize)
    (hbelow : ∀ l₁ l₂, s.freeList = l₁ ++ va :: l₂ → ∀ a ∈ l₁, s.hi a < s.lo lva)
    (habove : s.hi lva < s.lo va) : Merged s (s.insertVmapAreaAugment lva (some va)) lva := by
  cases hloc : s.freeRoot.locateKey va .root with
  | none => exact absurd (h.keys ▸ hva) (locateKey_eq_none hloc)
  | some place =>
    obtain ⟨p, c, l, m, r⟩ := place
    have hlist := h.keys ▸ keys_locateKey hloc
    have hleft := hbelow _ _ hlist
    have hright : ∀ a ∈ r.keys ++ p.keysAfter, s.hi lva < s.lo a := fun a ha =>
      habove.trans ((h.lt va hva).trans ((h.neighbours hlist).2.1 a ha).2)
    have hside : ∀ a ∈ s.freeList, s.hi a < s.lo lva ∨ s.hi lva < s.lo a := by
      rw [hlist, forall_mem_append, forall_mem_cons]
      exact ⟨fun a ha => .inl (hleft a ha), .inr habove, fun a ha => .inr (hright a ha)⟩
    obtain ⟨q, hq, hm⟩ := h.merged_apart hlva hlt hb hside (fill_locateKey hloc)
      (fun a ha => (hleft a (mem_append_left _ ha)).le)
      fun a ha => (hright a (mem_append_right _ ha)).le
    simpa only [insertVmapAreaAugment, hloc, Option.bind_some, hq] using hm

/-- The two parts of a split area. The lower part has its bounds already. -/
theorem FreeOk.split (hva : va ∈ s.freeList) (hlva : lva ∉ s.freeList) (hlo : s.lo lva = s.lo va)
    (hhi : s.hi lva = addr) (hlt : s.lo va < addr) (hsize : 0 < size)
    (hend : addr + size < s.hi va) :
    let t := ((s.setStart va (addr + size)).augmentTreePropagateFrom va).insertVmapAreaAugment
      lva (some va)
    t.FreeOk ∧ (∀ x, s.Covers s.freeList x ↔ t.Covers t.freeList x ∨ addr ≤ x ∧ x < addr + size) ∧
      (∀ x, ¬ (t.Covers t.freeList x ∧ addr ≤ x ∧ x < addr + size)) ∧
      ∃ u, Merged u t lva ∧ u.freeList = s.freeList ∧ (∀ a, a ≠ va → u.area a = s.area a) ∧
        u.busyRoot = s.busyRoot ∧ u.busyList = s.busyList ∧ u.preload = s.preload ∧
        u.next = s.next := by
  intro t
  obtain ⟨l₁, l₂, hlist⟩ := append_of_mem hva
  obtain ⟨h₁, h₂, -, hb⟩ := h.neighbours hlist
  have hvalva : lva ≠ va := fun hne => hlva (hne ▸ hva)
  obtain ⟨hok, hcov⟩ := h.rebound (A := { s.area va with vaStart := addr + size }) hlist hend hb
    (fun a ha => (h₁ a ha).2.trans (show s.lo va < addr + size by omega)) fun a ha => (h₂ a ha).2
  let u := (s.setStart va (addr + size)).augmentTreePropagateFrom va
  have hcov : ∀ x, u.Covers u.freeList x ↔
      s.Covers (l₁ ++ l₂) x ∨ addr + size ≤ x ∧ x < s.hi va := hcov
  have hu : ∀ a, a ≠ va → u.area a = s.area a := fun a hne => area_setArea_ne hne
  have hulo : u.lo lva = s.lo va := (lo_congr (hu lva hvalva)).trans hlo
  have huhi : u.hi lva = addr := (hi_congr (hu lva hvalva)).trans hhi
  have huva : u.lo va = addr + size := lo_setStart_self (s := s)
  have hframe : u.freeList = s.freeList ∧ u.busyRoot = s.busyRoot ∧ u.busyList = s.busyList ∧
      u.preload = s.preload ∧ u.next = s.next := ⟨rfl, rfl, rfl, rfl, rfl⟩
  have hm : Merged u t lva := by
    refine FreeOk.insertBelow hok hva hlva (by omega) (by omega) (fun m₁ m₂ hm a ha => ?_)
      (by omega)
    obtain ⟨hne, hlt⟩ := (h.neighbours hm).1 a ha
    rw [hi_congr (hu a hne), hulo]
    exact hlt
  clear_value t u
  refine ⟨hm.ok, fun x => ?_, fun x => ?_, u, hm, hframe.1, hu, hframe.2⟩
  · rw [hm.covers, hcov, hulo, huhi, hlist, covers_middle, or_assoc, or_assoc]
    exact or_congr_right (by omega)
  · rw [hm.covers, hcov, hulo, huhi]
    rintro ⟨(hfree | hfree) | hfree, hx⟩
    · exact h.not_covers hlist x ⟨hfree, by omega⟩
    · omega
    · omega

/-- An allocation from the middle of a free area splits the area. -/
theorem FreeOk.carved_middle {memory : Option ℕ} (hn : s.Named) (hva : va ∈ s.freeList)
    (hsplit : s.takeSplitArea memory = some (lva, t)) (hlo : s.lo va < addr) (hsize : 0 < size)
    (hhi : addr + size < s.hi va) :
    Carved s (((((t.setStart lva (t.lo va)).setEnd lva addr).setStart va
      (addr + size)).augmentTreePropagateFrom va).insertVmapAreaAugment lva (some va)) addr
      size := by
  obtain ⟨hlt, hlf, hlb, hpre, hnext, hroot, hfree, hbroot, hbusy, harea⟩ :=
    takeSplitArea_spec hn hsplit
  let u := (t.setStart lva (t.lo va)).setEnd lva addr
  have hu : ∀ a < s.next, a ≠ lva → u.area a = s.area a := fun a ha hne =>
    (area_setArea_ne hne).trans ((area_setArea_ne hne).trans (harea a ha))
  have hufree : ∀ a ∈ s.freeList, u.area a = s.area a := fun a ha =>
    hu a (hn.free a ha).1 fun hne => hlf (hne ▸ ha)
  have hulo : u.lo lva = u.lo va := by
    rw [lo_congr (hufree va hva)]
    simp only [u, lo, setEnd, setStart, area_setArea_self]
    exact congrArg VmapArea.vaStart (harea va (hn.free va hva).1)
  have huhi : u.hi lva = addr := by simp only [u, hi, setEnd, area_setArea_self]
  have huok : u.FreeOk := h.congr hroot hfree hufree
  obtain ⟨hok, hcov, hapart, w, hm, hwfree, hwarea, hwroot, hwbusy, hwpre, hwnext⟩ :=
    huok.split (hfree ▸ hva) (hfree ▸ hlf) hulo huhi (by rwa [lo_congr (hufree va hva)]) hsize
      (by rwa [hi_congr (hufree va hva)])
  have hwlist : w.freeList = s.freeList := hwfree.trans hfree
  have hwb : w.busyList = s.busyList := hwbusy.trans hbusy
  have hwn : s.next ≤ w.next := hnext.trans_eq hwnext.symm
  refine ⟨hok, fun x => ?_, hapart, ⟨fun a ha => ?_, fun a ha => ?_, fun a ha => ?_⟩,
    fun a ha => ?_, hm.busyRoot.trans (hwroot.trans hbroot), hm.busyList.trans hwb⟩
  · rw [← hcov, ← covers_congr hufree]
    exact iff_of_eq (congrArg (fun l => u.Covers l x) hfree.symm)
  · rw [hm.next, hm.busyList, hwb]
    rcases hm.mem a ha with ha | rfl
    · rw [hwlist] at ha
      exact ⟨(hn.free a ha).1.trans_le hwn, (hn.free a ha).2⟩
    · exact ⟨hlt.trans_eq hwnext.symm, hlb⟩
  · rw [hm.busyList, hwb] at ha
    rw [hm.next]
    exact (hn.busy a ha).trans_le hwn
  · rw [hm.preload, hwpre] at ha
    exact absurd (hpre ▸ ha) (by simp)
  · have hne : a ≠ va := fun hne => (hn.free va hva).2 (hne ▸ ha)
    have hnf : a ∉ w.freeList := fun hf => (hn.free a (hwlist ▸ hf)).2 ha
    rw [hm.area a hnf, hwarea a hne, hu a (hn.busy a ha) fun hne => hlb (hne ▸ ha)]

theorem FreeOk.classifyVaFitType_eq (hva : va ∈ s.freeList) (hroom : addr + size ≤ s.hi va) :
    classifyVaFitType (s.area va) addr size =
      if addr < s.lo va then .nothing
      else if s.lo va = addr then if s.hi va = addr + size then .full else .left
      else if s.hi va = addr + size then .right else .middle := by
  have hb := h.bound va hva
  have hend : ¬ (s.area va).vaEnd < addr + size := not_lt.2 hroom
  simp only [classifyVaFitType, wadd_of_lt (a := addr) (b := size) (by omega), hend, or_false]
  rfl

/-- An area that has room gives the range, or nothing is changed. -/
theorem FreeOk.adjust (hn : s.Named) (hva : va ∈ s.freeList) (hsize : 0 < size)
    (hroom : addr + size ≤ s.hi va) (memory : Option ℕ)
    (ht : s.adjustVaToFitType va addr size (classifyVaFitType (s.area va) addr size) memory =
      some t) : s.lo va ≤ addr ∧ Carved s t addr size := by
  obtain ⟨l₁, l₂, hlist⟩ := append_of_mem hva
  have hb := h.bound va hva
  have hadd : wadd addr size = addr + size := wadd_of_lt (by omega)
  rw [h.classifyVaFitType_eq hva hroom] at ht
  split_ifs at ht with hlt hleft hright hright
  · cases ht
  · cases ht
    exact ⟨hleft.le, h.carved_full hn hlist hleft hright⟩
  · have hA : wadd (s.lo va) size = addr + size := by rw [hleft, hadd]
    have ht : (s.setStart va (wadd (s.lo va) size)).augmentTreePropagateFrom va = t :=
      Option.some.inj ht
    rw [hA] at ht
    subst ht
    exact ⟨hleft.le, h.carved_rebound hn hlist (show addr + size < s.hi va by omega) hsize
      (.inl ⟨hleft, rfl, rfl⟩)⟩
  · cases ht
    exact ⟨by omega, h.carved_rebound hn hlist (show s.lo va < addr by omega) hsize
      (.inr ⟨rfl, rfl, hright⟩)⟩
  · obtain ⟨⟨lva, u⟩, hu, ht⟩ := Option.map_eq_some_iff.1 ht
    subst ht
    rw [hadd]
    exact ⟨by omega, h.carved_middle hn hva hu (by omega) hsize (by omega)⟩

/-- **What `__alloc_vmap_area` does with the area that the search finds.** -/
theorem FreeOk.allocFromFree_eq (hk : k < 32) (hsize : 0 < size) (hsize' : size < wordSize)
    (vstart vend : ℕ) (memory : Option ℕ) :
    (s.allocFromFree size (2 ^ k) vstart vend memory = .ok (vend, s) ∧
        (2 ^ k ≤ pageSize → ∀ a ∈ s.freeList, ¬ s.Fits size (2 ^ k) vstart a)) ∨
      ∃ va l₁ l₂, s.freeList = l₁ ++ va :: l₂ ∧
        (2 ^ k ≤ pageSize → ∀ a ∈ l₁, ¬ s.Fits size (2 ^ k) vstart a) ∧
        let addr := nvaStartAddr (s.area va) (2 ^ k) vstart
        addr + size ≤ s.hi va ∧ (s.lo va ≤ addr → vstart ≤ addr) ∧
          s.allocFromFree size (2 ^ k) vstart vend memory =
            .ok (if vend < addr + size then (vend, s)
              else match s.adjustVaToFitType va addr size
                (classifyVaFitType (s.area va) addr size) memory with
              | none => (vend, s)
              | some t => (addr, t)) := by
  let Q a := 2 ^ k ≤ pageSize ∧ s.Fits size (2 ^ k) vstart a
  have hlater : ∀ a ∈ s.freeList, Q a → ∀ v, v ≤ vstart ∨ v < s.lo a →
      isWithinThisVa (s.area a) size (2 ^ k) v := fun a ha hq v hv =>
    hq.2.isWithin hk (h.bound a ha) hv
  let length := if ! decide (2 ^ k ≤ pageSize ∨ pageSize < 2 ^ k ∧ wsub vend vstart = size) then
    wsub (wadd size (2 ^ k)) 1 else size
  have hlength : ∀ a ∈ s.freeList, Q a → 0 < length ∧ length ≤ s.vaSize a := fun a ha hq => by
    have hlen := hq.2.le_vaSize (h.bound a ha)
    simpa [length, hq.1] using ⟨hsize, hlen⟩
  obtain ⟨found, hfound, hfirst⟩ := h.searchLoop (Q := Q) (p := .root) (v := vstart) hlength
    (fun a ha hq v hv => hlater a ha hq v (.inr hv)) _
    ⟨rfl, by simp, by simp, fun a ha hq => hlater a ha hq _ (.inl le_rfl)⟩ (.inr rfl)
    (Nat.lt_succ_of_le (countP_le_length ..)) le_rfl
  simp only [length] at hfound
  simp only [VmapState.allocFromFree, VmapState.findVmapLowestMatch, hfound, Except.map]
  cases found with
  | none => exact .inl ⟨rfl, fun hle a ha hf => hfirst a ha ⟨hle, hf⟩⟩
  | some va =>
    obtain ⟨v, hv, ⟨l₁, l₂, hlist, hno⟩, hw⟩ := hfirst
    obtain ⟨hroom, hle⟩ := room_of_isWithin hk hsize' hv hw
    have hb := h.bound va (by simp [hlist])
    have hroom' : nvaStartAddr (s.area va) (2 ^ k) vstart + size ≤ s.hi va := hroom
    dsimp only
    rw [wadd_of_lt (by omega)]
    exact .inr ⟨va, l₁, l₂, hlist, fun hle a ha hf => hno a ha ⟨hle, hf⟩, hroom, hle, rfl⟩

/-- **An allocation takes its range from what is free, or changes nothing.** It always comes
back. -/
theorem FreeOk.allocFromFree (hn : s.Named) (hk : k < 32) (hsize : 0 < size)
    (hsize' : size < wordSize) (vstart vend : ℕ) (memory : Option ℕ) :
    ∃ r t, s.allocFromFree size (2 ^ k) vstart vend memory = .ok (r, t) ∧
      (r = vend ∧ t = s ∨ r + size ≤ vend ∧ vstart ≤ r ∧ 2 ^ k ∣ r ∧ r + size < wordSize ∧
        Carved s t r size) := by
  rcases h.allocFromFree_eq hk hsize hsize' vstart vend memory with
    ⟨heq, -⟩ | ⟨va, l₁, l₂, hlist, -, hroom, hle, heq⟩
  · exact ⟨vend, s, heq, .inl ⟨rfl, rfl⟩⟩
  · rw [heq]
    have hva : va ∈ s.freeList := by simp [hlist]
    have hb := h.bound va hva
    split_ifs with hend
    · exact ⟨vend, s, rfl, .inl ⟨rfl, rfl⟩⟩
    · cases ht : s.adjustVaToFitType va (nvaStartAddr (s.area va) (2 ^ k) vstart) size
        (classifyVaFitType (s.area va) (nvaStartAddr (s.area va) (2 ^ k) vstart) size) memory with
      | none => exact ⟨vend, s, rfl, .inl ⟨rfl, rfl⟩⟩
      | some t =>
        obtain ⟨hlo, hcarved⟩ := h.adjust hn hva hsize hroom memory ht
        refine ⟨_, t, rfl, .inr ⟨not_lt.1 hend, hle hlo, ?_, by omega, hcarved⟩⟩
        unfold nvaStartAddr
        split <;> exact dvd_alignUp hk

end

end Alloc

/-! ### The allocated areas -/

section Busy

variable {s t : VmapState} {va : ℕ}

/-- An area that overlaps with no allocated area is put in. -/
theorem BusyOk.insert (h : s.BusyOk) (va : ℕ) (hlt : s.lo va < s.hi va) (hb : s.hi va < wordSize)
    (hd : ∀ a ∈ s.busyList, s.hi a ≤ s.lo va ∨ s.hi va ≤ s.lo a) :
    ∃ q, s.insertVmapArea va = s.linkBusy va q ∧ (s.linkBusy va q).BusyOk ∧
      ∃ l₁ l₂, s.busyList = l₁ ++ l₂ ∧ (s.linkBusy va q).busyList = l₁ ++ va :: l₂ := by
  have hord : Ordered s.lo s.hi s.busyRoot.toList := by
    rw [h.keys]
    exact h.ordered
  obtain ⟨q, l₁, l₂, hq, -, hlist, hbef, haft, h₁, h₂⟩ := findVaLinks_eq hlt hord
    (by rwa [h.keys]) .root
  have hplace : s.insertVmapArea va = s.linkBusy va q := by
    have hq' : findVaLinks (fun x => (s.area x).vaStart) (fun x => (s.area x).vaEnd)
      (s.area va).vaStart (s.area va).vaEnd s.busyRoot .root = some q := hq
    rw [insertVmapArea, hq']
  rw [h.keys] at hlist
  simp only [Path.before_root, nil_append, Path.after_root, append_nil] at hbef haft
  have hnodup := h.ordered.nodup
  have hlink : (s.linkBusy va q).busyList = l₁ ++ va :: l₂ := by
    change linkList id va s.busyList q = _
    have := linkList_eq id va q (by simpa [hbef, haft, ← hlist] using hnodup)
    simpa [hbef, haft, ← hlist] using this
  refine ⟨q, hplace, ⟨?_, ?_, fun a ha => ?_⟩, l₁, l₂, hlist, hlink⟩
  · rw [hlink]
    change (insertAt q va).toList = _
    rw [toList_insertAt, hbef, haft]
  · rw [hlink]
    exact Ordered.insert (hlist ▸ h.ordered) hlt h₁ h₂
  · rw [hlink] at ha
    rcases mem_append.1 ha with ha | ha
    · exact h.bound a (by simp [hlist, ha])
    · rcases mem_cons.1 ha with rfl | ha
      · exact hb
      · exact h.bound a (by simp [hlist, ha])

theorem BusyOk.unlink {l₁ l₂ : List ℕ} (h : s.BusyOk) (hlist : s.busyList = l₁ ++ va :: l₂) :
    (s.unlinkBusy va).BusyOk ∧ (s.unlinkBusy va).busyList = l₁ ++ l₂ := by
  have hnodup := h.ordered.nodup
  have herase : (s.unlinkBusy va).busyList = l₁ ++ l₂ := by
    change s.busyList.erase va = _
    rw [hlist]
    exact erase_middle (hlist ▸ hnodup)
  have hsub : (l₁ ++ l₂).Sublist s.busyList := hlist ▸ sublist_middle
  refine ⟨⟨?_, ?_, fun a ha => ?_⟩, herase⟩
  · change (s.busyRoot.erase va).toList = s.busyList.erase va
    rw [toList_erase (h.keys ▸ hnodup), h.keys]
  · rw [herase]
    exact h.ordered.sublist hsub
  · rw [herase] at ha
    exact h.bound a (hsub.subset ha)

end Busy

end VmapState

/-! ### The invariant -/

open VmapState

/-- **The invariant.** The free areas and the allocated areas are in order and make up the
ranges. -/
structure VmapOk (ranges : List (ℕ × ℕ)) (s : VmapState) : Prop where
  free : s.FreeOk
  busy : s.BusyOk
  names : s.Named
  /-- No address is both free and allocated. -/
  disjoint : ∀ x, ¬ (s.Covers s.freeList x ∧ s.Covers s.busyList x)
  /-- The free and the allocated addresses are those of the ranges. -/
  cover : ∀ x, s.Covers s.freeList x ∨ s.Covers s.busyList x ↔ ∃ r ∈ ranges, r.1 ≤ x ∧ x < r.2

variable {ranges : List (ℕ × ℕ)} {s t : VmapState}

theorem VmapOk.preloadThisCpu (h : VmapOk ranges s) (memory : Option ℕ) :
    VmapOk ranges (s.preloadThisCpu memory) := by
  unfold VmapState.preloadThisCpu
  split
  next w hp =>
    have harea : ∀ a < s.next, (s.newArea w).area a = s.area a := fun a ha => area_setArea_ne ha.ne
    have hf : ∀ a ∈ s.freeList, (s.newArea w).area a = s.area a := fun a ha =>
      harea a (h.names.free a ha).1
    have hb : ∀ a ∈ s.busyList, (s.newArea w).area a = s.area a := fun a ha =>
      harea a (h.names.busy a ha)
    refine ⟨h.free.congr rfl rfl hf, h.busy.congr rfl rfl hb, ⟨fun a ha => ?_, fun a ha => ?_,
      fun a ha => ?_⟩, fun x => ?_, fun x => ?_⟩
    · exact ⟨(h.names.free a ha).1.trans (Nat.lt_succ_self _), (h.names.free a ha).2⟩
    · exact (h.names.busy a ha).trans (Nat.lt_succ_self _)
    · obtain rfl := Option.mem_some.1 ha
      exact ⟨Nat.lt_succ_self _, fun hmem => (h.names.free _ hmem).1.false,
        fun hmem => (h.names.busy _ hmem).false⟩
    · have := h.disjoint x
      rwa [← covers_congr hf, ← covers_congr hb] at this
    · have := h.cover x
      rwa [← covers_congr hf, ← covers_congr hb] at this
  next => exact h

/-- Two ranges that share no address lie one after the other. -/
theorem apart_of_not_both {a b c d : ℕ} (hab : a < b) (hcd : c < d)
    (h : ∀ x, ¬ ((a ≤ x ∧ x < b) ∧ c ≤ x ∧ x < d)) : b ≤ c ∨ d ≤ a := by
  by_contra hn
  exact h (max a c) (by omega)

section

variable (h : VmapOk ranges s)
include h

/-- A range that was cut off the free areas becomes an allocated area with a new name. -/
theorem VmapOk.insertVmapArea {u w : VmapState} {addr size : ℕ}
    (hcut : Carved s u addr size) (hsize : 0 < size) (hword : addr + size < wordSize)
    (hroot : w.freeRoot = u.freeRoot) (hfree : w.freeList = u.freeList)
    (hbroot : w.busyRoot = u.busyRoot) (hbusy : w.busyList = u.busyList)
    (hpre : w.preload = u.preload) (hnext : w.next = u.next + 1)
    (harea : ∀ a < u.next, w.area a = u.area a) (hlo : w.lo u.next = addr)
    (hhi : w.hi u.next = addr + size) : VmapOk ranges (w.insertVmapArea u.next) := by
  have hwfree : ∀ a ∈ u.freeList, w.area a = u.area a := fun a ha =>
    harea a (hcut.names.free a ha).1
  have hwbusy : ∀ a ∈ s.busyList, w.area a = s.area a := fun a ha =>
    (harea a (hcut.names.busy a (hcut.busyList ▸ ha))).trans (hcut.area a ha)
  have hwb : w.busyList = s.busyList := hbusy.trans hcut.busyList
  have hbusyOk : w.BusyOk := h.busy.congr (hbroot.trans hcut.busyRoot) hwb hwbusy
  have hout : ∀ x, ¬ (w.Covers w.busyList x ∧ addr ≤ x ∧ x < addr + size) := by
    rintro x ⟨hb, hx⟩
    rw [hwb, covers_congr hwbusy] at hb
    exact h.disjoint x ⟨(hcut.covers x).2 (.inr hx), hb⟩
  obtain ⟨q, hq, hok, l₁, l₂, hsplit, hlink⟩ := hbusyOk.insert u.next (by omega) (by omega)
    fun a ha => by
      rw [hlo, hhi]
      refine apart_of_not_both (hbusyOk.ordered.lt a ha) (by omega) fun x hx => ?_
      exact hout x ⟨⟨a, ha, hx.1⟩, hx.2⟩
  have hfreeCov : ∀ x, (w.linkBusy u.next q).Covers w.freeList x ↔ u.Covers u.freeList x :=
    fun x => by
      rw [hfree]
      exact covers_congr hwfree
  have hbusyCov : ∀ x, (w.linkBusy u.next q).Covers (w.linkBusy u.next q).busyList x ↔
      s.Covers s.busyList x ∨ addr ≤ x ∧ x < addr + size := fun x => by
    rw [hlink, ← covers_congr hwbusy, ← hwb, hsplit, ← hhi, ← hlo]
    exact covers_place fun a _ => rfl
  have hmem : ∀ a, a ∈ (w.linkBusy u.next q).busyList ↔ a ∈ u.busyList ∨ a = u.next := fun a => by
    rw [hlink, ← hbusy, hsplit]
    simp
    tauto
  rw [hq]
  refine ⟨hcut.ok.congr hroot hfree hwfree, hok, ⟨fun a ha => ?_, fun a ha => ?_, fun a ha => ?_⟩,
    fun x => ?_, fun x => ?_⟩
  · obtain ⟨hlt, hb⟩ := hcut.names.free a (hfree ▸ ha)
    rw [hmem]
    exact ⟨hlt.trans (hnext ▸ Nat.lt_succ_self _), not_or.2 ⟨hb, hlt.ne⟩⟩
  · have hlt : a < u.next + 1 := by
      rcases (hmem a).1 ha with ha | rfl
      · exact (hcut.names.busy a ha).trans (Nat.lt_succ_self _)
      · exact Nat.lt_succ_self _
    exact hlt.trans_eq hnext.symm
  · obtain ⟨hlt, hf, hb⟩ := hcut.names.preload a (hpre ▸ ha)
    rw [hmem]
    exact ⟨hlt.trans (hnext ▸ Nat.lt_succ_self _), hfree ▸ hf, not_or.2 ⟨hb, hlt.ne⟩⟩
  · rintro ⟨hf, hb⟩
    rw [hbusyCov] at hb
    have hf := (hfreeCov x).1 hf
    rcases hb with hb | hb
    · exact h.disjoint x ⟨(hcut.covers x).2 (.inl hf), hb⟩
    · exact hcut.apart x ⟨hf, hb⟩
  · rw [hbusyCov, ← h.cover, hcut.covers]
    exact (or_congr_left (hfreeCov x)).trans (iff_of_eq (by ac_rfl))

/-- **An allocation keeps the invariant**, and comes back for every legal request. -/
theorem VmapOk.allocVmapArea {size align : ℕ} (hk : k < 32)
    (halign : align = 2 ^ k) (hpow : isPowerOf2 align) (hsize : 0 < size) (hsize' : size < wordSize)
    (hpage : offsetInPage size = 0) (vstart vend : ℕ) (memory : VmapMemory) :
    ∃ r t, s.allocVmapArea size align vstart vend memory = .ok (r, t) ∧ VmapOk ranges t := by
  have hs₁ := h.preloadThisCpu memory.preload
  obtain ⟨addr, u, halloc, hcase⟩ := hs₁.free.allocFromFree hs₁.names hk hsize hsize' vstart vend
    memory.split
  rw [VmapState.allocVmapArea, if_neg (by simp [hpage, hpow]; omega)]
  dsimp only
  rw [halign, halloc]
  simp only [Except.bind]
  generalize s.preloadThisCpu memory.preload = s₁ at *
  rcases hcase with ⟨rfl, rfl⟩ | ⟨hend, hstart, hdvd, hword, hcut⟩
  · exact ⟨none, u, if_pos rfl, hs₁⟩
  · rw [if_neg (by omega), wadd_of_lt hword, if_neg (by simp [hdvd]; omega)]
    refine ⟨_, _, rfl, hs₁.insertVmapArea hcut hsize hword rfl rfl rfl rfl rfl rfl
      (fun a ha => ?_) ?_ ?_⟩
    · exact (area_setArea_ne ha.ne).trans ((area_setArea_ne ha.ne).trans (area_setArea_ne ha.ne))
    · simp only [lo, setEnd, setStart, area_setArea_self]
    · simp only [hi, setEnd, area_setArea_self]

/-- **A release keeps the invariant.** -/
theorem VmapOk.freeVmapArea {va : ℕ} (hva : va ∈ s.busyList) :
    VmapOk ranges (s.freeVmapArea va) := by
  obtain ⟨l₁, l₂, hlist⟩ := append_of_mem hva
  obtain ⟨hbok, hblist⟩ := h.busy.unlink hlist
  have hlt := h.busy.ordered.lt va hva
  have hfok : (s.unlinkBusy va).FreeOk := h.free.congr rfl rfl fun a _ => rfl
  have hnf : va ∉ s.freeList := fun hf => (h.names.free va hf).2 hva
  have hm := hfok.mergeOrAdd hnf hlt (h.busy.bound va hva) fun a ha =>
    apart_of_not_both (h.free.lt a ha) hlt fun x hx => h.disjoint x ⟨⟨a, ha, hx.1⟩, va, hva, hx.2⟩
  have hnodup := h.busy.ordered.nodup
  rw [hlist, nodup_middle, nodup_cons] at hnodup
  have hsub : ∀ a ∈ l₁ ++ l₂, a ∈ s.busyList := hlist ▸ fun _ ha => sublist_middle.subset ha
  have hbusyList : (s.freeVmapArea va).busyList = l₁ ++ l₂ := hm.busyList.trans hblist
  have harea : ∀ a ∈ l₁ ++ l₂, (s.freeVmapArea va).area a = s.area a := fun a ha =>
    hm.area a fun hf => (h.names.free a hf).2 (hsub a ha)
  have hbusyCov : ∀ x, (s.freeVmapArea va).Covers (s.freeVmapArea va).busyList x ↔
      s.Covers (l₁ ++ l₂) x := fun x => by
    rw [hbusyList]
    exact covers_congr harea
  have hsplit : ∀ x, s.Covers s.busyList x ↔
      s.Covers (l₁ ++ l₂) x ∨ s.lo va ≤ x ∧ x < s.hi va := fun x => hlist ▸ covers_middle
  have hfreeCov : ∀ x, (s.freeVmapArea va).Covers (s.freeVmapArea va).freeList x ↔
      s.Covers s.freeList x ∨ s.lo va ≤ x ∧ x < s.hi va := hm.covers
  refine ⟨hm.ok, hbok.congr hm.busyRoot hm.busyList fun a ha => ?_, ⟨fun a ha => ?_, fun a ha => ?_,
    fun a ha => ?_⟩, fun x => ?_, fun x => ?_⟩
  · exact harea a (hblist ▸ ha)
  · rw [show (s.freeVmapArea va).next = s.next from hm.next, hbusyList]
    rcases hm.mem a ha with ha | rfl
    · exact ⟨(h.names.free a ha).1, fun hb => (h.names.free a ha).2 (hsub a hb)⟩
    · exact ⟨h.names.busy a hva, hnodup.1⟩
  · rw [show (s.freeVmapArea va).next = s.next from hm.next]
    exact h.names.busy a (hsub a (hbusyList ▸ ha))
  · obtain ⟨hlt, hf, hb⟩ := h.names.preload a (hm.preload ▸ ha)
    rw [show (s.freeVmapArea va).next = s.next from hm.next, hbusyList]
    refine ⟨hlt, fun hmem => ?_, fun hmem => hb (hsub a hmem)⟩
    rcases hm.mem a hmem with hmem | rfl
    · exact hf hmem
    · exact hb hva
  · rw [hbusyCov, hfreeCov]
    rintro ⟨hf | hx, hb⟩
    · exact h.disjoint x ⟨hf, (hsplit x).2 (.inl hb)⟩
    · obtain ⟨a, ha, hax⟩ := hb
      have := h.busy.ordered.eq_of_mem (hsub a ha) hva hax hx
      exact hnodup.1 (this ▸ ha)
  · rw [hbusyCov, hfreeCov, ← h.cover, hsplit]
    exact iff_of_eq (by ac_rfl)

/-! ### Runs -/

/-- The ranges that the allocator is given: none is empty, and no two overlap or touch. -/
structure RangesOk (ranges : List (ℕ × ℕ)) : Prop where
  lt : ∀ r ∈ ranges, r.1 < r.2 ∧ r.2 < wordSize
  apart : ranges.Pairwise fun q r => q.2 < r.1 ∨ r.2 < q.1

/-- A free area does not touch a range that is apart from all ranges so far. -/
theorem VmapOk.apart_of_range {r : ℕ × ℕ} {a : ℕ} (hr : r.1 < r.2)
    (hapart : ∀ q ∈ ranges, q.2 < r.1 ∨ r.2 < q.1) (ha : a ∈ s.freeList) :
    s.hi a < r.1 ∨ r.2 < s.lo a := by
  have hlt := h.free.lt a ha
  have hside : ∀ x, s.lo a ≤ x → x < s.hi a → x + 1 < r.1 ∨ r.2 < x := by
    intro x hlo hhi
    obtain ⟨q, hq, hx⟩ := (h.cover x).1 (.inl ⟨a, ha, hlo, hhi⟩)
    have := hapart q hq
    omega
  have hlo := hside (s.lo a) le_rfl hlt
  by_contra hn
  have := hside (r.1 - 1) (by omega) (by omega)
  omega

/-- A range is put into the free areas before anything is allocated. -/
theorem VmapOk.insertRange {r : ℕ × ℕ} (hr : r.1 < r.2 ∧ r.2 < wordSize)
    (hbusy : s.busyList = []) (hapart : ∀ q ∈ ranges, q.2 < r.1 ∨ r.2 < q.1) :
    let t := (((s.newArea 0).setStart s.next r.1).setEnd s.next
      r.2).insertVmapAreaAugment s.next none
    VmapOk (ranges ++ [r]) t ∧ t.busyList = [] := by
  intro t
  let u := ((s.newArea 0).setStart s.next r.1).setEnd s.next r.2
  have harea : ∀ a ∈ s.freeList, u.area a = s.area a := fun a ha =>
    have hne : a ≠ s.next := (h.names.free a ha).1.ne
    (area_setArea_ne hne).trans ((area_setArea_ne hne).trans (area_setArea_ne hne))
  have hlo : u.lo s.next = r.1 := by simp only [u, lo, setEnd, setStart, area_setArea_self]
  have hhi : u.hi s.next = r.2 := by simp only [u, hi, setEnd, area_setArea_self]
  have hok : u.FreeOk := h.free.congr rfl rfl harea
  have hnf : s.next ∉ s.freeList := fun hf => (h.names.free _ hf).1.false
  have hside : ∀ a ∈ s.freeList, u.hi a < u.lo s.next ∨ u.hi s.next < u.lo a := fun a ha => by
    rw [hlo, hhi, hi_congr (harea a ha), lo_congr (harea a ha)]
    exact h.apart_of_range hr.1 hapart ha
  have hm : Merged u t s.next := by
    obtain ⟨q, hfind, hm⟩ := hok.merged_apart hnf (by omega) (by omega) hside (p := .root) rfl
      (by simp) (by simp)
    have hplace : t = (u.linkFree s.next q).augmentTreePropagateFrom s.next := by
      change u.insertVmapAreaAugment s.next none = _
      simp only [insertVmapAreaAugment, hfind]
    rwa [hplace]
  have htbusy : t.busyList = [] := hm.busyList.trans hbusy
  have hfreeCov : ∀ x, t.Covers t.freeList x ↔ s.Covers s.freeList x ∨ r.1 ≤ x ∧ x < r.2 :=
    fun x => by
      rw [hm.covers, hlo, hhi, ← covers_congr harea]
      rfl
  refine ⟨⟨hm.ok, h.busy.congr hm.busyRoot hm.busyList fun a ha => ?_, ⟨fun a ha => ?_,
    fun a ha => ?_, fun a ha => ?_⟩, fun x => ?_, fun x => ?_⟩, htbusy⟩
  · simp [hbusy] at ha
  · rw [htbusy, hm.next]
    refine ⟨?_, by simp⟩
    rcases hm.mem a ha with ha | rfl
    · exact (h.names.free a ha).1.trans (Nat.lt_succ_self _)
    · exact Nat.lt_succ_self _
  · simp [htbusy] at ha
  · obtain ⟨hlt, hf, -⟩ := h.names.preload a (hm.preload ▸ ha)
    rw [htbusy, hm.next]
    refine ⟨hlt.trans (Nat.lt_succ_self _), fun hmem => ?_, by simp⟩
    rcases hm.mem a hmem with hmem | rfl
    · exact hf hmem
    · exact hlt.false
  · simp [htbusy]
  · have hcov := h.cover x
    rw [hbusy] at hcov
    simp only [covers_nil, or_false] at hcov
    rw [htbusy, hfreeCov, hcov]
    simp [or_and_right, exists_or]

end

theorem vmapOk_init (h : RangesOk ranges) : VmapOk ranges (VmapState.init ranges) := by
  -- the ranges that are in already come first
  have key : ∀ (done rest : List (ℕ × ℕ)) (s : VmapState), RangesOk (done ++ rest) →
      VmapOk done s → s.busyList = [] → VmapOk (done ++ rest) (rest.foldl (fun s r =>
        (((s.newArea 0).setStart s.next r.1).setEnd s.next r.2).insertVmapAreaAugment s.next none)
        s) := by
    intro done rest
    induction rest generalizing done with
    | nil =>
      intro s _ hs _
      simpa using hs
    | cons r rest ih =>
      intro s hr hs hb
      obtain ⟨hs', hb'⟩ := hs.insertRange (hr.lt r (by simp)) hb fun q hq =>
        (pairwise_append.1 hr.apart).2.2 q hq r (by simp)
      rw [show done ++ r :: rest = (done ++ [r]) ++ rest by simp] at hr ⊢
      exact ih (done ++ [r]) _ hr hs' hb'
  refine key [] ranges _ h ⟨⟨rfl, .nil, by simp, by simp, trivial⟩, ⟨rfl, .nil, by simp⟩,
    ⟨by simp, by simp, by simp⟩, by simp, by simp⟩ rfl

/-- A call that comes back. Only allocated areas are released. -/
def VmapStep (s : VmapState) (op : VmapOp) (t : VmapState) : Prop :=
  (∀ va vm, op = .free va vm → va ∈ s.busyList) ∧ ∃ r, op.run s = .ok (r, t)

theorem VmapOk.step {op : VmapOp} (h : VmapOk ranges s) (hstep : VmapStep s op t) :
    VmapOk ranges t := by
  obtain ⟨hlegal, r, hrun⟩ := hstep
  cases op with
  | alloc size align vstart vend memory =>
    have hw (x : UInt32) : x.toNat < wordSize := x.toNat_lt
    by_cases hbug : size.toNat = 0 ∨ offsetInPage size.toNat ≠ 0 ∨ ! isPowerOf2 align.toNat
    · rw [VmapOp.run, VmapState.allocVmapArea, if_pos hbug] at hrun
      cases hrun
    · simp only [not_or, not_not, Bool.not_eq_true, Bool.not_eq_false'] at hbug
      obtain ⟨hsize, hpage, hpow⟩ := hbug
      obtain ⟨k, hk, halign⟩ := exists_of_isPowerOf2 hpow (hw align)
      obtain ⟨r', t', hrun', hok⟩ := h.allocVmapArea hk halign hpow
        (Nat.pos_of_ne_zero hsize) (hw size) hpage vstart.toNat vend.toNat memory
      obtain ⟨-, rfl⟩ := mk.inj (Except.ok.inj (hrun.symm.trans hrun'))
      exact hok
  | free va vm =>
    cases hrun
    have h' : VmapOk ranges { s with vm := update s.vm va vm } :=
      ⟨h.free.congr rfl rfl fun _ _ => rfl, h.busy.congr rfl rfl fun _ _ => rfl,
        { h.names with }, h.disjoint, h.cover⟩
    exact h'.freeVmapArea (hlegal va vm rfl)

/-- **The areas of the vmalloc address space.** In every state that is reached by allocations and
releases from a set of free ranges, the free areas are sorted and do not touch, they stand in the
same order in the tree and in the list, every node knows the largest size below it, and the free and
the allocated areas make up the ranges. An allocation always comes back, and one that fails leaves
the state as it is. -/
theorem vmap_ok_of_run {ops : List VmapOp} (h : RangesOk ranges)
    (hrun : Run VmapStep (VmapState.init ranges) ops s) :
    VmapOk ranges s ∧ ∀ (size align vstart vend : UInt32) (memory : Option ℕ), size ≠ 0 →
      isPowerOf2 align.toNat → ∃ r t,
        s.allocFromFree size.toNat align.toNat vstart.toNat vend.toNat memory = .ok (r, t) ∧
        (r = vend.toNat → t = s) := by
  have hok : VmapOk ranges s := hrun.invariant (fun _ _ _ h hstep => h.step hstep) (vmapOk_init h)
  refine ⟨hok, fun size align vstart vend memory hsize hpow => ?_⟩
  have hw (x : UInt32) : x.toNat < wordSize := x.toNat_lt
  obtain ⟨k, hk, halign⟩ := exists_of_isPowerOf2 hpow (hw align)
  have hpos : 0 < size.toNat := Nat.pos_of_ne_zero fun hz => hsize (UInt32.toNat.inj hz)
  obtain ⟨r, t, halloc, hcase⟩ := hok.free.allocFromFree hok.names hk hpos (hw size) vstart.toNat
    vend.toNat memory
  refine ⟨r, t, by rw [halign, halloc], fun hr => ?_⟩
  rcases hcase with ⟨-, rfl⟩ | ⟨hend, -⟩
  · rfl
  · omega

/-- Three allocations, and the release of the first and of the one behind it. -/
theorem vmap_ok_three_areas :
    ∃ s, Run VmapStep (VmapState.init [(0x1000, 0x9000), (0xA000, 0xF000)])
      [.alloc 0x1000 1 0 0xF000 ⟨some 7, none⟩, .alloc 0x2000 0x2000 0 0xF000 ⟨none, none⟩,
        .alloc 0x1000 1 0xB000 0xF000 ⟨some 9, none⟩, .free 3 5, .free 4 6] s ∧
      VmapOk [(0x1000, 0x9000), (0xA000, 0xF000)] s := by
  have hrun : Run VmapStep (VmapState.init [(0x1000, 0x9000), (0xA000, 0xF000)])
      [.alloc 0x1000 1 0 0xF000 ⟨some 7, none⟩, .alloc 0x2000 0x2000 0 0xF000 ⟨none, none⟩,
        .alloc 0x1000 1 0xB000 0xF000 ⟨some 9, none⟩, .free 3 5, .free 4 6] _ :=
    .cons ⟨by simp, _, rfl⟩ (.cons ⟨by simp, _, rfl⟩ (.cons ⟨by simp, _, rfl⟩
      (.cons ⟨by rintro va vm ⟨⟩; decide +kernel, _, rfl⟩
        (.cons ⟨by rintro va vm ⟨⟩; decide +kernel, _, rfl⟩ .nil))))
  exact ⟨_, hrun, (vmap_ok_of_run ⟨by decide, by decide⟩ hrun).1⟩

end MinimalKernel.Mm
