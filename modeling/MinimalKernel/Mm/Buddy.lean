import MinimalKernel.Lib.Blocks
import MinimalKernel.Lib.Run
import MinimalKernel.Mm.PageAlloc
import Mathlib.Algebra.Group.Pi.Lemmas
import Mathlib.Algebra.BigOperators.Ring.Finset
import Mathlib.Tactic.Linarith

/-!
# The books of the page allocator

The blocks on the free lists and on the per-cpu lists are disjoint, aligned and marked, and the two
counters of a zone agree with the lists. Inside a call the counter `NR_FREE_PAGES` lags behind: a
block leaves the lists first and is subtracted afterwards. `Tidy s owed` states the invariant with
this difference as a parameter, so that each function has one specification, from the lists up to
`__alloc_pages` and `__free_pages`.

## Main definitions

* `PageAlloc.freeFrames` — the frames of all the blocks on the lists
* `Tidy s owed` — the invariant; `owed z` is what the counter of the zone `z` lags behind
* `Hands`, `Allocated` — what a search for a block and an allocation leave behind

## Main results

* `Tidy.expand`, `Tidy.rmqueueSmallest`, `Tidy.rmqueueFallback` — the free lists of a zone
* `allocPages_spec`, `freePages_spec`, `freePagesCore_spec` — the three entries
-/

namespace MinimalKernel.Mm

open Function Lib List PageAlloc

/-! ### The frames on the lists -/

/-- The order of the blocks on a list. -/
def Place.order : Place → ℕ
  | buddy _ order _ => order
  | pcp _ pindex => pindex / migratePcptypes

/-- The lists that exist. -/
@[irreducible] def places : Finset Place :=
  (Finset.univ ×ˢ Finset.range maxOrder ×ˢ Finset.univ).image (fun x => .buddy x.1 x.2.1 x.2.2) ∪
    (Finset.univ ×ˢ Finset.range nrPcpLists).image fun x => .pcp x.1 x.2

variable {s s' : PageAlloc} {z : ZoneType} {o : ℕ} {mt : MigrateType} {p : ℕ} {i : ℕ} {l : List ℕ}
  {k : Place} {q : ℕ}

@[simp] theorem buddy_mem_places : Place.buddy z o mt ∈ places ↔ o < maxOrder := by
  simp [places]

@[simp] theorem pcp_mem_places : Place.pcp z i ∈ places ↔ i < nrPcpLists := by
  simp [places]

/-- The frames of all the blocks on the lists. -/
def PageAlloc.freeFrames (s : PageAlloc) : Multiset ℕ := shelved Place.order places s.lists

theorem freeFrames_congr (h : s'.lists = s.lists) : s'.freeFrames = s.freeFrames := by
  unfold freeFrames
  rw [h]

theorem mem_freeFrames (hk : k ∈ places) (hp : p ∈ s.lists k) : p ∈ s.freeFrames := by
  unfold freeFrames
  exact mem_shelved hk hp

/-! ### The invariant -/

/-- The blocks on the lists are disjoint, aligned and marked, and the counters agree with the
lists, except that `NR_FREE_PAGES` of the zone `z` is too large by `owed z`. -/
structure Tidy (s : PageAlloc) (owed : ZoneType → ℤ) : Prop where
  nodup : s.freeFrames.Nodup
  aligned : ∀ k ∈ places, ∀ p ∈ s.lists k, 2 ^ k.order ∣ p
  marked : ∀ z o mt, o < maxOrder → ∀ p ∈ s.lists (.buddy z o mt),
    (s.page p).buddy = true ∧ (s.page p).priv = o
  nrFree : ∀ z o, o < maxOrder →
    s.nrFree z o = ∑ mt, ((s.lists (.buddy z o mt)).length : ℤ)
  nrFreePages : ∀ z,
    s.nrFreePages z = (∑ o ∈ Finset.range maxOrder, s.nrFree z o * 2 ^ o) + owed z

/-- What the allocator does not touch while it moves blocks about: the bytes of the pages and the
reference counts. -/
structure SamePages (s s' : PageAlloc) : Prop where
  data : s'.data = s.data
  count : ∀ p, (s'.page p).count = (s.page p).count

theorem SamePages.refl (s : PageAlloc) : SamePages s s := ⟨rfl, fun _ => rfl⟩

theorem SamePages.trans {t : PageAlloc} (h : SamePages s s') (h' : SamePages s' t) :
    SamePages s t :=
  ⟨h'.data.trans h.data, fun p => (h'.count p).trans (h.count p)⟩

theorem SamePages.of_eq (hd : s'.data = s.data) (hp : s'.page = s.page) : SamePages s s' :=
  ⟨hd, fun q => by rw [hp]⟩

/-- One page structure changes, but not its count. -/
theorem SamePages.of_update {pg : Page} (hd : s'.data = s.data) (hp : s'.page = update s.page p pg)
    (hc : pg.count = (s.page p).count) : SamePages s s' := by
  refine ⟨hd, fun q => ?_⟩
  by_cases hq : q = p
  · subst hq
    rw [hp, update_self, hc]
  · rw [hp, update_of_ne hq]

variable {owed : ZoneType → ℤ}

theorem Tidy.owe_add {a b c : ℤ} (h : Tidy s (owed + Pi.single z a + Pi.single z b))
    (habc : a + b = c) : Tidy s (owed + Pi.single z c) := by
  rwa [add_assoc, ← Pi.single_add, habc] at h

theorem tidy_owe_zero {a : ℤ} (ha : a = 0) : Tidy s (owed + Pi.single z a) ↔ Tidy s owed := by
  rw [ha, Pi.single_zero, add_zero]

/-- A block on a list is not among the frames that are off the lists. -/
theorem ne_of_disjoint (hd : Disjoint (frames o p) s.freeFrames) (hk : k ∈ places)
    (hq : q ∈ s.lists k) : q ≠ p := by
  rintro rfl
  exact Multiset.disjoint_left.1 hd (start_mem_frames o q) (mem_freeFrames hk hq)

theorem sum_migrateType (f : MigrateType → ℤ) :
    ∑ mt, f mt = f .unmovable + f .movable + f .reclaimable + f .highatomic := by
  rw [show (Finset.univ : Finset MigrateType) =
    {.unmovable, .movable, .reclaimable, .highatomic} from rfl]
  simp [add_assoc]

/-- The blocks of an order when one of its lists changes. -/
theorem sum_length_update (lists : Place → List ℕ) (l : List ℕ) (z : ZoneType) (o : ℕ)
    (mt : MigrateType) :
    ∑ m, ((update lists (.buddy z o mt) l (.buddy z o m)).length : ℤ) =
      ∑ m, ((lists (.buddy z o m)).length : ℤ) + (l.length - (lists (.buddy z o mt)).length) := by
  rw [sum_migrateType, sum_migrateType]
  cases mt <;> simp [update] <;> ring

theorem sum_nrFree_update (f : ℕ → ℤ) (n : ℤ) (ho : o < maxOrder) :
    ∑ c ∈ Finset.range maxOrder, update f o (f o + n) c * 2 ^ c =
      ∑ c ∈ Finset.range maxOrder, f c * 2 ^ c + n * 2 ^ o := by
  have hterm : ∀ c, update f o (f o + n) c * 2 ^ c =
      f c * 2 ^ c + if c = o then n * 2 ^ c else 0 := by
    intro c
    by_cases hc : c = o
    · subst hc
      simp [add_mul]
    · simp [hc]
  simp only [hterm, Finset.sum_add_distrib, Finset.sum_ite_eq', Finset.mem_range, ho, if_true]

/-! ### One block -/

section

variable (h : Tidy s owed)
include h

/-- Adjusting `NR_FREE_PAGES`. -/
theorem Tidy.modZoneFreepageState (z : ZoneType) (n : ℤ) :
    Tidy (s.modZoneFreepageState z n) (owed + Pi.single z n) where
  __ := h
  nrFreePages z' := by
    have hz := h.nrFreePages z'
    by_cases hzz : z' = z
    · subst hzz
      simp only [PageAlloc.modZoneFreepageState, update_self, Pi.add_apply,
        Pi.single_eq_same, hz, add_assoc]
    · simp only [PageAlloc.modZoneFreepageState, update_of_ne hzz, Pi.add_apply,
        Pi.single_eq_of_ne hzz, hz, add_zero]

/-- Of a page structure the invariant reads only the mark of a block that is on a list. -/
theorem Tidy.congr (hl : s'.lists = s.lists) (hn : s'.nrFree = s.nrFree)
    (hp : s'.nrFreePages = s.nrFreePages)
    (hm : ∀ k ∈ places, ∀ p ∈ s.lists k,
      (s'.page p).buddy = (s.page p).buddy ∧ (s'.page p).priv = (s.page p).priv) :
    Tidy s' owed where
  nodup := freeFrames_congr hl ▸ h.nodup
  aligned := hl ▸ h.aligned
  marked z o mt ho q hq := by
    rw [hl] at hq
    obtain ⟨hb, hr⟩ := hm _ (buddy_mem_places.2 ho) q hq
    rw [hb, hr]
    exact h.marked z o mt ho q hq
  nrFree := hn ▸ hl ▸ h.nrFree
  nrFreePages := hn ▸ hp ▸ h.nrFreePages

/-- The page structure of a block that is on no list. -/
theorem Tidy.setPage (hd : Disjoint (frames o p) s.freeFrames) (pg : Page) :
    Tidy (s.setPage p pg) owed :=
  h.congr rfl rfl rfl fun k hk q hq => by
    rw [setPage_page, update_of_ne (ne_of_disjoint hd hk hq)]
    exact ⟨rfl, rfl⟩

/-- Exchanging the contents of a list and correcting `nr_free`: the part of the invariant that
counts. -/
theorem nrFree_setList {n : ℤ} (hn : (l.length : ℤ) = (s.lists (.buddy z o mt)).length + n)
    (z' : ZoneType) (o' : ℕ) (ho' : o' < maxOrder) :
    ((s.setList (.buddy z o mt) l).addNrFree z o n).nrFree z' o' =
      ∑ m, ((update s.lists (.buddy z o mt) l (.buddy z' o' m)).length : ℤ) := by
  by_cases hz : z' = z ∧ o' = o
  · obtain ⟨rfl, rfl⟩ := hz
    rw [sum_length_update, ← h.nrFree _ _ ho', hn]
    simp [addNrFree, setList]
  · have hne : ∀ m, Place.buddy z' o' m ≠ Place.buddy z o mt := by
      rintro m heq
      cases heq
      exact hz ⟨rfl, rfl⟩
    simp only [update_of_ne (hne _), ← h.nrFree _ _ ho']
    by_cases hzz : z' = z
    · subst hzz
      have ho : o' ≠ o := fun heq => hz ⟨rfl, heq⟩
      simp [addNrFree, setList, ho]
    · simp [addNrFree, setList, hzz]

theorem nrFreePages_addNrFree {n w : ℤ} (ho : o < maxOrder) (hw : w = -n * 2 ^ o) (z' : ZoneType) :
    s.nrFreePages z' =
      (∑ c ∈ Finset.range maxOrder, (s.addNrFree z o n).nrFree z' c * 2 ^ c) +
        (owed + Pi.single z w : ZoneType → ℤ) z' := by
  rw [h.nrFreePages z', hw]
  by_cases hzz : z' = z
  · subst hzz
    simp only [addNrFree, update_self, Pi.add_apply, Pi.single_eq_same, sum_nrFree_update _ _ ho]
    ring
  · simp [addNrFree, hzz]

end

/-- A block comes to a list. -/
theorem freeFrames_insert (hk : k ∈ places) (hl : l.Perm (p :: s.lists k)) :
    (s.setList k l).freeFrames = frames k.order p + s.freeFrames := by
  unfold freeFrames
  exact shelved_insert Place.order hk hl

/-- The first block of a list leaves it. -/
theorem freeFrames_head (hk : k ∈ places) (hl : s.lists k = p :: l) :
    s.freeFrames = frames k.order p + (s.setList k l).freeFrames := by
  unfold freeFrames
  exact shelved_head Place.order hk hl

theorem mem_setList_insert {k' : Place} (hl : l.Perm (p :: s.lists k))
    (hq : q ∈ (s.setList k l).lists k') : q ∈ s.lists k' ∨ q = p ∧ k' = k := by
  by_cases hk : k' = k
  · subst hk
    rw [setList_lists, update_self, hl.mem_iff, mem_cons] at hq
    exact hq.symm.imp_right fun h => ⟨h, rfl⟩
  · rw [setList_lists, update_of_ne hk] at hq
    exact .inl hq

theorem mem_setList_head {k' : Place} (hl : s.lists k = p :: l)
    (hq : q ∈ (s.setList k l).lists k') : q ∈ s.lists k' := by
  by_cases hk : k' = k
  · subst hk
    rw [setList_lists, update_self] at hq
    exact hl ▸ mem_cons_of_mem p hq
  · rwa [setList_lists, update_of_ne hk] at hq

section

variable (h : Tidy s owed)
include h

/-- Frames that come to the lists must not be there already. -/
theorem nodup_insert (hd : Disjoint (frames o p) s.freeFrames) :
    (frames o p + s.freeFrames).Nodup :=
  Multiset.nodup_add.2 ⟨frames_nodup o p, h.nodup, hd⟩

theorem Tidy.aligned_insert (hl : l.Perm (p :: s.lists k)) (hp : 2 ^ k.order ∣ p) :
    ∀ k' ∈ places, ∀ q ∈ (s.setList k l).lists k', 2 ^ k'.order ∣ q := by
  intro k' hk' q hq
  rcases mem_setList_insert hl hq with hq | ⟨rfl, rfl⟩
  · exact h.aligned k' hk' q hq
  · exact hp

/-- **A block comes to a free list**, at the front or at the back. -/
theorem Tidy.insertBuddy (ho : o < maxOrder) (hp : 2 ^ o ∣ p)
    (hd : Disjoint (frames o p) s.freeFrames) (hl : l.Perm (p :: s.lists (.buddy z o mt))) :
    Tidy (((s.setList (.buddy z o mt) l).addNrFree z o 1).setBuddyOrder p o)
      (owed + Pi.single z (-2 ^ o)) where
  nodup := by
    have hf := freeFrames_insert (buddy_mem_places.2 ho) hl
    exact hf ▸ nodup_insert h hd
  aligned := h.aligned_insert hl hp
  marked z' o' mt' ho' q hq := by
    rcases mem_setList_insert hl hq with hq | ⟨rfl, hk⟩
    · have hqp := ne_of_disjoint hd (buddy_mem_places.2 ho') hq
      simpa [setBuddyOrder, hqp] using h.marked z' o' mt' ho' q hq
    · cases hk
      simp [setBuddyOrder]
  nrFree := nrFree_setList h (by simp [hl.length_eq])
  nrFreePages := nrFreePages_addNrFree h ho (by ring)

/-- `add_to_free_list` and `set_buddy_order`. -/
theorem Tidy.addToFreeList (z : ZoneType) (mt : MigrateType) (ho : o < maxOrder) (hp : 2 ^ o ∣ p)
    (hd : Disjoint (frames o p) s.freeFrames) :
    Tidy ((s.addToFreeList p z o mt).setBuddyOrder p o) (owed + Pi.single z (-2 ^ o)) ∧
      ((s.addToFreeList p z o mt).setBuddyOrder p o).freeFrames = frames o p + s.freeFrames ∧
      SamePages s ((s.addToFreeList p z o mt).setBuddyOrder p o) :=
  ⟨h.insertBuddy ho hp hd (List.Perm.refl _),
    freeFrames_insert (buddy_mem_places.2 ho) (List.Perm.refl _),
    SamePages.of_update rfl rfl rfl⟩

/-- **The first block of a free list leaves it.** -/
theorem Tidy.delPageFromFreeList (ho : o < maxOrder) (hl : s.lists (.buddy z o mt) = p :: l) :
    Tidy (s.delPageFromFreeList p z o mt) (owed + Pi.single z (2 ^ o)) ∧
      s.freeFrames = frames o p + (s.delPageFromFreeList p z o mt).freeFrames := by
  have herase : (s.lists (.buddy z o mt)).erase p = l := by rw [hl, erase_cons_head]
  have hf := freeFrames_head (buddy_mem_places.2 ho) hl
  have hnodup : (frames o p + (s.setList (.buddy z o mt) l).freeFrames).Nodup :=
    hf ▸ h.nodup
  have hsplit := Multiset.nodup_add.1 hnodup
  unfold PageAlloc.delPageFromFreeList
  rw [herase]
  refine ⟨⟨hsplit.2.1, ?_, ?_, ?_, ?_⟩, hf⟩
  · intro k hk q hq
    exact h.aligned k hk q (mem_setList_head hl hq)
  · intro z' o' mt' ho' q hq
    have hqp := ne_of_disjoint hsplit.2.2 (buddy_mem_places.2 ho') hq
    simpa [hqp] using h.marked z' o' mt' ho' q (mem_setList_head hl hq)
  · exact nrFree_setList h (by simp [hl])
  · exact nrFreePages_addNrFree h ho (by ring)

/-- The per-cpu lists are not counted. -/
theorem Tidy.setPcp (hn : (s.setList (.pcp z i) l).freeFrames.Nodup)
    (ha : ∀ k ∈ places, ∀ q ∈ (s.setList (.pcp z i) l).lists k, 2 ^ k.order ∣ q) :
    Tidy (s.setList (.pcp z i) l) owed where
  nodup := hn
  aligned := ha
  marked z' o' mt' ho' q hq := by
    rw [setList_lists, update_of_ne (by simp)] at hq
    exact h.marked z' o' mt' ho' q hq
  nrFree z' o' ho' := by
    simpa [setList] using h.nrFree z' o' ho'
  nrFreePages := h.nrFreePages

/-- A block comes to a per-cpu list. -/
theorem Tidy.insertPcp (hi : i < nrPcpLists) (hio : i / migratePcptypes = o) (hp : 2 ^ o ∣ p)
    (hd : Disjoint (frames o p) s.freeFrames) (hl : l.Perm (p :: s.lists (.pcp z i))) :
    Tidy (s.setList (.pcp z i) l) owed ∧
      (s.setList (.pcp z i) l).freeFrames = frames o p + s.freeFrames := by
  subst hio
  have hf := freeFrames_insert (pcp_mem_places.2 hi) hl
  exact ⟨h.setPcp (hf ▸ nodup_insert h hd) (h.aligned_insert hl hp), hf⟩

/-- The first block of a per-cpu list leaves it. -/
theorem Tidy.headPcp (hi : i < nrPcpLists) (hl : s.lists (.pcp z i) = p :: l) :
    Tidy (s.setList (.pcp z i) l) owed := by
  refine h.setPcp ?_ fun k hk q hq => h.aligned k hk q (mem_setList_head hl hq)
  have hf := freeFrames_head (pcp_mem_places.2 hi) hl
  exact (Multiset.nodup_add.1 (hf ▸ h.nodup)).2.1

end

/-! ### The free lists of a zone -/

/-- What a search for a block of order `o` leaves behind. Without a block nothing has moved;
a block that was found has left the lists, is aligned, and the zones owe `owed'` instead of
`owed`. -/
inductive Hands (s : PageAlloc) (owed owed' : ZoneType → ℤ) (o : ℕ) : Option ℕ × PageAlloc → Prop
  | nothing {s' : PageAlloc} (tidy : Tidy s' owed) (same : s'.freeFrames = s.freeFrames)
      (quiet : SamePages s s') : Hands s owed owed' o (none, s')
  | block {p : ℕ} {s' : PageAlloc} (tidy : Tidy s' owed')
      (moved : s.freeFrames = frames o p + s'.freeFrames) (aligned : 2 ^ o ∣ p)
      (quiet : SamePages s s') : Hands s owed owed' o (some p, s')

variable {owed' : ZoneType → ℤ} {r : Option ℕ × PageAlloc}

/-- A search that goes on where another one has left off. -/
theorem Hands.after (h : Hands s' owed owed' o r) (hf : s'.freeFrames = s.freeFrames)
    (hq : SamePages s s') : Hands s owed owed' o r := by
  cases h with
  | nothing tidy same quiet => exact .nothing tidy (same.trans hf) (hq.trans quiet)
  | block tidy moved aligned quiet => exact .block tidy (hf ▸ moved) aligned (hq.trans quiet)

/-- **Splitting.** `expand` puts everything but the first `2 ^ low` frames of a block back. -/
theorem Tidy.expand {low high : ℕ} (h : Tidy s owed) (hlow : low ≤ high) (hhigh : high ≤ maxOrder)
    (hp : 2 ^ high ∣ p) (hd : Disjoint (frames high p) s.freeFrames) :
    Tidy (expand z p low mt high s) (owed + Pi.single z (2 ^ low - 2 ^ high)) ∧
      frames low p + (Mm.expand z p low mt high s).freeFrames =
        frames high p + s.freeFrames ∧
      SamePages s (Mm.expand z p low mt high s) := by
  -- the invariant of the loop: what is still to be split is off the lists
  induction high generalizing s owed with
  | zero =>
    obtain rfl : low = 0 := Nat.le_zero.1 hlow
    exact ⟨(tidy_owe_zero (sub_self _)).2 h, rfl, SamePages.refl s⟩
  | succ high ih =>
    rcases Nat.lt_or_ge low (high + 1) with hlt | hge
    · have hhalf : 2 ^ high ∣ p := (pow_dvd_pow 2 (Nat.le_succ high)).trans hp
      rw [frames_succ, Multiset.disjoint_add_left] at hd
      have hp' : 2 ^ high ∣ p + 2 ^ high := (Nat.dvd_add_left dvd_rfl).2 hhalf
      obtain ⟨htidy, hf, hquiet⟩ := h.addToFreeList z mt hhigh hp' hd.2
      obtain ⟨ht, hm, hq⟩ := ih htidy (Nat.lt_succ_iff.1 hlt) (Nat.le_of_succ_le hhigh) hhalf <| by
        rw [hf, Multiset.disjoint_add_right]
        exact ⟨frames_disjoint high p, hd.1⟩
      simp only [Mm.expand, hlt, if_true]
      refine ⟨ht.owe_add (by ring), ?_, hquiet.trans hq⟩
      rw [hm, hf, frames_succ, add_assoc]
    · obtain rfl : low = high + 1 := by omega
      simp only [Mm.expand, lt_irrefl, if_false]
      exact ⟨(tidy_owe_zero (sub_self _)).2 h, trivial, SamePages.refl s⟩

theorem getPageFromFreeArea_eq_some (h : s.getPageFromFreeArea z o mt = some p) :
    ∃ l, s.lists (.buddy z o mt) = p :: l := by
  unfold getPageFromFreeArea at h
  exact List.head?_eq_some_iff.1 h

/-- Taking the first block of a free list and splitting it. -/
theorem Tidy.split {c : ℕ} (h : Tidy s owed) (hoc : o ≤ c) (hc : c < maxOrder)
    (hp : s.getPageFromFreeArea z c mt = some p) :
    Hands s owed (owed + Pi.single z (2 ^ o)) o
      (some p, Mm.expand z p o mt c (s.delPageFromFreeList p z c mt)) := by
  obtain ⟨l, hl⟩ := getPageFromFreeArea_eq_some hp
  obtain ⟨htidy, hf⟩ := h.delPageFromFreeList hc hl
  have hdvd : 2 ^ c ∣ p :=
    h.aligned _ (buddy_mem_places.2 hc) p (hl ▸ mem_cons_self)
  have hd := (Multiset.nodup_add.1 (hf ▸ h.nodup)).2.2
  have hquiet : SamePages s (s.delPageFromFreeList p z c mt) := SamePages.of_update rfl rfl rfl
  obtain ⟨ht, hm, hq⟩ := htidy.expand hoc hc.le hdvd hd
  refine .block (ht.owe_add (by ring)) ?_ ((pow_dvd_pow 2 hoc).trans hdvd) (hquiet.trans hq)
  rw [hf, hm]

theorem Tidy.rmqueueSmallestLoop {rest : ℕ} (h : Tidy s owed) (hrest : rest + o ≤ maxOrder) :
    Hands s owed (owed + Pi.single z (2 ^ o)) o (rmqueueSmallestLoop z o mt rest s) := by
  induction rest with
  | zero => exact .nothing h rfl (SamePages.refl s)
  | succ rest ih =>
    simp only [Mm.rmqueueSmallestLoop]
    cases hp : s.getPageFromFreeArea z (maxOrder - (rest + 1)) mt with
    | none => exact ih (by omega)
    | some p => exact h.split (by omega) (by omega) hp

/-- **`__rmqueue_smallest`.** -/
theorem Tidy.rmqueueSmallest (h : Tidy s owed) (z : ZoneType) (mt : MigrateType)
    (ho : o ≤ maxOrder) : Hands s owed (owed + Pi.single z (2 ^ o)) o (rmqueueSmallest s z o mt) :=
  h.rmqueueSmallestLoop (by omega)

/-- The search fails only if the lists of all the orders from `o` on are empty. -/
theorem rmqueueSmallest_isSome {c : ℕ} (hoc : o ≤ c) (hc : c < maxOrder)
    (hne : s.lists (.buddy z c mt) ≠ []) : (rmqueueSmallest s z o mt).1.isSome := by
  unfold rmqueueSmallest
  have hloop : ∀ rest, maxOrder ≤ c + rest →
      (rmqueueSmallestLoop z o mt rest s).1.isSome := by
    intro rest
    induction rest with
    | zero => intro hle; omega
    | succ rest ih =>
      intro hle
      simp only [rmqueueSmallestLoop]
      cases hp : s.getPageFromFreeArea z (maxOrder - (rest + 1)) mt with
      | none =>
        refine ih ?_
        by_contra hlt
        rw [show maxOrder - (rest + 1) = c by omega, getPageFromFreeArea,
          List.head?_eq_none_iff] at hp
        exact hne hp
      | some p => rfl
  exact hloop _ (by omega)

section

variable (h : Tidy s owed)
include h

/-- **Stealing.** The first block of a list moves to the back of another list of its order. -/
theorem Tidy.moveToFreeList {m : MigrateType} (mt : MigrateType)
    (ho : o < maxOrder) (hl : s.lists (.buddy z o m) = p :: l) :
    Tidy (s.moveToFreeList (.buddy z o m) p z o mt) owed ∧
      (s.moveToFreeList (.buddy z o m) p z o mt).freeFrames = s.freeFrames := by
  have herase : (s.lists (.buddy z o m)).erase p = l := by rw [hl, erase_cons_head]
  simp only [PageAlloc.moveToFreeList, herase]
  generalize ht : s.setList (.buddy z o m) l = t
  have hperm : (t.lists (.buddy z o mt) ++ [p]).Perm (p :: t.lists (.buddy z o mt)) :=
    perm_append_singleton _ _
  have hf : (t.setList (.buddy z o mt) (t.lists (.buddy z o mt) ++ [p])).freeFrames =
      s.freeFrames := by
    rw [freeFrames_insert (buddy_mem_places.2 ho) hperm, ← ht]
    exact (freeFrames_head (buddy_mem_places.2 ho) hl).symm
  have hp : p ∈ s.lists (.buddy z o m) := hl ▸ mem_cons_self
  refine ⟨⟨hf ▸ h.nodup, ?_, ?_, ?_, ?_⟩, hf⟩
  · intro k hk q hq
    rcases mem_setList_insert hperm hq with hq | ⟨rfl, rfl⟩
    · exact h.aligned k hk q (mem_setList_head hl (ht ▸ hq))
    · exact h.aligned (.buddy z o m) (buddy_mem_places.2 ho) q hp
  · intro z' o' mt' ho' q hq
    rw [setList_page, ← ht, setList_page]
    rcases mem_setList_insert hperm hq with hq | ⟨rfl, hk⟩
    · exact h.marked z' o' mt' ho' q (mem_setList_head hl (ht ▸ hq))
    · cases hk
      exact h.marked z o m ho q hp
  · intro z' o' ho'
    subst ht
    refine (h.nrFree z' o' ho').trans ?_
    by_cases hz : z' = z ∧ o' = o
    · obtain ⟨rfl, rfl⟩ := hz
      rw [setList_lists, sum_length_update, setList_lists, sum_length_update, hl, length_append]
      push_cast [length_cons]
      simp
    · have hne : ∀ m m', Place.buddy z' o' m' ≠ Place.buddy z o m := by
        rintro m m' heq
        cases heq
        exact hz ⟨rfl, rfl⟩
      simp only [setList_lists, update_of_ne (hne _ _)]
  · subst ht
    exact h.nrFreePages

/-- **`__rmqueue_fallback`** keeps the books, and the type that was asked for has a block of a
sufficient order afterwards. -/
theorem Tidy.rmqueueFallback (hs : rmqueueFallback s z o mt = some s') :
    (Tidy s' owed ∧ s'.freeFrames = s.freeFrames ∧ SamePages s s') ∧
      ∃ c, o ≤ c ∧ c < maxOrder ∧ s'.lists (.buddy z c mt) ≠ [] := by
  have hloop : ∀ n, n ≤ maxOrder → rmqueueFallbackLoop s z o mt n = some s' →
      (Tidy s' owed ∧ s'.freeFrames = s.freeFrames ∧ SamePages s s') ∧
        ∃ c, o ≤ c ∧ c < maxOrder ∧ s'.lists (.buddy z c mt) ≠ [] := by
    intro n
    induction n with
    | zero => intro _ hs; cases hs
    | succ c ih =>
      intro hn hs
      simp only [rmqueueFallbackLoop] at hs
      split at hs
      · cases hs
      · split at hs
        · exact ih (by omega) hs
        · rename_i hco _ m _
          obtain ⟨p, hp, rfl⟩ := Option.map_eq_some_iff.1 hs
          obtain ⟨l, hl⟩ := getPageFromFreeArea_eq_some hp
          have hmark := (h.marked z c m hn p (hl ▸ mem_cons_self)).2
          unfold stealSuitableFallback
          rw [hmark]
          obtain ⟨htidy, hf⟩ := h.moveToFreeList mt hn hl
          refine ⟨⟨htidy, hf, .of_eq rfl rfl⟩, c, by omega, hn, ?_⟩
          simp [PageAlloc.moveToFreeList]
  exact hloop maxOrder le_rfl hs

/-- The search that follows a fallback finds a block. -/
theorem rmqueueSmallest_of_fallback (hs : rmqueueFallback s z o mt = some s') :
    (rmqueueSmallest s' z o mt).1.isSome := by
  obtain ⟨-, c, hoc, hc, hne⟩ := h.rmqueueFallback hs
  exact rmqueueSmallest_isSome hoc hc hne

/-- **`__rmqueue`.** -/
theorem Tidy.rmqueueBuddy (z : ZoneType) (mt : MigrateType) (ho : o ≤ maxOrder) :
    Hands s owed (owed + Pi.single z (2 ^ o)) o (rmqueueBuddy s z o mt) := by
  have hfirst := h.rmqueueSmallest z mt ho
  unfold Mm.rmqueueBuddy
  generalize Mm.rmqueueSmallest s z o mt = r at hfirst ⊢
  cases hfirst with
  | block tidy moved aligned quiet => exact .block tidy moved aligned quiet
  | @nothing t tidy same quiet =>
    dsimp only
    cases hfb : Mm.rmqueueFallback t z o mt with
    | none => exact .nothing tidy same quiet
    | some t' =>
      obtain ⟨⟨htidy, hf, hq⟩, -⟩ := tidy.rmqueueFallback hfb
      exact (htidy.rmqueueSmallest z mt ho).after (hf.trans same) (quiet.trans hq)

end

/-! ### The per-cpu lists -/

theorem orderToPindex_lt (hmt : mt ≠ .highatomic) (ho : o ≤ pageAllocCostlyOrder) :
    orderToPindex mt o < nrPcpLists := by
  unfold pageAllocCostlyOrder at ho
  cases mt <;> simp [orderToPindex, nrPcpLists, migratePcptypes, pageAllocCostlyOrder,
    MigrateType.idx] at hmt ⊢ <;> omega

theorem orderToPindex_div (hmt : mt ≠ .highatomic) : orderToPindex mt o / migratePcptypes = o := by
  cases mt <;> simp [orderToPindex, migratePcptypes, MigrateType.idx] at hmt ⊢ <;> omega

section

variable (h : Tidy s owed)
include h

theorem Tidy.addPcpCount (z : ZoneType) (n : ℤ) : Tidy (s.addPcpCount z n) owed :=
  { h with }

/-- A block that was taken off the lists is disjoint from what is left. -/
theorem disjoint_of_moved (hm : s.freeFrames = frames o p + s'.freeFrames) :
    Disjoint (frames o p) s'.freeFrames :=
  (Multiset.nodup_add.1 (hm ▸ h.nodup)).2.2

section

variable (z mt) (hi : i < nrPcpLists) (hio : i / migratePcptypes = o) (ho : o ≤ maxOrder)
include hi hio ho

/-- The loop of `rmqueue_bulk`: blocks move to the per-cpu list, and the counter of the zone is
not adjusted yet. -/
theorem Tidy.rmqueueBulkLoop (n : ℕ) :
    Tidy (rmqueueBulkLoop z o (.pcp z i) mt n s).2
        (owed + Pi.single z ((Mm.rmqueueBulkLoop z o (.pcp z i) mt n s).1 * 2 ^ o : ℕ)) ∧
      (Mm.rmqueueBulkLoop z o (.pcp z i) mt n s).2.freeFrames = s.freeFrames ∧
      SamePages s (Mm.rmqueueBulkLoop z o (.pcp z i) mt n s).2 := by
  induction n generalizing s owed with
  | zero => exact ⟨(tidy_owe_zero (by simp [Mm.rmqueueBulkLoop])).2 h, rfl, SamePages.refl s⟩
  | succ n ih =>
    have hfirst := h.rmqueueBuddy z mt ho
    simp only [Mm.rmqueueBulkLoop]
    generalize Mm.rmqueueBuddy s z o mt = r at hfirst ⊢
    cases hfirst with
    | nothing tidy same quiet =>
      exact ⟨(tidy_owe_zero (by simp)).2 tidy, same, quiet⟩
    | @block p t tidy moved aligned quiet =>
      dsimp only
      have hd := disjoint_of_moved h moved
      have hperm : (t.lists (.pcp z i) ++ [p]).Perm (p :: t.lists (.pcp z i)) :=
        perm_append_singleton _ _
      obtain ⟨hnext, hf⟩ := tidy.insertPcp hi hio aligned hd hperm
      obtain ⟨ht, hsame, hq⟩ := ih hnext
      refine ⟨ht.owe_add (by push_cast; ring), ?_, quiet.trans ⟨hq.data, hq.count⟩⟩
      rw [hsame, hf, moved]

/-- The refill of a per-cpu list keeps the books. -/
theorem Tidy.refillPcplist :
    Tidy (refillPcplist s z o (.pcp z i) mt) owed ∧
      (Mm.refillPcplist s z o (.pcp z i) mt).freeFrames = s.freeFrames ∧
      SamePages s (Mm.refillPcplist s z o (.pcp z i) mt) := by
  unfold Mm.refillPcplist
  split
  · dsimp only [rmqueueBulk]
    generalize (if 1 < s.pcpBatch z then max (s.pcpBatch z / 2 ^ o) 2 else s.pcpBatch z) = n
    obtain ⟨ht, hsame, hq⟩ := h.rmqueueBulkLoop z mt hi hio ho n
    have hmod := (ht.modZoneFreepageState z _).owe_add (add_neg_cancel _)
    exact ⟨((tidy_owe_zero rfl).1 hmod).addPcpCount z _, hsame, hq.trans (.of_eq rfl rfl)⟩
  · exact ⟨h, rfl, SamePages.refl s⟩

end

/-- **`rmqueue_pcplist`.** -/
theorem Tidy.rmqueuePcplist (z : ZoneType) (hmt : mt ≠ .highatomic)
    (ho : o ≤ pageAllocCostlyOrder) : Hands s owed owed o (rmqueuePcplist s z o mt) := by
  have hi := orderToPindex_lt hmt ho
  have hio : orderToPindex mt o / migratePcptypes = o := orderToPindex_div hmt
  have hmax : o ≤ maxOrder := ho.trans (by decide)
  obtain ⟨ht, hsame, hq⟩ := h.refillPcplist z mt hi hio hmax
  unfold Mm.rmqueuePcplist
  dsimp only
  generalize Mm.refillPcplist s z o (.pcp z (orderToPindex mt o)) mt = t at ht hsame hq ⊢
  cases hl : t.lists (.pcp z (orderToPindex mt o)) with
  | nil => exact .nothing ht hsame hq
  | cons p l =>
    have hdvd := ht.aligned _ (pcp_mem_places.2 hi) p (hl ▸ mem_cons_self)
    have hf := freeFrames_head (pcp_mem_places.2 hi) hl
    have hdvd' : 2 ^ o ∣ p := by rwa [Place.order, hio] at hdvd
    refine .block ((ht.headPcp hi hl).addPcpCount z _) ?_ hdvd' (hq.trans (.of_eq rfl rfl))
    rw [← hsame, hf, Place.order, hio]
    rfl

end

/-! ### Allocation -/

theorem Tidy.rmqueueLarge (h : Tidy s owed) (z : ZoneType) (flags : AllocFlags)
    (mt : MigrateType) (ho : o ≤ maxOrder) :
    Hands s owed (owed + Pi.single z (2 ^ o)) o (rmqueueLarge s z o flags mt) := by
  have hfirst : Hands s owed (owed + Pi.single z (2 ^ o)) o
      (if 0 < o ∧ flags.harder then Mm.rmqueueSmallest s z o .highatomic else (none, s)) := by
    split
    · exact h.rmqueueSmallest z .highatomic ho
    · exact .nothing h rfl (SamePages.refl s)
  unfold Mm.rmqueueLarge
  generalize (if 0 < o ∧ flags.harder then Mm.rmqueueSmallest s z o .highatomic
    else (none, s)) = r at hfirst ⊢
  cases hfirst with
  | block tidy moved aligned quiet => exact .block tidy moved aligned quiet
  | nothing tidy same quiet => exact (tidy.rmqueueBuddy z mt ho).after same quiet

/-- **`rmqueue`.** -/
theorem Tidy.rmqueue (h : Tidy s owed) (z : ZoneType) (flags : AllocFlags) (hmt : mt ≠ .highatomic)
    (ho : o < maxOrder) : Hands s owed owed o (rmqueue s z o flags mt) := by
  unfold Mm.rmqueue
  split
  · rename_i hpcp
    exact h.rmqueuePcplist z hmt (by simpa [pcpAllowedOrder] using hpcp)
  · have hlarge := h.rmqueueLarge z flags mt ho.le
    generalize Mm.rmqueueLarge s z o flags mt = r at hlarge ⊢
    cases hlarge with
    | nothing tidy same quiet => exact .nothing tidy same quiet
    | block tidy moved aligned quiet =>
      have hmod := (tidy.modZoneFreepageState z _).owe_add (add_neg_cancel _)
      exact .block ((tidy_owe_zero rfl).1 hmod) moved aligned (quiet.trans (.of_eq rfl rfl))

/-- What an allocation leaves behind: a block that was handed out has one reference. -/
inductive Allocated (s : PageAlloc) (o : ℕ) : Option ℕ × PageAlloc → Prop
  | nothing {s' : PageAlloc} (tidy : Tidy s' 0) (same : s'.freeFrames = s.freeFrames)
      (quiet : SamePages s s') : Allocated s o (none, s')
  | block {p : ℕ} {s' : PageAlloc} (tidy : Tidy s' 0)
      (moved : s.freeFrames = frames o p + s'.freeFrames) (aligned : 2 ^ o ∣ p)
      (data : s'.data = s.data) (count : (s'.page p).count = 1)
      (others : ∀ q, q ≠ p → (s'.page q).count = (s.page q).count) : Allocated s o (some p, s')

theorem Allocated.after (h : Allocated s' o r) (hf : s'.freeFrames = s.freeFrames)
    (hq : SamePages s s') : Allocated s o r := by
  cases h with
  | nothing tidy same quiet => exact .nothing tidy (same.trans hf) (hq.trans quiet)
  | block tidy moved aligned data count others =>
    exact .block tidy (hf ▸ moved) aligned (data.trans hq.data) count
      fun q hne => (others q hne).trans (hq.count q)

/-- `prep_new_page` sets the page structure of the block, which is on no list. -/
theorem prepNewPage_page (s : PageAlloc) (p o : ℕ) (g : Gfp) :
    ∃ pg : Page, prepNewPage s p o g = s.setPage p pg ∧ pg.count = 1 := by
  unfold prepNewPage postAllocHook
  dsimp only
  split
  · refine ⟨{ s.page p with priv := 0, count := 1, head := true }, ?_, rfl⟩
    simp [setPage]
  · exact ⟨_, rfl, rfl⟩

theorem Hands.prepNewPage (h : Hands s 0 0 o (some p, s')) (hs : Tidy s 0) (g : Gfp) :
    Allocated s o (some p, prepNewPage s' p o g) := by
  cases h with
  | block tidy moved aligned quiet =>
    obtain ⟨pg, hpg, hcount⟩ := prepNewPage_page s' p o g
    have hd := disjoint_of_moved hs moved
    rw [hpg]
    refine .block (tidy.setPage hd pg) moved aligned quiet.data ?_ fun q hq => ?_
    · rw [setPage_page, update_self, hcount]
    · rw [setPage_page, update_of_ne hq, quiet.count]

theorem getPageFromFreelistLoop_spec (g : Gfp) (flags : AllocFlags) (highest : ZoneType)
    (hmt : mt ≠ .highatomic) (ho : o < maxOrder) (zones : List ZoneType) (h : Tidy s 0) :
    Allocated s o (getPageFromFreelistLoop g o flags highest mt zones s) := by
  induction zones generalizing s with
  | nil => exact .nothing h rfl (SamePages.refl s)
  | cons z zones ih =>
    simp only [getPageFromFreelistLoop]
    split
    · exact ih h
    · have hr := h.rmqueue z flags hmt ho
      generalize rmqueue s z o flags mt = r at hr ⊢
      cases hr with
      | nothing tidy same quiet => exact (ih tidy).after same quiet
      | block tidy moved aligned quiet =>
        exact (Hands.block tidy moved aligned quiet).prepNewPage h g

theorem gfpMigratetype_ne (s : PageAlloc) (g : Gfp) : gfpMigratetype s g ≠ .highatomic := by
  have hexcl := g.mobility_excl
  unfold gfpMigratetype
  split
  · simp
  · split <;> simp_all

/-- **`__alloc_pages`** keeps the books; a block that it returns was on the lists and is not any
more, and its bytes are those it had there. -/
theorem allocPages_spec (h : Tidy s 0) (g : Gfp) (o : ℕ) : Allocated s o (allocPages s g o) := by
  unfold allocPages
  split
  · exact .nothing h rfl (SamePages.refl s)
  · rename_i ho
    have hlt : o < maxOrder := not_le.1 ho
    dsimp only
    have hfast :
        Allocated s o (getPageFromFreelist s (currentGfpContext s g) o { wmark := .low }) :=
      getPageFromFreelistLoop_spec _ _ _ (gfpMigratetype_ne _ _) hlt _ h
    generalize getPageFromFreelist s (currentGfpContext s g) o { wmark := .low } = r at hfast ⊢
    cases hfast with
    | block tidy moved aligned data count others =>
      exact .block tidy moved aligned data count others
    | nothing tidy same quiet =>
      exact (getPageFromFreelistLoop_spec _ _ _ (gfpMigratetype_ne _ _) hlt _ tidy).after same quiet

/-! ### Freeing -/

/-- What freeing a block leaves behind. -/
structure Freed (s : PageAlloc) (o p : ℕ) (s' : PageAlloc) : Prop where
  tidy : Tidy s' 0
  moved : s'.freeFrames = frames o p + s.freeFrames
  quiet : SamePages s s'

/-- **`__free_one_page`.** -/
theorem freeOnePage_spec (h : Tidy s 0) (z : ZoneType) (mt : MigrateType) (toTail : Bool)
    (ho : o < maxOrder) (hp : 2 ^ o ∣ p) (hd : Disjoint (frames o p) s.freeFrames) :
    Freed s o p (freeOnePage s p z o mt toTail) := by
  have hinsert : ∀ l : List ℕ, l.Perm (p :: s.lists (.buddy z o mt)) →
      Freed s o p ((((s.modZoneFreepageState z (2 ^ o)).setList (.buddy z o mt) l).addNrFree
        z o 1).setBuddyOrder p o) := by
    intro l hl
    have ht := (h.modZoneFreepageState z (2 ^ o)).insertBuddy ho hp hd hl
    exact ⟨(tidy_owe_zero rfl).1 (ht.owe_add (add_neg_cancel _)),
      freeFrames_insert (buddy_mem_places.2 ho) hl, .of_update rfl rfl rfl⟩
  unfold freeOnePage
  dsimp only
  split
  · exact hinsert _ (perm_append_singleton _ _)
  · exact hinsert _ (List.Perm.refl _)

theorem Freed.of_prepare {t : PageAlloc} (h : Freed (freePagesPrepare s p) o p t) : Freed s o p t :=
  have hprepare : SamePages s (freePagesPrepare s p) := .of_update rfl rfl rfl
  ⟨h.tidy, h.moved, hprepare.trans h.quiet⟩

/-- **`__free_pages_ok`.** -/
theorem freePagesOk_spec (h : Tidy s 0) (toTail : Bool) (ho : o < maxOrder) (hp : 2 ^ o ∣ p)
    (hd : Disjoint (frames o p) s.freeFrames) : Freed s o p (freePagesOk s p o toTail) :=
  .of_prepare (freeOnePage_spec (h.setPage hd _) _ _ _ ho hp hd)

/-- **`free_unref_page`.** -/
theorem freeUnrefPage_spec (h : Tidy s 0) (ho : o ≤ pageAllocCostlyOrder) (hp : 2 ^ o ∣ p)
    (hd : Disjoint (frames o p) s.freeFrames) : Freed s o p (freeUnrefPage s p o) := by
  refine .of_prepare ?_
  unfold freeUnrefPage freeUnrefPageCommit
  dsimp only
  generalize hmt : (if migratePcptypes ≤ (s.pageblockType p).idx then MigrateType.movable
    else s.pageblockType p) = mt
  have hne : mt ≠ .highatomic := by
    subst hmt
    cases s.pageblockType p <;> simp [MigrateType.idx, migratePcptypes]
  have hi := orderToPindex_lt hne ho
  have hio : orderToPindex mt o / migratePcptypes = o := orderToPindex_div hne
  obtain ⟨ht, hf⟩ := (h.setPage hd { s.page p with head := false }).insertPcp
    (z := s.pageZone p) hi hio hp hd (List.Perm.refl _)
  exact ⟨ht.addPcpCount _ _, hf, .of_eq rfl rfl⟩

section

variable (h : Tidy s 0) (ho : o < maxOrder) (hp : 2 ^ o ∣ p)
  (hd : Disjoint (frames o p) s.freeFrames)
include h ho hp hd

/-- **`free_the_page`.** -/
theorem freeThePage_spec : Freed s o p (freeThePage s p o) := by
  unfold freeThePage
  split
  · rename_i hpcp
    exact freeUnrefPage_spec h (by simpa [pcpAllowedOrder] using hpcp) hp hd
  · exact freePagesOk_spec h false ho hp hd

/-- **`__free_pages`** of a block that has one reference left. -/
theorem freePages_spec (hcount : (s.page p).count = 1) :
    Tidy (freePages s p o) 0 ∧ (freePages s p o).freeFrames = frames o p + s.freeFrames ∧
      ∀ q, q ≠ p → ((freePages s p o).page q).count = (s.page q).count := by
  have hzero :
      ((s.setPage p { s.page p with count := (s.page p).count - 1 }).page p).count = 0 := by
    simp [hcount]
  unfold freePages
  dsimp only
  rw [if_pos hzero]
  obtain ⟨htidy, hmoved, hquiet⟩ := freeThePage_spec (h.setPage hd _) ho hp hd
  refine ⟨htidy, hmoved, fun q hq => (hquiet.count q).trans ?_⟩
  rw [setPage_page, update_of_ne hq]

/-- **`__free_pages_core`.** -/
theorem freePagesCore_spec :
    Tidy (freePagesCore s p o) 0 ∧ (freePagesCore s p o).freeFrames = frames o p + s.freeFrames ∧
      ∀ q, q ∉ frames o p → ((freePagesCore s p o).page q).count = (s.page q).count := by
  have hreset : Tidy ((s.resetCounts p o).addManagedPages (s.pageZone p) (2 ^ o)) 0 := by
    refine h.congr rfl rfl rfl fun k _ q _ => ?_
    dsimp only [addManagedPages, resetCounts]
    split <;> exact ⟨rfl, rfl⟩
  obtain ⟨htidy, hmoved, hquiet⟩ := freePagesOk_spec hreset true ho hp hd
  refine ⟨htidy, hmoved, fun q hq => (hquiet.count q).trans ?_⟩
  rw [mem_frames] at hq
  dsimp only [addManagedPages, resetCounts]
  rw [if_neg hq]

end

end MinimalKernel.Mm
