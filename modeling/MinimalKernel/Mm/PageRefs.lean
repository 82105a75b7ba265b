import MinimalKernel.Mm.Fault
import Mathlib.Algebra.BigOperators.Group.Finset.Basic
import Mathlib.Tactic.Abel
import Mathlib.Tactic.Linarith

/-!
# The pages that a fault takes

What a fault does before it maps a page: it takes pages from the allocator, asks the handler of the
mapping for the page to show, and prepares a page table if there is none. Every step is accounted
for in the reference counts of the pages.

A reference of a page belongs to a mapping, to the page cache, to its use as a page table, or to the
code that holds the page at the moment. `MemState.balance` is what remains of the references of a
page when those of the first three kinds are taken off; a step gains or loses exactly what the code
holds after it.

## Main definitions

* `mapCount dir q` — how often the directory `dir` maps the page `q`
* `MemState.balance` — the references that no mapping, cache or page table accounts for
* `PagesOk` — the frames of the allocator are unused
* `Prepared m gain s s'` — the steps from `s` to `s'` hold the references `gain`
* `MemState.backing`, `MemState.visible` — the page that a mapping shows, and its bytes

## Main results

* `VmOps.fault_spec`, `callFault_spec` — the handlers deliver a page that the mapping then shows
* `balance_tabled` — a new page table brings the mappings that were left in its page
-/

namespace MinimalKernel.Mm

open Finset Function List MemState Option

/-! ### What is mapped, cached and counted -/

/-- `USER_PTRS_PER_PGD`, the directory entries of user space. -/
def userPtrsPerPgd : ℕ := taskSize / pgdirSize

/-- The page that an entry maps. -/
def Pte.pfn : Pte → Option ℕ
  | .present p _ _ _ => some p
  | _ => Option.none

/-- How often a page table maps the page `q`. -/
def Pde.count (q : ℕ) : Pde → ℕ
  | .table entries => ∑ j ∈ range ptrsPerPte, if (entries j).pfn = some q then 1 else 0
  | _ => 0

/-- How often a page directory maps the page `q` to user space. -/
@[irreducible] def mapCount (dir : Pgd) (q : ℕ) : ℕ :=
  ∑ i ∈ range userPtrsPerPgd, (dir i).count q

namespace MemState

variable (s : MemState)

/-- The page `q` is mapped at the user page `k` of the address space `m`. -/
def Maps (m : MmId) (k q : ℕ) : Prop :=
  k / ptrsPerPte < userPtrsPerPgd ∧ (s.pte m k).pfn = some q

/-- The page `q` is in a page cache. -/
def Cached (q : ℕ) : Prop := ∃ f i, s.cache f i = some q

open Classical in
/-- The reference of the page cache. -/
noncomputable def cacheRefs (q : ℕ) : ℤ := if s.Cached q then 1 else 0

/-- The references of the page `q` that neither the address space `m` nor the page cache nor its
use as a page table accounts for. -/
noncomputable def balance (m : MmId) (q : ℕ) : ℤ :=
  (s.frame q).refs - mapCount (s.pgd m) q - s.cacheRefs q - s.tables.count q

end MemState

open MemState

variable {s s' s'' : MemState} {m m' : MmId} {a : VmArea} {e : Pte} {dir : Pgd}
  {i j k l p q t x : ℕ} {v : Vmf} {ops : VmOps} {flags : FaultFlags} {gain : ℕ → ℤ} {f : FileId}

/-- One reference of the page `p`. -/
def one (p q : ℕ) : ℤ := if q = p then 1 else 0

/-- A sum in which one argument is replaced. -/
theorem sum_update {α : Type} (g : α → ℕ) (f : ℕ → α) (b : α) {n : ℕ} (hi : i < n) :
    ∑ j ∈ range n, g (update f i b j) + g (f i)
      = ∑ j ∈ Finset.range n, g (f j) + g b := by
  have hmem : i ∈ Finset.range n := Finset.mem_range.2 hi
  have hrest : ∑ j ∈ (Finset.range n).erase i, g (update f i b j)
      = ∑ j ∈ (Finset.range n).erase i, g (f j) :=
    sum_congr rfl fun j hj => by rw [update_of_ne (ne_of_mem_erase hj)]
  rw [← add_sum_erase _ _ hmem, ← add_sum_erase _ (fun j => g (f j)) hmem, hrest, update_self]
  ring

theorem mapCount_update (hi : i < userPtrsPerPgd) (d : Pde) (dir : Pgd) (q : ℕ) :
    mapCount (update dir i d) q + (dir i).count q = mapCount dir q + d.count q := by
  unfold mapCount
  exact sum_update (Pde.count q) dir d hi

theorem count_update (hj : j < ptrsPerPte) (entries : ℕ → Pte) (e : Pte) (q : ℕ) :
    (Pde.table (update entries j e)).count q
        + (if (entries j).pfn = some q then 1 else 0)
      = (Pde.table entries).count q + if e.pfn = some q then 1 else 0 :=
  sum_update (fun e : Pte => if e.pfn = some q then 1 else 0) entries e hj

theorem pfn_eq_none_iff : e.pfn = none ↔ e.isPresent = false := by
  cases e <;> simp [Pte.pfn, Pte.isPresent]

theorem count_eq_zero_iff {entries : ℕ → Pte} :
    (∀ q, (Pde.table entries).count q = 0) ↔ ∀ j < ptrsPerPte, (entries j).isPresent = false := by
  simp only [Pde.count, Finset.sum_eq_zero_iff, Finset.mem_range, ite_eq_right_iff,
    one_ne_zero, imp_false, ← pfn_eq_none_iff, eq_none_iff_forall_ne_some]
  exact ⟨fun h j hj q => h q j hj, fun h q j hj => h j hj q⟩

/-! ### Page tables -/

theorem Pde.eq_none_of_isNone {d : Pde} (h : d.isNone = true) : d = .none := by
  cases d with
  | none => rfl
  | table entries => cases h
  | bad => cases h

theorem Pde.exists_of_isTable {d : Pde} (h : d.isTable = true) : ∃ entries, d = .table entries := by
  cases d with
  | none => cases h
  | table entries => exact ⟨entries, rfl⟩
  | bad => cases h

theorem setPte_eq {entries : ℕ → Pte} (hd : s.pgd m (k / ptrsPerPte) = .table entries) :
    s.setPte m k e = s.setPgd m (update (s.pgd m) (k / ptrsPerPte)
      (.table (update entries (k % ptrsPerPte) e))) := by
  rw [setPte, hd]

theorem pte_pmdInstall (hnone : s.pmdNone m k = true) :
    (s.pmdInstall m k t).pte m' l = if m' = m ∧ l / ptrsPerPte = k / ptrsPerPte
      then tableOf (s.frame t).data (l % ptrsPerPte) else s.pte m' l := by
  unfold pte pmdInstall setPgd pteOf
  dsimp only
  by_cases hm : m' = m
  · subst hm
    by_cases hl : l / ptrsPerPte = k / ptrsPerPte
    · simp [hl]
    · simp [hl]
  · simp [hm]

theorem pte_setPte (htable : (s.pgd m (k / ptrsPerPte)).isTable = true) (e : Pte) :
    (s.setPte m k e).pte m' l = if m' = m ∧ l = k then e else s.pte m' l := by
  obtain ⟨entries, hd⟩ := Pde.exists_of_isTable htable
  rw [setPte_eq hd]
  unfold pte setPgd pteOf
  dsimp only
  by_cases hm : m' = m
  · subst hm
    by_cases hl : l / ptrsPerPte = k / ptrsPerPte
    · rw [update_self, hl, update_self, hd]
      dsimp only
      by_cases hmod : l % ptrsPerPte = k % ptrsPerPte
      · have hlk : l = k := by
          rw [← Nat.div_add_mod l ptrsPerPte, hl, hmod, Nat.div_add_mod]
        subst hlk
        simp
      · have hlk : l ≠ k := fun h => hmod (by rw [h])
        rw [update_of_ne hmod, if_neg (by simp [hlk])]
    · have hlk : l ≠ k := fun h => hl (by rw [h])
      rw [update_self, update_of_ne hl, if_neg (by simp [hlk])]
  · rw [update_of_ne hm, if_neg (by simp [hm])]

theorem isTable_of_pte_ne (h : s.pte m k ≠ .none) : (s.pgd m (k / ptrsPerPte)).isTable = true := by
  unfold pte pteOf at h
  rcases hd : s.pgd m (k / ptrsPerPte) with _ | entries | _ <;> rw [hd] at h
  · exact absurd rfl h
  · rfl
  · exact absurd rfl h

theorem isTable_of_present {w d acc : Bool} (h : s.pte m k = .present p w d acc) :
    (s.pgd m (k / ptrsPerPte)).isTable = true :=
  isTable_of_pte_ne (by rw [h]; nofun)

theorem isTable_pmdInstall : ((s.pmdInstall m k t).pgd m (k / ptrsPerPte)).isTable = true := by
  simp [pmdInstall, setPgd, Pde.isTable]

/-! ### Reference counts -/

theorem balance_of_refs {r : ℤ} (hrefs : (s'.frame q).refs = (s.frame q).refs + r)
    (hpgd : s'.pgd = s.pgd) (hcached : s'.Cached q ↔ s.Cached q) (htables : s'.tables = s.tables) :
    s'.balance m q = s.balance m q + r := by
  have hc : s'.cacheRefs q = s.cacheRefs q := by
    classical exact if_congr hcached rfl rfl
  unfold balance
  rw [hc, hrefs, hpgd, htables]
  ring

theorem balance_setPgd : (s.setPgd m dir).balance m q
    = s.balance m q + mapCount (s.pgd m) q - mapCount dir q := by
  unfold balance
  show _ - (mapCount (update s.pgd m dir m) q : ℤ) - s.cacheRefs q - _ = _
  rw [update_self]
  show (s.frame q).refs - _ - _ - (s.tables.count q : ℤ) = _
  ring

theorem balance_setFrame (f : Frame) :
    (s.setFrame p f).balance m q
      = s.balance m q + if q = p then f.refs - (s.frame p).refs else 0 := by
  refine balance_of_refs ?_ rfl Iff.rfl rfl
  by_cases hq : q = p
  · subst hq
    simp [setFrame]
  · simp [setFrame, hq]

theorem balance_getPage : (s.getPage p).balance m q = s.balance m q + one p q := by
  rw [getPage, balance_setFrame, one]
  simp

theorem refs_putPage : ((s.putPage p).frame q).refs = (s.frame q).refs - one p q := by
  unfold putPage
  by_cases hq : q = p
  · subst hq
    rw [one, if_pos rfl]
    split_ifs with h
    · simp only [setFrame, update_self]
      omega
    · simp [setFrame]
  · split_ifs <;> simp [setFrame, one, hq]

theorem cached_putPage : (s.putPage p).Cached q ↔ s.Cached q := by
  unfold putPage
  split_ifs <;> rfl

theorem pgd_putPage : (s.putPage p).pgd = s.pgd := by
  unfold putPage
  split_ifs <;> rfl

theorem tables_putPage : (s.putPage p).tables = s.tables := by
  unfold putPage
  split_ifs <;> rfl

theorem balance_putPage : (s.putPage p).balance m q = s.balance m q - one p q :=
  balance_of_refs (r := -one p q) refs_putPage pgd_putPage cached_putPage tables_putPage

theorem balance_pageAddNewAnonRmap : (s.pageAddNewAnonRmap p).balance m q = s.balance m q := by
  rw [pageAddNewAnonRmap, balance_setFrame]
  simp

theorem balance_copyUserHighpage {dst src : ℕ} :
    (s.copyUserHighpage dst src).balance m q = s.balance m q := by
  rw [copyUserHighpage, balance_setFrame]
  simp

theorem balance_setPte (hk : k / ptrsPerPte < userPtrsPerPgd)
    (htable : (s.pgd m (k / ptrsPerPte)).isTable = true) (e : Pte) :
    (s.setPte m k e).balance m q = s.balance m q + (if (s.pte m k).pfn = some q then 1 else 0)
      - if e.pfn = some q then 1 else 0 := by
  obtain ⟨entries, hd⟩ := Pde.exists_of_isTable htable
  have hmod : k % ptrsPerPte < ptrsPerPte := Nat.mod_lt _ (by decide)
  have hpte : s.pte m k = entries (k % ptrsPerPte) := by
    rw [pte, pteOf, hd]
  have hmap := mapCount_update hk (.table (update entries (k % ptrsPerPte) e))
    (s.pgd m) q
  have hcount := count_update hmod entries e q
  rw [hd] at hmap
  rw [setPte_eq hd, hpte, balance_setPgd]
  split_ifs at * <;> omega

/-- A page table comes with the mappings that the last user of its page left there. -/
theorem balance_pmdInstall (hk : k / ptrsPerPte < userPtrsPerPgd)
    (hnone : s.pmdNone m k = true) : (s.pmdInstall m k t).balance m q
      = s.balance m q - (Pde.table (tableOf (s.frame t).data)).count q := by
  have hmap := mapCount_update hk (.table (tableOf (s.frame t).data)) (s.pgd m) q
  have hzero : (s.pgd m (k / ptrsPerPte)).count q = 0 := by
    rw [Pde.eq_none_of_isNone hnone]
    rfl
  rw [pmdInstall, balance_setPgd]
  omega

theorem cache_filemapAddFolio {g : FileId} :
    (s.filemapAddFolio f i p).cache g j = if g = f ∧ j = i then some p else s.cache g j := by
  by_cases hg : g = f
  · subst hg
    simp [filemapAddFolio, update_apply]
  · simp [filemapAddFolio, hg]

theorem cached_filemapAddFolio (hnone : s.cache f i = none) :
    (s.filemapAddFolio f i p).Cached q ↔ s.Cached q ∨ q = p := by
  simp only [Cached, cache_filemapAddFolio]
  constructor
  · rintro ⟨g, j, h⟩
    split_ifs at h
    · exact .inr (Option.some.inj h).symm
    · exact .inl ⟨g, j, h⟩
  · rintro (⟨g, j, h⟩ | rfl)
    · refine ⟨g, j, (if_neg ?_).trans h⟩
      rintro ⟨rfl, rfl⟩
      simp [hnone] at h
    · exact ⟨f, i, if_pos ⟨rfl, rfl⟩⟩

theorem balance_filemapAddFolio (hnone : s.cache f i = none) (hp : ¬ s.Cached p) :
    (s.filemapAddFolio f i p).balance m q = s.balance m q := by
  have hrefs : ((s.filemapAddFolio f i p).frame q).refs = (s.frame q).refs + one p q := by
    by_cases hq : q = p
    · subst hq
      simp [filemapAddFolio, getPage, setFrame, one]
    · simp [filemapAddFolio, getPage, setFrame, one, hq]
  have hcache : (s.filemapAddFolio f i p).cacheRefs q = s.cacheRefs q + one p q := by
    classical
    refine (if_congr (cached_filemapAddFolio hnone) rfl rfl).trans ?_
    unfold cacheRefs
    by_cases hq : q = p
    · subst hq
      simp [one, hp]
    · simp [one, hq]
  unfold balance
  rw [hcache, hrefs]
  show _ - (mapCount (s.pgd m) q : ℤ) - _ - (s.tables.count q : ℤ) = _
  ring

/-! ### Taking pages -/

/-- The frames that the allocator hands out are used by nobody, and the pages that a mapping can
show have a reference for that. -/
structure PagesOk (s : MemState) : Prop where
  nodup : s.free.Nodup
  refs : ∀ p ∈ s.free, (s.frame p).refs = 0
  uncached : ∀ p ∈ s.free, ¬ s.Cached p
  unspecial : ∀ p ∈ s.free, ∀ i, s.special i ≠ some p
  cached_refs : ∀ p, s.Cached p → 1 ≤ (s.frame p).refs
  special_refs : ∀ p i, s.special i = some p → 1 ≤ (s.frame p).refs

/-- What the steps before the mapping of a page do: they take pages from the allocator, put pages
into the page cache and hold the references `gain`. -/
structure Prepared (m : MmId) (gain : ℕ → ℤ) (s s' : MemState) : Prop where
  pgd : s'.pgd = s.pgd
  special : s'.special = s.special
  data : ∀ q, (s'.frame q).data = (s.frame q).data
  exclusive : ∀ q, (s'.frame q).exclusive = (s.frame q).exclusive
  counted : ∀ q, s'.balance m q = s.balance m q + gain q
  cache_mono : ∀ f i p, s.cache f i = some p → s'.cache f i = some p
  cache_new : ∀ f i p, s'.cache f i = some p → s.cache f i = some p ∨ p ∈ s.free
  free : s'.free <:+ s.free
  ready : PagesOk s'

section

variable (h : Prepared m gain s s')
include h

theorem Prepared.trans {gain' : ℕ → ℤ} (h' : Prepared m gain' s' s'') :
    Prepared m (fun q => gain q + gain' q) s s'' where
  pgd := h'.pgd.trans h.pgd
  special := h'.special.trans h.special
  data q := (h'.data q).trans (h.data q)
  exclusive q := (h'.exclusive q).trans (h.exclusive q)
  counted q := by rw [h'.counted, h.counted, add_assoc]
  cache_mono f i p hp := h'.cache_mono f i p (h.cache_mono f i p hp)
  cache_new f i p hp := (h'.cache_new f i p hp).elim (h.cache_new f i p)
    fun hfree => .inr (h.free.subset hfree)
  free := h'.free.trans h.free
  ready := h'.ready

theorem Prepared.pte : s'.pte m' k = s.pte m' k := by
  rw [MemState.pte, h.pgd, MemState.pte]

theorem Prepared.pmdNone : s'.pmdNone m' k = s.pmdNone m' k := by
  rw [MemState.pmdNone, h.pgd, MemState.pmdNone]

theorem Prepared.maps : s'.Maps m' k q ↔ s.Maps m' k q := by
  rw [Maps, h.pte, Maps]

end

/-- A part of the frames that stays as it is when a frame is overwritten. -/
theorem frame_setFrame {β : Type} (g : Frame → β) {f : Frame} (h : g f = g (s.frame p)) :
    g ((s.setFrame p f).frame q) = g (s.frame q) := by
  by_cases hq : q = p
  · subst hq
    simpa [setFrame] using h
  · simp [setFrame, hq]

theorem refs_setFrame_le {f : Frame} (h : (s.frame p).refs ≤ f.refs) :
    (s.frame q).refs ≤ ((s.setFrame p f).frame q).refs := by
  by_cases hq : q = p
  · subst hq
    simpa [setFrame] using h
  · simp [setFrame, hq]

theorem frame_setFrame_of_ne {f : Frame} (h : q ≠ p) : (s.setFrame p f).frame q = s.frame q := by
  simp [setFrame, h]

section

variable (h : PagesOk s) {rest : List ℕ}
include h

theorem PagesOk.getPage (hp : p ∉ s.free) : Prepared m (one p) s (s.getPage p) where
  pgd := rfl
  special := rfl
  data _ := frame_setFrame Frame.data rfl
  exclusive _ := frame_setFrame Frame.exclusive rfl
  counted _ := balance_getPage
  cache_mono _ _ _ hp := hp
  cache_new _ _ _ hp := .inl hp
  free := suffix_rfl
  ready := by
    have hle : ∀ r, (s.frame r).refs ≤ ((s.getPage p).frame r).refs := fun r =>
      refs_setFrame_le (Int.le_of_lt (Int.lt_succ _))
    refine ⟨h.nodup, fun r hr => ?_, h.uncached, h.unspecial,
      fun r hr => (h.cached_refs r hr).trans (hle r),
      fun r i hr => (h.special_refs r i hr).trans (hle r)⟩
    rw [MemState.getPage, frame_setFrame_of_ne (ne_of_mem_of_not_mem (show r ∈ s.free from hr) hp)]
    exact h.refs r hr

theorem PagesOk.allocPage (hfree : s.free = p :: rest) :
    ∃ s', s.allocPage = (some p, s') ∧ Prepared m (one p) s s' ∧ s'.free = rest
      ∧ s'.cache = s.cache := by
  have hrefs : (s.frame p).refs = 0 := h.refs p (hfree ▸ mem_cons_self)
  have hnodup : p ∉ rest ∧ rest.Nodup := nodup_cons.1 (hfree ▸ h.nodup)
  have hrest : rest ⊆ s.free := hfree ▸ subset_cons_self p rest
  refine ⟨{ s.setFrame p { s.frame p with refs := 1 } with free := rest },
    by rw [MemState.allocPage, hfree], ?_, rfl, rfl⟩
  have hle : ∀ r, (s.frame r).refs ≤ ((s.setFrame p { s.frame p with refs := 1 }).frame r).refs :=
    fun r => refs_setFrame_le (by rw [hrefs]; exact Int.one_nonneg)
  refine ⟨rfl, rfl, fun _ => frame_setFrame Frame.data rfl,
    fun _ => frame_setFrame Frame.exclusive rfl, fun q => ?_,
    fun _ _ _ hp => hp, fun _ _ _ hp => .inl hp, hfree ▸ suffix_cons p rest,
    ⟨hnodup.2, fun r hr => ?_, fun r hr => h.uncached r (hrest hr),
      fun r hr => h.unspecial r (hrest hr), fun r hr => (h.cached_refs r hr).trans (hle r),
      fun r i hr => (h.special_refs r i hr).trans (hle r)⟩⟩
  · refine (balance_setFrame (s := s) (p := p) { s.frame p with refs := 1 }).trans ?_
    rw [hrefs, one]
    rfl
  · show ((s.setFrame p _).frame r).refs = 0
    rw [frame_setFrame_of_ne (ne_of_mem_of_not_mem hr hnodup.1)]
    exact h.refs r (hrest hr)

theorem PagesOk.pteAllocOne (hfree : s.free = t :: rest) :
    ∃ s', s.pteAllocOne = (some t, s') ∧ Prepared m (fun _ => 0) s s' ∧ s'.free = rest
      ∧ s'.cache = s.cache := by
  obtain ⟨s₁, halloc, hp, hrest, hcache⟩ := h.allocPage (m := m) hfree
  refine ⟨{ s₁ with tables := t :: s₁.tables }, by rw [MemState.pteAllocOne, halloc], ?_,
    hrest, hcache⟩
  refine ⟨hp.pgd, hp.special, hp.data, hp.exclusive, fun q => ?_, hp.cache_mono,
    hp.cache_new, hp.free, { hp.ready with }⟩
  have hq := hp.counted q
  have htable : balance { s₁ with tables := t :: s₁.tables } m q
      = s₁.balance m q - one t q := by
    show _ - _ - s₁.cacheRefs q - (((t :: s₁.tables).count q : ℕ) : ℤ) = _
    rw [count_cons, one]
    unfold balance
    by_cases hqt : q = t
    · subst hqt
      simp
      ring
    · simp [hqt, Ne.symm hqt]
  rw [htable, hq]
  ring

/-- `filemap_add_folio` for a page that has just been allocated. -/
theorem PagesOk.filemapAddFolio (hp : p ∉ s.free) (hnone : s.cache f i = none)
    (hrefs : 0 ≤ (s.frame p).refs) : PagesOk (s.filemapAddFolio f i p) := by
  have hget := (h.getPage (m := 0) hp).ready
  refine ⟨h.nodup, hget.refs, fun r hr hc => ?_, h.unspecial, fun r hr => ?_, hget.special_refs⟩
  · rcases (cached_filemapAddFolio hnone).1 hc with hc | rfl
    · exact h.uncached r hr hc
    · exact hp hr
  · rcases (cached_filemapAddFolio hnone).1 hr with hc | rfl
    · exact hget.cached_refs r hc
    · show 1 ≤ ((s.getPage r).frame r).refs
      simp only [MemState.getPage, setFrame, update_self]
      omega

/-- A page from the allocator is put into the page cache. -/
theorem PagesOk.cachePage (hfree : s.free = p :: rest) (hnone : s.cache f i = none) :
    ∃ s', s.allocPage = (some p, s') ∧
      Prepared m (one p) s (s'.filemapAddFolio f i p) ∧ (s'.frame p).refs = 1 := by
  obtain ⟨s₁, halloc, hp, hrest, hcache⟩ := h.allocPage (m := m) hfree
  have hmem : p ∈ s.free := hfree ▸ mem_cons_self
  have hnone₁ : s₁.cache f i = none := hcache ▸ hnone
  have hnot : p ∉ s₁.free := hrest ▸ (nodup_cons.1 (hfree ▸ h.nodup)).1
  have hun : ¬ s₁.Cached p := by
    unfold Cached
    rw [hcache]
    exact h.uncached p hmem
  have hrefs : (s₁.frame p).refs = 1 := by
    have hs₁ : s₁ = s.allocPage.2 := by rw [halloc]
    simp [hs₁, MemState.allocPage, hfree, setFrame]
  have hget := hp.trans (hp.ready.getPage hnot)
  refine ⟨s₁, halloc, ?_, hrefs⟩
  refine ⟨hp.pgd, hp.special, hget.data, hget.exclusive,
    fun q => (balance_filemapAddFolio hnone₁ hun).trans (hp.counted q), fun g j r hr => ?_,
    fun g j r hr => ?_, hp.free, hp.ready.filemapAddFolio hnot hnone₁ (by omega)⟩
  · rw [cache_filemapAddFolio, hcache, if_neg]
    · exact hr
    · rintro ⟨rfl, rfl⟩
      simp [hnone] at hr
  · rw [cache_filemapAddFolio, hcache] at hr
    split_ifs at hr
    · exact .inr (Option.some.inj hr ▸ hmem)
    · exact .inl hr

end

/-! ### The fault handlers -/

namespace MemState

/-- The page that a mapping shows where the process has no page of its own. -/
def backing (s : MemState) (a : VmArea) (index : ℕ) : Option ℕ :=
  match a.vmOps with
  | some .genericFile => a.vmFile.bind fun f => s.cache f index
  | some .specialMapping => s.special index
  | _ => none

/-- The bytes that a process sees at the page of the address `x`. -/
def visible (s : MemState) (a : VmArea) (x j : ℕ) : BitVec 8 :=
  match (s.pte a.vmMm (pageOf x)).pfn.or (s.backing a (a.pageIndex x)) with
  | some p => (s.frame p).data j
  | none => 0

end MemState

/-- The handler delivers the page at `index`. -/
def Delivers (s : MemState) (a : VmArea) (index : ℕ) : Prop :=
  match a.vmOps with
  | some .genericFile => a.vmFile.isSome = true
  | some .specialMapping => (s.special index).isSome = true
  | _ => False

/-- The page that the handler delivers: the one that is there, or the next of the allocator. -/
def Source (s : MemState) (a : VmArea) (index n p : ℕ) : Prop :=
  s.backing a index = some p ∨ s.backing a index = none ∧ s.free[n]? = some p

theorem PagesOk.not_mem_of_backing (h : PagesOk s) (hb : s.backing a i = some p) : p ∉ s.free := by
  unfold backing at hb
  intro hp
  rcases hops : a.vmOps with _ | _ | _ | _ <;> rw [hops] at hb
  · cases hb
  · cases hb
  · obtain ⟨f, -, hf⟩ := bind_eq_some_iff.1 hb
    exact h.uncached p hp ⟨f, i, hf⟩
  · exact h.unspecial p hp i hb

/-- The handler returns a page without an error, and the mapping shows this page from now on. -/
theorem VmOps.fault_spec (h : PagesOk s) (hops : v.vma.vmOps = some ops)
    (hd : Delivers s v.vma v.pgoff) (hfree : s.free ≠ []) :
    ∃ ret p s', ops.fault s v = .ok (.ok (ret, p), s') ∧ (ret = vmFaultLocked ∨ ret = 0) ∧
      Prepared m (one p) s s' ∧ Source s v.vma v.pgoff 0 p ∧
      s'.backing v.vma v.pgoff = some p ∧ 2 ≤ (s'.frame p).refs := by
  have hget : ∀ r : ℕ, 1 ≤ (s.frame r).refs → 2 ≤ ((s.getPage r).frame r).refs := fun r hr => by
    simp only [getPage, setFrame, update_self]
    omega
  obtain ⟨p, rest, hfree⟩ := exists_cons_of_ne_nil hfree
  unfold Delivers at hd
  rw [hops] at hd
  cases ops with
  | dummy => exact hd.elim
  | genericFile =>
    obtain ⟨f, hf⟩ := isSome_iff_exists.1 hd
    have hback : ∀ r : MemState, r.backing v.vma v.pgoff = r.cache f v.pgoff := fun r => by
      rw [backing, hops, hf]
      rfl
    cases hc : s.cache f v.pgoff with
    | some r =>
      have hsr : s.backing v.vma v.pgoff = some r := (hback s).trans hc
      refine ⟨vmFaultLocked, r, s.getPage r, ?_, .inl rfl, h.getPage (h.not_mem_of_backing hsr),
        .inl hsr, (hback _).trans hc, hget r (h.cached_refs r ⟨f, _, hc⟩)⟩
      rw [VmOps.fault, filemapFault, hf]
      dsimp only
      rw [hc]
    | none =>
      obtain ⟨s₁, halloc, hp, hrefs⟩ := h.cachePage (m := m) hfree hc
      refine ⟨vmFaultLocked, p, _, ?_, .inl rfl, hp,
        .inr ⟨(hback s).trans hc, by rw [hfree]; rfl⟩, (hback _).trans ?_, ?_⟩
      · rw [VmOps.fault, filemapFault, hf]
        dsimp only
        rw [hc]
        dsimp only
        rw [halloc]
      · simp [filemapAddFolio]
      · simp [filemapAddFolio, getPage, setFrame, hrefs]
  | specialMapping =>
    obtain ⟨r, hr⟩ := isSome_iff_exists.1 hd
    have hback : ∀ r : MemState, r.backing v.vma v.pgoff = r.special v.pgoff := fun r => by
      rw [backing, hops]
    have hsr : s.backing v.vma v.pgoff = some r := (hback s).trans hr
    refine ⟨0, r, s.getPage r, ?_, .inr rfl, h.getPage (h.not_mem_of_backing hsr), .inl hsr,
      (hback _).trans hr, hget r (h.special_refs r _ hr)⟩
    rw [VmOps.fault, specialMappingFault, hr]

/-! ### Page tables that are missing -/

namespace MemState

variable (s : MemState)

/-- The page table that a fault installs, if it has to: the frame at the place `n`. -/
def newTable (m : MmId) (k n : ℕ) : Option ℕ :=
  if s.pmdNone m k then s.free[n]? else none

/-- The state with the new page table. -/
def tabled (m : MmId) (k : ℕ) : Option ℕ → MemState
  | some t => s.pmdInstall m k t
  | none => s

/-- The entry for the page `k` that a new page table comes with. -/
def firstEntry (k : ℕ) : Option ℕ → Pte
  | some t => tableOf (s.frame t).data (k % ptrsPerPte)
  | none => .none

/-- How often a new page table maps the page `q` from the start. -/
def leftOver (q : ℕ) : Option ℕ → ℕ
  | some t => (Pde.table (tableOf (s.frame t).data)).count q
  | none => 0

end MemState

variable {tbl : Option ℕ} {n : ℕ}

theorem isSome_newTable (h : n < s.free.length) : (s.newTable m k n).isSome = s.pmdNone m k := by
  unfold newTable
  split_ifs with hn
  · rw [hn, List.getElem?_eq_getElem h]
    rfl
  · rw [Bool.not_eq_true] at hn
    rw [hn]
    rfl

theorem pte_tabled (hn : tbl.isSome = s.pmdNone m k) (hpte : s.pte m k = .none) :
    (s.tabled m k tbl).pte m k = s.firstEntry k tbl := by
  cases tbl with
  | none => exact hpte
  | some t =>
    rw [tabled, pte_pmdInstall hn.symm, if_pos ⟨rfl, rfl⟩]
    rfl

theorem pgd_tabled_of_ne (hm : m' ≠ m) : (s.tabled m k tbl).pgd m' = s.pgd m' := by
  cases tbl with
  | none => rfl
  | some t => simp [tabled, pmdInstall, setPgd, hm]

theorem balance_tabled (hk : k / ptrsPerPte < userPtrsPerPgd) (hn : tbl.isSome = s.pmdNone m k) :
    (s.tabled m k tbl).balance m q = s.balance m q - s.leftOver q tbl := by
  cases tbl with
  | none => simp [tabled, leftOver]
  | some t => exact balance_pmdInstall hk hn.symm

theorem isTable_tabled (hn : tbl.isSome = s.pmdNone m k) (hbad : s.pgd m (k / ptrsPerPte) ≠ .bad) :
    ((s.tabled m k tbl).pgd m (k / ptrsPerPte)).isTable = true := by
  cases tbl with
  | none =>
    show (s.pgd m (k / ptrsPerPte)).isTable = true
    unfold pmdNone at hn
    rcases hd : s.pgd m (k / ptrsPerPte) with _ | entries | _
    · rw [hd] at hn
      cases hn
    · rfl
    · exact absurd hd hbad
  | some t => exact isTable_pmdInstall

/-- `__do_fault` comes back with a page, and with a page table if one is missing. -/
theorem callFault_spec (h : PagesOk s) (hops : v.vma.vmOps = some ops)
    (hd : Delivers s v.vma v.pgoff) (hlen : 2 ≤ s.free.length) :
    ∃ ret p s', callFault s v ops = .ok (s.newTable v.vma.vmMm v.vpn 0, .ok (ret, p), s') ∧
      (ret = vmFaultLocked ∨ ret = 0) ∧ Prepared m (one p) s s' ∧
      Source s v.vma v.pgoff (s.pmdNone v.vma.vmMm v.vpn).toNat p ∧
      s'.backing v.vma v.pgoff = some p ∧ 2 ≤ (s'.frame p).refs := by
  unfold callFault newTable
  cases hn : s.pmdNone v.vma.vmMm v.vpn with
  | false =>
    obtain ⟨ret, p, s', heq, hret, hp, hsrc, hback⟩ :=
      ops.fault_spec (m := m) h hops hd (by rintro hnil; rw [hnil] at hlen; cases hlen)
    exact ⟨ret, p, s', by simp [heq, Except.map], hret, hp, hsrc, hback⟩
  | true =>
    obtain ⟨t, rest, hfree⟩ : ∃ t rest, s.free = t :: rest :=
      exists_cons_of_ne_nil (by rintro hnil; rw [hnil] at hlen; cases hlen)
    obtain ⟨s₁, halloc, hp₁, hrest, hcache⟩ := h.pteAllocOne (m := m) hfree
    have hback₁ : s₁.backing v.vma v.pgoff = s.backing v.vma v.pgoff := by
      unfold backing
      rw [hcache, hp₁.special]
    have hd₁ : Delivers s₁ v.vma v.pgoff := by
      unfold Delivers
      rw [hp₁.special]
      exact hd
    obtain ⟨ret, p, s', heq, hret, hp, hsrc, hback⟩ := ops.fault_spec (m := m) hp₁.ready hops hd₁
      (by rintro hnil; rw [hfree, ← hrest, hnil] at hlen; simp at hlen)
    refine ⟨ret, p, s', by simp [halloc, heq, hfree, Except.map], hret, ?_, ?_, hback⟩
    · have htrans := hp₁.trans hp
      simpa using htrans
    · unfold Source at hsrc ⊢
      rw [hback₁, hrest] at hsrc
      rw [hfree]
      exact hsrc

/-- `finish_fault`, given the page table if one is missing. -/
theorem finishFault_eq (hn : tbl.isSome = s.pmdNone v.vma.vmMm v.vpn) :
    finishFault s v p tbl =
      if (s.tabled v.vma.vmMm v.vpn tbl).pte v.vma.vmMm v.vpn = .none
      then (0, none, doSetPte (s.tabled v.vma.vmMm v.vpn tbl) v p)
      else (vmFaultNopage, none, s.tabled v.vma.vmMm v.vpn tbl) := by
  cases tbl with
  | none | some t =>
    unfold finishFault
    rw [← hn]
    rfl

end MinimalKernel.Mm
