import MinimalKernel.Mm.PageRefs

/-!
# The routes of a page fault

What a fault on an empty page table entry comes to, for each of the four routes of `mm/memory.c`:
`do_anonymous_page`, `do_read_fault`, `do_cow_fault` and `do_shared_fault`. The page that is mapped
is either one that belongs to the process alone or the one that the mapping shows, and everything
else in memory stays as it is.

## Main definitions

* `Grown m k T Q s s'` — what a fault leaves as it is
* `Outcome`, `Effect` — what a fault on an empty entry comes to

## Main results

* `doReadFault_spec`, `doCowFault_spec`, `doSharedFault_spec`, `doAnonymousPage_spec` — the four
  routes
-/

namespace MinimalKernel.Mm

open List MemState

variable {s s' s'' : MemState} {m m' : MmId} {a : VmArea} {e : Pte} {dir : Pgd}
  {i j k l p q t x n : ℕ} {v : Vmf} {ops : VmOps} {flags : FaultFlags} {tbl : Option ℕ}

/-! ### What a fault leaves as it is -/

/-- A page table comes empty. -/
def EmptyTable (s : MemState) (t : ℕ) : Prop :=
  ∀ j < ptrsPerPte, tableOf (s.frame t).data j = .none

/-- The rest of memory while a page is mapped at the page `k` of the address space `m`: only the
bytes and the flags of the touched pages `T` change, and never those of a free page. A new page
table leaves the other entries as they were if `Q` holds. -/
structure Grown (m : MmId) (k : ℕ) (T : ℕ → Prop) (Q : Prop) (s s' : MemState) : Prop where
  pte : ∀ m' l, ¬ (m' = m ∧ l = k) →
    s'.pte m' l = s.pte m' l ∨ s.pte m' l = .none ∧ s'.pte m' l = .swap
  quiet : Q → ∀ m' l, ¬ (m' = m ∧ l = k) → s'.pte m' l = s.pte m' l
  dirs : ∀ m' i, s'.pgd m' i = .bad → s.pgd m' i = .bad
  special : s'.special = s.special
  data : ∀ q, ¬ T q ∨ q ∈ s'.free → (s'.frame q).data = (s.frame q).data
  exclusive : ∀ q, ¬ T q → (s'.frame q).exclusive = (s.frame q).exclusive
  cache_mono : ∀ f i p, s.cache f i = some p → s'.cache f i = some p
  cache_new : ∀ f i p, s'.cache f i = some p → s.cache f i = some p ∨ p ∈ s.free
  free : s'.free <:+ s.free
  ready : PagesOk s'

variable {T : ℕ → Prop} {Q : Prop} {gain : ℕ → ℤ}

section

variable (h : Grown m k T Q s s')
include h

theorem Grown.trans (h' : Grown m k T Q s' s'') : Grown m k T Q s s'' where
  pte m' l hne := by
    rcases h'.pte m' l hne with heq' | ⟨hnone, hswap⟩
    · rw [heq']
      exact h.pte m' l hne
    · rcases h.pte m' l hne with heq | ⟨-, hswap'⟩
      · exact .inr ⟨heq ▸ hnone, hswap⟩
      · rw [hswap'] at hnone
        cases hnone
  quiet hQ m' l hne := (h'.quiet hQ m' l hne).trans (h.quiet hQ m' l hne)
  dirs m' i hbad := h.dirs m' i (h'.dirs m' i hbad)
  special := h'.special.trans h.special
  data q hq := (h'.data q hq).trans (h.data q (hq.imp_right fun hmem => h'.free.subset hmem))
  exclusive q hq := (h'.exclusive q hq).trans (h.exclusive q hq)
  cache_mono f i p hp := h'.cache_mono f i p (h.cache_mono f i p hp)
  cache_new f i p hp := (h'.cache_new f i p hp).elim (h.cache_new f i p)
    fun hfree => .inr (h.free.subset hfree)
  free := h'.free.trans h.free
  ready := h'.ready

theorem Grown.cached (hq : q ∉ s.free) (hc : s'.Cached q) : s.Cached q := by
  obtain ⟨f, i, hc⟩ := hc
  exact ⟨f, i, (h.cache_new f i q hc).resolve_right hq⟩

theorem Grown.backing (hb : s.backing a i = some p) : s'.backing a i = some p := by
  unfold MemState.backing at hb ⊢
  rcases hops : a.vmOps with _ | _ | _ | _ <;> rw [hops] at hb
  · cases hb
  · cases hb
  · obtain ⟨f, hf, hc⟩ := Option.bind_eq_some_iff.1 hb
    exact Option.bind_eq_some_iff.2 ⟨f, hf, h.cache_mono f i p hc⟩
  · dsimp only at hb ⊢
    rw [h.special]
    exact hb

end

theorem Prepared.grown (h : Prepared m gain s s') : Grown m k T Q s s' where
  __ := h
  pte _ _ _ := .inl h.pte
  quiet _ _ _ _ := h.pte
  dirs _ _ hbad := by rwa [h.pgd] at hbad
  data q _ := h.data q
  exclusive q _ := h.exclusive q

/-- Only frames change, and those that the allocator or a mapping can show keep what they need. -/
theorem PagesOk.setFrame {f : Frame} (h : PagesOk s) (hp : p ∉ s.free)
    (hrefs : 1 ≤ (s.frame p).refs → 1 ≤ f.refs) : PagesOk (s.setFrame p f) := by
  have hle : ∀ r, 1 ≤ (s.frame r).refs → 1 ≤ ((s.setFrame p f).frame r).refs := fun r hr => by
    by_cases hrp : r = p
    · subst hrp
      simpa [setFrame] using hrefs hr
    · rwa [frame_setFrame_of_ne hrp]
  refine ⟨h.nodup, fun r hr => ?_, h.uncached, h.unspecial,
    fun r hr => hle r (h.cached_refs r hr), fun r i hr => hle r (h.special_refs r i hr)⟩
  rw [frame_setFrame_of_ne (ne_of_mem_of_not_mem (show r ∈ s.free from hr) hp)]
  exact h.refs r hr

/-- A frame outside the allocator is overwritten. -/
theorem PagesOk.grown_setFrame {f : Frame} (h : PagesOk s) (hp : p ∉ s.free)
    (hrefs : 1 ≤ (s.frame p).refs → 1 ≤ f.refs)
    (hkeep : T p ∨ f.data = (s.frame p).data ∧ f.exclusive = (s.frame p).exclusive) :
    Grown m k T Q s (s.setFrame p f) where
  pte _ _ _ := .inl rfl
  quiet _ _ _ _ := rfl
  dirs _ _ hbad := hbad
  special := rfl
  data q hq := by
    by_cases hqp : q = p
    · subst hqp
      exact frame_setFrame Frame.data (hkeep.resolve_left (hq.resolve_right hp)).1
    · rw [frame_setFrame_of_ne hqp]
  exclusive q hq := by
    by_cases hqp : q = p
    · subst hqp
      exact frame_setFrame Frame.exclusive (hkeep.resolve_left hq).2
    · rw [frame_setFrame_of_ne hqp]
  cache_mono _ _ _ hp := hp
  cache_new _ _ _ hp := .inl hp
  free := suffix_rfl
  ready := h.setFrame hp hrefs

theorem putPage_eq (hrefs : 2 ≤ (s.frame p).refs) :
    s.putPage p = s.setFrame p { s.frame p with refs := (s.frame p).refs - 1 } := by
  rw [putPage, if_neg (by omega)]

/-- A page that has another reference is given back. -/
theorem PagesOk.grown_putPage (h : PagesOk s) (hp : p ∉ s.free) (hrefs : 2 ≤ (s.frame p).refs) :
    Grown m k T Q s (s.putPage p) := by
  rw [putPage_eq hrefs]
  exact h.grown_setFrame hp (fun _ => show 1 ≤ (s.frame p).refs - 1 by omega) (.inr ⟨rfl, rfl⟩)

theorem bad_of_setPgd_table {entries : ℕ → Pte} (h : (s.setPgd m
    (Function.update (s.pgd m) j (.table entries))).pgd m' i = .bad) : s.pgd m' i = .bad := by
  by_cases hm : m' = m
  · subst hm
    by_cases hi : i = j
    · subst hi
      simp [setPgd] at h
    · simpa [setPgd, hi] using h
  · simpa [setPgd, hm] using h

section

variable (h : PagesOk s)
include h

theorem PagesOk.setPgd : PagesOk (s.setPgd m dir) :=
  { h with }

theorem PagesOk.tabled : PagesOk (s.tabled m k tbl) := by
  cases tbl with
  | none => exact h
  | some t => exact h.setPgd

/-- A page table without left-over mappings maps nothing new. -/
theorem PagesOk.grown_tabled (hn : tbl.isSome = s.pmdNone m k)
    (hclean : ∀ q, s.leftOver q tbl = 0) (hquiet : Q → ∀ t ∈ tbl, EmptyTable s t) :
    Grown m k T Q s (s.tabled m k tbl) := by
  cases tbl with
  | none =>
    exact ⟨fun _ _ _ => .inl rfl, fun _ _ _ _ => rfl, fun _ _ hbad => hbad, rfl, fun _ _ => rfl,
      fun _ _ => rfl, fun _ _ _ hp => hp, fun _ _ _ hp => .inl hp, suffix_rfl, h⟩
  | some t =>
    have hnone : s.pmdNone m k = true := hn.symm
    have hpte : ∀ l, l / ptrsPerPte = k / ptrsPerPte → s.pte m l = .none := fun l hl => by
      rw [pte, pteOf, hl, Pde.eq_none_of_isNone hnone]
    refine ⟨fun m' l _ => ?_, fun hQ m' l _ => ?_, fun m' i hbad => bad_of_setPgd_table hbad, rfl,
      fun _ _ => rfl, fun _ _ => rfl, fun _ _ _ hp => hp, fun _ _ _ hp => .inl hp,
      suffix_rfl, h.setPgd⟩ <;>
      rw [MemState.tabled, pte_pmdInstall hnone] <;> split_ifs with hin
    · obtain ⟨rfl, hl⟩ := hin
      have hfree := count_eq_zero_iff.1 hclean (l % ptrsPerPte) (Nat.mod_lt _ (by decide))
      rw [hpte l hl]
      rcases he : tableOf (s.frame t).data (l % ptrsPerPte) with _ | _ | ⟨p, w, d, acc⟩
      · exact .inl rfl
      · exact .inr ⟨rfl, rfl⟩
      · rw [he] at hfree
        cases hfree
    · exact .inl rfl
    · obtain ⟨rfl, hl⟩ := hin
      rw [hpte l hl]
      exact hquiet hQ t rfl _ (Nat.mod_lt _ (by decide))
    · rfl

theorem PagesOk.grown_setPte (htable : (s.pgd m (k / ptrsPerPte)).isTable = true) :
    Grown m k T Q s (s.setPte m k e) := by
  have hpte : ∀ m' l, ¬ (m' = m ∧ l = k) → (s.setPte m k e).pte m' l = s.pte m' l :=
    fun m' l hne => by rw [pte_setPte htable, if_neg hne]
  obtain ⟨entries, hd⟩ := Pde.exists_of_isTable htable
  rw [setPte_eq hd] at hpte ⊢
  exact ⟨fun m' l hne => .inl (hpte m' l hne), fun _ => hpte,
    fun m' i hbad => bad_of_setPgd_table hbad, rfl, fun _ _ => rfl, fun _ _ => rfl,
    fun _ _ _ hp => hp, fun _ _ _ hp => .inl hp, suffix_rfl, h.setPgd⟩

end

/-! ### What a fault on an empty entry comes to -/

/-- The page `p` has been mapped for the access `v`: a page of the process alone with the bytes
`content`, or the page that the mapping shows. -/
structure Effect (s : MemState) (v : Vmf) (Q : Prop) (own : Bool) (content : ℕ → BitVec 8) (p : ℕ)
    (s' : MemState) : Prop where
  grown : Grown v.vma.vmMm v.vpn (fun q => own = true ∧ q = p) Q s s'
  pte : ∃ w d, s'.pte v.vma.vmMm v.vpn = .present p w d true ∧
    (v.flags.write = true → hasFlag v.vma.vmFlags vmWrite = true → w = true) ∧
    (w = true → hasFlag v.vma.vmFlags vmShared = true ∨ own = true)
  not_free : p ∉ s'.free
  own_page : own = true → p ∈ s.free ∧ ¬ s'.Cached p ∧ (s'.frame p).exclusive = true ∧
    (s'.frame p).data = content
  shown : own = false → s'.backing v.vma v.pgoff = some p

/-- The outcome of a fault for which the page table `tbl` is installed: what the page table comes
with is not accounted for, and if it comes with an entry for the page, that entry stays. -/
structure Outcome (s : MemState) (v : Vmf) (tbl : Option ℕ) (own : Bool) (content : ℕ → BitVec 8)
    (s' : MemState) : Prop where
  others : ∀ m ≠ v.vma.vmMm, s'.pgd m = s.pgd m
  counted : ∀ q, s'.balance v.vma.vmMm q = s.balance v.vma.vmMm q - s.leftOver q tbl
  stale : s.firstEntry v.vpn tbl ≠ .none →
    s'.pte v.vma.vmMm v.vpn = s.firstEntry v.vpn tbl
  effect : (∀ q, s.leftOver q tbl = 0) → s.firstEntry v.vpn tbl = .none →
    ∃ p, Effect s v (∀ t ∈ tbl, EmptyTable s t) own content p s'

variable {own : Bool} {content : ℕ → BitVec 8}

/-- The fault is on an empty page table entry of user space. -/
structure EmptyEntry (s : MemState) (v : Vmf) : Prop where
  user : v.vpn / ptrsPerPte < userPtrsPerPgd
  good : s.pgd v.vma.vmMm (v.vpn / ptrsPerPte) ≠ .bad
  pte : s.pte v.vma.vmMm v.vpn = .none

theorem pgd_setPte_of_ne (hm : m' ≠ m) : (s.setPte m k e).pgd m' = s.pgd m' := by
  unfold setPte
  split
  · simp [setPgd, hm]
  · rfl

section

variable (hk : k / ptrsPerPte < userPtrsPerPgd) (htable : (s.pgd m (k / ptrsPerPte)).isTable = true)
  (hnone : s.pte m k = .none)
include hk htable hnone

theorem balance_setPte_none {w d acc : Bool} :
    (s.setPte m k (.present p w d acc)).balance m q = s.balance m q - one p q := by
  rw [balance_setPte hk htable, hnone, one]
  simp [Pte.pfn, eq_comm]

theorem balance_mapAnon {w d acc : Bool} :
    ((s.pageAddNewAnonRmap p).setPte m k (.present p w d acc)).balance m q
      = s.balance m q - one p q := by
  have hset : (s.pageAddNewAnonRmap p).pte m k = .none := hnone
  rw [balance_setPte_none hk (by exact htable) hset, balance_pageAddNewAnonRmap]

end

theorem frame_setPte : (s.setPte m k e).frame = s.frame := by
  unfold setPte
  split <;> rfl

theorem free_setPte : (s.setPte m k e).free = s.free := by
  unfold setPte
  split <;> rfl

theorem frame_tabled : (s.tabled m k tbl).frame = s.frame := by
  cases tbl <;> rfl

theorem free_tabled : (s.tabled m k tbl).free = s.free := by
  cases tbl <;> rfl

/-- `do_set_pte` makes a page that is written for a private mapping the page of this process
alone. -/
theorem doSetPte_eq (s : MemState) (v : Vmf) (p : ℕ) : ∃ w d, doSetPte s v p =
      (if v.flags.write && !hasFlag v.vma.vmFlags vmShared then s.pageAddNewAnonRmap p
        else s).setPte v.vma.vmMm v.vpn (.present p w d true) ∧
      (v.flags.write = true → hasFlag v.vma.vmFlags vmWrite = true → w = true) ∧
      (w = true → hasFlag v.vma.vmFlags vmShared = true ∨
        (v.flags.write && !hasFlag v.vma.vmFlags vmShared) = true) := by
  unfold doSetPte mkPte maybeMkwrite
  cases v.flags.write <;> cases hasFlag v.vma.vmFlags vmWrite <;>
    cases hasFlag v.vma.vmFlags vmShared <;>
    exact ⟨_, _, rfl, by simp, by simp⟩

section

variable (hdata : ∀ t ∈ tbl, (s'.frame t).data = (s.frame t).data)
include hdata

theorem leftOver_congr : s'.leftOver q tbl = s.leftOver q tbl := by
  cases tbl with
  | none => rfl
  | some t => rw [leftOver, hdata t rfl, leftOver]

theorem firstEntry_congr : s'.firstEntry k tbl = s.firstEntry k tbl := by
  cases tbl with
  | none => rfl
  | some t => rw [firstEntry, hdata t rfl, firstEntry]

end

/-- The page table `tbl` is installed for the fault `v`, and the references `gain` are held. -/
structure Installed (s : MemState) (v : Vmf) (tbl : Option ℕ) (gain : ℕ → ℤ) (u : MemState) :
    Prop where
  others : ∀ m ≠ v.vma.vmMm, u.pgd m = s.pgd m
  first : u.pte v.vma.vmMm v.vpn = s.firstEntry v.vpn tbl
  counted : ∀ q, u.balance v.vma.vmMm q = s.balance v.vma.vmMm q - s.leftOver q tbl + gain q
  table : (u.pgd v.vma.vmMm (v.vpn / ptrsPerPte)).isTable = true

section

variable {u u' : MemState} {gain' : ℕ → ℤ}

theorem installed_tabled (hv : EmptyEntry s v) (hpgd : s'.pgd = s.pgd)
    (hdata : ∀ t ∈ tbl, (s'.frame t).data = (s.frame t).data)
    (hcount : ∀ q, s'.balance v.vma.vmMm q = s.balance v.vma.vmMm q + gain q)
    (hn : tbl.isSome = s'.pmdNone v.vma.vmMm v.vpn) :
    Installed s v tbl gain (s'.tabled v.vma.vmMm v.vpn tbl) where
  others m hm := by rw [pgd_tabled_of_ne hm, hpgd]
  first := by rw [pte_tabled hn (by rw [pte, hpgd]; exact hv.pte), firstEntry_congr hdata]
  counted q := by
    rw [balance_tabled hv.user hn, hcount, leftOver_congr hdata]
    ring
  table := isTable_tabled hn (by rw [hpgd]; exact hv.good)

section

variable (h : Installed s v tbl gain u)
include h

theorem Installed.prepared (hp : Prepared v.vma.vmMm gain' u u') :
    Installed s v tbl (fun q => gain q + gain' q) u' where
  others m hm := by rw [hp.pgd, h.others m hm]
  first := hp.pte.trans h.first
  counted q := by rw [hp.counted, h.counted, add_assoc]
  table := by rw [hp.pgd, h.table]

/-- The page table came with an entry for the page. -/
theorem Installed.stale (hfe : s.firstEntry v.vpn tbl ≠ .none) (hpgd : u'.pgd = u.pgd)
    (hbal : ∀ q, u'.balance v.vma.vmMm q = u.balance v.vma.vmMm q - gain q) :
    Outcome s v tbl own content u' where
  others m hm := by rw [hpgd, h.others m hm]
  counted q := by rw [hbal, h.counted, add_sub_cancel_right]
  stale _ := by rw [pte, hpgd, ← h.first, pte]
  effect _ hnone := absurd hnone hfe

/-- The page has been mapped. -/
theorem Installed.mapped (hfe : s.firstEntry v.vpn tbl = .none)
    (hpgd : ∀ m ≠ v.vma.vmMm, u'.pgd m = u.pgd m)
    (hbal : ∀ q, u'.balance v.vma.vmMm q = u.balance v.vma.vmMm q - gain q)
    (heffect : (∀ q, s.leftOver q tbl = 0) →
      Effect s v (∀ t ∈ tbl, EmptyTable s t) own content p u') :
    Outcome s v tbl own content u' where
  others m hm := by rw [hpgd m hm, h.others m hm]
  counted q := by rw [hbal, h.counted, add_sub_cancel_right]
  stale hne := absurd hfe hne
  effect hclean _ := ⟨p, heffect hclean⟩

end

/-- The page table that the fault has found or made is the one that it had before. -/
theorem PagesOk.grown_installed (h : PagesOk s')
    (hdata : ∀ t ∈ tbl, (s'.frame t).data = (s.frame t).data)
    (hn : tbl.isSome = s'.pmdNone m k) (hclean : ∀ q, s.leftOver q tbl = 0) :
    Grown m k T (∀ t ∈ tbl, EmptyTable s t) s' (s'.tabled m k tbl) := by
  refine h.grown_tabled hn (fun q => (leftOver_congr hdata).trans (hclean q)) fun hQ t ht j hj => ?_
  rw [hdata t ht]
  exact hQ t ht j hj

end

/-- `finish_fault` for a page that the mapping shows. -/
theorem finishFault_shown (hv : EmptyEntry s v) (h : Prepared v.vma.vmMm (one p) s s')
    (hback : s'.backing v.vma v.pgoff = some p)
    (hshown : (v.flags.write && !hasFlag v.vma.vmFlags vmShared) = false)
    (hn : tbl.isSome = s.pmdNone v.vma.vmMm v.vpn) :
    ∃ s₂, (finishFault s' v p tbl = (0, none, s₂) ∧ s.firstEntry v.vpn tbl = .none ∧
        Outcome s v tbl false (fun _ => 0) s₂) ∨
      (finishFault s' v p tbl = (vmFaultNopage, none, s₂) ∧ s.firstEntry v.vpn tbl ≠ .none ∧
        Outcome s v tbl false (fun _ => 0) (s₂.putPage p)) := by
  have hn' : tbl.isSome = s'.pmdNone v.vma.vmMm v.vpn := hn.trans h.pmdNone.symm
  have hi := installed_tabled hv h.pgd (fun t _ => h.data t) h.counted hn'
  rw [finishFault_eq hn', hi.first]
  by_cases hfe : s.firstEntry v.vpn tbl = .none
  · obtain ⟨w, d, heq, hw, hw'⟩ := doSetPte_eq (s'.tabled v.vma.vmMm v.vpn tbl) v p
    rw [hshown, if_neg Bool.false_ne_true] at heq
    refine ⟨doSetPte (s'.tabled v.vma.vmMm v.vpn tbl) v p, .inl ⟨by rw [if_pos hfe], hfe, ?_⟩⟩
    rw [heq]
    refine hi.mapped (p := p) hfe (fun m hm => pgd_setPte_of_ne hm)
      (fun q => balance_setPte_none hv.user hi.table (hi.first.trans hfe)) fun hclean => ?_
    have hgrown := (h.ready.grown_installed (fun t _ => h.data t) hn' hclean).trans
      (h.ready.tabled.grown_setPte (T := fun q => false = true ∧ q = p) (e := .present p w d true)
        hi.table)
    refine ⟨h.grown.trans hgrown, ⟨w, d, ?_, hw, fun h => ?_⟩, ?_, nofun,
      fun _ => hgrown.backing hback⟩
    · rw [pte_setPte hi.table, if_pos ⟨rfl, rfl⟩]
    · exact .inl ((hw' h).resolve_right (by rw [hshown]; exact Bool.false_ne_true))
    · exact fun hmem => h.ready.not_mem_of_backing hback (hgrown.free.subset hmem)
  · refine ⟨s'.tabled v.vma.vmMm v.vpn tbl, .inr ⟨by rw [if_neg hfe], hfe, ?_⟩⟩
    exact hi.stale hfe pgd_putPage fun q => balance_putPage

/-- A page of the process alone is mapped. -/
theorem PagesOk.grown_mapAnon (h : PagesOk s) (hp : p ∉ s.free) (htouched : T p)
    (htable : (s.pgd m (k / ptrsPerPte)).isTable = true) :
    Grown m k T Q s ((s.pageAddNewAnonRmap p).setPte m k e) := by
  have hrmap : Grown m k T Q s (s.pageAddNewAnonRmap p) :=
    h.grown_setFrame hp (fun hrefs => hrefs) (.inl htouched)
  exact hrmap.trans (hrmap.ready.grown_setPte htable)

/-- A page from the allocator becomes the page of this process alone. -/
theorem Grown.effect_mapAnon {w d : Bool}
    (h : Grown v.vma.vmMm v.vpn (fun q => true = true ∧ q = p) Q s s') (hp : p ∈ s.free)
    (hp' : p ∉ s'.free) (hun : ¬ s'.Cached p)
    (htable : (s'.pgd v.vma.vmMm (v.vpn / ptrsPerPte)).isTable = true)
    (hw : v.flags.write = true → hasFlag v.vma.vmFlags vmWrite = true → w = true) :
    Effect s v Q true (s'.frame p).data p
      ((s'.pageAddNewAnonRmap p).setPte v.vma.vmMm v.vpn (.present p w d true)) := by
  have hmap := h.ready.grown_mapAnon (T := fun q => true = true ∧ q = p) (Q := Q)
    (e := .present p w d true) hp' ⟨rfl, rfl⟩ htable
  have hframe : ((s'.pageAddNewAnonRmap p).setPte v.vma.vmMm v.vpn (.present p w d true)).frame p
      = { s'.frame p with anon := true, exclusive := true } := by
    rw [frame_setPte]
    simp [pageAddNewAnonRmap, setFrame]
  refine ⟨h.trans hmap, ⟨w, d, ?_, hw, fun _ => .inr rfl⟩, fun hmem => hp' (hmap.free.subset hmem),
    fun _ => ⟨hp, fun hc => hun (hmap.cached hp' hc), ?_, ?_⟩, fun hno => absurd hno (by decide)⟩
  · rw [pte_setPte (by exact htable), if_pos ⟨rfl, rfl⟩]
  · rw [hframe]
  · rw [hframe]

/-- Giving back a page that has another reference does not matter. -/
theorem Effect.putPage {page : ℕ} (h : Effect s v Q own content p s') (hpage : page ∉ s'.free)
    (hrefs : 2 ≤ (s'.frame page).refs) : Effect s v Q own content p (s'.putPage page) := by
  have hput := h.grown.ready.grown_putPage (m := v.vma.vmMm) (k := v.vpn)
    (T := fun q => own = true ∧ q = p) (Q := Q) hpage hrefs
  have hframe := putPage_eq hrefs
  refine ⟨h.grown.trans hput, ?_, fun hmem => h.not_free (hput.free.subset hmem), fun hown => ?_,
    fun hown => hput.backing (h.shown hown)⟩
  · obtain ⟨w, d, hpte, hw⟩ := h.pte
    exact ⟨w, d, by rw [MemState.pte, pgd_putPage]; exact hpte, hw⟩
  · obtain ⟨hp, hun, hexcl, hdata⟩ := h.own_page hown
    refine ⟨hp, fun hc => hun (cached_putPage.1 hc), ?_, ?_⟩ <;> rw [hframe]
    · exact (frame_setFrame Frame.exclusive (by rfl)).trans hexcl
    · exact (frame_setFrame Frame.data (by rfl)).trans hdata

/-- `finish_fault` for the page `p` into which the page `page` has been copied, and what
`do_cow_fault` does afterwards. -/
theorem finishFault_own {s₀ s₁ : MemState} {page : ℕ} (hv : EmptyEntry s v)
    (h₀ : Prepared v.vma.vmMm (one p) s s₀)
    (h₁ : Prepared v.vma.vmMm (one page) s₀ s₁) (hp : p ∈ s.free) (hp₀ : p ∉ s₀.free)
    (hun : ¬ s₀.Cached p) (hback : s₁.backing v.vma v.pgoff = some page)
    (hrefs : 2 ≤ (s₁.frame page).refs) (hwrite : v.flags.write = true)
    (hprivate : hasFlag v.vma.vmFlags vmShared = false)
    (hn : tbl.isSome = s.pmdNone v.vma.vmMm v.vpn) (htbl : p ∉ tbl) :
    ∃ s₂, (finishFault (s₁.copyUserHighpage p page) v p tbl = (0, none, s₂) ∧
        Outcome s v tbl true (s.frame page).data (s₂.putPage page)) ∨
      (finishFault (s₁.copyUserHighpage p page) v p tbl = (vmFaultNopage, none, s₂) ∧
        Outcome s v tbl true (s.frame page).data ((s₂.putPage page).putPage p)) := by
  obtain ⟨s', hs'⟩ : ∃ s', s' = s₁.copyUserHighpage p page := ⟨_, rfl⟩
  have h₀₁ := h₀.trans h₁
  have hp₁ : p ∉ s₁.free := fun hmem => hp₀ (h₁.free.subset hmem)
  have hcopy : Grown v.vma.vmMm v.vpn (fun q => true = true ∧ q = p)
      (∀ t ∈ tbl, EmptyTable s t) s₁ s' :=
    hs' ▸ h₁.ready.grown_setFrame hp₁ (fun hrefs => hrefs) (.inl ⟨rfl, rfl⟩)
  have hpgd : s'.pgd = s.pgd := hs' ▸ h₀₁.pgd
  have hrefs' : 2 ≤ (s'.frame page).refs := by
    rw [hs', copyUserHighpage]
    exact hrefs.trans_eq (frame_setFrame Frame.refs (by rfl)).symm
  have hdata' : (s'.frame p).data = (s.frame page).data := by
    rw [hs', copyUserHighpage, ← h₀₁.data page]
    simp [setFrame]
  have hpdata : ∀ t ∈ tbl, (s'.frame t).data = (s.frame t).data := fun t ht => by
    rw [hs', copyUserHighpage, frame_setFrame_of_ne (ne_of_mem_of_not_mem ht htbl)]
    exact h₀₁.data t
  have hn' : tbl.isSome = s'.pmdNone v.vma.vmMm v.vpn := by
    rw [pmdNone, hpgd]
    exact hn
  have hcount : ∀ q, s'.balance v.vma.vmMm q =
      s.balance v.vma.vmMm q + (one p q + one page q) := fun q => by
    rw [hs', balance_copyUserHighpage, h₀₁.counted]
  have hi := installed_tabled hv hpgd hpdata hcount hn'
  rw [← hs', finishFault_eq hn', hi.first]
  by_cases hfe : s.firstEntry v.vpn tbl = .none
  · obtain ⟨w, d, heq, hw, hw'⟩ := doSetPte_eq (s'.tabled v.vma.vmMm v.vpn tbl) v p
    rw [hwrite, hprivate, if_pos (by rfl)] at heq
    refine ⟨doSetPte (s'.tabled v.vma.vmMm v.vpn tbl) v p, .inl ⟨by rw [if_pos hfe], ?_⟩⟩
    rw [heq]
    refine hi.mapped (p := p) hfe (fun m hm => by rw [pgd_putPage, pgd_setPte_of_ne hm]; rfl)
      (fun q => ?_)
      fun hclean => ?_
    · rw [balance_putPage, balance_mapAnon hv.user hi.table (hi.first.trans hfe), sub_sub]
    · have htab := hcopy.ready.grown_installed (T := fun q => true = true ∧ q = p) hpdata hn' hclean
      have hgrown := (h₁.grown.trans hcopy).trans htab
      have heffect := (h₀.grown.trans hgrown).effect_mapAnon (w := w) (d := d) hp
        (fun hmem => hp₀ (hgrown.free.subset hmem)) (fun hc => hun (hgrown.cached hp₀ hc)) hi.table
        hw
      rw [frame_tabled, hdata'] at heffect
      refine heffect.putPage (fun hmem => ?_) ?_
      · rw [free_setPte] at hmem
        exact h₁.ready.not_mem_of_backing hback (hcopy.free.subset (htab.free.subset hmem))
      · rw [frame_setPte, pageAddNewAnonRmap]
        refine (hrefs'.trans_eq ?_).trans_eq (frame_setFrame Frame.refs (by rfl)).symm
        rw [frame_tabled]
  · refine ⟨s'.tabled v.vma.vmMm v.vpn tbl, .inr ⟨by rw [if_neg hfe], ?_⟩⟩
    refine hi.stale hfe (by rw [pgd_putPage, pgd_putPage]) fun q => ?_
    rw [balance_putPage, balance_putPage]
    ring

/-- The result of a handler that delivers a page, together with that of `finish_fault`. -/
theorem hasFlag_delivered {ret : VmFault} (hret : ret = vmFaultLocked ∨ ret = 0) :
    (hasFlag (ret ||| 0) vmFaultStop = false ∧ hasFlag (ret ||| 0) vmFaultError = false) ∧
      hasFlag (ret ||| vmFaultNopage) vmFaultStop = true ∧
      hasFlag (ret ||| vmFaultNopage) vmFaultError = false := by
  rcases hret with rfl | rfl <;> decide

section Routes

variable (hv : EmptyEntry s v) (h : PagesOk s) (hops : v.vma.vmOps = some ops)
  (hd : Delivers s v.vma v.pgoff)
include hv h hops hd

theorem doReadFault_spec (hlen : 2 ≤ s.free.length) (hwrite : v.flags.write = false) :
    ∃ ret s', doReadFault s v ops = .ok (ret, none, s') ∧ hasFlag ret vmFaultError = false ∧
      Outcome s v (s.newTable v.vma.vmMm v.vpn 0) false (fun _ => 0) s' := by
  obtain ⟨ret, p, s₁, hcall, hret, hp, -, hback, -⟩ :=
    callFault_spec (m := v.vma.vmMm) h hops hd hlen
  have hshown : (v.flags.write && !hasFlag v.vma.vmFlags vmShared) = false := by rw [hwrite]; rfl
  obtain ⟨⟨hdone, hok⟩, hstop, hok'⟩ := hasFlag_delivered hret
  unfold doReadFault
  rw [hcall]
  dsimp only
  obtain ⟨s₂, ⟨hfin, -, hout⟩ | ⟨hfin, -, hout⟩⟩ := finishFault_shown hv hp
    hback hshown (isSome_newTable (n := 0) (by omega))
  · rw [hfin]
    dsimp only
    rw [hdone]
    exact ⟨_, s₂, rfl, hok, hout⟩
  · rw [hfin]
    dsimp only
    rw [hstop]
    exact ⟨_, s₂.putPage p, rfl, hok', hout⟩

theorem doSharedFault_spec (hlen : 2 ≤ s.free.length)
    (hshared : hasFlag v.vma.vmFlags vmShared = true) :
    (∃ ret s', doSharedFault s v ops = .ok (ret, none, s') ∧ hasFlag ret vmFaultError = false ∧
      Outcome s v (s.newTable v.vma.vmMm v.vpn 0) false (fun _ => 0) s' ∧
      (s.firstEntry v.vpn (s.newTable v.vma.vmMm v.vpn 0) = .none → ops = .specialMapping →
        v.vma.vmFile.isSome = true)) ∨
    (doSharedFault s v ops = .error .nullDeref ∧ ops = .specialMapping ∧ v.vma.vmFile = none) := by
  obtain ⟨ret, p, s₁, hcall, hret, hp, -, hback, -⟩ :=
    callFault_spec (m := v.vma.vmMm) h hops hd hlen
  have hshown : (v.flags.write && !hasFlag v.vma.vmFlags vmShared) = false := by
    rw [hshared, Bool.not_true, Bool.and_false]
  have hmkwrite : ops.pageMkwrite.filter mkwriteStop = none := by cases ops <;> decide
  obtain ⟨⟨hdone, -⟩, hstop, hok⟩ := hasFlag_delivered hret
  unfold doSharedFault
  rw [hcall]
  dsimp only
  rw [hmkwrite]
  dsimp only
  obtain ⟨s₂, ⟨hfin, hfe, hout⟩ | ⟨hfin, hfe, hout⟩⟩ := finishFault_shown hv hp
    hback hshown (isSome_newTable (n := 0) (by omega))
  · rw [hfin]
    dsimp only
    rw [hdone, if_neg Bool.false_ne_true]
    unfold faultDirtySharedPage
    cases ops with
    | dummy =>
      unfold Delivers at hd
      rw [hops] at hd
      exact hd.elim
    | genericFile =>
      refine .inl ⟨_, s₂, rfl, ?_, hout, fun _ => nofun⟩
      rcases hret with rfl | rfl <;> split <;> rfl
    | specialMapping =>
      cases hfile : v.vma.vmFile with
      | none => exact .inr ⟨rfl, rfl, rfl⟩
      | some f =>
        refine .inl ⟨_, s₂, rfl, ?_, hout, fun _ _ => rfl⟩
        rcases hret with rfl | rfl <;> rfl
  · rw [hfin]
    dsimp only
    rw [hstop, if_pos rfl]
    exact .inl ⟨_, _, rfl, hok, hout, fun hnone => absurd hnone hfe⟩

theorem doCowFault_spec (hlen : 3 ≤ s.free.length) (hwrite : v.flags.write = true)
    (hprivate : hasFlag v.vma.vmFlags vmShared = false) :
    ∃ ret s' page, doCowFault s v ops = .ok (ret, none, s') ∧ hasFlag ret vmFaultError = false ∧
      Source s v.vma v.pgoff ((s.pmdNone v.vma.vmMm v.vpn).toNat + 1) page ∧
      Outcome s v (s.newTable v.vma.vmMm v.vpn 1) true (s.frame page).data s' := by
  obtain ⟨c, rest, hfree⟩ : ∃ c rest, s.free = c :: rest :=
    exists_cons_of_ne_nil (by rintro hnil; rw [hnil] at hlen; cases hlen)
  obtain ⟨s₀, halloc, hp₀, hrest, hcache⟩ := h.allocPage (m := v.vma.vmMm) hfree
  have hcrest : c ∉ rest := (nodup_cons.1 (hfree ▸ h.nodup)).1
  have hcmem : c ∈ s.free := hfree ▸ mem_cons_self
  have hd₀ : Delivers s₀ v.vma v.pgoff := by
    unfold Delivers
    rw [hp₀.special]
    exact hd
  have hback₀ : s₀.backing v.vma v.pgoff = s.backing v.vma v.pgoff := by
    unfold backing
    rw [hcache, hp₀.special]
  have hlen₀ : 2 ≤ s₀.free.length := by
    rw [hrest]
    rw [hfree, length_cons] at hlen
    omega
  obtain ⟨ret, page, s₁, hcall, hret, hp₁, hsrc, hback, hrefs⟩ :=
    callFault_spec (m := v.vma.vmMm) hp₀.ready hops hd₀ hlen₀
  have htbl : s₀.newTable v.vma.vmMm v.vpn 0 = s.newTable v.vma.vmMm v.vpn 1 := by
    unfold newTable
    rw [hp₀.pmdNone, hrest, hfree]
    rfl
  have hsrc' : Source s v.vma v.pgoff ((s.pmdNone v.vma.vmMm v.vpn).toNat + 1) page := by
    unfold Source at hsrc ⊢
    rw [hback₀, hp₀.pmdNone, hrest] at hsrc
    rw [hfree]
    exact hsrc
  have hmem : ∀ t ∈ s.newTable v.vma.vmMm v.vpn 1, t ∈ rest := fun t ht => by
    unfold newTable at ht
    split_ifs at ht
    · rw [hfree] at ht
      exact mem_of_getElem? ht
    · cases ht
  have hun : ¬ s₀.Cached c := by
    unfold Cached
    rw [hcache]
    exact h.uncached c hcmem
  obtain ⟨⟨hdone, hok⟩, hstop, hok'⟩ := hasFlag_delivered hret
  unfold doCowFault
  rw [halloc]
  dsimp only
  rw [hcall, htbl]
  dsimp only
  obtain ⟨s₂, ⟨hfin, hout⟩ | ⟨hfin, hout⟩⟩ := finishFault_own hv hp₀ hp₁ hcmem (hrest ▸ hcrest)
    hun hback hrefs hwrite hprivate (isSome_newTable (n := 1) (by omega))
    (fun ht => hcrest (hmem c ht))
  · rw [hfin]
    dsimp only
    rw [hdone]
    exact ⟨_, s₂.putPage page, page, rfl, hok, hsrc', hout⟩
  · rw [hfin]
    dsimp only
    rw [hstop]
    exact ⟨_, (s₂.putPage page).putPage c, page, rfl, hok', hsrc', hout⟩

end Routes

/-- `pte_alloc` succeeds while there are frames. -/
theorem PagesOk.pteAlloc (h : PagesOk s) (hlen : 1 ≤ s.free.length) :
    ∃ s', s.pteAlloc m k = (true, s'.tabled m k (s.newTable m k 0)) ∧
      Prepared m (fun _ => 0) s s' ∧ s'.free = s.free.drop (s.pmdNone m k).toNat ∧
      s'.cache = s.cache := by
  unfold MemState.pteAlloc newTable
  cases hn : s.pmdNone m k with
  | false => exact ⟨s, rfl, ⟨rfl, rfl, fun _ => rfl, fun _ => rfl, fun _ => (add_zero _).symm,
      fun _ _ _ hp => hp, fun _ _ _ hp => .inl hp, suffix_rfl, h⟩, rfl, rfl⟩
  | true =>
    obtain ⟨t, rest, hfree⟩ : ∃ t rest, s.free = t :: rest :=
      exists_cons_of_ne_nil (by rintro hnil; rw [hnil] at hlen; cases hlen)
    obtain ⟨s', halloc, hp, hrest, hcache⟩ := h.pteAllocOne (m := m) hfree
    refine ⟨s', ?_, hp, by rw [hrest, hfree]; rfl, hcache⟩
    rw [halloc, hfree]
    rfl

/-- The entry that `do_anonymous_page` builds. -/
theorem anonEntry_eq (a : VmArea) (p : ℕ) (hprivate : hasFlag a.vmFlags vmShared = false) :
    ∃ d, (if hasFlag a.vmFlags vmWrite then (mkPte p a).mkdirty.mkwrite else mkPte p a)
      = .present p (hasFlag a.vmFlags vmWrite) d true := by
  unfold mkPte
  rw [hprivate]
  cases hasFlag a.vmFlags vmWrite
  · exact ⟨_, rfl⟩
  · exact ⟨_, rfl⟩

theorem doAnonymousPage_spec (hv : EmptyEntry s v) (h : PagesOk s) (hlen : 2 ≤ s.free.length)
    (hprivate : hasFlag v.vma.vmFlags vmShared = false) :
    ∃ s' page, doAnonymousPage s v = (0, s') ∧
      s.free[(s.pmdNone v.vma.vmMm v.vpn).toNat]? = some page ∧
      Outcome s v (s.newTable v.vma.vmMm v.vpn 0) true (s.frame page).data s' := by
  obtain ⟨tbl, htbl⟩ : ∃ tbl, tbl = s.newTable v.vma.vmMm v.vpn 0 := ⟨_, rfl⟩
  have hn : tbl.isSome = s.pmdNone v.vma.vmMm v.vpn := htbl ▸ isSome_newTable (by omega)
  obtain ⟨s₀, halloc₀, hp₀, hfree₀, hcache₀⟩ :=
    h.pteAlloc (m := v.vma.vmMm) (k := v.vpn) (by omega)
  rw [← htbl] at halloc₀ ⊢
  obtain ⟨p, rest, hfree⟩ : ∃ p rest, (s₀.tabled v.vma.vmMm v.vpn tbl).free = p :: rest := by
    refine exists_cons_of_ne_nil fun hnil => ?_
    rw [free_tabled, hfree₀, drop_eq_nil_iff] at hnil
    have := Bool.toNat_le (s.pmdNone v.vma.vmMm v.vpn)
    omega
  obtain ⟨s₂, halloc₂, hp₂, hrest₂, hcache₂⟩ :=
    hp₀.ready.tabled.allocPage (m := v.vma.vmMm) hfree
  have hplace : s.free[(s.pmdNone v.vma.vmMm v.vpn).toNat]? = some p := by
    rw [free_tabled, hfree₀] at hfree
    rw [← List.head?_drop, hfree]
    rfl
  have hmem : p ∈ s.free := mem_of_getElem? hplace
  have hdata₀ : ∀ t ∈ tbl, (s₀.frame t).data = (s.frame t).data := fun t _ => hp₀.data t
  have hn₀ : tbl.isSome = s₀.pmdNone v.vma.vmMm v.vpn := hn.trans hp₀.pmdNone.symm
  have hi := (installed_tabled hv hp₀.pgd hdata₀ hp₀.counted hn₀).prepared hp₂
  unfold doAnonymousPage
  rw [hprivate, if_neg Bool.false_ne_true, halloc₀]
  dsimp only
  rw [halloc₂]
  dsimp only
  rw [hi.first]
  by_cases hfe : s.firstEntry v.vpn tbl = .none
  · obtain ⟨d, hentry⟩ := anonEntry_eq v.vma p hprivate
    rw [if_neg (not_not.2 hfe), hentry]
    refine ⟨_, p, rfl, hplace, hi.mapped (p := p) hfe (fun m hm => ?_) (fun q => ?_)
      fun hclean => ?_⟩
    · rw [pgd_setPte_of_ne hm]
      rfl
    · rw [balance_mapAnon hv.user hi.table (hi.first.trans hfe), zero_add]
    · have htab := hp₀.ready.grown_installed (T := fun q => true = true ∧ q = p) hdata₀ hn₀ hclean
      have hun : ¬ s₂.Cached p := by
        unfold Cached
        rw [hcache₂]
        exact hp₀.ready.tabled.uncached p (hfree ▸ mem_cons_self)
      have hp₂' : p ∉ s₂.free :=
        hrest₂ ▸ (nodup_cons.1 (hfree ▸ hp₀.ready.tabled.nodup)).1
      have heffect := ((hp₀.grown.trans htab).trans hp₂.grown).effect_mapAnon (d := d) hmem hp₂'
        hun hi.table fun _ hw => hw
      rwa [hp₂.data, frame_tabled, hp₀.data] at heffect
  · rw [if_pos hfe]
    refine ⟨_, p, rfl, hplace, hi.stale hfe pgd_putPage fun q => ?_⟩
    rw [balance_putPage, zero_add]

end MinimalKernel.Mm
