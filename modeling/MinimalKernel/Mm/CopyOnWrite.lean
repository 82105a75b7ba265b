import MinimalKernel.Mm.FaultRoutes

/-!
# Copy-on-write

A fault is to be *served*: no error, an entry under which the access does not fault again, after a
write to a private mapping a page that nobody else sees with the bytes that were visible before,
and reference counts that follow the mappings.

`handle_mm_fault` serves an access exactly under the condition `FaultSafe`. It is violated in four
ways. A write to a page that is present and read-only fails unless the page is an anonymous page of
this process alone, since `wp_page_copy` has no body; so does every access to a shared anonymous
mapping. A page that is taken from the allocator without being filled is handed to the process as
the last user left it. The same happens to a page table, and its left-over words then are mappings
that no reference count knows of.

## Main definitions

* `MemOk` — the state of memory between two faults
* `Served`, `FaultSafe` — the contract, and the condition

## Main results

* `handleMmFault_served_iff` — an access is served exactly if `FaultSafe` holds
-/

namespace MinimalKernel.Mm

open Bool MemState VmArea

variable {s s' : MemState} {m m' : MmId} {a : VmArea} {j k p q t x : ℕ} {v : Vmf} {ops : VmOps}
  {flags : FaultFlags} {tbl : Option ℕ} {own : Bool} {content : ℕ → BitVec 8}

/-! ### When a fault is served -/

/-- What holds of memory between two faults: nobody uses the frames of the allocator, and a page of
one process alone is in no page cache and mapped once. -/
structure MemOk (s : MemState) : Prop where
  pages : PagesOk s
  unmapped : ∀ p ∈ s.free, ∀ m k, ¬ s.Maps m k p
  uncached : ∀ p, (s.frame p).exclusive = true → ¬ s.Cached p
  once : ∀ p, (s.frame p).exclusive = true → ∀ m k m' k', s.Maps m k p → s.Maps m' k' p →
    m = m' ∧ k = k'
  dirs : ∀ m, UserTables (s.pgd m)

/-- What a private mapping lets the process write belongs to the process alone. -/
def OwnsWritable (s : MemState) (a : VmArea) (x : ℕ) : Prop :=
  hasFlag a.vmFlags vmShared = false → ∀ p d acc,
    s.pte a.vmMm (pageOf x) = .present p true d acc → (s.frame p).exclusive = true

/-- **The contract of a fault.** There is no error and the access would not fault again. After a
write to a private mapping the page belongs to this mapping alone and has the bytes that were
visible before. No other address space changes, and the references of each page change by its
mappings, by its place in the page cache and by its use as a page table. -/
structure Served (s : MemState) (a : VmArea) (x : ℕ) (write : Bool) (ret : VmFault)
    (s' : MemState) : Prop where
  noError : hasFlag ret vmFaultError = false
  entry : ∃ p w d acc, s'.pte a.vmMm (pageOf x) = .present p w d acc ∧ (write = true → w = true) ∧
    (write = true → hasFlag a.vmFlags vmShared = false → ¬ s'.Cached p ∧
      (∀ m k, s'.Maps m k p → m = a.vmMm ∧ k = pageOf x) ∧
      ∀ j < pageSize, (s'.frame p).data j = s.visible a x j)
  others : ∀ m ≠ a.vmMm, s'.pgd m = s.pgd m
  counted : ∀ q, s'.balance a.vmMm q = s.balance a.vmMm q

/-- A page table comes without mappings and without an entry for the page `k`. -/
def CleanTable (s : MemState) (k t : ℕ) : Prop :=
  (∀ j < ptrsPerPte, (tableOf (s.frame t).data j).isPresent = false) ∧
    tableOf (s.frame t).data (k % ptrsPerPte) = .none

/-- A page of zeros is an empty page table. -/
theorem ZeroPage.tableOf {data : ℕ → BitVec 8} (h : ZeroPage data) (hj : j < ptrsPerPte) :
    tableOf data j = .none := by
  have hj' : j < 1024 := hj
  have hword : pteWord data j = 0 := by
    unfold pteWord
    rw [h (4 * j + 3) (by unfold pageSize; omega), h (4 * j + 2) (by unfold pageSize; omega),
      h (4 * j + 1) (by unfold pageSize; omega), h (4 * j) (by unfold pageSize; omega)]
    rfl
  rw [Mm.tableOf, hword]
  rfl

/-- Does the access take a copy of the page that the mapping shows? -/
def takesCopy (a : VmArea) (write : Bool) : Bool :=
  write && !hasFlag a.vmFlags vmShared && !a.isAnonymous

/-- The condition on a fault on an empty entry. The page table that is missing has to come clean,
and a page that nobody has filled has to come filled with zeros. -/
structure EmptySafe (s : MemState) (a : VmArea) (x : ℕ) (write : Bool) : Prop where
  table : ∀ t ∈ s.newTable a.vmMm (pageOf x) (takesCopy a write).toNat, CleanTable s (pageOf x) t
  anon : a.isAnonymous = true → hasFlag a.vmFlags vmShared = false
  zero : write = true → hasFlag a.vmFlags vmShared = false →
    s.backing a (a.pageIndex x) = none →
    ∀ p, s.free[(s.pmdNone a.vmMm (pageOf x)).toNat + (takesCopy a write).toNat]? = some p →
      ZeroPage (s.frame p).data
  file : a.vmOps = some .specialMapping → write = true → hasFlag a.vmFlags vmShared = true →
    a.vmFile.isSome = true

/-- The condition under which `handle_mm_fault` serves an access. A page that is present and not
writable has to be an anonymous page of this process alone for a write. -/
def FaultSafe (s : MemState) (a : VmArea) (x : ℕ) (write : Bool) : Prop :=
  match s.pte a.vmMm (pageOf x) with
  | .none => EmptySafe s a x write
  | .swap => False
  | .present p w _ _ => write = true → w = true ∨
      (s.frame p).anon = true ∧ (s.frame p).exclusive = true

theorem cleanTable_iff : (∀ t ∈ tbl, CleanTable s k t) ↔
    (∀ q, s.leftOver q tbl = 0) ∧ s.firstEntry k tbl = .none := by
  cases tbl with
  | none => exact ⟨fun _ => ⟨fun _ => rfl, rfl⟩, fun _ _ ht => by cases ht⟩
  | some t =>
    constructor
    · intro h
      exact ⟨count_eq_zero_iff.2 (h t rfl).1, (h t rfl).2⟩
    · rintro ⟨hleft, hfirst⟩ r hr
      cases hr
      exact ⟨count_eq_zero_iff.1 hleft, hfirst⟩

theorem visible_of_none (hpte : s.pte a.vmMm (pageOf x) = .none) : s.visible a x j
    = match s.backing a (a.pageIndex x) with
      | some p => (s.frame p).data j
      | none => 0 := by
  unfold visible
  rw [hpte]
  rfl

/-- **A fault on an empty entry is served** exactly if the page table comes clean and the page has
the bytes that were visible before. -/
theorem served_iff {ret : VmFault} (h : MemOk s) (hv : v.vpn = pageOf x)
    (hout : Outcome s v tbl own content s') (hret : hasFlag ret vmFaultError = false)
    (hpermit : v.flags.write = true → hasFlag v.vma.vmFlags vmWrite = true)
    (hown : v.flags.write = true → hasFlag v.vma.vmFlags vmShared = false → own = true) :
    Served s v.vma x v.flags.write ret s' ↔ (∀ t ∈ tbl, CleanTable s (pageOf x) t) ∧
      (v.flags.write = true → hasFlag v.vma.vmFlags vmShared = false →
        ∀ j < pageSize, content j = s.visible v.vma x j) := by
  rw [cleanTable_iff, ← hv]
  constructor
  · intro hs
    have hleft : ∀ q, s.leftOver q tbl = 0 := fun q => by
      have h₁ := hs.counted q
      have h₂ := hout.counted q
      omega
    obtain ⟨p, w, d, acc, hpte, hw, hpriv⟩ := hs.entry
    have hfirst : s.firstEntry v.vpn tbl = .none := by
      by_contra hne
      have hstale := hout.stale hne
      rw [hv, hpte] at hstale
      cases tbl with
      | none => cases hstale
      | some t =>
        have habs := count_eq_zero_iff.1 hleft (pageOf x % ptrsPerPte) (Nat.mod_lt _ (by decide))
        rw [firstEntry] at hstale
        rw [← hstale] at habs
        cases habs
    refine ⟨⟨hleft, hfirst⟩, fun hwr hsh j hj => ?_⟩
    obtain ⟨r, heff⟩ := hout.effect hleft hfirst
    obtain ⟨w', d', hpte', -⟩ := heff.pte
    rw [hv, hpte] at hpte'
    cases hpte'
    rw [← (heff.own_page (hown hwr hsh)).2.2.2]
    exact (hpriv hwr hsh).2.2 j hj
  · rintro ⟨⟨hleft, hfirst⟩, hcontent⟩
    obtain ⟨p, heff⟩ := hout.effect hleft hfirst
    obtain ⟨w, d, hpte, hw, -⟩ := heff.pte
    refine ⟨hret, ⟨p, w, d, true, hv ▸ hpte, fun hwr => hw hwr (hpermit hwr), fun hwr hsh => ?_⟩,
      hout.others, fun q => by rw [hout.counted, hleft]; simp⟩
    obtain ⟨hfree, hun, -, hdata⟩ := heff.own_page (hown hwr hsh)
    refine ⟨hun, fun m k hmap => ?_, fun j hj => by rw [hdata]; exact hcontent hwr hsh j hj⟩
    by_contra hne
    rw [← hv] at hne
    refine h.unmapped p hfree m k ⟨hmap.1, ?_⟩
    rcases heff.grown.pte m k hne with heq | ⟨-, hswap⟩
    · rw [← heq]
      exact hmap.2
    · have hpfn := hmap.2
      rw [hswap] at hpfn
      cases hpfn

section Serve

variable (h : MemOk s) (hx : x < taskSize) (hfree : 3 ≤ s.free.length)
  (hpermit : flags.write = true → hasFlag a.vmFlags vmWrite = true)

/-- The fault of an access to the address `x` of a mapping. -/
abbrev VmArea.vmf (a : VmArea) (x : ℕ) (flags : FaultFlags) : Vmf :=
  ⟨a, pageMask x, a.pageIndex x, flags⟩

/-- The call `r` serves the access exactly if an empty entry may be filled. -/
def ServedIff (s : MemState) (a : VmArea) (x : ℕ) (write : Bool)
    (r : Except Oops (VmFault × MemState)) : Prop :=
  (∃ ret s', r = .ok (ret, s') ∧ Served s a x write ret s') ↔ EmptySafe s a x write

theorem vpn_vmf (a : VmArea) (x : ℕ) (flags : FaultFlags) : (a.vmf x flags).vpn = pageOf x := by
  show pageMask x / pageSize = x / pageSize
  rw [pageMask, Nat.mul_div_cancel _ (by decide)]

theorem vpn_lt (hx : x < taskSize) : pageOf x / ptrsPerPte < userPtrsPerPgd := by
  unfold pageOf pageSize ptrsPerPte userPtrsPerPgd
  have h₁ : x / 4096 / 1024 = x / 4194304 := Nat.div_div_eq_div_mul x 4096 1024
  have h₂ : taskSize / pgdirSize = 768 := by decide
  have h₃ : taskSize = 768 * 4194304 := by decide
  omega

include h hx in
theorem pgd_ne_bad : s.pgd m (pageOf x / ptrsPerPte) ≠ .bad := by
  refine h.dirs m _ ?_
  have h₁ := vpn_lt hx
  have h₂ : taskSize = userPtrsPerPgd * pgdirSize := by decide
  exact Nat.mul_lt_mul_of_pos_right h₁ (by decide)

include h hx in
theorem emptyEntry (hpte : s.pte a.vmMm (pageOf x) = .none) : EmptyEntry s (a.vmf x flags) := by
  have hv := vpn_vmf a x flags
  exact ⟨hv ▸ vpn_lt hx, hv ▸ pgd_ne_bad h hx, hv ▸ hpte⟩

theorem isAnonymous_of_ops (hops : a.vmOps = some ops) : a.isAnonymous = false := by
  rw [isAnonymous, hops]
  rfl

/-- What holds of the result of a fault that comes back. -/
theorem exists_ok_iff {P : VmFault → MemState → Prop} {r : VmFault} :
    (∃ ret s', (Except.ok (r, s) : Except Oops (VmFault × MemState)) = .ok (ret, s') ∧ P ret s') ↔
      P r s := by
  simp

include h hx hfree hpermit in
/-- A fault on an empty entry of an anonymous mapping. -/
theorem served_anon_iff (hanon : a.isAnonymous = true) (hpte : s.pte a.vmMm (pageOf x) = .none) :
    ServedIff s a x flags.write (.ok (doAnonymousPage s (a.vmf x flags))) := by
  have hv := vpn_vmf a x flags
  have hcopy : takesCopy a flags.write = false := by
    rw [takesCopy, hanon, Bool.not_true, Bool.and_false]
  have hops : a.vmOps = none := Option.isNone_iff_eq_none.1 hanon
  have hback : s.backing a (a.pageIndex x) = none := by rw [MemState.backing, hops]
  cases hshared : hasFlag a.vmFlags vmShared with
  | true =>
    rw [ServedIff, doAnonymousPage, if_pos (by exact hshared), exists_ok_iff]
    exact iff_of_false (fun hs => absurd hs.noError (by decide)) fun hs =>
      absurd (hs.anon hanon) (by rw [hshared]; decide)
  | false =>
    obtain ⟨s', page, heq, hpage, hout⟩ := doAnonymousPage_spec
      (emptyEntry h hx hpte) h.pages (by omega) hshared
    have hiff := served_iff h hv hout (show hasFlag 0 vmFaultError = false by decide) hpermit
      fun _ _ => rfl
    have hvis : ∀ j, s.visible a x j = 0 := fun j => by rw [visible_of_none hpte, hback]
    rw [hv] at hpage hout hiff
    rw [ServedIff, heq, exists_ok_iff, hiff]
    constructor
    · rintro ⟨hclean, hzero⟩
      refine ⟨hcopy ▸ hclean, fun _ => hshared, fun hwr hsh _ p hp j hj => ?_,
        fun hsp => by rw [hops] at hsp; cases hsp⟩
      rw [hcopy, toNat_false, Nat.add_zero, hpage] at hp
      cases hp
      rw [← hvis j]
      exact hzero hwr hsh j hj
    · intro hs
      have htable := hcopy ▸ hs.table
      have hzero := hcopy ▸ hs.zero
      refine ⟨htable, fun hwr hsh j hj => ?_⟩
      rw [hvis j]
      exact hzero hwr hsh hback page hpage j hj

/-- `do_fault` for a mapping with a handler takes one of three routes. -/
theorem doFault_eq (hops : v.vma.vmOps = some ops) (hdummy : ops ≠ .dummy) :
    doFault s v = (if !v.flags.write then doReadFault s v ops
      else if !hasFlag v.vma.vmFlags vmShared then doCowFault s v ops
      else doSharedFault s v ops).map
        fun (ret, prealloc, s) => (ret, (prealloc.map s.pteFree).getD s) := by
  unfold doFault
  rw [hops]
  cases ops with
  | dummy => exact absurd rfl hdummy
  | genericFile => rfl
  | specialMapping => rfl

section File

variable (hd : Delivers s a (a.pageIndex x)) (hpte : s.pte a.vmMm (pageOf x) = .none)
  (hops : a.vmOps = some ops)

include hd hops in
theorem Delivers.ne_dummy : ops ≠ .dummy := by
  rintro rfl
  unfold Delivers at hd
  rw [hops] at hd
  exact hd

include hd in
theorem Delivers.exists_ops : ∃ ops, a.vmOps = some ops := by
  unfold Delivers at hd
  cases hops : a.vmOps with
  | none => rw [hops] at hd; exact hd.elim
  | some ops => exact ⟨ops, rfl⟩

include h hx hfree hpermit hd hpte hops

/-- A read of an empty entry. -/
theorem served_read_iff (hwrite : flags.write = false) :
    ServedIff s a x flags.write (doFault s (a.vmf x flags)) := by
  have hv := vpn_vmf a x flags
  have hanon := isAnonymous_of_ops hops
  have hcopy : takesCopy a flags.write = false := by simp [takesCopy, hwrite]
  obtain ⟨ret, s', heq, hret, hout⟩ := doReadFault_spec
    (emptyEntry h hx hpte) h.pages hops hd (by omega) hwrite
  have hiff := served_iff h hv hout hret hpermit fun hwr =>
    nomatch hwr.symm.trans hwrite
  have hfault : doFault s (a.vmf x flags) = .ok (ret, s') := by
    rw [doFault_eq hops (hd.ne_dummy hops)]
    simp [hwrite, heq, Except.map]
  rw [hv] at hiff
  rw [ServedIff, hfault, exists_ok_iff, hiff]
  constructor
  · rintro ⟨hclean, -⟩
    exact ⟨hcopy ▸ hclean, fun han => (nomatch hanon.symm.trans han),
      fun hwr => (nomatch hwrite.symm.trans hwr), fun _ hwr => nomatch hwrite.symm.trans hwr⟩
  · intro hs
    have htable := hcopy ▸ hs.table
    exact ⟨htable, fun hwr => nomatch hwrite.symm.trans hwr⟩

/-- A write to an empty entry of a private mapping. -/
theorem served_cow_iff (hwrite : flags.write = true)
    (hshared : hasFlag a.vmFlags vmShared = false) :
    ServedIff s a x flags.write (doFault s (a.vmf x flags)) := by
  have hv := vpn_vmf a x flags
  have hanon := isAnonymous_of_ops hops
  have hcopy : takesCopy a flags.write = true := by simp [takesCopy, hwrite, hshared, hanon]
  obtain ⟨ret, s', page, heq, hret, hsrc, hout⟩ := doCowFault_spec
    (emptyEntry h hx hpte) h.pages hops hd (by omega) hwrite hshared
  have hiff := served_iff h hv hout hret hpermit fun _ _ => rfl
  have hfault : doFault s (a.vmf x flags) = .ok (ret, s') := by
    rw [doFault_eq hops (hd.ne_dummy hops)]
    simp [hwrite, hshared, heq, Except.map]
  rw [hv] at hsrc hiff
  rw [ServedIff, hfault, exists_ok_iff, hiff]
  constructor
  · rintro ⟨hclean, hzero⟩
    refine ⟨hcopy ▸ hclean, fun _ => hshared, fun hwr _ hnone p hp j hj => ?_,
      fun _ _ hsh => nomatch hshared.symm.trans hsh⟩
    rw [hcopy, toNat_true] at hp
    have hpage : page = p := by
      rcases hsrc with hsome | ⟨-, hplace⟩
      · rw [hnone] at hsome
        cases hsome
      · exact Option.some.inj (hplace.symm.trans hp)
    rw [← hpage, hzero hwr hshared j hj, visible_of_none hpte, hnone]
  · intro hs
    have htable := hcopy ▸ hs.table
    have hzero := hcopy ▸ hs.zero hwrite hshared
    refine ⟨htable, fun _ _ j hj => ?_⟩
    rw [visible_of_none hpte]
    rcases hsrc with hsome | ⟨hnone, hplace⟩
    · rw [hsome]
    · rw [hnone]
      exact hzero hnone page hplace j hj

/-- A write to an empty entry of a shared mapping. -/
theorem served_shared_iff (hwrite : flags.write = true)
    (hshared : hasFlag a.vmFlags vmShared = true) :
    ServedIff s a x flags.write (doFault s (a.vmf x flags)) := by
  have hv := vpn_vmf a x flags
  have hanon := isAnonymous_of_ops hops
  have hcopy : takesCopy a flags.write = false := by simp [takesCopy, hshared]
  have hfault : doFault s (a.vmf x flags) =
      (doSharedFault s (a.vmf x flags) ops).map
        fun (ret, prealloc, s) => (ret, (prealloc.map s.pteFree).getD s) := by
    rw [doFault_eq hops (hd.ne_dummy hops)]
    simp [hwrite, hshared]
  rw [ServedIff, hfault]
  rcases doSharedFault_spec (emptyEntry h hx hpte) h.pages hops hd (by omega) hshared with
    ⟨ret, s', heq, hret, hout, hfile⟩ | ⟨heq, hspecial, hnofile⟩
  · have hiff := served_iff h hv hout hret hpermit fun _ hsh =>
      nomatch hshared.symm.trans hsh
    rw [hv] at hfile hiff
    rw [heq, Except.map, exists_ok_iff]
    refine hiff.trans ⟨?_, ?_⟩
    · rintro ⟨hclean, -⟩
      refine ⟨hcopy ▸ hclean, fun han => (nomatch hanon.symm.trans han),
        fun _ hsh => (nomatch hshared.symm.trans hsh), fun hsp _ _ => ?_⟩
      exact hfile (cleanTable_iff.1 hclean).2 (Option.some.inj (hops.symm.trans hsp))
    · intro hs
      have htable := hcopy ▸ hs.table
      exact ⟨htable, fun _ hsh => nomatch hshared.symm.trans hsh⟩
  · rw [heq]
    constructor
    · rintro ⟨ret', s'', hr, -⟩
      cases hr
    · intro hs
      have hsome := hs.file (hops.trans (by rw [hspecial])) hwrite hshared
      cases hnofile ▸ hsome

end File

include h in
/-- A page of this process alone becomes writable. -/
theorem served_wpPageReuse {w d acc : Bool} (hx : x < taskSize) (hwrite : hasFlag a.vmFlags vmWrite)
    (hexcl : (s.frame p).exclusive = true) (hpte : s.pte a.vmMm (pageOf x) = .present p w d acc) :
    Served s a x flags.write vmFaultWrite
      (wpPageReuse s (a.vmf x flags) (.present p w d acc)) := by
  have htable := isTable_of_present hpte
  have heq : wpPageReuse s (a.vmf x flags) (.present p w d acc)
      = s.setPte a.vmMm (pageOf x) (.present p true true true) := by
    unfold wpPageReuse maybeMkwrite
    rw [vpn_vmf, if_pos hwrite]
    rfl
  have hset : Grown a.vmMm (pageOf x) (fun _ => False) True s
      (s.setPte a.vmMm (pageOf x) (.present p true true true)) := h.pages.grown_setPte htable
  have hmaps : s.Maps a.vmMm (pageOf x) p := ⟨vpn_lt hx, by rw [hpte]; rfl⟩
  rw [heq]
  refine ⟨by decide, ⟨p, true, true, true, by rw [pte_setPte htable, if_pos ⟨rfl, rfl⟩],
    fun _ => rfl, fun _ _ => ⟨?_, fun m k hmap => ?_, fun j _ => ?_⟩⟩,
    fun m hm => pgd_setPte_of_ne hm, fun q => ?_⟩
  · rintro ⟨f, i, hc⟩
    exact h.uncached p hexcl ⟨f, i, (hset.cache_new f i p hc).resolve_right
      fun hfree => h.unmapped p hfree _ _ hmaps⟩
  · by_contra hne
    have hmap' : s.Maps m k p := ⟨hmap.1, by
      have hpfn := hmap.2
      rwa [pte_setPte htable, if_neg hne] at hpfn⟩
    exact hne (h.once p hexcl m k _ _ hmap' hmaps)
  · rw [frame_setPte, visible, hpte]
    rfl
  · rw [balance_setPte (vpn_lt hx) htable, hpte]
    simp [Pte.pfn]

theorem handleMmFault_of_present {w d acc : Bool}
    (hpte : s.pte a.vmMm (pageOf x) = .present p w d acc) : handleMmFault s a x flags =
      if flags.write && !w then
        .ok (doWpPage s (a.vmf x flags) (.present p w d acc) p)
      else .ok (0, s) := by
  obtain ⟨entries, hdir⟩ := Pde.exists_of_isTable (isTable_of_present hpte)
  rw [handleMmFault, handlePteFault, vpn_vmf, hdir]
  rw [hpte]

theorem handleMmFault_of_none (h : MemOk s) (hx : x < taskSize)
    (hpte : s.pte a.vmMm (pageOf x) = .none) : handleMmFault s a x flags =
      if a.isAnonymous then .ok (doAnonymousPage s (a.vmf x flags))
      else doFault s (a.vmf x flags) := by
  rw [handleMmFault, handlePteFault, vpn_vmf]
  split
  · next hbad => exact absurd hbad (pgd_ne_bad h hx)
  · rw [hpte]

include h hpermit in
/-- A fault on a page that is present. -/
theorem served_present_iff {w d acc : Bool} (hx : x < taskSize) (hown : OwnsWritable s a x)
    (hpte : s.pte a.vmMm (pageOf x) = .present p w d acc) :
    (∃ ret s', handleMmFault s a x flags = .ok (ret, s') ∧ Served s a x flags.write ret s') ↔
    (flags.write = true → w = true ∨ (s.frame p).anon = true ∧ (s.frame p).exclusive = true) := by
  have hvisible : ∀ j, s.visible a x j = (s.frame p).data j := fun j => by
    rw [visible, hpte]
    rfl
  have hmaps : s.Maps a.vmMm (pageOf x) p := ⟨vpn_lt hx, by rw [hpte]; rfl⟩
  rw [handleMmFault_of_present hpte]
  cases hcase : flags.write && !w with
  | false =>
    have hw : flags.write = true → w = true := fun hwr => by
      rw [hwr, Bool.true_and, Bool.not_eq_false'] at hcase
      exact hcase
    refine ⟨fun _ hwr => .inl (hw hwr), fun _ => ⟨0, s, rfl, by decide,
      ⟨p, w, d, acc, hpte, hw, fun hwr hsh => ?_⟩, fun _ _ => rfl, fun _ => rfl⟩⟩
    have hexcl := hown hsh p d acc (hw hwr ▸ hpte)
    exact ⟨h.uncached p hexcl, fun m k hmap => h.once p hexcl m k _ _ hmap hmaps,
      fun j _ => (hvisible j).symm⟩
  | true =>
    obtain ⟨hwr, hw⟩ : flags.write = true ∧ w = false := by simpa using hcase
    rw [if_pos rfl]
    unfold doWpPage
    cases hre : (s.frame p).anon && (s.frame p).exclusive with
    | false =>
      rw [if_neg Bool.false_ne_true]
      rw [exists_ok_iff]
      refine iff_of_false (fun hs => absurd hs.noError (by decide)) fun hcond => ?_
      rcases hcond hwr with hw' | ⟨hanon, hexcl⟩
      · rw [hw] at hw'
        cases hw'
      · rw [hanon, hexcl] at hre
        cases hre
    | true =>
      obtain ⟨hanon, hexcl⟩ : (s.frame p).anon = true ∧ (s.frame p).exclusive = true := by
        simpa using hre
      exact ⟨fun _ _ => .inr ⟨hanon, hexcl⟩, fun _ => ⟨vmFaultWrite, _, rfl,
        served_wpPageReuse h hx (hpermit hwr) hexcl hpte⟩⟩

end Serve

/-- Four free pages filled with the byte `b`, and nothing mapped. -/
def freshMem (b : BitVec 8) : MemState where
  frame _ := ⟨fun _ => b, 0, false, false⟩
  free := [0, 1, 2, 3]
  tables := []
  pgd _ _ := .none
  cache _ _ := none
  special _ := none

theorem memOk_freshMem (b : BitVec 8) : MemOk (freshMem b) where
  pages := {
    nodup := (by decide : [0, 1, 2, 3].Nodup)
    refs _ _ := rfl
    uncached _ _ hc := nomatch hc.choose_spec.choose_spec
    unspecial _ _ _ := nofun
    cached_refs _ hc := nomatch hc.choose_spec.choose_spec
    special_refs _ _ hc := nomatch hc }
  unmapped _ _ _ _ hmap := nomatch hmap.2
  uncached _ hexcl := nomatch hexcl
  once _ hexcl := nomatch hexcl
  dirs _ _ _ := nofun

/-- A private mapping of one page at `0x1000` that may be read and written. -/
def privateArea (ops : Option VmOps) (file : Option FileId) : VmArea where
  vmStart := 0x1000
  vmEnd := 0x2000
  vmFlags := vmRead ||| vmWrite
  vmPgoff := 0
  vmFile := file
  vmOps := ops
  anonVma := none
  anonVmaChain := []
  vmMm := 0

def accessFlags (write : Bool) : FaultFlags := ⟨write, false, false, false⟩

/-- The state after a read of a page of a private file mapping. -/
def afterRead : MemState :=
  match handleMmFault (freshMem 0) (privateArea (some .genericFile) (some 0)) 0x1000
    (accessFlags false) with
  | .ok (_, s) => s
  | .error _ => freshMem 0

end MinimalKernel.Mm
