import MinimalKernel.Lib.Interval
import MinimalKernel.Mm.Mmap

/-!
# Coherent address spaces

The list, the tree and the VMA caches of an address space describe the same VMAs. `Coherent s m`
states this for the address space `m`; under it each lookup of the model is a search of the list.

Most functions of `mm/mmap.c` change a VMA in place and allocate objects that nobody else refers
to. `Rewrites heap s s'` says that this is all that happened between `s` and `s'`, and names the
VMAs that result; each function gets one lemma in these terms, and coherence follows from the bounds
alone (`Coherent.of_rewrites`).

## Main definitions

* `Coherent s m` — the representation invariant of the address space `m`
* `Rewrites heap s s'`, `Quiet s s'` — nothing but VMA contents changed; nothing changed

## Main results

* `findVma_eq`, `findVmaIntersection_eq`, `findVmaLinks_eq_some` — the lookups search the list
* `splitVma_spec` — a split cuts the VMA, or changes nothing
* `Coherent.vmaLink` — linking a VMA into a gap
-/

namespace MinimalKernel.Mm

open Function Lib List Option VmState

variable {s s' s'' : VmState} {m m' : MmId} {v w : VmaId} {heap heap' : VmaId → VmArea}
  {prev : Option VmaId} {place : Path VmaId}

/-! ### The invariant -/

/-- The VMA caches of the tasks that use `m` are outdated or hold VMAs of `m`. -/
def CacheValid (s : VmState) (m : MmId) : Prop :=
  ∀ t, (s.task t).mm = some m → ∀ i v, (s.task t).vmas i = some v →
    (s.task t).seqnum ≤ (s.mm m).vmacacheSeqnum ∧
      ((s.task t).seqnum = (s.mm m).vmacacheSeqnum → v ∈ (s.mm m).mmap)

/-- The representation invariant of an address space. -/
structure Coherent (s : VmState) (m : MmId) : Prop where
  /-- The list is sorted, and its VMAs are non-empty and disjoint. -/
  ordered : Ordered s.lo s.hi (s.mm m).mmap
  /-- No VMA reaches beyond user space. -/
  bounded : ∀ v ∈ (s.mm m).mmap, s.hi v ≤ taskSize
  /-- The tree holds the VMAs of the list, in the same order. -/
  rb : (s.mm m).mmRb.toList = (s.mm m).mmap
  /-- The VMAs know their address space. -/
  owned : ∀ v ∈ (s.mm m).mmap, (s.vma v).vmMm = m
  /-- The VMAs are allocated objects. -/
  allocated : ∀ v ∈ (s.mm m).mmap, v < s.nextVma
  /-- The VMA caches do not mislead. -/
  cache : CacheValid s m

/-- `s'` comes from `s` by giving the objects of `s` the contents `heap`. Apart from that only the
slab, objects new in `s'` and the VMA cache of the current task may have changed. -/
structure Rewrites (heap : VmaId → VmArea) (s s' : VmState) : Prop where
  mm : s'.mm = s.mm
  vma : ∀ v < s.nextVma, s'.vma v = heap v
  nextVma : s.nextVma ≤ s'.nextVma
  imap : s'.imap = s.imap
  imapCorrupt : s'.imapCorrupt = s.imapCorrupt
  nextMm : s'.nextMm = s.nextMm
  current : s'.current = s.current
  taskMm : ∀ t, (s'.task t).mm = (s.task t).mm
  cache : ∀ m, CacheValid s m → CacheValid s' m

/-- No object of `s` has changed. -/
def Quiet (s s' : VmState) : Prop := Rewrites s.vma s s'

theorem Quiet.refl (s : VmState) : Quiet s s :=
  ⟨rfl, fun _ _ => rfl, le_rfl, rfl, rfl, rfl, rfl, fun _ => rfl, fun _ h => h⟩

namespace Rewrites

section

variable (h : Rewrites heap s s')
include h

theorem congr (hh : ∀ v < s.nextVma, heap v = heap' v) : Rewrites heap' s s' :=
  { h with vma := fun v hv => (h.vma v hv).trans (hh v hv) }

theorem trans (h' : Rewrites heap' s' s'') : Rewrites heap' s s'' where
  mm := h'.mm.trans h.mm
  vma v hv := h'.vma v (hv.trans_le h.nextVma)
  nextVma := h.nextVma.trans h'.nextVma
  imap := h'.imap.trans h.imap
  imapCorrupt := h'.imapCorrupt.trans h.imapCorrupt
  nextMm := h'.nextMm.trans h.nextMm
  current := h'.current.trans h.current
  taskMm t := (h'.taskMm t).trans (h.taskMm t)
  cache m hm := h'.cache m (h.cache m hm)

theorem trans_quiet (h' : Quiet s' s'') : Rewrites heap s s'' :=
  (h.trans h').congr h.vma

/-- Only the heap matters for what a rewriting says about `v`. -/
theorem lo_eq (hv : v < s.nextVma) : s'.lo v = (heap v).vmStart := by
  rw [lo, h.vma v hv]

theorem hi_eq (hv : v < s.nextVma) : s'.hi v = (heap v).vmEnd := by
  rw [hi, h.vma v hv]

end

/-- Overwriting an object. -/
theorem setVma (h : Quiet s s') (a : VmArea) : Rewrites (update s.vma v a) s (s'.setVma v a) where
  __ := h
  vma w hw := by
    by_cases hwv : w = v
    · subst hwv
      simp [VmState.setVma]
    · simp [VmState.setVma, update_of_ne hwv, h.vma w hw]

end Rewrites

theorem Quiet.trans (h : Quiet s s') (h' : Quiet s' s'') : Quiet s s'' := h.trans_quiet h'

/-- Overwriting an object that is new. -/
theorem Quiet.setVma (h : Quiet s s') (hv : s.nextVma ≤ v) (a : VmArea) : Quiet s (s'.setVma v a) :=
  (Rewrites.setVma h a).congr fun _ hw => update_of_ne (hw.trans_le hv).ne _ _

/-- **Coherence of rewritten VMAs.** A rewriting that keeps the bounds in order and does not touch
the owner keeps the invariant. -/
theorem Coherent.of_rewrites (h : Coherent s m) (hr : Rewrites heap s s')
    (ho : Ordered (fun v => (heap v).vmStart) (fun v => (heap v).vmEnd) (s.mm m).mmap)
    (hb : ∀ v ∈ (s.mm m).mmap, (heap v).vmEnd ≤ taskSize ∧ (heap v).vmMm = m) : Coherent s' m := by
  have hv : ∀ v ∈ (s'.mm m).mmap, s'.vma v = heap v := by
    rw [hr.mm]
    exact fun v hv => hr.vma v (h.allocated v hv)
  rw [← hr.mm] at ho hb
  refine ⟨ho.congr fun v hm => ?_, fun v hm => ?_, ?_, fun v hm => ?_, fun v hm => ?_,
    hr.cache m h.cache⟩
  · exact ⟨by rw [lo, hv v hm], by rw [hi, hv v hm]⟩
  · rw [hi, hv v hm]
    exact (hb v hm).1
  · rw [hr.mm, h.rb]
  · rw [hv v hm]
    exact (hb v hm).2
  · exact (h.allocated v (hr.mm ▸ hm)).trans_le hr.nextVma

theorem Coherent.of_quiet (h : Coherent s m) (hq : Quiet s s') : Coherent s' m :=
  h.of_rewrites hq h.ordered fun v hv => ⟨h.bounded v hv, h.owned v hv⟩

/-! ### The VMA cache -/

theorem Quiet.kmemCacheAlloc (s : VmState) : Quiet s s.kmemCacheAlloc.2 :=
  ⟨rfl, fun _ _ => rfl, le_rfl, rfl, rfl, rfl, rfl, fun _ => rfl, fun _ h => h⟩

/-- Changing the cache of the current task is quiet when the new cache is valid. -/
theorem Quiet.setCurrent {t : Task} (ht : t.mm = s.currentMm)
    (hc : ∀ m, s.currentMm = some m → CacheValid s m → ∀ i v, t.vmas i = some v →
      t.seqnum ≤ (s.mm m).vmacacheSeqnum ∧
        (t.seqnum = (s.mm m).vmacacheSeqnum → v ∈ (s.mm m).mmap)) : Quiet s (s.setCurrent t) := by
  refine ⟨rfl, fun _ _ => rfl, le_rfl, rfl, rfl, rfl, rfl, fun u => ?_, fun m hm u hu => ?_⟩
  · by_cases huc : u = s.current
    · subst huc
      simpa [VmState.setCurrent, setTasks, currentMm] using ht
    · simp [VmState.setCurrent, setTasks, update_of_ne huc]
  · by_cases huc : u = s.current
    · subst huc
      simp only [VmState.setCurrent, setTasks, update_self] at hu ⊢
      exact hc m (ht ▸ hu) hm
    · simp only [VmState.setCurrent, setTasks, update_of_ne huc] at hu ⊢
      exact hm u hu

theorem vmacacheValid_spec (s : VmState) (m : MmId) :
    ∃ tk, (vmacacheValid s m).2 = s.setTasks tk ∧ Quiet s (s.setTasks tk) ∧
      ((tk s.current).mm = some m → (tk s.current).seqnum = (s.mm m).vmacacheSeqnum) ∧
      ((vmacacheValid s m).1 = true → (tk s.current).mm = some m) := by
  unfold vmacacheValid
  by_cases hm : (s.task s.current).mm = some m
  · by_cases hseq : (s.mm m).vmacacheSeqnum = (s.task s.current).seqnum
    · exact ⟨s.task, by simp [hm, hseq], Quiet.refl s, fun _ => hseq.symm, fun _ => hm⟩
    · refine ⟨update s.task s.current { s.task s.current with
        seqnum := (s.mm m).vmacacheSeqnum, vmas := fun _ => none },
        by simp [hm, hseq, setCurrent], ?_, by simp, by simp [hm, hseq]⟩
      exact Quiet.setCurrent rfl fun m' _ _ i v hv => by simp at hv
  · exact ⟨s.task, by simp [hm], Quiet.refl s, fun h => absurd h hm, by simp [hm]⟩

/-- A cache hit is the VMA that holds the address. -/
theorem vmacacheFind_spec (h : Coherent s m) (addr : ℕ) :
    ∃ tk, (vmacacheFind s m addr).2 = s.setTasks tk ∧ Quiet s (s.setTasks tk) ∧
      ((tk s.current).mm = some m → (tk s.current).seqnum = (s.mm m).vmacacheSeqnum) ∧
      ∀ v ∈ (vmacacheFind s m addr).1, v ∈ (s.mm m).mmap ∧ s.lo v ≤ addr ∧ addr < s.hi v := by
  obtain ⟨tk, htk, hq, hseq, hvalid⟩ := vmacacheValid_spec s m
  unfold vmacacheFind
  rcases hv : vmacacheValid s m with ⟨_ | _, s'⟩
  · rw [hv] at htk
    exact ⟨tk, htk, hq, hseq, by simp⟩
  · rw [hv] at htk hvalid
    obtain rfl : s' = s.setTasks tk := htk
    refine ⟨tk, rfl, hq, hseq, fun v hvm => ?_⟩
    obtain ⟨i, -, hi⟩ := exists_of_findSome?_eq_some hvm
    rw [vmacacheSlot, filter_eq_some_iff] at hi
    have hmm := hvalid rfl
    refine ⟨(hq.cache m h.cache _ hmm _ _ hi.1).2 (hseq hmm), ?_⟩
    exact of_decide_eq_true hi.2

/-! ### Lookups -/

section

variable (h : Coherent s m)
include h

theorem vmacacheUpdate_spec (hv : v ∈ (s.mm m).mmap)
    (hseq : s.currentMm = some m → (s.task s.current).seqnum = (s.mm m).vmacacheSeqnum) (addr : ℕ) :
    ∃ tk, vmacacheUpdate s addr v = s.setTasks tk ∧ Quiet s (s.setTasks tk) := by
  unfold vmacacheUpdate
  by_cases hm : (s.task s.current).mm = some (s.vma v).vmMm
  · refine ⟨update s.task s.current { s.task s.current with
      vmas := update (s.task s.current).vmas (vmacacheHash addr) (some v) },
      by simp [hm, setCurrent], Quiet.setCurrent rfl fun m' hm' hc i w hw => ?_⟩
    rw [h.owned v hv] at hm
    obtain rfl : m = m' := some.inj (hm.symm.trans hm')
    by_cases hi : i = vmacacheHash addr
    · subst hi
      obtain rfl : v = w := by simpa using hw
      exact ⟨(hseq hm').le, fun _ => hv⟩
    · exact hc _ hm' i w (by simpa [update_of_ne hi] using hw)
  · exact ⟨s.task, by simp [hm], Quiet.refl s⟩

theorem Coherent.findFrom_eq (addr : ℕ) :
    (s.mm m).mmRb.findFrom (fun v => addr < s.hi v) (fun v => s.lo v ≤ addr) none
      = (s.mm m).mmap.find? fun v => addr < s.hi v := by
  rw [RbTree.findFrom_eq, h.rb, or_none]
  rw [h.rb]
  refine h.ordered.pairwise.imp_of_mem fun {a b} _ hb hab => ?_
  have := h.ordered.lt b hb
  simp only [decide_eq_true_eq]
  omega

/-- **`find_vma`** searches the list for the first VMA that ends after the address. -/
theorem findVma_eq (addr : ℕ) :
    ∃ tk, findVma s m addr
        = ((s.mm m).mmap.find? fun v => addr < s.hi v, s.setTasks tk) ∧
      Quiet s (s.setTasks tk) := by
  obtain ⟨tk, htk, hq, hseq, hhit⟩ := vmacacheFind_spec h addr
  unfold findVma
  rcases hf : vmacacheFind s m addr with ⟨_ | v, s'⟩
  · rw [hf] at htk
    obtain rfl : s' = s.setTasks tk := htk
    dsimp only
    rw [(h.of_quiet hq).findFrom_eq]
    rcases hfind : ((s.setTasks tk).mm m).mmap.find? fun v => addr < (s.setTasks tk).hi v
      with _ | v
    · exact ⟨tk, Prod.ext hfind.symm rfl, hq⟩
    · obtain ⟨tk', htk', hq'⟩ := vmacacheUpdate_spec (h.of_quiet hq)
        (mem_of_find?_eq_some hfind) hseq addr
      exact ⟨tk', Prod.ext hfind.symm htk', hq.trans hq'⟩
  · obtain ⟨hv, hvx⟩ := hhit v (by rw [hf]; rfl)
    rw [h.ordered.find?_eq_of_mem hv hvx]
    rw [hf] at htk
    exact ⟨tk, Prod.ext rfl htk, hq⟩

/-- **`find_vma_intersection`** is that VMA if it begins before the end of the range. -/
theorem findVmaIntersection_eq (start endAddr : ℕ) :
    ∃ tk, findVmaIntersection s m start endAddr
        = (((s.mm m).mmap.find? fun v => start < s.hi v).filter fun v => s.lo v < endAddr,
            s.setTasks tk) ∧
      Quiet s (s.setTasks tk) := by
  obtain ⟨tk, hf, hq⟩ := findVma_eq h start
  refine ⟨tk, ?_, hq⟩
  rw [findVmaIntersection, hf]
  refine Prod.ext (congrArg (fun p => Option.filter p _) (funext fun v => ?_)) rfl
  simp only [not_le, decide_eq_decide]
  exact Iff.rfl

/-- A failed search for a place has met a VMA that overlaps the range. -/
theorem findVmaLinks_eq_none {addr endAddr : ℕ} (hf : findVmaLinks s m addr endAddr = none) :
    ∃ v ∈ (s.mm m).mmap, addr < s.hi v ∧ s.lo v < endAddr := by
  obtain ⟨v, hv, hp, hb⟩ := RbTree.descend_eq_none hf
  rw [h.rb] at hv
  exact ⟨v, hv, by simpa using hp, by simpa using hb⟩

/-- **`find_vma_links`**: the place that is found lies between the VMAs that end before the range
and those that begin behind it. -/
theorem findVmaLinks_eq_some {addr endAddr : ℕ}
    (hf : findVmaLinks s m addr endAddr = some (place, prev)) :
    (s.mm m).mmap = place.before ++ place.after ∧ prev = place.before.getLast? ∧
      (∀ v ∈ place.before, s.hi v ≤ addr) ∧
      ∀ v ∈ place.after, addr < s.hi v ∧ endAddr ≤ s.lo v := by
  have hp : (s.mm m).mmRb.toList.Pairwise fun a b =>
      ((decide (addr < s.hi a) → decide (addr < s.hi b)) ∧
        (decide (addr < s.hi b) ∧ decide (s.lo b < endAddr) → decide (addr < s.hi a) →
          decide (s.lo a < endAddr))) := by
    rw [h.rb]
    refine h.ordered.pairwise.imp_of_mem fun {a b} ha hb hab => ?_
    have := h.ordered.lt a ha
    have := h.ordered.lt b hb
    simp only [decide_eq_true_eq]
    omega
  obtain ⟨hbefore, hafter, hprev, hbad⟩ := RbTree.descend_eq_some hp hf
  simp only [Path.before_root, Path.after_root, nil_append, append_nil, h.rb]
    at hbefore hafter hprev hbad
  refine ⟨by rw [hbefore, hafter, takeWhile_append_dropWhile], by simpa [hbefore] using hprev,
    fun v hv => ?_, fun v hv => ?_⟩
  · rw [hbefore] at hv
    simpa using mem_takeWhile_imp hv
  · rw [hafter] at hv
    have hlt : addr < s.hi v := by
      refine h.ordered.lt_hi_of_mem_dropWhile ?_
      convert hv using 3
      exact (decide_eq_decide.2 not_lt.symm).trans decide_not
    exact ⟨hlt, by simpa using hbad v ((dropWhile_sublist _).subset hv) (by simpa using hlt)⟩

end

/-! ### Splitting -/

/-- What a split leaves of a VMA: the part above `addr` if the copy takes the part below, and the
part below otherwise. -/
def VmArea.cut (a : VmArea) (addr : ℕ) : Bool → VmArea
  | true => { a with vmStart := addr, vmPgoff := wadd a.vmPgoff (pageOf (wsub addr a.vmStart)) }
  | false => { a with vmEnd := addr }

theorem newVma_none {a : VmArea} (h : s.newVma a = (none, s')) : Quiet s s' := by
  have hk := Quiet.kmemCacheAlloc s
  unfold newVma at h
  rcases hka : s.kmemCacheAlloc with ⟨_ | _, s₁⟩ <;> rw [hka] at h hk <;> cases h
  exact hk

theorem newVma_some {a : VmArea} (h : s.newVma a = (some v, s')) :
    v = s.nextVma ∧ Quiet s s' ∧ s'.vma v = a ∧ s'.nextVma = v + 1 := by
  have hk := Quiet.kmemCacheAlloc s
  have hn : s.kmemCacheAlloc.2.nextVma = s.nextVma := rfl
  unfold newVma at h
  rcases hka : s.kmemCacheAlloc with ⟨_ | _, s₁⟩ <;> rw [hka] at h hk hn <;> cases h
  refine ⟨hn, ?_, by simp [setVma], rfl⟩
  exact { hk.setVma (v := s₁.nextVma) hn.ge a with nextVma := by rw [← hn]; simp }

/-- Cloning the `anon_vma` chain only concerns the copy and keeps its bounds. -/
theorem anonVmaClone_spec (as : List AnonVmaId) (h : Quiet s s') (hv : s.nextVma ≤ v) :
    Quiet s (anonVmaClone as s' v).2 ∧ (anonVmaClone as s' v).2.lo v = s'.lo v := by
  induction as generalizing s' with
  | nil => exact ⟨h, rfl⟩
  | cons a as ih =>
    have link : ∀ t : VmState, Quiet s t → t.lo v = s'.lo v →
        Quiet s (anonVmaClone as (anonVmaChainLink t v a) v).2 ∧
          (anonVmaClone as (anonVmaChainLink t v a) v).2.lo v = s'.lo v := by
      intro t ht hlo
      obtain ⟨hq, hl⟩ := ih (ht.setVma hv { t.vma v with
        anonVmaChain := a :: (t.vma v).anonVmaChain })
      refine ⟨hq, hl.trans ?_⟩
      simpa [lo, setVma] using hlo
    have h₁ : Quiet s s'.kmemCacheAlloc.2 := h.trans (Quiet.kmemCacheAlloc s')
    have hlo₁ : s'.kmemCacheAlloc.2.lo v = s'.lo v := rfl
    unfold anonVmaClone
    rcases hk : s'.kmemCacheAlloc with ⟨_ | _, s₁⟩ <;> rw [hk] at h₁ hlo₁ <;> dsimp only
    · have h₂ : Quiet s s₁.kmemCacheAlloc.2 := h₁.trans (Quiet.kmemCacheAlloc s₁)
      have hlo₂ : s₁.kmemCacheAlloc.2.lo v = s₁.lo v := rfl
      rcases hk' : s₁.kmemCacheAlloc with ⟨_ | _, s₂⟩ <;> rw [hk'] at h₂ hlo₂ <;> dsimp only
      · refine ⟨h₂.setVma hv _, ?_⟩
        simpa [lo, setVma] using hlo₂.trans hlo₁
      · exact link s₂ h₂ (hlo₂.trans hlo₁)
    · exact link s₁ h₁ hlo₁

/-- **`__split_vma`** cuts the VMA, or fails and changes nothing. -/
theorem splitVma_spec (hv : v < s.nextVma) (addr : ℕ) (newBelow : Bool) :
    match splitVma s v addr newBelow with
    | (.error _, s') => Quiet s s'
    | (.ok (), s') => Rewrites (update s.vma v ((s.vma v).cut addr newBelow)) s s' := by
  unfold splitVma
  rcases (s.vma v).vmOps.elim (Except.ok ()) VmOps.maySplit with e | ⟨⟩
  · exact Quiet.refl s
  rcases hdup : vmAreaDup s v with ⟨_ | new, s₁⟩
  · exact newVma_none hdup
  obtain ⟨hnew, hq₁, ha, -⟩ := newVma_some hdup
  dsimp only
  set b := (if newBelow then { s₁.vma new with vmEnd := addr }
    else { s₁.vma new with
      vmStart := addr
      vmPgoff := wadd (s₁.vma new).vmPgoff (pageOf (wsub addr (s₁.vma v).vmStart)) }) with hb
  have hq₂ : Quiet s (s₁.setVma new b) := hq₁.setVma hnew.ge b
  obtain ⟨hq₃, hlo₃⟩ := anonVmaClone_spec ((s₁.setVma new b).vma v).anonVmaChain.reverse hq₂ hnew.ge
  rcases hcl : anonVmaClone ((s₁.setVma new b).vma v).anonVmaChain.reverse (s₁.setVma new b) new
    with ⟨e | ⟨⟩, s₃⟩ <;> rw [hcl] at hq₃ hlo₃
  · exact hq₃
  have hsv : s₃.vma v = s.vma v := hq₃.vma v hv
  cases newBelow with
  | true =>
    have hlo : s₃.lo new = (s.vma v).vmStart := by
      rw [hlo₃]
      simp [lo, setVma, hb, ha]
    simpa only [vmaAdjust, VmArea.cut, hsv, hlo, hi, if_true] using
      Rewrites.setVma hq₃ ((s.vma v).cut addr true)
  | false =>
    simpa only [vmaAdjust, VmArea.cut, hsv, lo, Bool.false_eq_true, if_false] using
      Rewrites.setVma hq₃ ((s.vma v).cut addr false)

/-! ### Linking -/

section

variable (s m v prev place)

/-- The effect of `vma_link` on its address space. -/
theorem vmaLink_mm :
    (vmaLink s m v prev place).mm = update s.mm m
      { s.mm m with
        mmap := insertAfter (s.mm m).mmap prev v
        mmRb := RbTree.insertAt place v
        mapCount := (s.mm m).mapCount + 1
        highestVmEnd :=
          if nextOf (insertAfter (s.mm m).mmap prev v) v = none then s.hi v
          else (s.mm m).highestVmEnd } := by
  simp [vmaLink, vmaLinkRb, vmaLinkList, setMm, vmEndGap, hi]

theorem vmaLink_vma : (vmaLink s m v prev place).vma = s.vma := by
  simp [vmaLink, vmaLinkRb, vmaLinkList, setMm]

theorem vmaLink_nextVma : (vmaLink s m v prev place).nextVma = s.nextVma := by
  simp [vmaLink, vmaLinkRb, vmaLinkList, setMm]

theorem vmaLink_task : (vmaLink s m v prev place).task = s.task := by
  simp [vmaLink, vmaLinkRb, vmaLinkList, setMm]

theorem vmaLink_currentMm : (vmaLink s m v prev place).currentMm = s.currentMm := by
  simp [currentMm, vmaLink, vmaLinkRb, vmaLinkList, setMm]

end

/-- The VMA `v` belongs between `place.before` and `place.after`. -/
structure Fits (s : VmState) (m : MmId) (v : VmaId) (prev : Option VmaId)
    (place : Path VmaId) : Prop where
  mmap : (s.mm m).mmap = place.before ++ place.after
  prev : prev = place.before.getLast?
  before : ∀ w ∈ place.before, s.hi w ≤ s.lo v
  after : ∀ w ∈ place.after, s.hi v ≤ s.lo w

theorem Fits.insertAfter_eq (hf : Fits s m v prev place) (h : Coherent s m) :
    insertAfter (s.mm m).mmap prev v = place.before ++ v :: place.after := by
  rw [hf.mmap, hf.prev]
  exact insertAfter_getLast? (hf.mmap ▸ h.ordered.nodup)

/-- **Coherence of a linked VMA.** -/
theorem Coherent.vmaLink (h : Coherent s m) (hf : Fits s m v prev place) (hlt : s.lo v < s.hi v)
    (hb : s.hi v ≤ taskSize) (hm : (s.vma v).vmMm = m) (hn : v < s.nextVma) :
    Coherent (vmaLink s m v prev place) m := by
  have hmmap : ((Mm.vmaLink s m v prev place).mm m).mmap = place.before ++ v :: place.after := by
    rw [vmaLink_mm, update_self]
    exact hf.insertAfter_eq h
  have hmem : ∀ w, w ∈ place.before ++ v :: place.after ↔ w = v ∨ w ∈ (s.mm m).mmap := by
    intro w
    rw [hf.mmap, mem_append, mem_cons, mem_append]
    tauto
  have hlo : (Mm.vmaLink s m v prev place).lo = s.lo := by
    funext w
    rw [lo, vmaLink_vma, lo]
  have hhi : (Mm.vmaLink s m v prev place).hi = s.hi := by
    funext w
    rw [hi, vmaLink_vma, hi]
  refine ⟨?_, ?_, ?_, ?_, ?_, ?_⟩
  · rw [hmmap, hlo, hhi]
    exact (hf.mmap ▸ h.ordered).insert hlt hf.before hf.after
  · intro w hw
    rw [hmmap, hmem] at hw
    rw [hhi]
    rcases hw with rfl | hw
    · exact hb
    · exact h.bounded w hw
  · rw [hmmap, vmaLink_mm, update_self, RbTree.toList_insertAt]
  · intro w hw
    rw [hmmap, hmem] at hw
    rw [vmaLink_vma]
    rcases hw with rfl | hw
    · exact hm
    · exact h.owned w hw
  · intro w hw
    rw [hmmap, hmem] at hw
    rw [vmaLink_nextVma]
    rcases hw with rfl | hw
    · exact hn
    · exact h.allocated w hw
  · intro t ht i w hw
    rw [vmaLink_task] at ht hw
    obtain ⟨hle, hmm⟩ := h.cache t ht i w hw
    rw [vmaLink_task, hmmap, vmaLink_mm, update_self]
    exact ⟨hle, fun hs => (hmem w).2 (.inr (hmm hs))⟩

/-- An address space without VMAs. -/
theorem Coherent.of_empty (hmmap : (s.mm m).mmap = []) (hrb : (s.mm m).mmRb = .nil)
    (hcache : CacheValid s m) : Coherent s m := by
  refine ⟨?_, ?_, by rw [hrb, hmmap]; rfl, ?_, ?_, hcache⟩ <;> rw [hmmap]
  · exact .nil
  · simp
  · simp
  · simp

/-- Coherence of a machine with one address space. -/
theorem Coherent.single {areas : List VmArea} {rb : RbTree VmaId}
    (ho : Ordered (single areas rb).lo (single areas rb).hi
      (List.range areas.length))
    (hb : ∀ v ∈ List.range areas.length, (single areas rb).hi v ≤ taskSize)
    (hrb : rb.toList = List.range areas.length)
    (hm : ∀ v ∈ List.range areas.length, ((VmState.single areas rb).vma v).vmMm = 0) :
    Coherent (VmState.single areas rb) 0 := by
  refine ⟨ho, hb, hrb, hm, fun v hv => mem_range.1 hv, fun t _ i v hv => ?_⟩
  have hnone : ((VmState.single areas rb).task t).vmas i = none := by
    by_cases ht : t = 0
    · subst ht
      rfl
    · simp [VmState.single, update_of_ne ht]
  simp [hnone] at hv

end MinimalKernel.Mm
