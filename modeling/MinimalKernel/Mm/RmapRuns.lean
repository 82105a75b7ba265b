import MinimalKernel.Lib.Run
import MinimalKernel.Mm.Rmap

/-!
# Runs of the reverse map

Page faults, splits, forks and teardowns over any number of address spaces.

`dup_mmap` copies the `anon_vma` pointer of a VMA to the child and nothing else: it calls neither
`anon_vma_fork` nor `anon_vma_clone`. The child is then neither counted nor linked, and its pointer
dangles as soon as the parent is torn down. In the runs in which no fork copies a VMA that has an
`anon_vma`, the pointers and the counts are right.

## Main definitions

* `RmapOp`, `RmapStep`, `RmapStart` — the operations, their steps, and where a run begins
* `RmapState.CopiesNoAnonVma`, `RmapOp.Harmless` — the forks that do no harm

## Main results

* `anon_vma_degrees_of_run` — pointers and counts along every run of harmless operations
* `fork_dangling_anon_vma` — a fault, a fork and the exit of the parent
-/

namespace MinimalKernel.Mm

open Function Lib List Option RmapState VmState

namespace RmapState

variable {s t : RmapState} {v w : VmaId} {a b : AnonVmaId} {m : MmId} {vm : VmState} {x : VmArea}
  (vs : List VmaId)

/-! ### Tearing down -/

theorem foldl_unlinkAnonVmas_vma (s : RmapState) (w : VmaId) :
    (vs.foldl unlinkAnonVmas s).vm.vma w =
      if w ∈ vs then { s.vm.vma w with anonVma := none, anonVmaChain := [] }
      else s.vm.vma w := by
  induction vs generalizing s with
  | nil => rfl
  | cons v vs ih =>
    have hu := unlinkAnonVmas_unlinked s v
    rw [foldl_cons, ih]
    by_cases hwv : w = v
    · subst hwv
      simp [hu.vma_self]
    · simp [hu.vma_of_ne hwv, hwv]

theorem foldl_unlinkAnonVmas_frame (s : RmapState) : (vs.foldl unlinkAnonVmas s).areas = s.areas ∧
      (vs.foldl unlinkAnonVmas s).vm.mm = s.vm.mm ∧
      (vs.foldl unlinkAnonVmas s).vm.nextVma = s.vm.nextVma := by
  induction vs generalizing s with
  | nil => exact ⟨rfl, rfl, rfl⟩
  | cons v vs ih =>
    have hu := unlinkAnonVmas_unlinked s v
    obtain ⟨hareas, hmm, hnext⟩ := ih (s.unlinkAnonVmas v)
    exact ⟨hareas.trans hu.areas, hmm.trans (by rw [hu.vm]; rfl), hnext.trans (by rw [hu.vm]; rfl)⟩

theorem Anchored.foldl_unlinkAnonVmas {vs : List VmaId} (h : s.Anchored) (hn : s.NoOrphan)
    (hvs : ∀ v ∈ vs, v ∈ s.areas) :
    (vs.foldl RmapState.unlinkAnonVmas s).Anchored ∧
      (vs.foldl RmapState.unlinkAnonVmas s).NoOrphan := by
  induction vs generalizing s with
  | nil => exact ⟨h, hn⟩
  | cons v vs ih =>
    obtain ⟨h', hn'⟩ := h.unlinkAnonVmas hn (hvs v (by simp))
    refine ih h' hn' fun w hw => ?_
    rw [(unlinkAnonVmas_unlinked s v).areas]
    exact hvs w (by simp [hw])

theorem foldl_vmAreaFree (s : RmapState) :
    vs.foldl vmAreaFree s = { s with areas := s.areas \ vs.toFinset } := by
  induction vs generalizing s with
  | nil => simp
  | cons v vs ih =>
    rw [foldl_cons, ih, vmAreaFree]
    congr 1
    ext w
    simp [and_assoc, and_left_comm]

/-- Freeing VMAs that point nowhere. -/
theorem Anchored.free {gone : Finset VmaId} (h : s.Anchored)
    (hgone : ∀ v ∈ gone, (s.vm.vma v).anonVma = none) :
    { s with areas := s.areas \ gone }.Anchored where
  chain v hv := h.chain v (Finset.mem_sdiff.1 hv).1
  live v hv := h.live v (Finset.mem_sdiff.1 hv).1
  freed_lt := h.freed_lt
  rooted a ha := by
    refine (h.rooted a ha).congr rfl fun v => ?_
    rw [Finset.mem_sdiff, and_assoc]
    refine and_congr_right fun _ => and_iff_right_of_imp fun hv hmem => ?_
    rw [hgone v hmem] at hv
    cases hv

theorem setMm_mm (x : MmStruct) (m' : MmId) :
    (s.vm.setMm m x).mm m' = if m' = m then x else s.vm.mm m' :=
  update_apply ..

/-- VMAs leave the list of an address space. -/
theorem RmapOk.setMm {x : MmStruct} (h : s.RmapOk) (hx : x.mmap.Sublist (s.vm.mm m).mmap) :
    { s with vm := s.vm.setMm m x }.RmapOk := by
  have hsame : SameLinks s { s with vm := s.vm.setMm m x } :=
    .of_vm (fun _ _ => ⟨rfl, rfl⟩) rfl
  have hsub : ∀ m', ((s.vm.setMm m x).mm m').mmap.Sublist (s.vm.mm m').mmap := by
    intro m'
    rw [setMm_mm]
    split_ifs with hm
    · exact hm ▸ hx
    · exact .refl _
  refine ⟨⟨fun m' => (hsub m').nodup (h.mapped.nodup m'), fun m' v hv => ?_,
    h.mapped.allocated⟩, hsame.anchored h.anchored, hsame.noOrphan h.noOrphan⟩
  exact h.mapped.exist m' v ((hsub m').subset hv)

theorem freePgtables_vma (s : RmapState) (w : VmaId) : (s.freePgtables vs).vm.vma w =
      if w ∈ vs then { s.vm.vma w with anonVma := none, anonVmaChain := [] }
      else s.vm.vma w := by
  rw [← foldl_unlinkAnonVmas_vma, freePgtables]
  dsimp only
  rw [unlinkFileVmas_vma]

theorem freePgtables_mm (s : RmapState) : (s.freePgtables vs).vm.mm = s.vm.mm := by
  rw [← (foldl_unlinkAnonVmas_frame vs s).2.1, freePgtables]
  dsimp only
  rw [unlinkFileVmas_mm]

section

variable (h : s.RmapOk)
include h

theorem RmapOk.freePgtables {vs : List VmaId} (hvs : ∀ v ∈ vs, v ∈ s.areas) :
    (s.freePgtables vs).RmapOk := by
  obtain ⟨hareas, -, hnext⟩ := foldl_unlinkAnonVmas_frame vs s
  obtain ⟨hanch, horph⟩ := h.anchored.foldl_unlinkAnonVmas h.noOrphan hvs
  obtain ⟨imap, corrupt, himap⟩ :=
    unlinkFileVmas_eq (vs.foldl RmapState.unlinkAnonVmas s).vm vs
  have hsame : SameLinks (vs.foldl RmapState.unlinkAnonVmas s) (s.freePgtables vs) :=
    .of_vm (fun _ _ => by rw [himap]; exact ⟨rfl, rfl⟩) (by rw [himap])
  have hareas' : (s.freePgtables vs).areas = s.areas := hareas
  have hnext' : (s.freePgtables vs).vm.nextVma = s.vm.nextVma := by
    rw [RmapState.freePgtables, himap]
    exact hnext
  refine ⟨⟨fun m => ?_, fun m v hv => ?_, fun v hv => ?_⟩, hsame.anchored hanch,
    hsame.noOrphan horph⟩
  · rw [freePgtables_mm]
    exact h.mapped.nodup m
  · rw [freePgtables_mm] at hv
    rw [hareas', freePgtables_vma]
    refine ⟨(h.mapped.exist m v hv).1, ?_⟩
    split <;> exact (h.mapped.exist m v hv).2
  · rw [hnext']
    exact h.mapped.allocated v (hareas' ▸ hv)

/-- VMAs that point nowhere and are in no list are freed. -/
theorem RmapOk.free {gone : List VmaId} (hnone : ∀ v ∈ gone, (s.vm.vma v).anonVma = none)
    (hlists : ∀ m, ∀ v ∈ gone, v ∉ (s.vm.mm m).mmap) : (gone.foldl vmAreaFree s).RmapOk := by
  rw [foldl_vmAreaFree]
  refine ⟨⟨h.mapped.nodup, fun m v hv => ?_, fun v hv => ?_⟩,
    h.anchored.free fun v hv => hnone v (mem_toFinset.1 hv), h.noOrphan⟩
  · obtain ⟨hareas, hm⟩ := h.mapped.exist m v hv
    refine ⟨Finset.mem_sdiff.2 ⟨hareas, fun hgone => ?_⟩, hm⟩
    exact hlists m v (mem_toFinset.1 hgone) hv
  · exact h.mapped.allocated v (Finset.mem_sdiff.1 hv).1

/-- **`exit_mmap` keeps the invariant.** -/
theorem RmapOk.exitMmap (m : MmId) : (s.exitMmap m).RmapOk := by
  have hfree := h.freePgtables fun v hv => (h.mapped.exist m v hv).1
  have hempty := hfree.setMm (m := m)
    (x := { (s.freePgtables (s.vm.mm m).mmap).vm.mm m with mmap := [] }) (nil_sublist _)
  refine hempty.free (fun v hv => ?_) fun m' v hv => ?_
  · change ((s.freePgtables (s.vm.mm m).mmap).vm.vma v).anonVma = none
    rw [freePgtables_vma, if_pos hv]
  · dsimp only
    rw [setMm_mm]
    split_ifs with hm
    · exact not_mem_nil
    · rw [freePgtables_mm]
      intro hv'
      exact hm ((h.mapped.exist m' v hv').2.symm.trans (h.mapped.exist m v hv).2)

theorem RmapOk.mmput (m : MmId) : (s.mmput m).RmapOk := by
  have husers := h.setMm (m := m)
    (x := { s.vm.mm m with mmUsers := (s.vm.mm m).mmUsers - 1 }) (.refl _)
  unfold RmapState.mmput
  dsimp only
  split
  · exact husers.exitMmap m
  · exact husers

end

/-- The place of `prev` in a list without repetitions. -/
theorem exists_kept {prev : Option VmaId} (hnodup : (vm.mm m).mmap.Nodup)
    (hprev : ∀ p ∈ prev, p ∈ (vm.mm m).mmap) (hv : vmaNext vm m prev = some v) :
    ∃ kept rest, kept.getLast? = prev ∧ (vm.mm m).mmap = kept ++ v :: rest := by
  rcases prev with _ | p
  · obtain ⟨rest, hrest⟩ := head?_eq_some_iff.1 hv
    exact ⟨[], rest, rfl, hrest⟩
  · obtain ⟨l₁, l₂, hl⟩ := append_of_mem (hprev p rfl)
    have hp : p ∉ l₁ := by
      rw [hl] at hnodup
      exact fun hmem => (nodup_append.1 hnodup).2.2 p hmem p (by simp) rfl
    rw [vmaNext, hl, nextOf_append_cons hp] at hv
    obtain ⟨rest, rfl⟩ := head?_eq_some_iff.1 hv
    exact ⟨l₁ ++ [p], rest, by simp, by simp [hl]⟩

/-- **Unmapping keeps the invariant.** -/
theorem RmapOk.unmapRegion {prev : Option VmaId} (h : s.RmapOk) (m : MmId)
    (hprev : ∀ p ∈ prev, p ∈ (s.vm.mm m).mmap) (endAddr : ℕ) :
    (s.unmapRegion m prev endAddr).RmapOk := by
  unfold RmapState.unmapRegion
  split
  · exact h
  rename_i v hv
  obtain ⟨kept, rest, rfl, hmmap⟩ := exists_kept (h.mapped.nodup m) hprev hv
  obtain ⟨ok, hd⟩ := detachVmasToBeUnmapped_eq (h.mapped.nodup m) hmmap endAddr
  rw [hd]
  dsimp only
  generalize hgone : (v :: rest.takeWhile fun w => s.vm.lo w < endAddr) = gone
  generalize hleft : (rest.dropWhile fun w => s.vm.lo w < endAddr) = left
  have hsplit : (s.vm.mm m).mmap = kept ++ (gone ++ left) := by
    rw [hmmap, ← hgone, ← hleft, cons_append, takeWhile_append_dropWhile]
  have hin : ∀ w ∈ gone, w ∈ (s.vm.mm m).mmap := fun w hw => by
    rw [hsplit]
    simp [hw]
  have hdet : { s with vm := detached s.vm m kept gone left }.RmapOk := by
    refine h.setMm ?_
    rw [hsplit]
    exact (List.Sublist.refl kept).append (sublist_append_right gone left)
  have hfree := hdet.freePgtables fun w hw => (h.mapped.exist m w (hin w hw)).1
  refine hfree.free (fun w hw => ?_) fun m' w hw => ?_
  · rw [freePgtables_vma, if_pos hw]
  · rw [freePgtables_mm]
    intro hw'
    dsimp only [detached] at hw'
    rw [setMm_mm] at hw'
    by_cases hm : m' = m
    · rw [if_pos hm] at hw'
      have hnodup := h.mapped.nodup m
      rw [hsplit] at hnodup
      obtain ⟨-, hnodup', hdisj⟩ := nodup_append.1 hnodup
      rcases mem_append.1 hw' with hk | hl
      · exact hdisj w hk w (by simp [hw]) rfl
      · exact (nodup_append.1 hnodup').2.2 w hw w hl rfl
    · rw [if_neg hm] at hw'
      exact hm ((h.mapped.exist m' w hw').2.symm.trans (h.mapped.exist m w (hin w hw)).2)

/-! ### Page faults -/

/-- Only the slab and the number of address spaces have changed. -/
theorem RmapOk.slab (h : s.RmapOk) (slab : ℕ → Bool) (n : MmId) :
    { s with vm := { s.vm with slab := slab, nextMm := n } }.RmapOk :=
  have hsame : SameLinks s { s with vm := { s.vm with slab := slab, nextMm := n } } :=
    .of_vm (fun _ _ => ⟨rfl, rfl⟩) rfl
  ⟨{ h.mapped with }, hsame.anchored h.anchored, hsame.noOrphan h.noOrphan⟩

theorem reusableAnonVma_eq_some {old y : VmArea} (h : reusableAnonVma old x y = some a) :
    old.anonVma = some a := by
  unfold reusableAnonVma at h
  split at h
  · exact h
  · cases h

/-- What `find_mergeable_anon_vma` finds belongs to a neighbour. -/
theorem Mapped.live_of_findMergeableAnonVma (h : s.Mapped) (hl : s.PointersLive)
    (hfind : findMergeableAnonVma s.vm v = some a) : s.Live a := by
  rcases or_eq_some_iff.1 hfind with hnext | ⟨-, hprev⟩
  · obtain ⟨n, hn, hreuse⟩ := bind_eq_some_iff.1 hnext
    exact hl n (h.exist _ n (mem_of_nextOf hn)).1 a (reusableAnonVma_eq_some hreuse)
  · obtain ⟨p, hp, hreuse⟩ := bind_eq_some_iff.1 hprev
    exact hl p (h.exist _ p (mem_of_prevOf hp)).1 a (reusableAnonVma_eq_some hreuse)

theorem Mapped.attach (h : s.Mapped) (v : VmaId) (a : AnonVmaId) : (s.attach v a).Mapped := by
  refine ⟨h.nodup, fun m w hw => ⟨(h.exist m w hw).1, ?_⟩, h.allocated⟩
  rw [attach_vma]
  by_cases hwv : w = v
  · subst hwv
    rw [update_self]
    exact (h.exist m w hw).2
  · rw [update_of_ne hwv]
    exact (h.exist m w hw).2

theorem RmapOk.attach (h : s.RmapOk) (hv : v ∈ s.areas) (hnone : (s.vm.vma v).anonVma = none)
    (ha : s.Live a) : (s.attach v a).RmapOk :=
  ⟨h.mapped.attach v a, h.anchored.attach hv hnone ha, attach_noOrphan fun b _ => h.noOrphan b⟩

theorem Anchored.newAnonVma (h : s.Anchored) : s.newAnonVma.Anchored where
  chain := h.chain
  live v hv a ha := ⟨Nat.lt_succ_of_lt (h.live v hv a ha).1, (h.live v hv a ha).2⟩
  freed_lt a ha := Nat.lt_succ_of_lt (h.freed_lt a ha)
  rooted a ha := by
    by_cases hnew : a = s.vm.nextAnonVma
    · subst hnew
      have hunused : ∀ v ∈ s.areas, (s.vm.vma v).anonVma ≠ some s.vm.nextAnonVma :=
        fun v hv ha => (h.live v hv _ ha).1.ne rfl
      have hanon : s.newAnonVma.anon s.vm.nextAnonVma = anonVmaInit s.vm.nextAnonVma :=
        update_self ..
      refine ⟨?_, ?_, ?_, ?_, fun v => ?_, ?_⟩ <;> rw [hanon] <;> try rfl
      · exact nodup_nil
      · exact ⟨fun hv => absurd hv not_mem_nil, fun hv => absurd hv.2 (hunused v hv.1)⟩
    · have hlt : a < s.vm.nextAnonVma :=
        lt_of_le_of_ne (Nat.le_of_lt_succ ha.1) hnew
      exact (h.rooted a ⟨hlt, ha.2⟩).congr (update_of_ne hnew ..) fun _ => .rfl

theorem RmapOk.attach_new (h : s.RmapOk) (hv : v ∈ s.areas) (hnone : (s.vm.vma v).anonVma = none) :
    (s.newAnonVma.attach v s.vm.nextAnonVma).RmapOk := by
  have hlive : s.newAnonVma.Live s.vm.nextAnonVma :=
    ⟨Nat.lt_succ_self _, fun hmem => (h.anchored.freed_lt _ hmem).ne rfl⟩
  have hmapped : s.newAnonVma.Mapped := { h.mapped with }
  refine ⟨hmapped.attach v _, h.anchored.newAnonVma.attach hv hnone hlive,
    attach_noOrphan fun b hb hlive => ?_⟩
  have hanon : s.newAnonVma.anon b = s.anon b := update_of_ne hb ..
  rw [hanon]
  exact h.noOrphan b ⟨lt_of_le_of_ne (Nat.le_of_lt_succ hlive.1) hb, hlive.2⟩

/-- **`anon_vma_prepare` keeps the invariant.** -/
theorem RmapOk.anonVmaPrepare (h : s.RmapOk) (hv : v ∈ s.areas) :
    (s.anonVmaPrepare v).2.RmapOk := by
  unfold RmapState.anonVmaPrepare kmemCacheAlloc
  split_ifs with hsome
  · exact h
  have hnone : (s.vm.vma v).anonVma = none := not_isSome_iff_eq_none.1 hsome
  rcases s.vm.slab 0 with _ | _
  · exact h.slab _ _
  dsimp only
  split
  · rename_i a hfind
    have h₁ := h.slab (fun n => s.vm.slab (n + 1)) s.vm.nextMm
    exact h₁.attach hv hnone (h₁.mapped.live_of_findMergeableAnonVma h₁.anchored.live hfind)
  · rcases s.vm.slab (0 + 1) with _ | _
    · exact h.slab _ _
    · exact (h.slab (fun n => s.vm.slab (n + 1 + 1)) s.vm.nextMm).attach_new hv hnone

/-! ### Splitting -/

theorem anonVmaChainAlloc_eq (vm : VmState) :
    ∃ ok slab, anonVmaChainAlloc vm = (ok, { vm with slab := slab }) := by
  unfold anonVmaChainAlloc kmemCacheAlloc
  rcases vm.slab 0 with _ | _ <;> exact ⟨_, _, rfl⟩

/-- `anon_vma_clone` for a VMA that has no `anon_vma`. -/
theorem anonVmaClone_nil {dst src : VmaId} (hnone : (s.vm.vma dst).anonVma = none) :
    anonVmaClone dst src [] s = (.ok (), s) := by
  rw [anonVmaClone, hnone]
  rfl

theorem setLinks_setLinks (s : RmapState) (v : VmaId) (x y : Option AnonVmaId)
    (as bs : List AnonVmaId) : (s.setLinks v x as).setLinks v y bs = s.setLinks v y bs := by
  simp [setLinks, setVma]

/-- `anon_vma_clone` for a copy that points to the only object of the original: either no link can
be allocated, or the copy is attached. -/
theorem anonVmaClone_singleton {dst : VmaId} (src : VmaId)
    (hdst : (s.vm.vma dst).anonVma = some a) (hchain : (s.vm.vma dst).anonVmaChain = []) :
    ∃ slab, anonVmaClone dst src [a] s =
        (.error .ENOMEM, { s with vm := { s.vm with slab := slab } }.setLinks dst none []) ∨
      anonVmaClone dst src [a] s =
        (.ok (),
          ({ s with vm := { s.vm with slab := slab } }.setLinks dst none []).attach dst a) := by
  obtain ⟨ok, slab, halloc⟩ := anonVmaChainAlloc_eq s.vm
  refine ⟨slab, ?_⟩
  rw [anonVmaClone, halloc]
  rcases ok with _ | _
  · left
    dsimp only
    rw [hchain, unlinkAnonVmas_none (by simp [setLinks, setVma])
      (by simp [setLinks, setVma]), setLinks_setLinks]
  · right
    simp [anonVmaClone, hdst, hchain, anonVmaChainLink, attach, setLinks,
      setAnon, addDegree, setVma]

/-- The state with a new VMA object, which is in no list yet. -/
def addArea (s : RmapState) (x : VmArea) (slab : ℕ → Bool) : RmapState :=
  { s with
    vm := { s.vm.setVma s.vm.nextVma x with nextVma := s.vm.nextVma + 1, slab := slab }
    areas := insert s.vm.nextVma s.areas }

theorem addArea_vma_of_lt (x : VmArea) (slab : ℕ → Bool) (hv : v < s.vm.nextVma) :
    (s.addArea x slab).vm.vma v = s.vm.vma v :=
  update_of_ne hv.ne ..

theorem addArea_setLinks (x : VmArea) (slab slab' : ℕ → Bool) (y : Option AnonVmaId)
    (as : List AnonVmaId) :
    { s.addArea x slab with
      vm := { (s.addArea x slab).vm with slab := slab' } }.setLinks s.vm.nextVma y as =
    s.addArea { x with anonVma := y, anonVmaChain := as } slab' := by
  simp [addArea, setLinks, setVma]

section

variable (h : s.RmapOk)
include h

/-- A new VMA without links. -/
theorem RmapOk.addArea (hnone : x.anonVma = none) (hchain : x.anonVmaChain = [])
    (slab : ℕ → Bool) : (s.addArea x slab).RmapOk := by
  have hself : (s.addArea x slab).vm.vma s.vm.nextVma = x := update_self ..
  have hold := fun w hw => addArea_vma_of_lt (s := s) x slab (h.mapped.allocated w hw)
  have hsame : SameLinks s (s.addArea x slab) := by
    refine ⟨Finset.subset_insert _ _, fun w hw hw' => ?_, fun w hw => by rw [hold w hw],
      fun w hw => by rw [hold w hw], rfl, rfl, rfl⟩
    obtain rfl := (Finset.mem_insert.1 hw).resolve_right hw'
    rw [hself]
    exact ⟨hnone, hchain⟩
  refine ⟨⟨h.mapped.nodup, fun m w hw => ?_, fun w hw => ?_⟩, hsame.anchored h.anchored,
    hsame.noOrphan h.noOrphan⟩
  · obtain ⟨hw', hm⟩ := h.mapped.exist m w hw
    rw [hold w hw']
    exact ⟨Finset.mem_insert_of_mem hw', hm⟩
  · rcases Finset.mem_insert.1 hw with rfl | hw
    · exact Nat.lt_succ_self _
    · exact Nat.lt_succ_of_lt (h.mapped.allocated w hw)

/-- Changing the bounds of a VMA. -/
theorem RmapOk.vmaAdjust (v : VmaId) (start endAddr pgoff : ℕ) :
    { s with vm := Mm.vmaAdjust s.vm v start endAddr pgoff }.RmapOk := by
  have hvma : ∀ w, ((Mm.vmaAdjust s.vm v start endAddr pgoff).vma w).anonVma
        = (s.vm.vma w).anonVma ∧
      ((Mm.vmaAdjust s.vm v start endAddr pgoff).vma w).anonVmaChain
        = (s.vm.vma w).anonVmaChain ∧
      ((Mm.vmaAdjust s.vm v start endAddr pgoff).vma w).vmMm = (s.vm.vma w).vmMm := by
    intro w
    by_cases hwv : w = v
    · subst hwv
      simp [Mm.vmaAdjust, setVma]
    · simp [Mm.vmaAdjust, setVma, hwv]
  have hsame : SameLinks s { s with vm := Mm.vmaAdjust s.vm v start endAddr pgoff } :=
    .of_vm (fun w _ => ⟨(hvma w).1, (hvma w).2.1⟩) rfl
  refine ⟨⟨h.mapped.nodup, fun m w hw => ?_, h.mapped.allocated⟩, hsame.anchored h.anchored,
    hsame.noOrphan h.noOrphan⟩
  obtain ⟨hw', hm⟩ := h.mapped.exist m w hw
  exact ⟨hw', (hvma w).2.2.trans hm⟩

/-- A copy of `v` goes through `anon_vma_clone`; it is freed if that fails. -/
theorem RmapOk.clone (hv : v ∈ s.areas) (hx : x.anonVma = (s.vm.vma v).anonVma)
    (hchain : x.anonVmaChain = []) (slab : ℕ → Bool) :
    ∃ t, t.RmapOk ∧
      (anonVmaClone s.vm.nextVma v (s.vm.vma v).anonVmaChain.reverse (s.addArea x slab)
          = (.ok (), t) ∨
        ∃ u, anonVmaClone s.vm.nextVma v (s.vm.vma v).anonVmaChain.reverse (s.addArea x slab)
          = (.error .ENOMEM, u) ∧ u.vmAreaFree s.vm.nextVma = t) := by
  have hself : (s.addArea x slab).vm.vma s.vm.nextVma = x := update_self ..
  rcases ha : (s.vm.vma v).anonVma with _ | a
  · rw [ha] at hx
    refine ⟨_, h.addArea hx hchain slab, .inl ?_⟩
    rw [h.anchored.chain v hv, ha]
    exact anonVmaClone_nil (by rw [hself, hx])
  rw [ha] at hx
  rw [h.anchored.chain v hv, ha]
  obtain ⟨slab', hclone⟩ := anonVmaClone_singleton (s := s.addArea x slab) (a := a) v
    (by rw [hself, hx]) (by rw [hself, hchain])
  rw [addArea_setLinks] at hclone
  have hbase : (s.addArea { x with anonVma := none, anonVmaChain := [] } slab').RmapOk :=
    h.addArea rfl rfl slab'
  rcases hclone with hfail | hok
  · refine ⟨_, ?_, .inr ⟨_, hfail, rfl⟩⟩
    change ([s.vm.nextVma].foldl vmAreaFree _).RmapOk
    refine hbase.free (fun w hw => ?_) fun m w hw hw' => ?_
    · rw [mem_singleton.1 hw, RmapState.addArea]
      simp [setVma]
    · rw [mem_singleton.1 hw] at hw'
      exact (h.mapped.allocated _ (h.mapped.exist m _ hw').1).ne rfl
  · refine ⟨_, ?_, .inl hok⟩
    refine hbase.attach (Finset.mem_insert_self _ _) ?_ (h.anchored.live v hv a ha)
    simp [RmapState.addArea, setVma]

/-- **`__split_vma` keeps the invariant.** -/
theorem RmapOk.splitVma (hv : v ∈ s.areas) (addr : ℕ) (newBelow : Bool) :
    (s.splitVma v addr newBelow).2.RmapOk := by
  unfold RmapState.splitVma vmAreaDup newVma kmemCacheAlloc
  split
  · exact h
  rcases s.vm.slab 0 with _ | _
  · exact h.slab _ _
  have hne : v ≠ s.vm.nextVma := (h.mapped.allocated v hv).ne
  simp only [setVma, update_self, update_of_ne hne, update_idem]
  generalize hx : (if newBelow = true then _ else _ : VmArea) = x
  have hlinks : x.anonVma = (s.vm.vma v).anonVma ∧ x.anonVmaChain = [] := by
    rw [← hx]
    split <;> exact ⟨rfl, rfl⟩
  obtain ⟨t, ht, hok | ⟨u, hfail, rfl⟩⟩ :=
    h.clone hv hlinks.1 hlinks.2 fun n => s.vm.slab (n + 1)
  · simp only [RmapState.addArea, setVma] at hok
    rw [hok]
    dsimp only
    split <;> exact ht.vmaAdjust ..
  · simp only [RmapState.addArea, setVma] at hfail
    rw [hfail]
    exact ht

end

/-! ### Forking -/

/-- What the loop of `dup_mmap` over `rest` does: the objects that the slab hands out become copies
of VMAs of `rest`, at the end of the list of `m`. -/
structure DupFrame (m : MmId) (rest : List VmaId) (vm vm' : VmState) : Prop where
  nextVma : vm.nextVma ≤ vm'.nextVma
  nextAnonVma : vm'.nextAnonVma = vm.nextAnonVma
  vma : ∀ v < vm.nextVma, vm'.vma v = vm.vma v
  copies : ∀ v, vm.nextVma ≤ v → v < vm'.nextVma → (vm'.vma v).vmMm = m ∧
    (vm'.vma v).anonVmaChain = [] ∧
    ∃ r ∈ rest, (vm.vma r).copied ∧ (vm'.vma v).anonVma = (vm.vma r).anonVma
  mmap : (vm'.mm m).mmap
    = (vm.mm m).mmap ++ range' vm.nextVma (vm'.nextVma - vm.nextVma)
  mm : ∀ m' ≠ m, vm'.mm m' = vm.mm m'

/-- One more turn before the others. -/
theorem DupFrame.cons {vm₁ vm' : VmState} {r : VmaId} {rest : List VmaId}
    (h : DupFrame m rest vm₁ vm') (hrest : ∀ w ∈ rest, w < vm.nextVma) (hr : (vm.vma r).copied)
    (hnext : vm₁.nextVma = vm.nextVma + 1) (hanon : vm₁.nextAnonVma = vm.nextAnonVma)
    (hvma : vm₁.vma = update vm.vma vm.nextVma ((vm.vma r).child m))
    (hmmap : (vm₁.mm m).mmap = (vm.mm m).mmap ++ [vm.nextVma])
    (hmm : ∀ m' ≠ m, vm₁.mm m' = vm.mm m') : DupFrame m (r :: rest) vm vm' := by
  have hlt : vm.nextVma < vm'.nextVma := Nat.lt_of_succ_le (hnext.symm.trans_le h.nextVma)
  have hold : ∀ v < vm.nextVma, vm₁.vma v = vm.vma v := fun v hv => by
    rw [hvma, update_of_ne hv.ne]
  refine ⟨hlt.le, h.nextAnonVma.trans hanon, fun v hv => ?_, fun v hv hv' => ?_, ?_,
    fun m' hm' => (h.mm m' hm').trans (hmm m' hm')⟩
  · rw [h.vma v (hnext ▸ Nat.lt_succ_of_lt hv), hold v hv]
  · rcases hv.eq_or_lt with rfl | hv
    · rw [h.vma _ (hnext ▸ Nat.lt_succ_self _), hvma, update_self]
      exact ⟨rfl, rfl, r, by simp, hr, rfl⟩
    · obtain ⟨hm, hchain, w, hw, hcopied, ha⟩ := h.copies v (hnext ▸ Nat.succ_le_of_lt hv) hv'
      rw [hold w (hrest w hw)] at hcopied ha
      exact ⟨hm, hchain, w, by simp [hw], hcopied, ha⟩
  · have hlen : vm'.nextVma - vm.nextVma = vm'.nextVma - vm₁.nextVma + 1 := by
      rw [hnext]
      exact (Nat.sub_add_cancel (Nat.sub_pos_of_lt hlt)).symm
    rw [h.mmap, hmmap, hlen, range'_succ, hnext, append_assoc, singleton_append]

theorem dupMmapLoop_frame (rest : List VmaId) (hrest : ∀ r ∈ rest, r < vm.nextVma) :
    DupFrame m rest vm (dupMmapLoop rest vm m).2 := by
  induction rest generalizing vm with
  | nil =>
    exact ⟨le_rfl, rfl, fun _ _ => rfl, fun v h h' => absurd h' (not_lt.2 h), by
      simp [dupMmapLoop], fun _ _ => rfl⟩
  | cons r rest ih =>
    have hrest' : ∀ w ∈ rest, w < vm.nextVma := fun w hw => hrest w (by simp [hw])
    unfold dupMmapLoop vmAreaDup newVma kmemCacheAlloc
    split_ifs with hr
    · rcases vm.slab 0 with _ | _
      · exact ⟨le_rfl, rfl, fun _ _ => rfl, fun v h h' => absurd h' (not_lt.2 h), by simp,
          fun _ _ => rfl⟩
      · refine (ih fun w hw => ?_).cons hrest' hr rfl rfl ?_ ?_ fun m' hm' => ?_
        · exact Nat.lt_succ_of_lt (hrest' w hw)
        · simp [setVma, VmArea.child]
        · simp [dupLink, vmaLinkRb, setMm, setVma]
        · simp [dupLink, vmaLinkRb, setMm, setVma, hm']
    · have h := ih hrest'
      refine ⟨h.nextVma, h.nextAnonVma, h.vma, fun v hv hv' => ?_, h.mmap, h.mm⟩
      obtain ⟨hm, hchain, w, hw, hcopied⟩ := h.copies v hv hv'
      exact ⟨hm, hchain, w, by simp [hw], hcopied⟩

/-- The copies that a fork makes have no `anon_vma`. -/
def CopiesNoAnonVma (s : RmapState) (oldmm : MmId) : Prop :=
  ∀ v ∈ (s.vm.mm oldmm).mmap, (s.vm.vma v).copied → (s.vm.vma v).anonVma = none

/-- **`dup_mmap` keeps the invariant** if it copies no VMA that has an `anon_vma`. -/
theorem RmapOk.dupMmap {oldmm : MmId} (h : s.RmapOk) (hempty : (s.vm.mm m).mmap = [])
    (hfork : s.CopiesNoAnonVma oldmm) : (s.dupMmap m oldmm).2.RmapOk := by
  have hd : DupFrame m (s.vm.mm oldmm).mmap s.vm (Mm.dupMmap s.vm m oldmm).2 :=
    dupMmapLoop_frame _ fun r hr => h.mapped.allocated r (h.mapped.exist oldmm r hr).1
  have hareas : (s.dupMmap m oldmm).2.areas
      = s.areas ∪ Finset.Ico s.vm.nextVma (Mm.dupMmap s.vm m oldmm).2.nextVma := rfl
  have hvm : (s.dupMmap m oldmm).2.vm = (Mm.dupMmap s.vm m oldmm).2 := rfl
  have hold : ∀ v ∈ s.areas, (s.dupMmap m oldmm).2.vm.vma v = s.vm.vma v := fun v hv =>
    hd.vma v (h.mapped.allocated v hv)
  have hsame : SameLinks s (s.dupMmap m oldmm).2 := by
    refine ⟨hareas ▸ Finset.subset_union_left, fun v hv hv' => ?_, fun v hv => by rw [hold v hv],
      fun v hv => by rw [hold v hv], hd.nextAnonVma, rfl, rfl⟩
    rw [hareas] at hv
    obtain ⟨hge, hlt⟩ := Finset.mem_Ico.1 ((Finset.mem_union.1 hv).resolve_left hv')
    obtain ⟨-, hchain, r, hr, hcopied, ha⟩ := hd.copies v hge hlt
    exact ⟨ha.trans (hfork r hr hcopied), hchain⟩
  have hmmap : ((s.dupMmap m oldmm).2.vm.mm m).mmap = range' s.vm.nextVma
      ((Mm.dupMmap s.vm m oldmm).2.nextVma - s.vm.nextVma) := by
    rw [hvm, hd.mmap, hempty, nil_append]
  refine ⟨⟨fun m' => ?_, fun m' v hv => ?_, fun v hv => ?_⟩, hsame.anchored h.anchored,
    hsame.noOrphan h.noOrphan⟩
  · by_cases hm : m' = m
    · rw [hm, hmmap]
      exact nodup_range'
    · rw [hvm, hd.mm m' hm]
      exact h.mapped.nodup m'
  · by_cases hm : m' = m
    · rw [hm, hmmap, mem_range'_1] at hv
      have hlt : v < (Mm.dupMmap s.vm m oldmm).2.nextVma :=
        hv.2.trans_eq (Nat.add_sub_of_le hd.nextVma)
      rw [hm, hareas]
      exact ⟨Finset.mem_union_right _ (Finset.mem_Ico.2 ⟨hv.1, hlt⟩), (hd.copies v hv.1 hlt).1⟩
    · rw [hvm, hd.mm m' hm] at hv
      obtain ⟨hv', hvm'⟩ := h.mapped.exist m' v hv
      rw [hold v hv', hareas]
      exact ⟨Finset.mem_union_left _ hv', hvm'⟩
  · rw [hareas] at hv
    rcases Finset.mem_union.1 hv with hv | hv
    · exact (h.mapped.allocated v hv).trans_le hd.nextVma
    · exact (Finset.mem_Ico.1 hv).2

/-- **`dup_mm` keeps the invariant** if it copies no VMA that has an `anon_vma`. -/
theorem RmapOk.dupMm {oldmm : MmId} (h : s.RmapOk) (hold : oldmm < s.vm.nextMm)
    (hfork : s.CopiesNoAnonVma oldmm) : (s.dupMm oldmm).2.RmapOk := by
  unfold RmapState.dupMm kmemCacheAlloc
  rcases s.vm.slab 0 with _ | _
  · exact h.slab _ _
  dsimp only
  rcases s.vm.slab (0 + 1) with _ | _
  · exact h.slab _ _
  dsimp only
  -- the new address space, whose list is still empty
  have h₂ := (h.setMm (m := s.vm.nextMm) (x := mmInit (s.vm.mm oldmm))
    (nil_sublist _)).slab (fun n => s.vm.slab (n + 1 + 1)) (s.vm.nextMm + 1)
  have hempty : ((s.vm.setMm s.vm.nextMm (mmInit (s.vm.mm oldmm))).mm s.vm.nextMm).mmap = [] := by
    rw [setMm_mm, if_pos rfl]
    rfl
  have hfork₂ : ∀ v ∈ ((s.vm.setMm s.vm.nextMm (mmInit (s.vm.mm oldmm))).mm oldmm).mmap,
      (s.vm.vma v).copied → (s.vm.vma v).anonVma = none := by
    rw [setMm_mm, if_neg hold.ne]
    exact hfork
  have hdup := h₂.dupMmap hempty hfork₂
  -- whether the copy is kept or torn down again
  split
  · next hend =>
    obtain rfl := congrArg Prod.snd hend
    exact RmapOk.mmput hdup _
  · next hend =>
    obtain rfl := congrArg Prod.snd hend
    exact hdup

end RmapState

/-! ### Runs -/

/-- The operations: a page fault or the growth of a stack asks for the `anon_vma` of a VMA, a VMA
is split, an address space is copied, VMAs are unmapped, a user of an address space gives it up. -/
inductive RmapOp
  | prepare (vma : VmaId)
  | split (vma : VmaId) (addr : ℕ) (newBelow : Bool)
  | fork (oldmm : MmId)
  | unmap (m : MmId) (prev : Option VmaId) (endAddr : ℕ)
  | mmput (m : MmId)

namespace RmapOp

/-- Carry out an operation. -/
def exec (s : RmapState) : RmapOp → RmapState
  | prepare vma => (s.anonVmaPrepare vma).2
  | split vma addr newBelow => (s.splitVma vma addr newBelow).2
  | fork oldmm => (s.dupMm oldmm).2
  | unmap m prev endAddr => s.unmapRegion m prev endAddr
  | mmput m => s.mmput m

/-- What the callers guarantee: the VMA is mapped, the address space exists, and the VMA in front
of an unmapped range is in the list. -/
def Contract (s : RmapState) : RmapOp → Prop
  | prepare vma => ∃ m, vma ∈ (s.vm.mm m).mmap
  | split vma _ _ => ∃ m, vma ∈ (s.vm.mm m).mmap
  | fork oldmm => oldmm < s.vm.nextMm
  | unmap m prev _ => ∀ p ∈ prev, p ∈ (s.vm.mm m).mmap
  | mmput _ => True

/-- No fork copies a VMA that has an `anon_vma`. -/
def Harmless (s : RmapState) : RmapOp → Prop
  | fork oldmm => s.CopiesNoAnonVma oldmm
  | _ => True

end RmapOp

/-- The steps of the memory of the kernel. -/
def RmapStep (s : RmapState) (o : RmapOp) (t : RmapState) : Prop := o.Contract s ∧ t = o.exec s

/-- A memory without `anon_vma` objects: the lists hold VMAs that exist, each in the list of its
own address space, and no page has been touched. -/
structure RmapStart (s : RmapState) : Prop where
  mapped : s.Mapped
  untouched : ∀ v ∈ s.areas, (s.vm.vma v).anonVma = none ∧ (s.vm.vma v).anonVmaChain = []
  noAnonVma : s.vm.nextAnonVma = 0
  freed : s.freed = ∅

theorem RmapStart.rmapOk {s : RmapState} (h : RmapStart s) : s.RmapOk := by
  have hlive : ∀ a, ¬ s.Live a := fun a ha => by
    have hlt := ha.1
    rw [h.noAnonVma] at hlt
    exact Nat.not_lt_zero a hlt
  refine ⟨h.mapped, ⟨fun v hv => ?_, fun v hv a ha => ?_, fun a ha => absurd ha (hlive a), ?_⟩,
    fun a ha => absurd ha (hlive a)⟩
  · rw [(h.untouched v hv).1, (h.untouched v hv).2]
    rfl
  · rw [(h.untouched v hv).1] at ha
    cases ha
  · simp [h.freed]

/-- **One step.** -/
theorem RmapState.RmapOk.step {s t : RmapState} {o : RmapOp} (h : s.RmapOk)
    (hstep : guarded (fun s o => o.Harmless s) RmapStep s o t) : t.RmapOk := by
  obtain ⟨hharmless, hcontract, rfl⟩ := hstep
  cases o with
  | prepare v =>
    obtain ⟨m, hv⟩ := hcontract
    exact h.anonVmaPrepare (h.mapped.exist m v hv).1
  | split v addr newBelow =>
    obtain ⟨m, hv⟩ := hcontract
    exact h.splitVma (h.mapped.exist m v hv).1 addr newBelow
  | fork oldmm => exact h.dupMm hcontract hharmless
  | unmap m prev endAddr => exact h.unmapRegion m hcontract endAddr
  | mmput m => exact h.mmput m

/-- **Pointers and counts.** In every run that starts without `anon_vma` objects and in which no
fork copies a VMA that has one, no VMA points to a freed object, and the degree of an object is the
number of the VMAs that point to it and of its children. -/
theorem anon_vma_degrees_of_run {s t : RmapState} {os : List RmapOp} (hs : RmapStart s)
    (h : Run (guarded (fun s o => o.Harmless s) RmapStep) s os t) :
    t.PointersLive ∧ t.DegreesExact := by
  have hok : t.RmapOk := h.invariant (fun _ _ _ => RmapState.RmapOk.step) hs.rmapOk
  exact ⟨hok.anchored.live, hok.anchored.degreesExact⟩

/-- Two VMAs that have not been touched. -/
def untouchedVmas : RmapState where
  vm := twoVmas
  areas := {0, 1}
  anon := anonVmaInit
  freed := ∅

theorem untouchedVmas_start : RmapStart untouchedVmas := by
  refine ⟨⟨fun m => ?_, fun m v hv => ?_, by decide⟩, by decide, rfl, rfl⟩
  · by_cases hm : m = 0
    · subst hm
      decide
    · simp [untouchedVmas, twoVmas, single, hm, MmStruct.empty]
  · by_cases hm : m = 0
    · subst hm
      revert v
      decide
    · simp [untouchedVmas, twoVmas, single, hm, MmStruct.empty] at hv

/-- A fork before the first page fault, page faults in parent and child, a split, and the exit of
the parent. -/
theorem anon_vma_degrees_early_fork :
    ∃ t, Run (guarded (fun s o => o.Harmless s) RmapStep) untouchedVmas
        [.fork 0, .prepare 0, .prepare 2, .split 2 0x9000 true, .mmput 0] t ∧
      t.areas = {2, 3, 4} ∧ (t.anon 1).degree = 3 ∧ t.PointersLive ∧ t.DegreesExact := by
  have hrun : Run (guarded (fun s o => o.Harmless s) RmapStep) untouchedVmas
      [.fork 0, .prepare 0, .prepare 2, .split 2 0x9000 true, .mmput 0] _ :=
    .cons ⟨show untouchedVmas.CopiesNoAnonVma 0 by
        unfold RmapState.CopiesNoAnonVma
        decide +kernel, Nat.zero_lt_one, rfl⟩
      (.cons ⟨trivial, ⟨0, by decide +kernel⟩, rfl⟩
        (.cons ⟨trivial, ⟨1, by decide +kernel⟩, rfl⟩
          (.cons ⟨trivial, ⟨1, by decide +kernel⟩, rfl⟩ (.cons ⟨trivial, trivial, rfl⟩ .nil))))
  exact ⟨_, hrun, by decide +kernel, by decide +kernel,
    anon_vma_degrees_of_run untouchedVmas_start hrun⟩

/-- **A pointer to a freed object.** After a page fault and a fork two VMAs point to the object,
which counts one of them; when the parent exits, the object is freed and the VMA of the child still
points to it. -/
theorem fork_dangling_anon_vma :
    ∃ t u, Run RmapStep untouchedVmas [.prepare 0, .fork 0] t ∧ ¬ t.DegreesExact ∧
      Run RmapStep t [.mmput 0] u ∧ ¬ u.PointersLive := by
  refine ⟨_, _, .cons ⟨⟨0, by decide +kernel⟩, rfl⟩ (.cons ⟨Nat.zero_lt_one, rfl⟩ .nil),
    fun h => ?_, .cons ⟨trivial, rfl⟩ .nil, fun h => ?_⟩
  · have hdegree := h 0 ⟨by decide +kernel, by decide +kernel⟩
    revert hdegree
    decide +kernel
  · exact (h 2 (by decide +kernel) 0 (by decide +kernel)).2 (by decide +kernel)

end MinimalKernel.Mm
