import MinimalKernel.Mm.Coherent

/-!
# Unmapping a range

`__do_munmap` cuts the VMA that reaches into the range from below, cuts the VMA that reaches out of
it above, and detaches what lies between. Its inner function `__vma_adjust` only moves bounds, so
the part that a cut takes off is lost, and the loop that detaches always takes at least one VMA.

`MunmapOutcome` lists everything the function can do in a coherent address space. From it follow
that unmapping keeps the address space coherent, and that it removes exactly the range if and only
if no VMA meets the range or some VMA lies inside it.

## Main definitions

* `VmArea.cutStart`, `VmArea.cutEnd` — what the two cuts leave of a VMA
* `MunmapOutcome` — the possible outcomes of `__do_munmap`
* `mapping s m x` — the flags, the file and the page index at which `m` maps the address `x`

## Main results

* `doMunmap_outcome` — `__do_munmap` has one of these outcomes
* `doMunmap_exact_iff` — when a successful unmapping removes exactly the range
-/

namespace MinimalKernel.Mm

open Function Lib List Option VmArea VmState

variable {s s' s'' : VmState} {m : MmId} {v w : VmaId} {start len endAddr : ℕ}
  {f g : VmArea → VmArea} {a : VmArea} {kept : List VmaId}

/-! ### Changing the VMAs of one address space -/

/-- The heap in which the VMAs of `m` have been changed by `f`. -/
def mapVmas (s : VmState) (m : MmId) (f : VmArea → VmArea) : VmaId → VmArea := fun v =>
  if v ∈ (s.mm m).mmap then f (s.vma v) else s.vma v

theorem mapVmas_of_mem (hv : v ∈ (s.mm m).mmap) : mapVmas s m f v = f (s.vma v) := if_pos hv

/-- A change of one VMA, when `f` leaves the others as they are. -/
theorem Rewrites.mapVmas_of_update (hw : w ∈ (s.mm m).mmap)
    (hf : ∀ v ∈ (s.mm m).mmap, v ≠ w → f (s.vma v) = s.vma v)
    (h : Rewrites (update s.vma w (f (s.vma w))) s s') : Rewrites (mapVmas s m f) s s' := by
  refine h.congr fun v _ => ?_
  by_cases hvw : v = w
  · subst hvw
    rw [update_self, mapVmas_of_mem hw]
  · rw [update_of_ne hvw, mapVmas]
    split
    · next hv => exact (hf v hv hvw).symm
    · rfl

theorem Quiet.mapVmas (hf : ∀ v ∈ (s.mm m).mmap, f (s.vma v) = s.vma v) (h : Quiet s s') :
    Rewrites (mapVmas s m f) s s' := by
  refine Rewrites.congr h fun v _ => ?_
  rw [Mm.mapVmas]
  split
  · next hv => exact (hf v hv).symm
  · rfl

theorem Quiet.mapVmas_trans (hq : Quiet s s')
    (h : Rewrites (Mm.mapVmas s' m f) s' s'') : Rewrites (Mm.mapVmas s m f) s s'' := by
  refine (Rewrites.trans hq h).congr fun v hv => ?_
  rw [Mm.mapVmas, Mm.mapVmas, hq.mm, hq.vma v hv]

theorem Rewrites.mapVmas_trans (h : Rewrites (mapVmas s m f) s s')
    (h' : Rewrites (mapVmas s' m g) s' s'') : Rewrites (mapVmas s m (g ∘ f)) s s'' := by
  refine (h.trans h').congr fun v hv => ?_
  rw [Mm.mapVmas, Mm.mapVmas, h.mm, h.vma v hv, Mm.mapVmas]
  split <;> rfl

/-- The VMA `b` is a part of the VMA `a` and not empty. -/
structure VmArea.Part (a b : VmArea) : Prop where
  start : a.vmStart ≤ b.vmStart
  lt : b.vmStart < b.vmEnd
  stop : b.vmEnd ≤ a.vmEnd
  mm : b.vmMm = a.vmMm

/-- Coherence when each VMA shrinks without becoming empty. -/
theorem Coherent.of_mapVmas (h : Coherent s m) (hr : Rewrites (mapVmas s m f) s s')
    (hf : ∀ a : VmArea, a.vmStart < a.vmEnd → a.Part (f a)) : Coherent s' m := by
  have hv : ∀ v ∈ (s.mm m).mmap, _ := fun v hv => hf (s.vma v) (h.ordered.lt v hv)
  refine h.of_rewrites hr (h.ordered.mono fun v hm => ?_) fun v hm => ?_
  · rw [mapVmas_of_mem hm]
    exact ⟨(hv v hm).start, (hv v hm).lt, (hv v hm).stop⟩
  · rw [mapVmas_of_mem hm]
    exact ⟨(hv v hm).stop.trans (h.bounded v hm), (hv v hm).mm.trans (h.owned v hm)⟩

/-! ### The two cuts -/

/-- A VMA that holds `start` and begins before it keeps the part below `start`. -/
def VmArea.cutStart (start : ℕ) (a : VmArea) : VmArea :=
  if a.vmStart < start ∧ start < a.vmEnd then a.cut start false else a

/-- A VMA that holds `endAddr` and begins before it keeps the part from `endAddr` on. -/
def VmArea.cutEnd (endAddr : ℕ) (a : VmArea) : VmArea :=
  if a.vmStart < endAddr ∧ endAddr < a.vmEnd then a.cut endAddr true else a

theorem VmArea.cutStart_part (start : ℕ) (a : VmArea) (ha : a.vmStart < a.vmEnd) :
    a.Part (a.cutStart start) := by
  unfold cutStart
  split
  · next h => exact ⟨le_rfl, h.1, h.2.le, rfl⟩
  · exact ⟨le_rfl, ha, le_rfl, rfl⟩

theorem VmArea.cutEnd_part (endAddr : ℕ) (a : VmArea) (ha : a.vmStart < a.vmEnd) :
    a.Part (a.cutEnd endAddr) := by
  unfold cutEnd
  split
  · next h => exact ⟨h.1.le, h.2, le_rfl, rfl⟩
  · exact ⟨le_rfl, ha, le_rfl, rfl⟩

/-- After the first cut, a VMA that begins before the range also ends before it. -/
theorem VmArea.cutStart_end_le (ha : a.vmStart < start) : (a.cutStart start).vmEnd ≤ start := by
  unfold cutStart
  split
  · exact le_rfl
  · omega

theorem VmArea.cutBoth_part (start endAddr : ℕ) (a : VmArea) (ha : a.vmStart < a.vmEnd) :
    a.Part ((cutEnd endAddr ∘ cutStart start) a) := by
  have h₁ := cutStart_part start a ha
  have h₂ := cutEnd_part endAddr _ h₁.lt
  exact ⟨h₁.start.trans h₂.start, h₂.lt, h₂.stop.trans h₁.stop, h₂.mm.trans h₁.mm⟩

/-- The second cut of `__do_munmap`. -/
theorem munmapSplitEnd_spec (h : Coherent s m) (endAddr : ℕ) : match munmapSplitEnd s m endAddr with
    | (.error _, s') => Quiet s s' ∧ ∃ v ∈ (s.mm m).mmap, s.lo v < endAddr ∧ endAddr < s.hi v
    | (.ok (), s') => Rewrites (mapVmas s m (cutEnd endAddr)) s s' := by
  obtain ⟨tk, hfv, hq⟩ := findVma_eq h endAddr
  have hnone : (∀ v ∈ (s.mm m).mmap, ¬ (s.lo v < endAddr ∧ endAddr < s.hi v)) →
      Rewrites (mapVmas s m (cutEnd endAddr)) s (s.setTasks tk) := fun hv =>
    hq.mapVmas fun v hm => if_neg (hv v hm)
  unfold munmapSplitEnd
  rw [hfv]
  rcases hfind : (s.mm m).mmap.find? fun v => endAddr < s.hi v with _ | w
  · refine hnone fun v hv hlt => ?_
    exact absurd hlt.2 (by simpa using find?_eq_none.1 hfind v hv)
  have hw : w ∈ (s.mm m).mmap := mem_of_find?_eq_some hfind
  have hhi : endAddr < s.hi w := by simpa using find?_some hfind
  dsimp only
  split_ifs with hlo
  · change s.lo w < endAddr at hlo
    -- `w` is the only VMA that holds `endAddr`
    have huniq : ∀ v ∈ (s.mm m).mmap, v ≠ w → (s.vma v).cutEnd endAddr = s.vma v := by
      refine fun v hv hne => if_neg fun hlt => hne ?_
      exact h.ordered.eq_of_mem hv hw ⟨hlt.1.le, hlt.2⟩ ⟨hlo.le, hhi⟩
    have hsplit := splitVma_spec (s := s.setTasks tk) (h.allocated w hw) endAddr true
    rcases hsp : splitVma (s.setTasks tk) w endAddr true with ⟨e | ⟨⟩, s₂⟩ <;> rw [hsp] at hsplit
    · exact ⟨hq.trans hsplit, w, hw, hlo, hhi⟩
    · refine Rewrites.mapVmas_of_update hw huniq ?_
      have hcut : (s.vma w).cutEnd endAddr = (s.vma w).cut endAddr true := if_pos ⟨hlo, hhi⟩
      rw [hcut]
      exact Rewrites.trans hq hsplit
  · refine hnone fun v hv hlt => hlo ?_
    rw [h.ordered.find?_eq_of_mem hv ⟨hlt.1.le, hlt.2⟩, Option.some.injEq] at hfind
    exact hfind ▸ hlt.1

/-- The first cut of `__do_munmap`, and the VMA behind which it will detach: the last one that
begins before the range. -/
theorem munmapSplitStart_spec (h : Coherent s m)
    (hv : (s.mm m).mmap.find? (fun v => start < s.hi v) = some v) (endAddr : ℕ) :
    match munmapSplitStart s m v start endAddr with
    | (.error _, s') => Quiet s s'
    | (.ok prev, s') => Rewrites (mapVmas s m (cutStart start)) s s' ∧
        ∃ kept rest, (s.mm m).mmap = kept ++ rest ∧ (∀ w ∈ kept, s.lo w < start) ∧
          (∀ w ∈ rest, start ≤ s.lo w) ∧ prev = kept.getLast? := by
  obtain ⟨hhi, before, behind, hmmap, hbefore⟩ := find?_eq_some_iff_append.1 hv
  have hhi : start < s.hi v := by simpa using hhi
  have hbefore : ∀ w ∈ before, s.hi w ≤ start := fun w hw => by simpa using hbefore w hw
  have hmem : v ∈ (s.mm m).mmap := by simp [hmmap]
  obtain ⟨hob, hov, hbv⟩ := Ordered.append_iff.1 (hmmap ▸ h.ordered)
  obtain ⟨-, -, hvb⟩ := Ordered.cons_iff.1 hov
  have hkept : ∀ w ∈ before, s.lo w < start := fun w hw => (hob.lt w hw).trans_le (hbefore w hw)
  have huniq : ∀ w ∈ (s.mm m).mmap, w ≠ v → (s.vma w).cutStart start = s.vma w := by
    refine fun w hw hne => if_neg fun hlt => hne ?_
    have hfw := h.ordered.find?_eq_of_mem hw ⟨hlt.1.le, hlt.2⟩
    exact Option.some.inj (hfw.symm.trans hv)
  unfold munmapSplitStart
  split_ifs with hlo
  · exact Quiet.refl s
  · have hsplit := splitVma_spec (h.allocated v hmem) start false
    rcases hsp : splitVma s v start false with ⟨e | ⟨⟩, s₂⟩ <;> rw [hsp] at hsplit
    · exact hsplit
    · refine ⟨Rewrites.mapVmas_of_update hmem huniq ?_, before ++ [v], behind, by simp [hmmap],
        ?_, fun w hw => hhi.le.trans (hvb w hw), by simp⟩
      · have hcut : (s.vma v).cutStart start = (s.vma v).cut start false := if_pos ⟨hlo, hhi⟩
        rwa [hcut]
      · exact forall_mem_append.2 ⟨hkept, forall_mem_singleton.2 hlo⟩
  · refine ⟨(Quiet.refl s).mapVmas fun w hw => ?_, before, v :: behind, hmmap, hkept, ?_, ?_⟩
    · by_cases hwv : w = v
      · exact if_neg fun hlt => hlo (hwv ▸ hlt.1)
      · exact huniq w hw hwv
    · exact forall_mem_cons.2 ⟨not_lt.1 hlo, fun w hw => hhi.le.trans (hvb w hw)⟩
    · rw [hmmap]
      exact prevOf_append_cons fun hvb' => by
        have := hbefore v hvb'
        omega

/-! ### Detaching -/

/-- The address space after the VMAs `gone` have been detached from `kept ++ gone ++ left`. -/
def detached (s : VmState) (m : MmId) (kept gone left : List VmaId) : VmState :=
  s.setMm m { s.mm m with
    mmap := kept ++ left
    mmRb := gone.foldl (fun t v => t.erase v) (s.mm m).mmRb
    mapCount := (s.mm m).mapCount - gone.length
    highestVmEnd :=
      if left = [] then kept.getLast?.elim 0 s.hi else (s.mm m).highestVmEnd
    vmacacheSeqnum := (s.mm m).vmacacheSeqnum + 1 }

theorem detached_mm_self (s : VmState) (m : MmId) (kept gone left : List VmaId) :
    (detached s m kept gone left).mm m = { s.mm m with
      mmap := kept ++ left
      mmRb := gone.foldl (fun t v => t.erase v) (s.mm m).mmRb
      mapCount := (s.mm m).mapCount - gone.length
      highestVmEnd :=
        if left = [] then kept.getLast?.elim 0 s.hi else (s.mm m).highestVmEnd
      vmacacheSeqnum := (s.mm m).vmacacheSeqnum + 1 } :=
  update_self ..

section

variable (hnodup : (s.mm m).mmap.Nodup)
include hnodup

variable {rest : List VmaId}

/-- What `detach_vmas_to_be_unmapped` detaches, and the state it leaves. -/
theorem detachVmasToBeUnmapped_eq (hmmap : (s.mm m).mmap = kept ++ v :: rest) (endAddr : ℕ) :
    ∃ ok, detachVmasToBeUnmapped s m v kept.getLast? endAddr
      = (v :: rest.takeWhile (fun w => s.lo w < endAddr), ok,
          detached s m kept (v :: rest.takeWhile fun w => s.lo w < endAddr)
            (rest.dropWhile fun w => s.lo w < endAddr)) := by
  have hkept : upTo (s.mm m).mmap kept.getLast? = kept := by
    rw [hmmap]
    exact upTo_getLast? (hmmap ▸ hnodup)
  have hrest : ((s.mm m).mmap.drop kept.length).tail = rest := by
    rw [hmmap, drop_left, tail_cons]
  unfold detachVmasToBeUnmapped
  simp only [hkept, hrest]
  exact ⟨_, rfl⟩

theorem vmaNext_getLast? (hmmap : (s.mm m).mmap = kept ++ rest) :
    vmaNext s m kept.getLast? = rest.head? := by
  rcases eq_nil_or_concat kept with rfl | ⟨l, p, rfl⟩
  · simp [vmaNext, hmmap]
  · rw [concat_eq_append] at hmmap ⊢
    rw [getLast?_concat, vmaNext, hmmap]
    exact nextOf_of_nodup_concat (hmmap ▸ hnodup)

theorem munmapDetach_nil (hmmap : (s.mm m).mmap = kept) (endAddr : ℕ) (downgrade : Bool) :
    munmapDetach s m kept.getLast? endAddr downgrade = .error .nullDeref := by
  have hmmap' : (s.mm m).mmap = kept ++ [] := by simpa using hmmap
  rw [munmapDetach, vmaNext_getLast? hnodup hmmap']
  rfl

theorem munmapDetach_cons (hmmap : (s.mm m).mmap = kept ++ v :: rest)
    (endAddr : ℕ) (downgrade : Bool) :
    ∃ r, munmapDetach s m kept.getLast? endAddr downgrade
      = .ok (.ok r, unlinkFileVmas
          (detached s m kept (v :: rest.takeWhile fun w => s.lo w < endAddr)
            (rest.dropWhile fun w => s.lo w < endAddr))
          (v :: rest.takeWhile fun w => s.lo w < endAddr)) := by
  obtain ⟨ok, hd⟩ := detachVmasToBeUnmapped_eq hnodup hmmap endAddr
  rw [munmapDetach, vmaNext_getLast? hnodup hmmap]
  dsimp only [head?_cons]
  rw [hd]
  exact ⟨_, rfl⟩

end

/-! ### The outcomes of `__do_munmap` -/

/-- Does the VMA `v` meet the range? -/
def Meets (s : VmState) (v : VmaId) (start endAddr : ℕ) : Prop :=
  start < s.hi v ∧ s.lo v < endAddr

/-- The range is page-aligned, not empty and in user space. -/
structure ValidRange (start endAddr : ℕ) : Prop where
  start_dvd : pageSize ∣ start
  end_dvd : pageSize ∣ endAddr
  lt : start < endAddr
  le : endAddr ≤ taskSize

/-- Everything that `__do_munmap` can do with the range from `start` to `endAddr` in a coherent
address space. -/
inductive MunmapOutcome (s : VmState) (m : MmId) (start endAddr : ℕ) :
    Except Oops (Except Errno ℕ × VmState) → Prop
  /-- An error is returned before anything has changed. -/
  | refused {e : Errno} {s' : VmState} (quiet : Quiet s s') :
      MunmapOutcome s m start endAddr (.ok (.error e, s'))
  /-- No VMA meets the range. -/
  | nothing {s' : VmState} (range : ValidRange start endAddr)
      (free : ∀ v ∈ (s.mm m).mmap, ¬ Meets s v start endAddr) (quiet : Quiet s s') :
      MunmapOutcome s m start endAddr (.ok (.ok 0, s'))
  /-- The first cut has been made, and the second one has failed. -/
  | halfway {e : Errno} {s' : VmState}
      (cut : Rewrites (mapVmas s m (cutStart start)) s s')
      (behind : ∃ v ∈ (s.mm m).mmap, start ≤ s.lo v) :
      MunmapOutcome s m start endAddr (.ok (.error e, s'))
  /-- There is no VMA behind the first cut, and the null pointer is followed. -/
  | fault (range : ValidRange start endAddr) (meets : ∃ v ∈ (s.mm m).mmap, Meets s v start endAddr)
      (below : ∀ v ∈ (s.mm m).mmap, s.lo v < start) :
      MunmapOutcome s m start endAddr (.error .nullDeref)
  /-- Both cuts have been made. Of the VMAs that begin in the range or behind it, the first one and
  those that end in the range are detached. -/
  | done {r : ℕ} {s₂ : VmState} {kept gone left : List VmaId} {v : VmaId}
      (range : ValidRange start endAddr) (meets : ∃ v ∈ (s.mm m).mmap, Meets s v start endAddr)
      (mmap : (s.mm m).mmap = kept ++ v :: (gone ++ left))
      (below : ∀ w ∈ kept, s.lo w < start) (behind : ∀ w ∈ v :: (gone ++ left), start ≤ s.lo w)
      (inside : ∀ w ∈ gone, s.hi w ≤ endAddr) (beyond : ∀ w ∈ left, endAddr < s.hi w)
      (cut : Rewrites (mapVmas s m (cutEnd endAddr ∘ cutStart start)) s s₂) :
      MunmapOutcome s m start endAddr
        (.ok (.ok r, unlinkFileVmas (detached s₂ m kept (v :: gone) left) (v :: gone)))

/-- The ranges that `__do_munmap` accepts. -/
theorem validRange_of_accepted
    (h : ¬ (offsetInPage start ≠ 0 ∨ taskSize < start ∨ taskSize - start < len))
    (hlen : pageAlign len ≠ 0) :
    ValidRange start (start + pageAlign len) ∧
      wadd start (pageAlign len) = start + pageAlign len := by
  obtain ⟨hoff, hstart, hle⟩ : offsetInPage start = 0 ∧ start ≤ taskSize ∧
      len ≤ taskSize - start := by
    refine ⟨?_, ?_, ?_⟩ <;> omega
  have hdvd : pageSize ∣ start := Nat.dvd_of_mod_eq_zero hoff
  have hbound : pageAlign len ≤ taskSize - start := by
    refine pageAlign_le_of_dvd hle (Nat.dvd_sub pageSize_dvd_taskSize hdvd) ?_
    have : taskSize + pageSize ≤ wordSize := by decide
    omega
  have htask : taskSize < wordSize := by decide
  refine ⟨⟨hdvd, (Nat.dvd_add_right hdvd).2 (pageSize_dvd_pageAlign len), by omega, by omega⟩,
    wadd_of_lt (by omega)⟩

/-- After the cuts, a VMA behind the start of the range begins inside the range if and only if it
ends there. -/
theorem cut_lo_lt_iff (ha : a.vmStart < a.vmEnd) (hstart : start ≤ a.vmStart) :
    ((a.cutStart start).cutEnd endAddr).vmStart < endAddr ↔ a.vmEnd ≤ endAddr := by
  have hcut : a.cutStart start = a := if_neg fun h => by omega
  rw [hcut, cutEnd]
  split
  · next h => simp [cut, h.2]
  · omega

/-- The end of `__do_munmap`, after both cuts. -/
theorem munmapDetach_outcome {s₂ : VmState} {rest : List VmaId} (h : Coherent s m)
    (hrange : ValidRange start endAddr) (hmeets : ∃ v ∈ (s.mm m).mmap, Meets s v start endAddr)
    (hmmap : (s.mm m).mmap = kept ++ rest) (hkept : ∀ w ∈ kept, s.lo w < start)
    (hrest : ∀ w ∈ rest, start ≤ s.lo w)
    (hcut : Rewrites (mapVmas s m (cutEnd endAddr ∘ cutStart start)) s s₂) (downgrade : Bool) :
    MunmapOutcome s m start endAddr (munmapDetach s₂ m kept.getLast? endAddr downgrade) := by
  have hnodup : (s₂.mm m).mmap.Nodup := hcut.mm ▸ h.ordered.nodup
  cases rest with
  | nil =>
    rw [append_nil] at hmmap
    rw [munmapDetach_nil hnodup (by rw [hcut.mm, hmmap])]
    exact .fault hrange hmeets (hmmap ▸ hkept)
  | cons v rest =>
    obtain ⟨r, hr⟩ := munmapDetach_cons hnodup (by rw [hcut.mm, hmmap]) endAddr downgrade
    have hlo : ∀ w ∈ rest, s₂.lo w < endAddr ↔ s.hi w ≤ endAddr := by
      intro w hw
      have hmem : w ∈ (s.mm m).mmap := by simp [hmmap, hw]
      rw [hcut.lo_eq (h.allocated w hmem), mapVmas_of_mem hmem]
      exact cut_lo_lt_iff (h.ordered.lt w hmem) (hrest w (by simp [hw]))
    have hord : Ordered s₂.lo s₂.hi rest := by
      refine (h.of_mapVmas hcut (cutBoth_part start endAddr)).ordered.sublist ?_
      rw [hcut.mm, hmmap]
      exact (sublist_cons_self v rest).trans (sublist_append_right _ _)
    rw [hr]
    refine .done hrange hmeets (by simpa using hmmap) hkept (by simpa using hrest) ?_ ?_ hcut
    · intro w hw
      rw [← hlo w ((takeWhile_sublist _).subset hw)]
      simpa using mem_takeWhile_imp hw
    · intro w hw
      have hle := hord.le_lo_of_mem_dropWhile hw
      have := hlo w ((dropWhile_sublist _).subset hw)
      omega

/-- **The outcomes of `__do_munmap`.** -/
theorem doMunmap_outcome (h : Coherent s m) (start len : ℕ) (downgrade : Bool) :
    MunmapOutcome s m start (start + pageAlign len) (doMunmap s m start len downgrade) := by
  unfold doMunmap
  dsimp only
  split_ifs with hargs hlen
  · exact .refused (Quiet.refl s)
  · exact .refused (Quiet.refl s)
  obtain ⟨hrange, hend⟩ := validRange_of_accepted hargs hlen
  rw [hend]
  set e := start + pageAlign len
  obtain ⟨tk, hfind, hq⟩ := findVmaIntersection_eq h start e
  rw [hfind]
  rcases hF : ((s.mm m).mmap.find? fun v => start < s.hi v).filter fun v => s.lo v < e with _ | F
  · refine .nothing hrange (fun v hv hmeets => ?_) hq
    -- a VMA that meets the range would make the first one that ends after `start` meet it too
    rcases hfirst : (s.mm m).mmap.find? fun v => start < s.hi v with _ | w
    · exact absurd hmeets.1 (by simpa using find?_eq_none.1 hfirst v hv)
    · have := h.ordered.lo_le_of_find? hfirst hv hmeets.1
      rw [hfirst, filter_eq_none_iff] at hF
      exact hF w rfl (by simpa using this.trans_lt hmeets.2)
  obtain ⟨hfirst, hlo⟩ := filter_eq_some_iff.1 hF
  have hmeets : ∃ v ∈ (s.mm m).mmap, Meets s v start e :=
    ⟨F, mem_of_find?_eq_some hfirst, by simpa using find?_some hfirst, by simpa using hlo⟩
  have hsplit := munmapSplitStart_spec (h.of_quiet hq) hfirst e
  dsimp only
  rcases hs₁ : munmapSplitStart (s.setTasks tk) m F start e with ⟨err | prev, s₁⟩ <;>
    rw [hs₁] at hsplit
  · exact .refused (hq.trans hsplit)
  obtain ⟨hcut₁, kept, rest, hmmap, hkept, hrest, rfl⟩ := hsplit
  have hcut₁ := hq.mapVmas_trans hcut₁
  have h₁ : Coherent s₁ m := h.of_mapVmas hcut₁ (cutStart_part start)
  have hsplit₂ := munmapSplitEnd_spec h₁ e
  dsimp only
  rcases hs₂ : munmapSplitEnd s₁ m e with ⟨err | ⟨⟩, s₂⟩ <;> rw [hs₂] at hsplit₂
  · obtain ⟨hq₂, w, hw, hlo_w, hhi_w⟩ := hsplit₂
    refine .halfway (hcut₁.trans_quiet hq₂) ⟨w, hcut₁.mm ▸ hw, ?_⟩
    -- the VMA that could not be cut was not touched by the first cut
    by_contra hlt
    have hmem : w ∈ (s.mm m).mmap := hcut₁.mm ▸ hw
    rw [hcut₁.hi_eq (h.allocated w hmem), mapVmas_of_mem hmem] at hhi_w
    have := cutStart_end_le (a := s.vma w) (not_le.1 hlt)
    have := hrange.lt
    omega
  · exact munmapDetach_outcome h hrange hmeets hmmap hkept hrest (hcut₁.mapVmas_trans hsplit₂)
      downgrade

/-! ### Coherence after unmapping -/

section Unlink

variable (s : VmState) (vs : List VmaId)

theorem unlinkFileVma_eq (v : VmaId) :
    ∃ imap corrupt, unlinkFileVma s v = { s with imap := imap, imapCorrupt := corrupt } := by
  unfold unlinkFileVma
  split
  · exact ⟨s.imap, s.imapCorrupt, rfl⟩
  · exact ⟨_, _, rfl⟩

/-- Leaving the file registry changes nothing else. -/
theorem unlinkFileVmas_eq :
    ∃ imap corrupt, unlinkFileVmas s vs = { s with imap := imap, imapCorrupt := corrupt } := by
  induction vs generalizing s with
  | nil => exact ⟨s.imap, s.imapCorrupt, rfl⟩
  | cons v vs ih =>
    obtain ⟨imap, corrupt, hv⟩ := unlinkFileVma_eq s v
    obtain ⟨imap', corrupt', hvs⟩ := ih (unlinkFileVma s v)
    exact ⟨imap', corrupt', by rw [unlinkFileVmas, foldl_cons, ← unlinkFileVmas, hvs, hv]⟩

@[simp] theorem unlinkFileVmas_mm : (unlinkFileVmas s vs).mm = s.mm := by
  obtain ⟨imap, corrupt, h⟩ := unlinkFileVmas_eq s vs
  rw [h]

@[simp] theorem unlinkFileVmas_vma : (unlinkFileVmas s vs).vma = s.vma := by
  obtain ⟨imap, corrupt, h⟩ := unlinkFileVmas_eq s vs
  rw [h]

@[simp] theorem unlinkFileVmas_hi : (unlinkFileVmas s vs).hi = s.hi := by
  funext v
  rw [hi, unlinkFileVmas_vma, hi]

theorem Coherent.unlinkFileVmas {s : VmState} (h : Coherent s m) (vs : List VmaId) :
    Coherent (unlinkFileVmas s vs) m := by
  obtain ⟨imap, corrupt, hu⟩ := unlinkFileVmas_eq s vs
  rw [hu]
  exact { h with }

end Unlink

/-- **Coherence after detaching.** The VMA caches become outdated. -/
theorem Coherent.detached {gone left : List VmaId} (h : Coherent s m)
    (hmmap : (s.mm m).mmap = kept ++ (gone ++ left)) :
    Coherent (detached s m kept gone left) m := by
  have hsub : (kept ++ left).Sublist (s.mm m).mmap := by
    rw [hmmap]
    exact (List.Sublist.refl kept).append (sublist_append_right gone left)
  refine ⟨?_, ?_, ?_, ?_, ?_, fun t ht i v hv => ?_⟩ <;> rw [detached_mm_self]
  · exact h.ordered.sublist hsub
  · exact fun v hv => h.bounded v (hsub.subset hv)
  · exact RbTree.toList_foldl_erase (h.rb.trans hmmap) (h.rb ▸ h.ordered.nodup)
  · exact fun v hv => h.owned v (hsub.subset hv)
  · exact fun v hv => h.allocated v (hsub.subset hv)
  · have hle := (h.cache t ht i v hv).1
    refine ⟨hle.trans (Nat.le_succ _), fun heq => ?_⟩
    change (s.task t).seqnum = (s.mm m).vmacacheSeqnum + 1 at heq
    omega

/-- **Unmapping keeps the address space coherent**, whatever it returns. -/
theorem MunmapOutcome.coherent {r : Except Errno ℕ} (h : Coherent s m)
    (ho : MunmapOutcome s m start endAddr (.ok (r, s'))) : Coherent s' m := by
  cases ho with
  | refused hq | nothing _ _ hq => exact h.of_quiet hq
  | halfway hcut _ => exact h.of_mapVmas hcut (cutStart_part start)
  | done _ _ hmmap _ _ _ _ hcut =>
    have h₂ := h.of_mapVmas hcut (cutBoth_part start endAddr)
    exact (h₂.detached (by rw [hcut.mm, hmmap, cons_append])).unlinkFileVmas _

/-! ### What an unmapping removes -/

/-- How `m` maps the address `x`: the flags, the file and the page index. -/
def mapping (s : VmState) (m : MmId) (x : ℕ) : Option (VmFlags × Option FileId × ℕ) :=
  (at? s.lo s.hi (s.mm m).mmap x).map fun v =>
    ((s.vma v).vmFlags, (s.vma v).vmFile, (s.vma v).pageIndex x)

/-- Between `s` and `s'` exactly the addresses from `start` to `endAddr` have been unmapped. -/
def RemovesExactly (s s' : VmState) (m : MmId) (start endAddr : ℕ) : Prop :=
  ∀ x, mapping s' m x = if start ≤ x ∧ x < endAddr then none else mapping s m x

/-- A VMA lies inside the range. -/
def Inside (s : VmState) (v : VmaId) (start endAddr : ℕ) : Prop :=
  start ≤ s.lo v ∧ s.hi v ≤ endAddr

/-- A cut at a page boundary does not move the pages that remain. -/
theorem VmArea.cut_pageIndex {addr x : ℕ} (hx : addr ≤ x) (haddr : a.vmStart ≤ addr)
    (hw : addr < wordSize) (hdvd : pageSize ∣ addr - a.vmStart) :
    (a.cut addr true).pageIndex x = a.pageIndex x := by
  obtain ⟨k, hk⟩ := hdvd
  have hp : pageOf (x - a.vmStart) = k + pageOf (x - addr) := by
    rw [pageOf, show x - a.vmStart = x - addr + pageSize * k by omega,
      Nat.add_mul_div_left _ _ (by decide), pageOf]
    omega
  have hk' : pageOf (wsub addr a.vmStart) = k := by
    rw [wsub_of_le haddr hw, hk, pageOf, Nat.mul_div_cancel_left _ (by decide)]
  simp only [pageIndex, cut, hk', hp, wadd, Nat.mod_add_mod, Nat.add_assoc]

theorem mapping_eq_none (s : VmState) (m : MmId) (x : ℕ) :
    mapping s m x = none ↔ ∀ v ∈ (s.mm m).mmap, ¬ (s.lo v ≤ x ∧ x < s.hi v) := by
  rw [mapping, map_eq_none_iff, Ordered.at?_eq_none]

theorem mapping_eq_of_mem {x : ℕ} (h : Ordered s.lo s.hi (s.mm m).mmap) (hv : v ∈ (s.mm m).mmap)
    (hx : s.lo v ≤ x ∧ x < s.hi v) :
    mapping s m x = some ((s.vma v).vmFlags, (s.vma v).vmFile, (s.vma v).pageIndex x) := by
  rw [mapping, h.at?_eq_some.2 ⟨hv, hx⟩, map_some]

theorem mapping_quiet (h : Coherent s m) (hq : Quiet s s') (x : ℕ) :
    mapping s' m x = mapping s m x := by
  rcases hx : at? s.lo s.hi (s.mm m).mmap x with _ | v
  · have hnone : mapping s m x = none := by rw [mapping, hx, map_none]
    rw [hnone, mapping_eq_none, hq.mm]
    intro v hv
    rw [hq.lo_eq (h.allocated v hv), hq.hi_eq (h.allocated v hv)]
    exact (mapping_eq_none s m x).1 hnone v hv
  · obtain ⟨hv, hvx⟩ := h.ordered.at?_eq_some.1 hx
    have hvma := hq.vma v (h.allocated v hv)
    rw [mapping_eq_of_mem h.ordered hv hvx,
      mapping_eq_of_mem (h.of_quiet hq).ordered (hq.mm ▸ hv) (by rwa [lo, hi, hvma]), hvma]

section Detached

variable {kept gone left : List VmaId} {x : ℕ}

/-- A VMA that begins before the range keeps what it maps below the range. -/
theorem cutBoth_of_lt (hr : start < endAddr) (ha : a.vmStart < start) :
    (cutEnd endAddr ∘ cutStart start) a = a.cutStart start := by
  have := cutStart_end_le ha
  exact if_neg fun h => by omega

/-- A VMA that begins in the range or behind it keeps what it maps behind the range. -/
theorem cutBoth_of_le (ha : start ≤ a.vmStart) :
    (cutEnd endAddr ∘ cutStart start) a = a.cutEnd endAddr := by
  have : a.cutStart start = a := if_neg fun h => by omega
  rw [comp_apply, this]

/-- The VMAs that remain map nothing in the range, and what they map they mapped before. -/
theorem cutBoth_holds (hr : start < endAddr) (hlt : a.vmStart < a.vmEnd)
    (hside : a.vmStart < start ∨ start ≤ a.vmStart ∧ endAddr < a.vmEnd)
    (hx : ((cutEnd endAddr ∘ cutStart start) a).vmStart ≤ x ∧
      x < ((cutEnd endAddr ∘ cutStart start) a).vmEnd) :
    (a.vmStart ≤ x ∧ x < a.vmEnd) ∧ (x < start ∨ endAddr ≤ x) := by
  have hpart := cutBoth_part start endAddr a hlt
  refine ⟨⟨hpart.start.trans hx.1, hx.2.trans_le hpart.stop⟩, ?_⟩
  rcases hside with hlo | ⟨hlo, hhi⟩
  · rw [cutBoth_of_lt hr hlo] at hx
    exact .inl (hx.2.trans_le (cutStart_end_le hlo))
  · rw [cutBoth_of_le hlo, cutEnd] at hx
    right
    split at hx
    · exact hx.1
    · next h => exact le_trans (by omega) hx.1

/-- What a VMA that remains maps below the range or behind it is still mapped in the same way. -/
theorem cutBoth_keeps (hr : ValidRange start endAddr) (hal : pageSize ∣ a.vmStart)
    (hx : a.vmStart ≤ x ∧ x < a.vmEnd)
    (hside : a.vmStart < start ∧ x < start ∨ start ≤ a.vmStart ∧ endAddr ≤ x) :
    let b := (cutEnd endAddr ∘ cutStart start) a
    (b.vmStart ≤ x ∧ x < b.vmEnd) ∧
      (b.vmFlags, b.vmFile, b.pageIndex x) = (a.vmFlags, a.vmFile, a.pageIndex x) := by
  have hw : endAddr < wordSize := hr.le.trans_lt (by decide)
  rcases hside with ⟨hlo, hlt⟩ | ⟨hlo, hge⟩
  · simp only [cutBoth_of_lt hr.lt hlo, cutStart]
    split
    · exact ⟨⟨hx.1, hlt⟩, rfl⟩
    · exact ⟨hx, rfl⟩
  · simp only [cutBoth_of_le hlo, cutEnd]
    split
    · next h =>
      refine ⟨⟨hge, hx.2⟩, ?_⟩
      rw [cut_pageIndex hge h.1.le hw (Nat.dvd_sub hr.end_dvd hal)]
      rfl
    · exact ⟨hx, rfl⟩

/-- The situation after a successful unmapping that has detached `v` and `gone`. -/
structure Unmapped (s s' : VmState) (m : MmId) (start endAddr : ℕ) (kept : List VmaId)
    (v : VmaId) (gone left : List VmaId) : Prop where
  range : ValidRange start endAddr
  mmap : (s.mm m).mmap = kept ++ v :: (gone ++ left)
  below : ∀ w ∈ kept, s.lo w < start
  behind : ∀ w ∈ v :: (gone ++ left), start ≤ s.lo w
  inside : ∀ w ∈ gone, s.hi w ≤ endAddr
  beyond : ∀ w ∈ left, endAddr < s.hi w
  mmap' : (s'.mm m).mmap = kept ++ left
  vma' : ∀ w ∈ (s.mm m).mmap,
    s'.vma w = (cutEnd endAddr ∘ cutStart start) (s.vma w)

namespace Unmapped

theorem of_done {s₂ : VmState} (h : Coherent s m) (hrange : ValidRange start endAddr)
    (hmmap : (s.mm m).mmap = kept ++ v :: (gone ++ left)) (hbelow : ∀ w ∈ kept, s.lo w < start)
    (hbehind : ∀ w ∈ v :: (gone ++ left), start ≤ s.lo w)
    (hinside : ∀ w ∈ gone, s.hi w ≤ endAddr) (hbeyond : ∀ w ∈ left, endAddr < s.hi w)
    (hcut : Rewrites (mapVmas s m (cutEnd endAddr ∘ cutStart start)) s s₂) :
    Unmapped s (unlinkFileVmas (detached s₂ m kept (v :: gone) left) (v :: gone)) m start endAddr
      kept v gone left := by
  refine ⟨hrange, hmmap, hbelow, hbehind, hinside, hbeyond, ?_, fun w hw => ?_⟩
  · rw [unlinkFileVmas_mm, detached_mm_self]
  · rw [unlinkFileVmas_vma]
    exact (hcut.vma w (h.allocated w hw)).trans (mapVmas_of_mem hw)

variable (h : Coherent s m) (hu : Unmapped s s' m start endAddr kept v gone left)

include hu

theorem mem_of_mem (hw : w ∈ (s'.mm m).mmap) : w ∈ (s.mm m).mmap := by
  rw [hu.mmap'] at hw
  rw [hu.mmap]
  rcases mem_append.1 hw with hw | hw <;> simp [hw]

include h

/-- Every address that is still mapped was mapped by the same VMA and lies outside the range. -/
theorem holds (hw : w ∈ (s'.mm m).mmap) (hx : s'.lo w ≤ x ∧ x < s'.hi w) :
    (s.lo w ≤ x ∧ x < s.hi w) ∧ (x < start ∨ endAddr ≤ x) := by
  have hmem := hu.mem_of_mem hw
  rw [lo, hi, hu.vma' w hmem] at hx
  refine cutBoth_holds hu.range.lt (h.ordered.lt w hmem) ?_ hx
  rw [hu.mmap'] at hw
  rcases mem_append.1 hw with hw | hw
  · exact .inl (hu.below w hw)
  · exact .inr ⟨hu.behind w (by simp [hw]), hu.beyond w hw⟩

/-- No VMA that remains meets the range. -/
theorem free (h' : Coherent s' m) (hw : w ∈ (s'.mm m).mmap) : ¬ Meets s' w start endAddr := by
  rintro ⟨hhi, hlo⟩
  have hlt := h'.ordered.lt w hw
  have hr := hu.range.lt
  -- an address that `w` and the range have in common would still be mapped
  have := (hu.holds h hw (x := max start (s'.lo w)) (by omega)).2
  omega

/-- If exactly the range is gone, then the first VMA that was detached lies inside it: otherwise
its end would have been lost. -/
theorem inside_of_removesExactly (hex : RemovesExactly s s' m start endAddr) :
    Inside s v start endAddr := by
  have hv : v ∈ (s.mm m).mmap := by simp [hu.mmap]
  have hlo : start ≤ s.lo v := hu.behind v (by simp)
  refine ⟨hlo, not_lt.1 fun hhi => ?_⟩
  set x := max (s.lo v) endAddr
  have hx : s.lo v ≤ x ∧ x < s.hi v := ⟨le_max_left .., max_lt (h.ordered.lt v hv) hhi⟩
  have hout : ¬ (start ≤ x ∧ x < endAddr) := fun hin => (le_max_right _ _).not_gt hin.2
  have hmap := hex x
  rw [if_neg hout, mapping_eq_of_mem h.ordered hv hx] at hmap
  have hsome : ¬ mapping s' m x = none := by simp [hmap]
  rw [mapping_eq_none] at hsome
  push Not at hsome
  obtain ⟨w, hw, hwx⟩ := hsome
  obtain rfl : v = w := h.ordered.eq_of_mem hv (hu.mem_of_mem hw) hx (hu.holds h hw hwx).1
  -- but `v` is not among the VMAs that remain
  have hnodup := h.ordered.nodup
  rw [hu.mmap, nodup_append] at hnodup
  rw [hu.mmap'] at hw
  rcases mem_append.1 hw with hw | hw
  · exact hnodup.2.2 v hw v (by simp) rfl
  · exact (nodup_cons.1 hnodup.2.1).1 (mem_append_right _ hw)

/-- If some VMA lies inside the range, then every address outside it keeps its mapping. -/
theorem removesExactly_of_inside (h' : Coherent s' m)
    (hal : ∀ w ∈ (s.mm m).mmap, pageSize ∣ s.lo w) {u : VmaId} (hum : u ∈ (s.mm m).mmap)
    (hin : Inside s u start endAddr) : RemovesExactly s s' m start endAddr := by
  have hult := h.ordered.lt u hum
  obtain ⟨hinlo, hinhi⟩ := hin
  intro x
  split_ifs with hx
  · rw [mapping_eq_none]
    intro w hw hwx
    have := (hu.holds h hw hwx).2
    omega
  rcases hat : at? s.lo s.hi (s.mm m).mmap x with _ | w
  · have hnone : mapping s m x = none := by rw [mapping, hat, map_none]
    rw [hnone, mapping_eq_none]
    intro w hw hwx
    exact (mapping_eq_none s m x).1 hnone w (hu.mem_of_mem hw) (hu.holds h hw hwx).1
  obtain ⟨hw, hwx⟩ := h.ordered.at?_eq_some.1 hat
  have hne : w ≠ u := by
    rintro rfl
    omega
  -- `w` does not reach over the range, since `u` lies in it
  have hspan : s.lo w < start → x < start := by
    intro hlo
    by_contra hge
    exact hne (h.ordered.eq_of_mem hw hum (x := s.lo u) (by omega) (by omega))
  have hremains : w ∈ kept ++ left ∧
      (s.lo w < start ∧ x < start ∨ start ≤ s.lo w ∧ endAddr ≤ x) := by
    have hw' := hw
    rw [hu.mmap, mem_append, mem_cons, mem_append] at hw'
    rcases hw' with hk | rfl | hg | hl
    · exact ⟨mem_append_left _ hk, .inl ⟨hu.below w hk, hspan (hu.below w hk)⟩⟩
    · -- the first VMA behind the start of the range lies in it, since `u` does
      exfalso
      have hlo := hu.behind w (by simp)
      have hum' := hum
      rw [hu.mmap, mem_append, mem_cons] at hum'
      rcases hum' with hk | rfl | hr
      · have := hu.below u hk
        omega
      · exact hne rfl
      · have := (Ordered.cons_iff.1 (Ordered.append_iff.1 (hu.mmap ▸ h.ordered)).2.1).2.2 u hr
        omega
    · have hlo := hu.behind w (by simp [hg])
      have := hu.inside w hg
      omega
    · have hlo := hu.behind w (by simp [hl])
      exact ⟨mem_append_right _ hl, .inr ⟨hlo, by omega⟩⟩
  obtain ⟨hb, hval⟩ := cutBoth_keeps hu.range (hal w hw) hwx hremains.2
  rw [mapping_eq_of_mem h.ordered hw hwx, mapping_eq_of_mem h'.ordered (hu.mmap' ▸ hremains.1)]
  · rw [hu.vma' w hw, hval]
  · rw [lo, hi, hu.vma' w hw]
    exact hb

end Unmapped

end Detached

/-- **Exactness of an unmapping.** A successful `__do_munmap` removes exactly the range from the
set of mapped addresses if and only if no VMA meets the range or some VMA lies inside it; and if
this is so, it does not follow a null pointer. -/
theorem doMunmap_exact_iff (h : Coherent s m) (hal : ∀ v ∈ (s.mm m).mmap, pageSize ∣ s.lo v)
    (start len : ℕ) (downgrade : Bool) :
    (∀ r s', doMunmap s m start len downgrade = .ok (.ok r, s') →
      (RemovesExactly s s' m start (start + pageAlign len) ↔
        (∀ v ∈ (s.mm m).mmap, ¬ Meets s v start (start + pageAlign len)) ∨
          ∃ v ∈ (s.mm m).mmap, Inside s v start (start + pageAlign len))) ∧
    ∀ e, doMunmap s m start len downgrade = .error e →
      ¬ ((∀ v ∈ (s.mm m).mmap, ¬ Meets s v start (start + pageAlign len)) ∨
          ∃ v ∈ (s.mm m).mmap, Inside s v start (start + pageAlign len)) := by
  have ho := doMunmap_outcome h start len downgrade
  set endAddr := start + pageAlign len
  refine ⟨fun r s' hr => ?_, fun e he => ?_⟩
  · rw [hr] at ho
    have h' := ho.coherent h
    cases ho with
    | nothing hrange hfree hq =>
      refine ⟨fun _ => .inl hfree, fun _ x => ?_⟩
      rw [mapping_quiet h hq]
      split_ifs with hx
      · rw [mapping_eq_none]
        exact fun v hv hvx => hfree v hv ⟨hx.1.trans_lt hvx.2, hvx.1.trans_lt hx.2⟩
      · rfl
    | @done _ s₂ kept gone left v hrange hmeets hmmap hbelow hbehind hinside hbeyond hcut =>
      have hu := Unmapped.of_done h hrange hmmap hbelow hbehind hinside hbeyond hcut
      refine ⟨fun hex => .inr ⟨v, by simp [hmmap], hu.inside_of_removesExactly h hex⟩, ?_⟩
      rintro (hfree | ⟨u, hum, hin⟩)
      · obtain ⟨w, hw, hm⟩ := hmeets
        exact absurd hm (hfree w hw)
      · exact hu.removesExactly_of_inside h h' hal hum hin
  · rw [he] at ho
    cases ho with
    | fault hrange hmeets hbelow =>
      rintro (hfree | ⟨v, hv, hin⟩)
      · obtain ⟨v, hv, hm⟩ := hmeets
        exact hfree v hv hm
      · exact absurd (hbelow v hv) (not_lt.2 hin.1)

/-- An anonymous writable area, as the heap of a program has. -/
def heapArea (vmStart vmEnd : ℕ) : VmArea :=
  { vmaInit 0 with
    vmStart := vmStart, vmEnd := vmEnd, vmFlags := vmRead ||| vmWrite,
    vmPgoff := pageOf vmStart, vmOps := none }

/-- An address space with a VMA of three pages and, further up, one of a single page. -/
def twoVmas : VmState :=
  .single [heapArea 0x8000 0xB000, heapArea 0x10000 0x11000]
    (.node .black .nil 0 (.node .red .nil 1 .nil))

theorem coherent_twoVmas : Coherent twoVmas 0 :=
  .single (by decide) (by decide) (by decide) (by decide)

/-- Unmapping the second VMA as a whole removes exactly its addresses. -/
theorem doMunmap_exact_whole_vma :
    ∃ r s', doMunmap twoVmas 0 0x10000 0x1000 false = .ok (.ok r, s') ∧
      RemovesExactly twoVmas s' 0 0x10000 (0x10000 + pageAlign 0x1000) :=
  ⟨_, _, rfl, ((doMunmap_exact_iff coherent_twoVmas (by decide) 0x10000 0x1000 false).1 _ _ rfl).2
    (.inr ⟨1, by decide, by decide, by decide⟩)⟩

/-- **A hole in a VMA.** Unmapping the middle page of the first VMA succeeds, but it takes the last
page of that VMA with it, and the whole second VMA. -/
theorem doMunmap_hole :
    Coherent twoVmas 0 ∧ ∃ s', doMunmap twoVmas 0 0x9000 0x1000 false = .ok (.ok 0, s') ∧
      (mapping twoVmas 0 0xA000).isSome ∧ mapping s' 0 0xA000 = none ∧
      (mapping twoVmas 0 0x10000).isSome ∧ mapping s' 0 0x10000 = none ∧
      ¬ RemovesExactly twoVmas s' 0 0x9000 (0x9000 + pageAlign 0x1000) := by
  refine ⟨coherent_twoVmas, _, rfl, rfl, rfl, rfl, rfl, fun hex => ?_⟩
  exact absurd (hex 0xA000) (by decide)

end MinimalKernel.Mm
