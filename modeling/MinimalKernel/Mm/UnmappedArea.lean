import MinimalKernel.Mm.WellFormed

/-!
# The search for an unmapped area

`generic_get_unmapped_area` and `generic_get_unmapped_area_topdown` look for a place of `len` bytes
for a mapping without `MAP_FIXED`. Neither searches the gaps between the VMAs: the search from
below takes the place behind the last VMA, and the search from above the place that *ends* where
the last VMA ends, or at the mmap base if the last VMA ends above it.

So the search from below always finds a free place. The search from above returns the place of the
last VMA, unless the arithmetic wraps; if the last VMA ends above the mmap base, it returns the
place below the base without looking at the VMAs that may be there.

A range is a set of natural numbers here: where an address plus the length exceeds `2 ^ 32`, the
range does not wrap around to the bottom of the address space.

## Main definitions

* `Clear s m addr len` — no VMA of `m` meets the `len` bytes from `addr`
* `TopdownSafe s m addr len` — when the search from above does no harm

## Main results

* `genericGetUnmappedArea_clear` — the search from below returns a free place
* `unmappedArea_clear_iff` — the two searches, and what it means for `mmap_region`
-/

namespace MinimalKernel.Mm

open Lib List VmState

variable {s s' : VmState} {m : MmId} {v : VmaId} {addr len r : ℕ}

/-- No VMA of `m` meets the `len` bytes from `addr`. -/
def Clear (s : VmState) (m : MmId) (addr len : ℕ) : Prop :=
  ∀ x, addr ≤ x → x < addr + len → ∀ v ∈ (s.mm m).mmap, ¬ (s.lo v ≤ x ∧ x < s.hi v)

/-- An address space with an up-to-date `highest_vm_end`. -/
structure Searchable (s : VmState) (m : MmId) : Prop extends Coherent s m where
  highest : (s.mm m).highestVmEnd = lastEnd s m

theorem Searchable.hi_le (h : Searchable s m) (hv : v ∈ (s.mm m).mmap) :
    s.hi v ≤ (s.mm m).highestVmEnd := by
  rw [h.highest, lastEnd]
  rcases hl : (s.mm m).mmap.getLast? with _ | w
  · rw [List.getLast?_eq_none_iff.1 hl] at hv
    simp at hv
  · exact (h.ordered.le_getLast? hl hv).2

/-- Behind the last VMA everything is free. -/
theorem Searchable.clear_of_highest_le (h : Searchable s m) (hr : (s.mm m).highestVmEnd ≤ r) :
    Clear s m r len := by
  intro x hx _ v hv hvx
  have := h.hi_le hv
  omega

theorem Searchable.highest_le_taskSize (h : Searchable s m) : (s.mm m).highestVmEnd ≤ taskSize := by
  rw [h.highest, lastEnd]
  rcases hl : (s.mm m).mmap.getLast? with _ | w
  · exact Nat.zero_le _
  · exact h.bounded w (mem_of_getLast? hl)

/-! ### The requested address -/

theorem vmStartGap_le (a : VmArea) : vmStartGap a ≤ a.vmStart := by
  unfold vmStartGap
  dsimp only
  split_ifs <;> omega

/-- An address that the caller asked for is taken only if it is free. -/
theorem tryHint_spec (h : Searchable s m) (hlen : len ≤ taskSize - mmapMinAddr) (addr : ℕ) :
    ∃ tk, (tryHint s m addr len).2 = s.setTasks tk ∧
      ∀ r ∈ (tryHint s m addr len).1, Clear s m r len := by
  unfold tryHint
  split_ifs with hzero
  · exact ⟨s.task, rfl, by simp⟩
  obtain ⟨tk, hf, -⟩ := findVma_eq h.toCoherent (pageAlign addr)
  simp only [findVmaPrev, hf]
  split_ifs with hcond
  · refine ⟨tk, rfl, ?_⟩
    rintro r ⟨⟩
    obtain ⟨hle, -, hvma, -⟩ := hcond
    have htask : taskSize < wordSize := by decide
    have hlen' : len ≤ taskSize := hlen.trans (Nat.sub_le _ _)
    rw [wsub_of_le hlen' htask] at hle
    intro x hx hxlen v hv hvx
    rcases hfirst : (s.mm m).mmap.find? fun v => pageAlign addr < s.hi v with _ | w
    · have hnone : s.hi v ≤ pageAlign addr := by simpa using List.find?_eq_none.1 hfirst v hv
      omega
    · have hgap := hvma w hfirst
      rw [wadd_of_lt (by omega)] at hgap
      have hstart : vmStartGap (s.vma w) ≤ s.lo w := vmStartGap_le (s.vma w)
      have := h.ordered.lo_le_of_find? hfirst hv (by omega)
      change pageAlign addr + len ≤ vmStartGap (s.vma w) at hgap
      omega
  · exact ⟨tk, rfl, by simp⟩

/-! ### The search from below -/

theorem unmappedArea_clear (h : Searchable s m) {low : ℕ}
    (hr : isErrValue (unmappedArea (s.mm m) ⟨false, len, low, taskSize, 0, 0⟩) = false) :
    Clear s m (unmappedArea (s.mm m) ⟨false, len, low, taskSize, 0, 0⟩) len := by
  have htask : taskSize < wordSize := by decide
  have hhigh := h.highest_le_taskSize
  unfold unmappedArea at hr ⊢
  dsimp only at hr ⊢
  split_ifs at hr ⊢ with hlen hlow hend
  · simp [isErrValue_errWord] at hr
  · simp [isErrValue_errWord] at hr
  · simp [isErrValue_errWord] at hr
  · rw [wsub_of_le (by omega) htask] at hlow
    rw [Nat.and_zero, wadd_of_lt (by omega)]
    exact h.clear_of_highest_le (by omega)

/-- **The search from below** returns a free place. -/
theorem genericGetUnmappedArea_clear (h : Searchable s m)
    (hr : genericGetUnmappedArea s m addr len false = (r, s')) (hok : isErrValue r = false) :
    Clear s m r len := by
  unfold genericGetUnmappedArea at hr
  simp only [Bool.false_eq_true, if_false] at hr
  split_ifs at hr with hlen
  · cases hr
    simp [isErrValue_errWord] at hok
  obtain ⟨tk, hs, hclear⟩ := tryHint_spec h (not_lt.1 hlen) addr
  rcases hh : tryHint s m addr len with ⟨_ | a, s₁⟩ <;> rw [hh] at hr hs hclear
  · obtain rfl : s₁ = s.setTasks tk := hs
    cases hr
    exact unmappedArea_clear h hok
  · cases hr
    exact hclear _ rfl

/-! ### The search from above -/

/-- The end of the place that the search from above looks at. -/
def topdownEnd (mm : MmStruct) : ℕ :=
  if mm.highestVmEnd ≤ mm.mmapBase then mm.highestVmEnd else mm.mmapBase

/-- The search from above comes up with a page-aligned place; otherwise the search from below is
tried. -/
def TopdownFinds (mm : MmStruct) (len : ℕ) : Prop :=
  len ≤ mm.mmapBase ∧ mmapMinAddr ≤ mm.mmapBase - len ∧
    mmapMinAddr ≤ wsub (topdownEnd mm) len ∧ offsetInPage (wsub (topdownEnd mm) len) = 0

/-- The search from above does no harm: the requested address is taken; or the search comes up with
nothing; or the last VMA ends below the mmap base and before `len`, so that the subtraction wraps;
or the last VMA ends above the mmap base, and the place below the base is free. -/
def TopdownSafe (s : VmState) (m : MmId) (addr len : ℕ) : Prop :=
  (tryHint s m addr len).1.isSome ∨ ¬ TopdownFinds (s.mm m) len ∨
    ((s.mm m).highestVmEnd ≤ (s.mm m).mmapBase ∧ ((s.mm m).highestVmEnd < len ∨ len = 0)) ∨
    ((s.mm m).mmapBase < (s.mm m).highestVmEnd ∧ Clear s m ((s.mm m).mmapBase - len) len)

/-- The value of `unmapped_area_topdown` for the limits of the search from above. -/
theorem unmappedAreaTopdown_cases {mm : MmStruct} (hbase : mm.mmapBase < wordSize) (len : ℕ) :
    let r := unmappedAreaTopdown mm ⟨true, len, max pageSize mmapMinAddr, mm.mmapBase, 0, 0⟩
    (TopdownFinds mm len ∧ r = wsub (topdownEnd mm) len ∧ offsetInPage r = 0) ∨
      (¬ TopdownFinds mm len ∧ offsetInPage r ≠ 0) := by
  have hmax : max pageSize mmapMinAddr = mmapMinAddr := by decide
  have herr : offsetInPage (errWord .ENOMEM) ≠ 0 := by decide
  have hword : wsub (topdownEnd mm) len < wordSize := Nat.mod_lt _ (by decide)
  have halign : wsub (wsub (topdownEnd mm) len) (wsub (wsub (topdownEnd mm) len) 0 &&& 0)
      = wsub (topdownEnd mm) len := by
    rw [Nat.and_zero, wsub_of_le (Nat.zero_le _) hword, Nat.sub_zero]
  dsimp only
  unfold unmappedAreaTopdown
  dsimp only
  rw [← topdownEnd, halign, hmax]
  split_ifs with hlen hlow hgap
  · exact .inr ⟨fun hf => absurd hf.1 (not_le.2 hlen), herr⟩
  · rw [wsub_of_le (not_lt.1 hlen) hbase] at hlow
    exact .inr ⟨fun hf => absurd hf.2.1 (not_le.2 hlow), herr⟩
  · exact .inr ⟨fun hf => absurd hf.2.2.1 (not_le.2 hgap), herr⟩
  · rw [wsub_of_le (not_lt.1 hlen) hbase] at hlow
    by_cases hoff : offsetInPage (wsub (topdownEnd mm) len) = 0
    · exact .inl ⟨⟨not_lt.1 hlen, not_lt.1 hlow, not_lt.1 hgap, hoff⟩, rfl, hoff⟩
    · exact .inr ⟨fun hf => hoff hf.2.2.2, hoff⟩

/-- The place that ends with the last VMA is not free. -/
theorem Searchable.not_clear_below_highest (h : Searchable s m) (hlen : 0 < len)
    (hle : len ≤ (s.mm m).highestVmEnd) : ¬ Clear s m ((s.mm m).highestVmEnd - len) len := by
  intro hclear
  have hhigh := h.highest
  rw [lastEnd] at hhigh
  rcases hl : (s.mm m).mmap.getLast? with _ | w
  · rw [hl, Option.elim_none] at hhigh
    omega
  · rw [hl, Option.elim_some] at hhigh
    have hw := mem_of_getLast? hl
    have hlt := h.ordered.lt w hw
    exact hclear ((s.mm m).highestVmEnd - 1) (by omega) (by omega) w hw (by omega)

/-- The place that the search from above comes up with is free only by accident. -/
theorem clear_topdown_iff (h : Searchable s m) (hbase : (s.mm m).mmapBase < wordSize)
    (hf : TopdownFinds (s.mm m) len) :
    Clear s m (wsub (topdownEnd (s.mm m)) len) len ↔
      ((s.mm m).highestVmEnd ≤ (s.mm m).mmapBase ∧ ((s.mm m).highestVmEnd < len ∨ len = 0)) ∨
      ((s.mm m).mmapBase < (s.mm m).highestVmEnd ∧ Clear s m ((s.mm m).mmapBase - len) len) := by
  have hlen := hf.1
  unfold topdownEnd
  split_ifs with hle
  · have hnot : ¬ (s.mm m).mmapBase < (s.mm m).highestVmEnd := not_lt.2 hle
    simp only [hle, hnot, true_and, false_and, or_false]
    by_cases hwrap : (s.mm m).highestVmEnd < len
    · rw [wsub_of_lt hwrap (by omega)]
      exact ⟨fun _ => .inl hwrap, fun _ => h.clear_of_highest_le (by omega)⟩
    · rw [wsub_of_le (not_lt.1 hwrap) (by omega)]
      constructor
      · intro hclear
        by_contra hpos
        exact h.not_clear_below_highest (by omega) (not_lt.1 hwrap) hclear
      · rintro (hlt | rfl)
        · exact absurd hlt hwrap
        · intro x hx hx'
          omega
  · rw [wsub_of_le hlen hbase]
    simp only [hle, false_and, false_or, not_le.1 hle, true_and]

/-- **The search from above** returns a free place exactly when it does no harm. -/
theorem genericGetUnmappedAreaTopdown_clear_iff (h : Searchable s m)
    (hbase : (s.mm m).mmapBase < wordSize)
    (hr : genericGetUnmappedAreaTopdown s m addr len false = (r, s'))
    (hok : isErrValue r = false) : Clear s m r len ↔ TopdownSafe s m addr len := by
  unfold genericGetUnmappedAreaTopdown at hr
  simp only [Bool.false_eq_true, if_false] at hr
  split_ifs at hr with hlen
  · cases hr
    simp [isErrValue_errWord] at hok
  obtain ⟨tk, hs, hclear⟩ := tryHint_spec h (not_lt.1 hlen) addr
  unfold TopdownSafe
  rcases hh : tryHint s m addr len with ⟨_ | a, s₁⟩ <;> rw [hh] at hr hs hclear
  · obtain rfl : s₁ = s.setTasks tk := hs
    simp only [setTasks_mm, vmUnmappedArea, if_true, Bool.false_eq_true, if_false,
      Option.isSome_none, false_or] at hr ⊢
    rcases unmappedAreaTopdown_cases hbase len with ⟨hf, hval, hoff⟩ | ⟨hf, hoff⟩
    · simp only [hoff, ne_eq, not_true_eq_false, if_false, Prod.mk.injEq] at hr
      rw [← hr.1, hval, clear_topdown_iff h hbase hf]
      simp only [hf, not_true_eq_false, false_or]
    · rw [if_pos hoff] at hr
      cases hr
      exact ⟨fun _ => .inl hf, fun _ => unmappedArea_clear h hok⟩
  · cases hr
    exact ⟨fun _ => .inl rfl, fun _ => hclear _ rfl⟩

/-! ### Mapping at the place that was found -/

/-- What was mapped stays mapped when its VMAs stay as they are. -/
theorem mapping_eq_of_kept (h : Coherent s m) (h' : Coherent s' m)
    (hmem : ∀ w ∈ (s.mm m).mmap, w ∈ (s'.mm m).mmap ∧ s'.vma w = s.vma w) {x : ℕ}
    (hx : (mapping s m x).isSome) : mapping s' m x = mapping s m x := by
  rcases hat : at? s.lo s.hi (s.mm m).mmap x with _ | w
  · rw [mapping, hat] at hx
    simp at hx
  · obtain ⟨hw, hwx⟩ := h.ordered.at?_eq_some.1 hat
    obtain ⟨hw', hvma⟩ := hmem w hw
    rw [mapping_eq_of_mem h.ordered hw hwx,
      mapping_eq_of_mem h'.ordered hw' (by rwa [lo, hi, hvma]), hvma]

/-- Where the place is clear, there is nothing to unmap. -/
theorem munmapVmaRange_of_clear (h : Coherent s m) (hlen : 0 < len)
    (hle : addr + len ≤ taskSize) (hclear : Clear s m addr len) :
    ∃ place prev, munmapVmaRange s m addr len = .ok (.ok (place, prev), s) ∧
      Room s m addr (addr + len) place prev := by
  have hend := wadd_of_user hle
  unfold munmapVmaRange munmapVmaRangeLoop
  rw [hend]
  rcases hlinks : findVmaLinks s m addr (addr + len) with _ | ⟨place, prev⟩
  · obtain ⟨v, hv, hhi, hlo⟩ := findVmaLinks_eq_none h hlinks
    have hlt := h.ordered.lt v hv
    exact absurd (show s.lo v ≤ max addr (s.lo v) ∧ max addr (s.lo v) < s.hi v by omega)
      (hclear _ (by omega) (by omega) v hv)
  · obtain ⟨hmmap, hprev, hbefore, hafter⟩ := findVmaLinks_eq_some h hlinks
    exact ⟨place, prev, rfl, hmmap, hprev, hbefore, fun v hv => (hafter v hv).2⟩

/-- Linking a new VMA leaves the others as they are. -/
theorem kept_of_link_new {place : Path VmaId} {prev : Option VmaId} {a₀ a : VmArea}
    {endAddr : ℕ} {s₁ : VmState} (h : Coherent s m) (hroom : Room s m addr endAddr place prev)
    (hnew : s.newVma a₀ = (some v, s₁)) {w : VmaId} (hw : w ∈ (s.mm m).mmap) :
    w ∈ ((vmaLink (s₁.setVma v a) m v prev place).mm m).mmap ∧
      (vmaLink (s₁.setVma v a) m v prev place).vma w = s.vma w := by
  obtain ⟨hv, hq, -, -⟩ := newVma_some hnew
  have hq' : Quiet s (s₁.setVma v a) := hq.setVma hv.ge a
  constructor
  · rw [vmaLink_mm, Function.update_self, hq'.mm, hroom.mmap, hroom.prev,
      insertAfter_getLast? (hroom.mmap ▸ h.ordered.nodup), mem_append, mem_cons]
    rw [hroom.mmap, mem_append] at hw
    tauto
  · rw [vmaLink_vma]
    exact hq'.vma w (h.allocated w hw)

/-- **`mmap_region` at a free place** replaces no mapping. -/
theorem mmapRegion_keeps (h : Sound s m) (hlen : 0 < len) (hle : addr + len ≤ taskSize)
    (hclear : Clear s m addr len) {file : Option FileId} {vmFlags : VmFlags} {pgoff a : ℕ}
    (hr : mmapRegion s file addr len vmFlags pgoff = .ok (.ok a, s')) {x : ℕ}
    (hx : (mapping s m x).isSome) : mapping s' m x = mapping s m x := by
  have h' := h.mmapRegion hlen hle hr
  obtain ⟨place, prev, hmu, hroom⟩ := munmapVmaRange_of_clear h.toCoherent hlen hle hclear
  refine mapping_eq_of_kept h.toCoherent h'.toCoherent (fun w hw => ?_) hx
  unfold mmapRegion at hr
  rw [h.active] at hr
  dsimp only at hr
  rw [hmu] at hr
  dsimp only at hr
  rcases hal : vmAreaAlloc s m with ⟨_ | v, s₁⟩ <;> rw [hal] at hr
  · cases hr
  cases file with
  | none =>
    cases hr
    exact kept_of_link_new h.toCoherent hroom hal hw
  | some f =>
    dsimp only at hr
    rcases hops : s₁.fileMmap f with _ | ops <;> rw [hops] at hr <;> cases hr
    exact kept_of_link_new h.toCoherent hroom hal hw

/-- **The search for an unmapped area.** The search from below returns a free place, and the search
from above does so if and only if it does no harm in the sense of `TopdownSafe`. At a free place
`mmap_region` replaces no mapping. -/
theorem unmappedArea_clear_iff (h : Sound s m) (hbase : (s.mm m).mmapBase < wordSize)
    (addr len : ℕ) :
    (∀ r s', genericGetUnmappedArea s m addr len false = (r, s') → isErrValue r = false →
      Clear s m r len) ∧
    (∀ r s', genericGetUnmappedAreaTopdown s m addr len false = (r, s') →
      isErrValue r = false → (Clear s m r len ↔ TopdownSafe s m addr len)) ∧
    ∀ r, Clear s m r len → 0 < len → r + len ≤ taskSize →
      ∀ file vmFlags pgoff a s', mmapRegion s file r len vmFlags pgoff = .ok (.ok a, s') →
        ∀ x, (mapping s m x).isSome → mapping s' m x = mapping s m x := by
  have hs : Searchable s m := ⟨h.toCoherent, h.highest⟩
  refine ⟨fun r s' hr hok => genericGetUnmappedArea_clear hs hr hok, fun r s' hr hok =>
    genericGetUnmappedAreaTopdown_clear_iff hs hbase hr hok, ?_⟩
  intro r hclear hlen hle file vmFlags pgoff a s' hr x hx
  exact mmapRegion_keeps h hlen hle hclear hr hx

theorem sound_twoVmas : Sound twoVmas 0 := ⟨coherent_twoVmas, rfl, rfl, rfl⟩

/-- A free address that the caller asks for is returned. -/
theorem unmappedArea_clear_hint :
    (genericGetUnmappedAreaTopdown twoVmas 0 0x20000 0x1000 false).1 = 0x20000 ∧
      Clear twoVmas 0 0x20000 0x1000 :=
  ⟨rfl, ((unmappedArea_clear_iff sound_twoVmas (by decide) 0x20000 0x1000).2.1 _ _ rfl rfl).2
    (.inl rfl)⟩

/-- **The last VMA is replaced.** Without a requested address the search from above returns the
place of the last VMA, and mapping a read-only page there replaces the writable one. -/
theorem topdown_returns_last_vma :
    Sound twoVmas 0 ∧
      (genericGetUnmappedAreaTopdown twoVmas 0 0 0x1000 false).1 = 0x10000 ∧
      isErrValue 0x10000 = false ∧ ¬ Clear twoVmas 0 0x10000 0x1000 ∧
      ∃ s', mmapRegion twoVmas none 0x10000 0x1000 vmRead 0x10 = .ok (.ok 0x10000, s') ∧
        mapping twoVmas 0 0x10000 = some (vmRead ||| vmWrite, none, 0x10) ∧
        mapping s' 0 0x10000 = some (vmRead, none, 0x10) := by
  refine ⟨sound_twoVmas, by decide +kernel, rfl, fun hclear => ?_, _, rfl, rfl, rfl⟩
  exact hclear 0x10000 le_rfl (by decide) 1 (by decide) (by decide)

end MinimalKernel.Mm
