import MinimalKernel.Mm.Munmap

/-!
# Well-formed address spaces

The representation invariant of an address space: besides coherence, the two summaries `map_count`
and `highest_vm_end` are up to date. Each operation of `mm/mmap.c` has a lemma here that says when
it keeps the invariant.

Mapping, unmapping, inserting and growing a stack keep it. `do_brk_flags` does not always: when the
new area is appended to the VMA before it, `__vma_adjust` moves the end of that VMA without looking
at `highest_vm_end`, and when the area is merged on both sides the VMA behind it stays in the list.
`BrkSafe` excludes these two cases.

## Main definitions

* `WellFormed s m` — the representation invariant
* `Sound s m` — the invariant that the operations keep, which includes it
* `MergeSafe`, `BrkSafe` — the heap area is not appended to the last VMA, nor merged on both sides

## Main results

* `MunmapOutcome.sound`, `Sound.munmapVmaRange` — unmapping, and making room for an area
* `Sound.mmapRegion`, `Sound.doBrkFlags`, `Sound.installVma`, `Sound.expandDownwards`
* `munmapVmaRange_cases` — the loop that makes room ends
-/

namespace MinimalKernel.Mm

open Function Lib List Option VmArea VmState

variable {s s' s'' : VmState} {m : MmId} {v w : VmaId} {addr len start endAddr : ℕ}
  {heap : VmaId → VmArea} {f : VmArea → VmArea} {prev : Option VmaId} {place : Path VmaId}
  {a : VmArea} {r : Except Errno ℕ} {flags : VmFlags}

/-! ### The invariant -/

/-- The end of the last VMA. -/
def lastEnd (s : VmState) (m : MmId) : ℕ := (s.mm m).mmap.getLast?.elim 0 s.hi

/-- The VMAs of `m` are well formed. -/
structure WellFormed (s : VmState) (m : MmId) : Prop where
  /-- The list is sorted, and its VMAs are non-empty and disjoint. -/
  ordered : Ordered s.lo s.hi (s.mm m).mmap
  /-- The tree holds the VMAs of the list, in the same order. -/
  rb : (s.mm m).mmRb.toList = (s.mm m).mmap
  /-- `map_count` is the number of VMAs. -/
  mapCount : (s.mm m).mapCount = (s.mm m).mmap.length
  /-- `highest_vm_end` is the end of the last VMA. -/
  highest : (s.mm m).highestVmEnd = lastEnd s m

/-- The invariant of the runs: the address space of the current task is coherent and its summaries
are up to date. -/
structure Sound (s : VmState) (m : MmId) : Prop extends Coherent s m where
  mapCount : (s.mm m).mapCount = (s.mm m).mmap.length
  highest : (s.mm m).highestVmEnd = lastEnd s m
  active : s.currentMm = some m

theorem Sound.wellFormed (h : Sound s m) : WellFormed s m :=
  { h with }

theorem Rewrites.currentMm_eq (hr : Rewrites heap s s') : s'.currentMm = s.currentMm := by
  rw [currentMm, hr.current, hr.taskMm, currentMm]

section

variable (h : Sound s m)
include h

/-- A rewriting that keeps the end of the last VMA keeps the summaries. -/
theorem Sound.of_rewrites (hr : Rewrites heap s s') (hc : Coherent s' m)
    (hlast : ∀ v, (s.mm m).mmap.getLast? = some v → (heap v).vmEnd = s.hi v) : Sound s' m := by
  refine ⟨hc, ?_, ?_, hr.currentMm_eq.trans h.active⟩
  · rw [hr.mm, h.mapCount]
  · rw [hr.mm, h.highest, lastEnd, lastEnd, hr.mm]
    rcases hl : (s.mm m).mmap.getLast? with _ | v
    · rfl
    · rw [elim_some, elim_some, hr.hi_eq (h.allocated v (mem_of_getLast? hl)), hlast v hl]

theorem Sound.of_quiet (hq : Quiet s s') : Sound s' m :=
  h.of_rewrites hq (h.toCoherent.of_quiet hq) fun _ _ => rfl

/-! ### Unmapping -/

theorem Sound.detached {kept gone left : List VmaId}
    (hmmap : (s.mm m).mmap = kept ++ (gone ++ left)) : Sound (detached s m kept gone left) m := by
  refine ⟨h.toCoherent.detached hmmap, ?_, ?_, h.active⟩
  · rw [detached_mm_self, h.mapCount, hmmap]
    simp
    omega
  · rw [lastEnd, detached_mm_self]
    by_cases hl : left = []
    · subst hl
      rw [if_pos rfl, append_nil]
      rfl
    · have hlast : ∀ l : List VmaId, (l ++ left).getLast? = left.getLast? := fun l => by
        rw [getLast?_append, or_of_isSome (by simpa using hl)]
      rw [if_neg hl, h.highest, lastEnd, hmmap, ← append_assoc, hlast, hlast]
      rfl

theorem Sound.unlinkFileVmas (vs : List VmaId) : Sound (unlinkFileVmas s vs) m := by
  refine ⟨h.toCoherent.unlinkFileVmas vs, ?_, ?_, ?_⟩
  · rw [unlinkFileVmas_mm]
    exact h.mapCount
  · rw [lastEnd, unlinkFileVmas_mm, unlinkFileVmas_hi]
    exact h.highest
  · obtain ⟨imap, corrupt, hu⟩ := unlinkFileVmas_eq s vs
    rw [hu]
    exact h.active

end

/-- A VMA that begins in the range or behind it keeps its end. -/
theorem cutBoth_vmEnd (ha : start ≤ a.vmStart) :
    ((cutEnd endAddr ∘ cutStart start) a).vmEnd = a.vmEnd := by
  rw [cutBoth_of_le ha, cutEnd]
  split <;> rfl

/-- **Unmapping keeps the invariant**, whatever it returns. -/
theorem MunmapOutcome.sound (h : Sound s m) (ho : MunmapOutcome s m start endAddr (.ok (r, s'))) :
    Sound s' m := by
  have hc := ho.coherent h.toCoherent
  cases ho with
  | refused hq | nothing _ _ hq => exact h.of_quiet hq
  | halfway hcut hbehind =>
    obtain ⟨w, hw, hlo⟩ := hbehind
    refine h.of_rewrites hcut hc fun v hv => ?_
    have hle := (h.ordered.le_getLast? hv hw).1
    have hcs : (s.vma v).cutStart start = s.vma v := if_neg fun hlt =>
      absurd hlt.1 (not_lt.2 (hlo.trans hle))
    rw [mapVmas_of_mem (mem_of_getLast? hv), hcs]
    rfl
  | @done _ s₂ kept gone left v hrange _ hmmap _ hbehind _ _ hcut =>
    have h₂ : Sound s₂ m := by
      refine h.of_rewrites hcut (h.toCoherent.of_mapVmas hcut
        (cutBoth_part start endAddr)) fun w hw => ?_
      have hle := (h.ordered.le_getLast? hw (b := v) (by simp [hmmap])).1
      rw [mapVmas_of_mem (mem_of_getLast? hw)]
      exact cutBoth_vmEnd ((hbehind v (by simp)).trans hle)
    exact (h₂.detached (by rw [hcut.mm, hmmap, cons_append])).unlinkFileVmas _

/-- After a successful unmapping no VMA meets the range. -/
theorem MunmapOutcome.free {r : ℕ} (h : Coherent s m)
    (ho : MunmapOutcome s m start endAddr (.ok (.ok r, s'))) :
    ∀ v ∈ (s'.mm m).mmap, ¬ Meets s' v start endAddr := by
  have hc := ho.coherent h
  cases ho with
  | nothing hrange hfree hq =>
    rw [hq.mm]
    intro v hv hm
    refine hfree v hv ?_
    rwa [Meets, hq.hi_eq (h.allocated v hv), hq.lo_eq (h.allocated v hv)] at hm
  | done hrange hmeets hmmap hbelow hbehind hinside hbeyond hcut =>
    have hu := Unmapped.of_done h hrange hmmap hbelow hbehind hinside hbeyond hcut
    exact fun w hw => hu.free h hc hw

/-! ### Making room -/

theorem wadd_of_user (h : addr + len ≤ taskSize) : wadd addr len = addr + len :=
  wadd_of_lt (h.trans_lt (by decide))

/-- The place that `munmap_vma_range` finds for the area from `addr` to `endAddr`. -/
structure Room (s : VmState) (m : MmId) (addr endAddr : ℕ) (place : Path VmaId)
    (prev : Option VmaId) : Prop where
  mmap : (s.mm m).mmap = place.before ++ place.after
  prev : prev = place.before.getLast?
  before : ∀ v ∈ place.before, s.hi v ≤ addr
  after : ∀ v ∈ place.after, endAddr ≤ s.lo v

/-- **Making room for an area**: at most one unmapping, after which nothing overlaps the area. In
particular the loop ends; it can only fail with the null pointer that `__do_munmap` may follow. -/
theorem munmapVmaRange_cases (h : Coherent s m) (hle : addr + len ≤ taskSize) :
    match munmapVmaRange s m addr len with
    | .error e => e = .nullDeref
    | .ok (r, s') => (s' = s ∨ ∃ r', doMunmap s m addr len false = .ok (r', s')) ∧
        ∀ place prev, r = .ok (place, prev) → Room s' m addr (addr + len) place prev := by
  have hend := wadd_of_user hle
  have halign : len ≤ pageAlign len := by
    have : taskSize + pageSize ≤ wordSize := by decide
    exact le_pageAlign (by omega)
  have hroom : ∀ {s' : VmState} {place : Path VmaId} {prev : Option VmaId}, Coherent s' m →
      findVmaLinks s' m addr (addr + len) = some (place, prev) →
      Room s' m addr (addr + len) place prev := by
    intro s' place prev h' hlinks
    obtain ⟨hmmap, hprev, hbefore, hafter⟩ := findVmaLinks_eq_some h' hlinks
    exact ⟨hmmap, hprev, hbefore, fun v hv => (hafter v hv).2⟩
  unfold munmapVmaRange munmapVmaRangeLoop
  rw [hend]
  rcases hlinks : findVmaLinks s m addr (addr + len) with _ | ⟨place, prev⟩
  · have ho := doMunmap_outcome h addr len false
    dsimp only
    rcases hd : doMunmap s m addr len false with e | ⟨e | r, s₁⟩ <;> rw [hd] at ho
    · cases ho
      rfl
    · exact ⟨.inr ⟨_, rfl⟩, by simp⟩
    · -- one successful unmapping makes room
      dsimp only
      unfold munmapVmaRangeLoop
      rw [hend]
      rcases hlinks' : findVmaLinks s₁ m addr (addr + len) with _ | ⟨place, prev⟩
      · obtain ⟨v, hv, hhi, hlo⟩ := findVmaLinks_eq_none (ho.coherent h) hlinks'
        exact absurd ⟨hhi, hlo.trans_le (by omega)⟩ (ho.free h v hv)
      · refine ⟨.inr ⟨_, rfl⟩, fun place' prev' hp => ?_⟩
        cases hp
        exact hroom (ho.coherent h) hlinks'
  · refine ⟨.inl rfl, fun place' prev' hp => ?_⟩
    cases hp
    exact hroom h hlinks

theorem Sound.munmapVmaRange (h : Sound s m) (hle : addr + len ≤ taskSize)
    {r : Except Errno (Path VmaId × Option VmaId)}
    (hr : munmapVmaRange s m addr len = .ok (r, s')) : Sound s' m ∧
      ∀ place prev, r = .ok (place, prev) → Room s' m addr (addr + len) place prev := by
  have hcases := munmapVmaRange_cases h.toCoherent hle
  rw [hr] at hcases
  refine ⟨?_, hcases.2⟩
  rcases hcases.1 with rfl | ⟨r', hd⟩
  · exact h
  · have ho := doMunmap_outcome h.toCoherent addr len false
    rw [hd] at ho
    exact ho.sound h

/-! ### Linking a new VMA -/

variable {l₁ l₂ : List VmaId}

theorem nextOf_eq_none_iff (h : v ∉ l₁) : nextOf (l₁ ++ v :: l₂) v = none ↔ l₂ = [] := by
  rw [nextOf_append_cons h, head?_eq_none_iff]

/-- **Linking keeps the invariant.** -/
theorem Sound.vmaLink (h : Sound s m) (hf : Fits s m v prev place) (hlt : s.lo v < s.hi v)
    (hb : s.hi v ≤ taskSize) (hm : (s.vma v).vmMm = m) (hn : v < s.nextVma) :
    Sound (vmaLink s m v prev place) m := by
  have hc := h.toCoherent.vmaLink hf hlt hb hm hn
  have hmmap : insertAfter (s.mm m).mmap prev v = place.before ++ v :: place.after :=
    hf.insertAfter_eq h.toCoherent
  have hv : v ∉ place.before := by
    intro hv
    have := hf.before v hv
    omega
  have hhi : (Mm.vmaLink s m v prev place).hi = s.hi := by
    funext w
    rw [hi, vmaLink_vma, hi]
  refine ⟨hc, ?_, ?_, ?_⟩
  · rw [vmaLink_mm, update_self, hmmap, h.mapCount, hf.mmap]
    simp
    omega
  · rw [lastEnd, hhi, vmaLink_mm, update_self]
    simp only [hmmap, nextOf_eq_none_iff hv]
    rw [h.highest, lastEnd, hf.mmap]
    split_ifs with hnil
    · simp [hnil]
    · rw [getLast?_append, getLast?_append, getLast?_cons, or_of_isSome (by simpa using hnil)]
      rcases hl : place.after.getLast? with _ | w
      · exact absurd (getLast?_eq_none_iff.1 hl) hnil
      · simp
  · rw [vmaLink_currentMm]
    exact h.active

theorem Room.of_quiet (h : Coherent s m) (hq : Quiet s s')
    (hroom : Room s m addr endAddr place prev) : Room s' m addr endAddr place prev := by
  have halloc : ∀ w ∈ place.before ++ place.after, w < s.nextVma := fun w hw =>
    h.allocated w (hroom.mmap ▸ hw)
  refine ⟨by rw [hq.mm, hroom.mmap], hroom.prev, fun w hw => ?_, fun w hw => ?_⟩
  · rw [hq.hi_eq (halloc w (mem_append_left _ hw))]
    exact hroom.before w hw
  · rw [hq.lo_eq (halloc w (mem_append_right _ hw))]
    exact hroom.after w hw

/-- A VMA that is not linked yet and fills the room that has been made. -/
theorem Sound.link_new (h : Sound s m) (hv : v ∉ (s.mm m).mmap) (hn : v < s.nextVma)
    (hroom : Room s m addr endAddr place prev) (hstart : a.vmStart = addr)
    (hend : a.vmEnd = endAddr) (hm : a.vmMm = m) (hlt : addr < endAddr) (hle : endAddr ≤ taskSize) :
    Sound (Mm.vmaLink (s.setVma v a) m v prev place) m := by
  have hne : ∀ w ∈ (s.mm m).mmap, (s.setVma v a).vma w = s.vma w := fun w hw =>
    update_of_ne (fun hwv : w = v => hv (hwv ▸ hw)) _ _
  have hr : Rewrites (update s.vma v a) s (s.setVma v a) :=
    Rewrites.setVma (Quiet.refl s) a
  have hs : Sound (s.setVma v a) m := by
    refine h.of_rewrites hr (h.toCoherent.of_rewrites hr (h.ordered.congr fun w hw => ?_)
      fun w hw => ?_) fun w hw => ?_
    · exact ⟨congrArg vmStart (hne w hw), congrArg vmEnd (hne w hw)⟩
    · exact ⟨(congrArg vmEnd (hne w hw)).trans_le (h.bounded w hw),
        (congrArg vmMm (hne w hw)).trans (h.owned w hw)⟩
    · exact congrArg vmEnd (hne w (mem_of_getLast? hw))
  have hlo : (s.setVma v a).lo v = addr := by simp [lo, setVma, hstart]
  have hhi : (s.setVma v a).hi v = endAddr := by simp [hi, setVma, hend]
  refine hs.vmaLink ⟨hroom.mmap, hroom.prev, fun w hw => ?_, fun w hw => ?_⟩
    (by rw [hlo, hhi]; exact hlt) (by rw [hhi]; exact hle) (by simp [setVma, hm]) hn
  · rw [hlo, hi, hne w (hroom.mmap ▸ mem_append_left _ hw)]
    exact hroom.before w hw
  · rw [hhi, lo, hne w (hroom.mmap ▸ mem_append_right _ hw)]
    exact hroom.after w hw

/-- A VMA object that has just been allocated is linked nowhere. -/
theorem Coherent.not_mem_of_new (h : Coherent s m) (hnew : s.newVma a = (some v, s')) :
    v ∉ (s'.mm m).mmap ∧ v < s'.nextVma := by
  obtain ⟨hv, hq, -, hnext⟩ := newVma_some hnew
  refine ⟨fun hmem => ?_, hnext ▸ Nat.lt_succ_self v⟩
  exact (h.allocated v (hq.mm ▸ hmem)).ne hv

/-- **`mmap_region` keeps the invariant.** -/
theorem Sound.mmapRegion {file : Option FileId} {vmFlags : VmFlags} {pgoff : ℕ} (h : Sound s m)
    (hlen : 0 < len) (hle : addr + len ≤ taskSize)
    (hr : mmapRegion s file addr len vmFlags pgoff = .ok (r, s')) : Sound s' m := by
  have hend := wadd_of_user hle
  unfold Mm.mmapRegion at hr
  rw [h.active] at hr
  dsimp only at hr
  rcases hmu : Mm.munmapVmaRange s m addr len with e | ⟨e | ⟨place, prev⟩, s₁⟩ <;> rw [hmu] at hr
  · cases hr
  · cases hr
    exact (h.munmapVmaRange hle hmu).1
  obtain ⟨h₁, hroom⟩ := h.munmapVmaRange hle hmu
  have hroom := hroom place prev rfl
  dsimp only at hr
  rcases hal : vmAreaAlloc s₁ m with ⟨_ | v, s₂⟩ <;> rw [hal] at hr
  · cases hr
    exact h₁.of_quiet (newVma_none hal)
  obtain ⟨-, hq, hinit, -⟩ := newVma_some hal
  have hm : (s₂.vma v).vmMm = m := by rw [hinit]; rfl
  obtain ⟨hv, hn⟩ := h₁.toCoherent.not_mem_of_new hal
  have hroom := hroom.of_quiet h₁.toCoherent hq
  dsimp only at hr
  rw [hend] at hr
  cases file with
  | none =>
    cases hr
    exact (h₁.of_quiet hq).link_new hv hn hroom rfl rfl hm (by omega) hle
  | some f =>
    dsimp only at hr
    rcases hops : s₂.fileMmap f with _ | ops <;> rw [hops] at hr <;> cases hr
    · exact h₁.of_quiet hq
    · exact (h₁.of_quiet hq).link_new hv hn hroom rfl rfl hm (by omega) hle

/-! ### Merging -/

/-- A VMA gets new bounds between those of its neighbours; the last VMA keeps its end. -/
theorem Sound.rebound (h : Sound s m) (hmmap : (s.mm m).mmap = l₁ ++ v :: l₂)
    (hr : Rewrites (update s.vma v a) s s') (hm : a.vmMm = m) (hlt : a.vmStart < a.vmEnd)
    (hbefore : ∀ w ∈ l₁, s.hi w ≤ a.vmStart) (hafter : ∀ w ∈ l₂, a.vmEnd ≤ s.lo w)
    (hlast : l₂ = [] → a.vmEnd = s.hi v) : Sound s' m := by
  have hmem : v ∈ (s.mm m).mmap := by simp [hmmap]
  refine h.of_rewrites hr (h.toCoherent.of_rewrites hr ?_ fun w hw => ?_) fun w hw => ?_
  · rw [hmmap]
    refine (hmmap ▸ h.ordered).rebound (by simpa using hlt) (by simpa using hbefore)
      (by simpa using hafter) fun w hw => ?_
    rw [update_of_ne hw]
    exact ⟨rfl, rfl⟩
  · by_cases hwv : w = v
    · subst hwv
      rw [update_self]
      refine ⟨?_, hm⟩
      rcases l₂.eq_nil_or_concat with hnil | ⟨l, u, hu⟩
      · exact (hlast hnil).trans_le (h.bounded w hw)
      · have hmem : u ∈ (s.mm m).mmap := by simp [hmmap, hu]
        have := h.ordered.lt u hmem
        exact (hafter u (by simp [hu])).trans (this.le.trans (h.bounded u hmem))
    · rw [update_of_ne hwv]
      exact ⟨h.bounded w hw, h.owned w hw⟩
  · by_cases hwv : w = v
    · subst hwv
      rw [update_self]
      refine hlast (by_contra fun hne => ?_)
      have hnodup := h.ordered.nodup
      rw [hmmap, nodup_append, nodup_cons] at hnodup
      rw [hmmap, getLast?_append_of_ne_nil _ (by simp), getLast?_cons_of_ne_nil hne] at hw
      exact hnodup.2.1.1 (mem_of_getLast? hw)
    · rw [update_of_ne hwv]
      rfl

/-- Moving the start of a VMA down into the gap before it. -/
theorem Sound.lower (h : Sound s m) (hmmap : (s.mm m).mmap = l₁ ++ v :: l₂)
    (hr : Rewrites (update s.vma v a) s s') (hend : a.vmEnd = s.hi v) (hm : a.vmMm = m)
    (hlt : a.vmStart < s.hi v) (hbefore : ∀ w ∈ l₁, s.hi w ≤ a.vmStart) : Sound s' m := by
  have hord := (Ordered.append_iff.1 (hmmap ▸ h.ordered)).2.1
  refine h.rebound hmmap hr hm (by rwa [hend]) hbefore (fun w hw => ?_) fun _ => hend
  rw [hend]
  exact (Ordered.cons_iff.1 hord).2.2 w hw

/-- The merge of a heap area `[addr, endAddr)` does not go wrong: if the area is appended to the
VMA before it, then another VMA follows, and that one is not merged as well. -/
def MergeSafe (s : VmState) (m : MmId) (prev : Option VmaId) (addr endAddr : ℕ)
    (flags : VmFlags) : Prop :=
  ∀ p, mergesAfter s prev addr flags none none (pageOf addr) = some p →
    (nextOf (s.mm m).mmap p).isSome ∧
      ∀ n, mergesBefore s (mergeNext s m prev endAddr) endAddr flags none none
          (wadd (pageOf addr) (pageOf (wsub endAddr addr))) = some n →
        isMergeableAnonVma (s.vma p).anonVma (s.vma n).anonVma none = false

/-- The merge that a call of `do_brk_flags` comes to does not go wrong. -/
def BrkSafe (s : VmState) (m : MmId) (addr len : ℕ) (flags : VmFlags) : Prop :=
  ∀ place prev s', munmapVmaRange s m addr len = .ok (.ok (place, prev), s') →
    MergeSafe s' m prev addr (wadd addr len) (brkFlags s m flags)

/-- In the room that has been made, the VMA behind the new area is the first one after the gap. -/
theorem Room.mergeNext_eq (h : Coherent s m) (hroom : Room s m addr endAddr place prev) :
    vmaNext s m prev = place.after.head? ∧ mergeNext s m prev endAddr = place.after.head? := by
  have hnext : vmaNext s m prev = place.after.head? := by
    rw [hroom.prev]
    exact vmaNext_getLast? h.ordered.nodup hroom.mmap
  refine ⟨hnext, ?_⟩
  rw [mergeNext, hnext]
  rcases hl : place.after with _ | ⟨w, ws⟩
  · rfl
  · have hw : w ∈ place.after := by simp [hl]
    have hlt := h.ordered.lt w (hroom.mmap ▸ mem_append_right _ hw)
    have hge := hroom.after w hw
    have hne : s.hi w ≠ endAddr := by omega
    simp [hne]

/-- A safe merge keeps the invariant. -/
theorem Sound.vmaMerge (h : Sound s m) (hroom : Room s m addr endAddr place prev)
    (hlt : addr < endAddr) (hsafe : MergeSafe s m prev addr endAddr flags) :
    Sound (vmaMerge s m prev addr endAddr flags none none (pageOf addr)).2 m := by
  obtain ⟨hnext, hmnext⟩ := hroom.mergeNext_eq h.toCoherent
  unfold Mm.vmaMerge
  dsimp only
  split_ifs
  · exact h
  rcases hafter : mergesAfter s prev addr flags none none (pageOf addr) with _ | p
  · -- the area can at most be prepended to the VMA behind it
    rcases hbefore : mergesBefore s (mergeNext s m prev endAddr) endAddr flags none none
      (wadd (pageOf addr) (pageOf (wsub endAddr addr))) with _ | n
    · exact h
    obtain ⟨hn, hcond⟩ := filter_eq_some_iff.1 hbefore
    have hlo : endAddr = s.lo n := (of_decide_eq_true hcond).1
    rw [hmnext] at hn
    obtain ⟨ws, hws⟩ := head?_eq_some_iff.1 hn
    have hprev : prev.filter (fun p => addr < s.hi p) = none := by
      rw [filter_eq_none_iff, hroom.prev]
      intro p hp
      simpa using hroom.before p (mem_of_getLast? hp)
    have hmmap : (s.mm m).mmap = place.before ++ n :: ws := by rw [hroom.mmap, hws]
    have hmem : n ∈ (s.mm m).mmap := by simp [hmmap]
    have hnlt := h.ordered.lt n hmem
    dsimp only
    rw [hprev, hnext, hn, getD_some]
    refine h.lower hmmap
      (Rewrites.setVma (Quiet.refl s) _) rfl (h.owned n hmem) ?_ hroom.before
    change addr < s.hi n
    omega
  · -- the area is appended to `p`, and `hsafe` says that another VMA follows
    obtain ⟨hsome, hboth⟩ := hsafe p hafter
    obtain ⟨hp, hcond⟩ := filter_eq_some_iff.1 hafter
    have hhi : s.hi p = addr := (of_decide_eq_true hcond).1
    have hnone : (mergesBefore s (mergeNext s m prev endAddr) endAddr flags none none
        (wadd (pageOf addr) (pageOf (wsub endAddr addr)))).filter
        (fun n => isMergeableAnonVma (s.vma p).anonVma (s.vma n).anonVma none) = none := by
      rw [filter_eq_none_iff]
      intro n hn
      simpa using hboth n hn
    dsimp only
    rw [hnone]
    rw [hroom.prev] at hp
    obtain ⟨l, hl⟩ := getLast?_eq_some_iff.1 hp
    have hmmap : (s.mm m).mmap = l ++ p :: place.after := by rw [hroom.mmap, hl]; simp
    have hmem : p ∈ (s.mm m).mmap := by simp [hmmap]
    have hplt := h.ordered.lt p hmem
    have hpl : p ∉ l := by
      have := h.ordered.nodup
      rw [hmmap] at this
      exact fun hpl => (nodup_append.1 this).2.2 p hpl p (by simp) rfl
    refine h.rebound hmmap (Rewrites.setVma (Quiet.refl s) _) (h.owned p hmem) ?_ (fun w hw => ?_)
      hroom.after fun hnil => ?_
    · change s.lo p < endAddr
      omega
    · have := (Ordered.append_iff.1 (hmmap ▸ h.ordered)).2.2 w hw p (by simp)
      exact this
    · exfalso
      rw [hmmap, hnil, nextOf_append_cons hpl] at hsome
      simp at hsome

/-- Without a merge nothing changes. -/
theorem vmaMerge_none {anonVma : Option AnonVmaId} {file : Option FileId} {pgoff : ℕ}
    (h : vmaMerge s m prev addr endAddr flags anonVma file pgoff = (none, s')) : s' = s := by
  unfold vmaMerge at h
  dsimp only at h
  split at h
  · cases h
    rfl
  · split at h
    · split at h <;> cases h
    · split at h
      · cases h
        rfl
      · split at h <;> cases h

/-! ### The heap -/

/-- With a fixed address the search for an unmapped area only checks it. -/
theorem getUnmappedArea_fixed (s : VmState) (m : MmId) (addr len : ℕ) :
    ∃ x, getUnmappedArea s m addr len true = (x, s) ∧
      (isErrValue x = false → addr + len ≤ taskSize) := by
  have hsearch : mmGetUnmappedArea s m addr len true
      = (if taskSize - mmapMinAddr < len then errWord .ENOMEM else addr, s) := by
    unfold mmGetUnmappedArea
    rcases (s.mm m).layout <;> simp only [genericGetUnmappedArea, genericGetUnmappedAreaTopdown] <;>
      split_ifs <;> rfl
  unfold getUnmappedArea
  rw [hsearch]
  dsimp only
  split_ifs with hlen hbig herr hfar hoff herr hfar hoff <;>
    refine ⟨_, rfl, fun hx => ?_⟩ <;> simp_all [isErrValue_errWord]
  omega

/-- **The second half of `do_brk_flags`** keeps the invariant when its merge is safe. -/
theorem Sound.brkMap (h : Sound s m) (hroom : Room s m addr (addr + len) place prev)
    (hlen : 0 < len) (hle : addr + len ≤ taskSize)
    (hsafe : MergeSafe s m prev addr (addr + len) flags) :
    Sound (brkMap s m addr len flags place prev).2 m := by
  have hend := wadd_of_user hle
  have hmerge := h.vmaMerge hroom (by omega) hsafe
  unfold Mm.brkMap
  split_ifs
  · exact h
  · exact h
  rw [hend]
  rcases hm : Mm.vmaMerge s m prev addr (addr + len) flags none none (pageOf addr)
    with ⟨_ | p, s₁⟩ <;> rw [hm] at hmerge
  · obtain rfl := vmaMerge_none hm
    dsimp only
    rcases hal : vmAreaAlloc s₁ m with ⟨_ | v, s₂⟩
    · exact h.of_quiet (newVma_none hal)
    obtain ⟨-, hq, hinit, -⟩ := newVma_some hal
    obtain ⟨hv, hn⟩ := h.toCoherent.not_mem_of_new hal
    refine (h.of_quiet hq).link_new hv hn (hroom.of_quiet h.toCoherent hq) rfl rfl ?_
      (by omega) hle
    change (s₂.vma v).vmMm = m
    rw [hinit]
    rfl
  · exact hmerge

/-- **`do_brk_flags` keeps the invariant** when its merge is safe. -/
theorem Sound.doBrkFlags (h : Sound s m) (hlen : 0 < len) (hsafe : BrkSafe s m addr len flags)
    (hr : doBrkFlags s addr len flags = .ok (r, s')) : Sound s' m := by
  obtain ⟨x, hx, hbound⟩ := getUnmappedArea_fixed s m addr len
  unfold Mm.doBrkFlags at hr
  rw [h.active] at hr
  dsimp only at hr
  rw [hx] at hr
  dsimp only at hr
  split_ifs at hr with hflags herr heinval
  · cases hr
    exact h
  · cases hr
    exact h
  · cases hr
    exact h
  have hle : addr + len ≤ taskSize := hbound (by simpa using herr)
  have hend := wadd_of_user hle
  rcases hmu : Mm.munmapVmaRange s m addr len with e | ⟨e | ⟨place, prev⟩, s₁⟩ <;> rw [hmu] at hr
  · cases hr
  · cases hr
    exact (h.munmapVmaRange hle hmu).1
  · obtain ⟨h₁, hroom⟩ := h.munmapVmaRange hle hmu
    have hsafe₁ := hsafe place prev s₁ hmu
    rw [hend] at hsafe₁
    obtain rfl : (Mm.brkMap s₁ m addr len (brkFlags s m flags) place prev).2 = s' := by
      have := Except.ok.inj hr
      rw [this]
    exact h₁.brkMap (hroom place prev rfl) hlen hle hsafe₁

/-! ### Inserting a prepared VMA -/

/-- **Inserting a prepared VMA keeps the invariant.** -/
theorem Sound.installVma (h : Sound s m) (hlt : a.vmStart < a.vmEnd) (hle : a.vmEnd ≤ taskSize)
    (hr : installVma s m a = .ok (r, s')) : Sound s' m := by
  unfold Mm.installVma at hr
  rcases hal : vmAreaAlloc s m with ⟨_ | v, s₁⟩ <;> rw [hal] at hr
  · cases hr
    exact h.of_quiet (newVma_none hal)
  obtain ⟨hnew, hq, -, -⟩ := newVma_some hal
  obtain ⟨hv, hn⟩ := h.toCoherent.not_mem_of_new hal
  set b : VmArea := { a with vmMm := m }
  have hq₂ : Quiet s (s₁.setVma v b) := hq.setVma hnew.ge b
  have h₂ := h.of_quiet hq₂
  have hvma : (s₁.setVma v b).vma v = b := by simp [setVma]
  dsimp only at hr
  unfold insertVmStruct at hr
  rw [lo, hi, hvma] at hr
  rcases hlinks : findVmaLinks (s₁.setVma v b) m b.vmStart b.vmEnd with _ | ⟨place, prev⟩ <;>
    rw [hlinks] at hr
  · cases hr
    exact h₂
  obtain ⟨hmmap, hprev, hbefore, hafter⟩ := findVmaLinks_eq_some h₂.toCoherent hlinks
  have hroom : Room (s₁.setVma v b) m b.vmStart b.vmEnd place prev :=
    ⟨hmmap, hprev, hbefore, fun w hw => (hafter w hw).2⟩
  dsimp only at hr
  split_ifs at hr with hacct hanon hbug
  · cases hr
    exact h₂
  · cases hr
    exact h₂.link_new hv hn hroom rfl rfl rfl hlt hle
  · cases hr
    have := h₂.link_new (a := b) hv hn hroom rfl rfl rfl hlt hle
    simpa [setVma] using this

/-! ### Growing a stack -/

/-- Attaching an `anon_vma` leaves the extent of the VMA alone. -/
theorem setAnonVma_spec (hq : Quiet s s') (hv : v < s.nextVma) (a : AnonVmaId) :
    ∃ b, Rewrites (update s.vma v b) s (setAnonVma s' v a) ∧
      b.vmStart = s.lo v ∧ b.vmEnd = s.hi v ∧ b.vmMm = (s.vma v).vmMm := by
  have hvma := hq.vma v hv
  refine ⟨{ s'.vma v with anonVma := some a, anonVmaChain := a :: (s'.vma v).anonVmaChain }, ?_,
    by rw [hvma, lo], by rw [hvma, hi], by rw [hvma]⟩
  simpa [setAnonVma, anonVmaChainLink, setVma] using
    Rewrites.setVma (v := v) hq { s'.vma v with
      anonVma := some a, anonVmaChain := a :: (s'.vma v).anonVmaChain }

theorem anonVmaPrepare_spec (hv : v < s.nextVma) :
    ∃ b, Rewrites (update s.vma v b) s (anonVmaPrepare s v).2 ∧
      b.vmStart = s.lo v ∧ b.vmEnd = s.hi v ∧ b.vmMm = (s.vma v).vmMm := by
  have hquiet : ∀ s', Quiet s s' → ∃ b, Rewrites (update s.vma v b) s s' ∧
      b.vmStart = s.lo v ∧ b.vmEnd = s.hi v ∧ b.vmMm = (s.vma v).vmMm := fun s' hq =>
    ⟨s.vma v, by rw [update_eq_self]; exact hq, rfl, rfl, rfl⟩
  unfold anonVmaPrepare
  split_ifs
  · exact hquiet s (Quiet.refl s)
  have hk := Quiet.kmemCacheAlloc s
  rcases hka : s.kmemCacheAlloc with ⟨_ | _, s₁⟩ <;> rw [hka] at hk
  · exact hquiet s₁ hk
  dsimp only
  rcases findMergeableAnonVma s₁ v with _ | a
  · have hk' := hk.trans (Quiet.kmemCacheAlloc s₁)
    dsimp only
    rcases hkb : s₁.kmemCacheAlloc with ⟨_ | _, s₂⟩ <;> rw [hkb] at hk'
    · exact hquiet s₂ hk'
    · obtain ⟨b, hr, hb⟩ := setAnonVma_spec hk' hv s₂.nextAnonVma
      exact ⟨b, { hr with }, hb⟩
  · exact setAnonVma_spec hk hv a

/-- **Growing a stack keeps the invariant**, if the VMAs before it end below the new page. -/
theorem Sound.expandDownwards {address : ℕ} (h : Sound s m)
    (hmmap : (s.mm m).mmap = l₁ ++ v :: l₂) (hbefore : ∀ w ∈ l₁, s.hi w ≤ pageMask address) :
    Sound (expandDownwards s v address).2 m := by
  have hmem : v ∈ (s.mm m).mmap := by simp [hmmap]
  have hlt := h.ordered.lt v hmem
  unfold Mm.expandDownwards
  dsimp only
  split_ifs
  · exact h
  · exact h
  obtain ⟨b, hr, hstart, hend, hm⟩ := anonVmaPrepare_spec (h.allocated v hmem)
  have hbelow : ∀ w ∈ l₁, s.hi w ≤ s.lo v := fun w hw =>
    (Ordered.append_iff.1 (hmmap ▸ h.ordered)).2.2 w hw v (by simp)
  have hprep : Sound (anonVmaPrepare s v).2 m := h.lower hmmap hr hend
    (hm.trans (h.owned v hmem)) (by rw [hstart]; exact hlt) (by rw [hstart]; exact hbelow)
  rcases hp : anonVmaPrepare s v with ⟨_ | ⟨⟩, s₁⟩ <;> rw [hp] at hprep hr
  · exact hprep
  dsimp only
  split_ifs with haddr hgrow
  · rcases acctStackGrowth s₁ (wsub (s₁.hi v) (pageMask address))
      (pageOf (s₁.lo v - pageMask address)) with e | ⟨⟩
    · exact hprep
    · have hmem₁ : v ∈ (s₁.mm m).mmap := by rw [hr.mm]; exact hmem
      have hlt₁ := hprep.ordered.lt v hmem₁
      refine hprep.lower (by rw [hr.mm, hmmap]) (Rewrites.setVma (Quiet.refl s₁) _) rfl
        (hprep.owned v hmem₁) (haddr.trans hlt₁) fun w hw => ?_
      have hwv : w ≠ v := by
        rintro rfl
        exact absurd (hbelow w hw) (not_le.2 hlt)
      rw [hr.hi_eq (h.allocated w (by simp [hmmap, hw])), update_of_ne hwv]
      exact hbefore w hw
  · exact hprep
  · exact hprep

end MinimalKernel.Mm
