import MinimalKernel.Mm.Munmap

/-!
# Copying and releasing an address space

The functions of `kernel/fork.c`, `kernel/exit.c` and `mm/mmap.c` that begin and end the life of an
address space: `dup_mm` with `dup_mmap`, `copy_mm` for a new task, and `mmput` with `exit_mmap`.

`dup_mmap` copies the VMA objects and links the copies into the list and the tree of the child. It
copies no page table, and it does not enter the copies into the registry of the files they map.

## Main definitions

* `dupMmap`, `dupMm`, `copyMm` — the way of `fork` through the memory code
* `exitMmap`, `mmput`, `exitMm` — the way of `exit`
* `Elsewhere m s s'` — nothing but the address space `m` has changed

## Main results

* `dupMmapLoop_spec` — the VMAs of the child are copies of those of the parent, in the same order
* `dupMm_some` — what a successful `dup_mm` leaves behind
-/

namespace MinimalKernel.Mm

open Function Lib List VmState

/-! ### The model -/

/-- Is the VMA copied to the child? -/
def VmArea.copied (a : VmArea) : Bool := !hasFlag a.vmFlags vmDontcopy

/-- The part of the loop of `dup_mmap` that links a copy: it is put at the end of the list and of
the tree. -/
def dupLink (s : VmState) (m : MmId) (tmp : VmaId) : VmState :=
  let place := (s.mm m).mmRb.endPath .root
  let s := s.setMm m { s.mm m with mmap := (s.mm m).mmap ++ [tmp] }
  let s := vmaLinkRb s m tmp place
  s.setMm m { s.mm m with mapCount := (s.mm m).mapCount + 1 }

/-- The loop of `dup_mmap` over the VMAs of the parent. -/
def dupMmapLoop : List VmaId → VmState → MmId → Except Errno Unit × VmState
  | [], s, _ => (.ok (), s)
  | mpnt :: rest, s, m =>
    if (s.vma mpnt).copied then
      match vmAreaDup s mpnt with
      | (none, s) => (.error .ENOMEM, s)
      | (some tmp, s) =>
        let s := s.setVma tmp { s.vma tmp with
          vmMm := m
          vmFlags := (s.vma tmp).vmFlags &&& ~~~ (vmLocked ||| vmLockonfault) }
        dupMmapLoop rest (dupLink s m tmp) m
    else dupMmapLoop rest s m

/-- `dup_mmap`. -/
def dupMmap (s : VmState) (m oldmm : MmId) : Except Errno Unit × VmState :=
  dupMmapLoop (s.mm oldmm).mmap s m

/-- `mm_init` for a copy of the address space of the current task. -/
def mmInit (mm : MmStruct) : MmStruct :=
  { mm with
    mmap := []
    mmRb := .nil
    vmacacheSeqnum := 0
    mmUsers := 1
    mapCount := 0
    defFlags := mm.defFlags &&& vmNohugepage }

/-- `exit_mmap` as far as the VMAs are concerned. -/
def exitMmap (s : VmState) (m : MmId) : VmState :=
  if (s.mm m).mmap = [] then s
  else
    let s := unlinkFileVmas s (s.mm m).mmap
    s.setMm m { s.mm m with mmap := [] }

/-- `mmput`. -/
def mmput (s : VmState) (m : MmId) : VmState :=
  let users := (s.mm m).mmUsers - 1
  let s := s.setMm m { s.mm m with mmUsers := users }
  if users = 0 then exitMmap s m else s

/-- `dup_mm` for the address space of the current task. The second allocation is that of the page
directory; if it fails, the new `mm_struct` is freed at once. -/
def dupMm (s : VmState) (oldmm : MmId) : Option MmId × VmState :=
  match s.kmemCacheAlloc with
  | (false, s) => (none, s)
  | (true, s) =>
    match s.kmemCacheAlloc with
    | (false, s) => (none, s)
    | (true, s) =>
      let m := s.nextMm
      let s := { s.setMm m (mmInit (s.mm oldmm)) with nextMm := m + 1 }
      match dupMmap s m oldmm with
      | (.error _, s) => (none, mmput s m)
      | (.ok (), s) => (some m, s)

/-- Overwrite a task. -/
def VmState.setTask (s : VmState) (t : TaskId) (tk : Task) : VmState :=
  s.setTasks (update s.task t tk)

/-- `copy_mm` for the new task `tsk`, which is a copy of the current task up to here. -/
def copyMm (s : VmState) (tsk : TaskId) (cloneVm : Bool) : Except Errno ℕ × VmState :=
  let child := { s.task s.current with mm := none }
  match s.currentMm with
  | none => (.ok 0, s.setTask tsk child)
  | some oldmm =>
    let child := { child with vmas := fun _ => none }
    if cloneVm then
      let s := s.setMm oldmm { s.mm oldmm with mmUsers := (s.mm oldmm).mmUsers + 1 }
      (.ok 0, s.setTask tsk { child with mm := some oldmm })
    else
      match dupMm s oldmm with
      | (none, s) => (.error .ENOMEM, s.setTask tsk child)
      | (some m, s) => (.ok 0, s.setTask tsk { child with mm := some m })

/-- `exit_mm`: the current task gives up its address space. -/
def exitMm (s : VmState) : VmState :=
  match s.currentMm with
  | none => s
  | some m => mmput (s.setCurrent { s.task s.current with mm := none }) m

/-! ### Changes of one address space -/

variable {s s' s'' : VmState} {m m' : MmId} {v w : VmaId} {heap : VmaId → VmArea} {oldmm : MmId}
  {rest : List VmaId}

/-- An address space depends on its VMAs, its list, its tree and the VMA caches only. -/
theorem Coherent.congr (h : Coherent s m) (hvma : ∀ v ∈ (s.mm m).mmap, s'.vma v = s.vma v)
    (hnext : s.nextVma ≤ s'.nextVma) (hmmap : (s'.mm m).mmap = (s.mm m).mmap)
    (hrb : (s'.mm m).mmRb = (s.mm m).mmRb) (hcache : CacheValid s' m) : Coherent s' m := by
  refine ⟨?_, ?_, by rw [hrb, hmmap, h.rb], ?_, ?_, hcache⟩ <;> rw [hmmap]
  · exact h.ordered.congr fun v hv => by simp only [lo, hi, hvma v hv, and_self]
  · intro v hv
    rw [hi, hvma v hv]
    exact h.bounded v hv
  · intro v hv
    rw [hvma v hv]
    exact h.owned v hv
  · exact fun v hv => (h.allocated v hv).trans_le hnext

/-- Between `s` and `s'` nothing has changed but the address space `m` and its VMAs. -/
structure Elsewhere (m : MmId) (s s' : VmState) : Prop where
  mm : ∀ m' ≠ m, s'.mm m' = s.mm m'
  users : (s'.mm m).mmUsers = (s.mm m).mmUsers
  vma : ∀ v < s.nextVma, v ∉ (s.mm m).mmap → s'.vma v = s.vma v
  /-- A VMA that has been linked is new. -/
  mem : ∀ v ∈ (s'.mm m).mmap, v < s.nextVma → v ∈ (s.mm m).mmap
  nextVma : s.nextVma ≤ s'.nextVma
  nextMm : s'.nextMm = s.nextMm
  current : s'.current = s.current
  taskMm : ∀ t, (s'.task t).mm = (s.task t).mm
  cache : ∀ m' ≠ m, CacheValid s m' → CacheValid s' m'

namespace Elsewhere

theorem trans (h : Elsewhere m s s') (h' : Elsewhere m s' s'') : Elsewhere m s s'' where
  mm m' hm' := (h'.mm m' hm').trans (h.mm m' hm')
  users := h'.users.trans h.users
  vma v hv hmem := by
    have hmem' : v ∉ (s'.mm m).mmap := fun hm => hmem (h.mem v hm hv)
    exact (h'.vma v (hv.trans_le h.nextVma) hmem').trans (h.vma v hv hmem)
  mem v hmem hv := h.mem v (h'.mem v hmem (hv.trans_le h.nextVma)) hv
  nextVma := h.nextVma.trans h'.nextVma
  nextMm := h'.nextMm.trans h.nextMm
  current := h'.current.trans h.current
  taskMm t := (h'.taskMm t).trans (h.taskMm t)
  cache m' hm' hc := h'.cache m' hm' (h.cache m' hm' hc)

/-- A change of the contents of the VMAs of `m`. -/
theorem of_rewrites (hr : Rewrites heap s s')
    (hheap : ∀ v < s.nextVma, v ∉ (s.mm m).mmap → heap v = s.vma v) : Elsewhere m s s' where
  __ := hr
  mm m' _ := by rw [hr.mm]
  users := by rw [hr.mm]
  vma v hv hmem := (hr.vma v hv).trans (hheap v hv hmem)
  mem v hmem _ := hr.mm ▸ hmem
  cache m' _ hc := hr.cache m' hc

theorem of_quiet (hq : Quiet s s') : Elsewhere m s s' := of_rewrites hq fun _ _ _ => rfl

/-- A change of `m` itself, without new VMAs or users. -/
theorem of_setMm {mm : MmStruct} (hmem : ∀ v ∈ mm.mmap, v < s.nextVma → v ∈ (s.mm m).mmap)
    (husers : mm.mmUsers = (s.mm m).mmUsers) : Elsewhere m s (s.setMm m mm) where
  mm m' hm' := update_of_ne hm' _ _
  users := by simpa [setMm] using husers
  vma _ _ _ := rfl
  mem v hv := hmem v (by simpa [setMm] using hv)
  nextVma := le_rfl
  nextMm := rfl
  current := rfl
  taskMm _ := rfl
  cache m' hm' hc t ht i v hv := by
    rw [show (s.setMm m mm).mm m' = s.mm m' from update_of_ne hm' _ _]
    exact hc t ht i v hv

/-- Linking a VMA that is new. -/
theorem of_link {mm : MmStruct} (hq : Quiet s s') (hmm : s''.mm = update s'.mm m mm)
    (husers : mm.mmUsers = (s'.mm m).mmUsers)
    (hmem : ∀ w ∈ mm.mmap, w ∈ (s'.mm m).mmap ∨ s.nextVma ≤ w) (hvma : s''.vma = s'.vma)
    (hnext : s''.nextVma = s'.nextVma) (hmms : s''.nextMm = s'.nextMm)
    (hcurrent : s''.current = s'.current) (htask : s''.task = s'.task) : Elsewhere m s s'' where
  mm m' hm' := by rw [hmm, update_of_ne hm', hq.mm]
  users := by rw [hmm, update_self, husers, hq.mm]
  vma v hv _ := by rw [hvma, hq.vma v hv]
  mem v hv hlt := by
    rw [hmm, update_self] at hv
    rcases hmem v hv with hv | hle
    · exact hq.mm ▸ hv
    · exact absurd hlt (not_lt.2 hle)
  nextVma := hnext ▸ hq.nextVma
  nextMm := hmms.trans hq.nextMm
  current := hcurrent.trans hq.current
  taskMm t := by rw [htask, hq.taskMm]
  cache m' hm' hc t ht i v hv := by
    rw [htask] at ht hv
    rw [hmm, update_of_ne hm', htask]
    exact hq.cache m' hc t ht i v hv

/-- The other address spaces stay coherent. -/
theorem coherent (he : Elsewhere m s s') (hne : m' ≠ m) (h : Coherent s m')
    (hdisj : ∀ v ∈ (s.mm m').mmap, v ∉ (s.mm m).mmap) : Coherent s' m' := by
  have hmm := he.mm m' hne
  exact h.congr (fun v hv => he.vma v (h.allocated v hv) (hdisj v hv)) he.nextVma (by rw [hmm])
    (by rw [hmm]) (he.cache m' hne h.cache)

end Elsewhere

/-! ### The copies of the VMAs -/

/-- What `dup_mmap` makes of a VMA of the parent. -/
def VmArea.child (a : VmArea) (m : MmId) : VmArea :=
  { a with
    anonVmaChain := []
    vmMm := m
    vmFlags := a.vmFlags &&& ~~~ (vmLocked ||| vmLockonfault) }

/-- The VMAs that the child gets for the VMAs `vs` of the parent. -/
def childAreas (s : VmState) (m : MmId) (vs : List VmaId) : List VmArea :=
  ((vs.map s.vma).filter VmArea.copied).map fun a => a.child m

theorem childAreas_congr {vs : List VmaId} (h : ∀ v ∈ vs, s'.vma v = s.vma v) :
    childAreas s' m vs = childAreas s m vs := by
  rw [childAreas, childAreas, map_congr_left h]

/-- The child `m` is ready to receive copies of the VMAs `rest`: they lie behind the VMAs it has
got so far. No task runs in the child yet. -/
structure DupReady (s : VmState) (m : MmId) (rest : List VmaId) : Prop where
  coherent : Coherent s m
  unused : ∀ t, (s.task t).mm ≠ some m
  ordered : Ordered s.lo s.hi rest
  behind : ∀ w ∈ (s.mm m).mmap, ∀ r ∈ rest, s.hi w ≤ s.lo r
  bounded : ∀ r ∈ rest, s.hi r ≤ taskSize
  allocated : ∀ r ∈ rest, r < s.nextVma

theorem dupLink_mm (hv : v ∉ (s.mm m).mmap) :
    (dupLink s m v).mm = update s.mm m { s.mm m with
      mmap := (s.mm m).mmap ++ [v]
      mmRb := RbTree.insertAt ((s.mm m).mmRb.endPath .root) v
      highestVmEnd := s.hi v
      mapCount := (s.mm m).mapCount + 1 } := by
  have hnext : nextOf ((s.mm m).mmap ++ [v]) v = none := by
    rw [nextOf_append_cons hv]
    rfl
  simp [dupLink, vmaLinkRb, setMm, hnext, vmEndGap, hi]

section

variable (s m v)

@[simp] theorem dupLink_vma :
    (dupLink s m v).vma = s.vma := rfl

@[simp] theorem dupLink_nextVma :
    (dupLink s m v).nextVma = s.nextVma := rfl

end

/-- **Coherence of an appended copy.** As far as the address space is concerned, the copy is linked
as `vma_link` would link it. -/
theorem Coherent.dupLink (h : Coherent s m) (hv : v ∉ (s.mm m).mmap)
    (hbehind : ∀ w ∈ (s.mm m).mmap, s.hi w ≤ s.lo v) (hlt : s.lo v < s.hi v)
    (hb : s.hi v ≤ taskSize) (hm : (s.vma v).vmMm = m) (hn : v < s.nextVma) :
    Coherent (dupLink s m v) m := by
  have hbefore : ((s.mm m).mmRb.endPath .root).before = (s.mm m).mmap := by
    rw [RbTree.before_endPath, h.rb, Path.before_root, nil_append]
  have hafter : ((s.mm m).mmRb.endPath .root).after = [] := by
    rw [RbTree.after_endPath, Path.after_root]
  have hf : Fits s m v (s.mm m).mmap.getLast? ((s.mm m).mmRb.endPath .root) :=
    ⟨by rw [hbefore, hafter, append_nil], by rw [hbefore], by rwa [hbefore], by simp [hafter]⟩
  have hmm : (Mm.dupLink s m v).mm
      = (Mm.vmaLink s m v (s.mm m).mmap.getLast? ((s.mm m).mmRb.endPath .root)).mm := by
    have hnext : nextOf ((s.mm m).mmap ++ [v]) v = none := by
      rw [nextOf_append_cons hv]
      rfl
    rw [dupLink_mm hv, vmaLink_mm, hf.insertAfter_eq h, hbefore, hafter, if_pos hnext]
  have hl := h.vmaLink hf hlt hb hm hn
  refine hl.congr (fun w _ => by rw [vmaLink_vma, dupLink_vma]) ?_ (by rw [hmm]) (by rw [hmm]) ?_
  · rw [vmaLink_nextVma, dupLink_nextVma]
  · intro t ht i w hw
    have htask := vmaLink_task s m v (s.mm m).mmap.getLast? ((s.mm m).mmRb.endPath .root)
    have := hl.cache t (by rw [htask]; exact ht) i w (by rw [htask]; exact hw)
    rw [htask] at this
    rw [hmm]
    exact this

/-- What one turn of the loop of `dup_mmap` or all of them do to the state: VMAs are added to `m`,
and no VMA object of `s` changes. -/
structure Copies (m : MmId) (new : List VmaId) (s s' : VmState) : Prop where
  elsewhere : Elsewhere m s s'
  vma : ∀ v < s.nextVma, s'.vma v = s.vma v
  mmap : (s'.mm m).mmap = (s.mm m).mmap ++ new
  allocated : ∀ v ∈ new, v < s'.nextVma
  imap : s'.imap = s.imap
  imapCorrupt : s'.imapCorrupt = s.imapCorrupt

theorem Copies.of_quiet (hq : Quiet s s') : Copies m [] s s' where
  __ := hq
  elsewhere := .of_quiet hq
  mmap := by rw [hq.mm, append_nil]
  allocated := by simp

theorem Copies.trans {new new' : List VmaId} (h : Copies m new s s') (h' : Copies m new' s' s'') :
    Copies m (new ++ new') s s'' where
  elsewhere := h.elsewhere.trans h'.elsewhere
  vma v hv := (h'.vma v (hv.trans_le h.elsewhere.nextVma)).trans (h.vma v hv)
  mmap := by rw [h'.mmap, h.mmap, append_assoc]
  allocated v hv := by
    rcases mem_append.1 hv with hv | hv
    · exact (h.allocated v hv).trans_le h'.elsewhere.nextVma
    · exact h'.allocated v hv
  imap := h'.imap.trans h.imap
  imapCorrupt := h'.imapCorrupt.trans h.imapCorrupt

/-- **One turn of the loop.** -/
theorem DupReady.step {r tmp : VmaId} {s₁ : VmState} (h : DupReady s m (r :: rest))
    (hdup : vmAreaDup s r = (some tmp, s₁)) : let s₂ := dupLink (s₁.setVma tmp { s₁.vma tmp with
      vmMm := m
      vmFlags := (s₁.vma tmp).vmFlags &&& ~~~ (vmLocked ||| vmLockonfault) }) m tmp
    Copies m [tmp] s s₂ ∧ s₂.vma tmp = (s.vma r).child m ∧ DupReady s₂ m rest := by
  obtain ⟨htmp, hq, ha, hnext⟩ := newVma_some hdup
  have harea : { s₁.vma tmp with
      vmMm := m
      vmFlags := (s₁.vma tmp).vmFlags &&& ~~~ (vmLocked ||| vmLockonfault) }
      = (s.vma r).child m := by rw [ha]; rfl
  rw [harea]
  intro s₂
  set s' := s₁.setVma tmp ((s.vma r).child m) with hs'
  have hq' : Quiet s s' := hq.setVma htmp.ge _
  have htmp' : s'.vma tmp = (s.vma r).child m := update_self ..
  have hmem : tmp ∉ (s'.mm m).mmap := fun hmem =>
    (h.coherent.allocated tmp (hq'.mm ▸ hmem)).ne htmp
  have hnext' : tmp < s'.nextVma := by
    change tmp < s₁.nextVma
    rw [hnext]
    exact Nat.lt_succ_self tmp
  have hlo : s'.lo tmp = s.lo r := by rw [lo, htmp']; rfl
  have hhi : s'.hi tmp = s.hi r := by rw [hi, htmp']; rfl
  have hmm : (s₂.mm m).mmap = (s.mm m).mmap ++ [tmp] := by
    change ((dupLink s' m tmp).mm m).mmap = _
    rw [dupLink_mm hmem, update_self, hq'.mm]
  obtain ⟨hr, hrest, hbehind⟩ := Ordered.cons_iff.1 h.ordered
  have hcopies : Copies m [tmp] s s₂ := by
    have hnew : ∀ w ∈ [tmp], w < s₂.nextVma := by
      intro w hw
      rw [mem_singleton.1 hw]
      exact hnext'
    refine ⟨?_, hq'.vma, hmm, hnew, hq'.imap, hq'.imapCorrupt⟩
    refine .of_link hq' (dupLink_mm hmem) rfl (fun w hw => ?_) rfl rfl rfl rfl rfl
    rcases mem_append.1 hw with hw | hw
    · exact .inl hw
    · rw [mem_singleton.1 hw]
      exact .inr htmp.ge
  have hvma : ∀ w < s.nextVma, s₂.lo w = s.lo w ∧ s₂.hi w = s.hi w := fun w hw =>
    ⟨congrArg VmArea.vmStart (hcopies.vma w hw), congrArg VmArea.vmEnd (hcopies.vma w hw)⟩
  refine ⟨hcopies, htmp', ⟨?_, ?_, ?_, ?_, ?_, ?_⟩⟩
  · refine (h.coherent.of_quiet hq').dupLink hmem ?_ ?_ ?_ (by rw [htmp']; rfl) hnext'
    · intro w hw
      rw [hq'.mm] at hw
      rw [hlo, hq'.hi_eq (h.coherent.allocated w hw)]
      exact h.behind w hw r (by simp)
    · rw [hlo, hhi]
      exact hr
    · rw [hhi]
      exact h.bounded r (by simp)
  · intro t
    rw [hcopies.elsewhere.taskMm t]
    exact h.unused t
  · exact hrest.congr fun w hw => hvma w (h.allocated w (by simp [hw]))
  · intro w hw u hu
    rw [(hvma u (h.allocated u (by simp [hu]))).1]
    rw [hmm, mem_append, mem_singleton] at hw
    rcases hw with hw | rfl
    · rw [(hvma w (h.coherent.allocated w hw)).2]
      exact h.behind w hw u (by simp [hu])
    · change s'.hi w ≤ s.lo u
      rw [hhi]
      exact hbehind u hu
  · intro w hw
    rw [(hvma w (h.allocated w (by simp [hw]))).2]
    exact h.bounded w (by simp [hw])
  · exact fun w hw => (h.allocated w (by simp [hw])).trans_le hcopies.elsewhere.nextVma

theorem DupReady.tail {r : VmaId} (h : DupReady s m (r :: rest)) : DupReady s m rest :=
  ⟨h.coherent, h.unused, (Ordered.cons_iff.1 h.ordered).2.1,
    fun w hw u hu => h.behind w hw u (by simp [hu]), fun w hw => h.bounded w (by simp [hw]),
    fun w hw => h.allocated w (by simp [hw])⟩

/-- **The loop of `dup_mmap`.** The child gets copies of the VMAs of a prefix of the list, of all
of them if the loop succeeds, in the same order. -/
theorem dupMmapLoop_spec (h : DupReady s m rest) :
    ∃ new copied, Copies m new s (dupMmapLoop rest s m).2 ∧
      Coherent (dupMmapLoop rest s m).2 m ∧ copied <+: rest ∧
      ((dupMmapLoop rest s m).1 = .ok () → copied = rest) ∧
      new.map (dupMmapLoop rest s m).2.vma = childAreas s m copied := by
  induction rest generalizing s with
  | nil => exact ⟨[], [], .of_quiet (Quiet.refl s), h.coherent, prefix_rfl, fun _ => rfl, rfl⟩
  | cons r rest ih =>
    unfold dupMmapLoop
    by_cases hr : (s.vma r).copied = true
    · rw [if_pos hr]
      rcases hdup : vmAreaDup s r with ⟨_ | tmp, s₁⟩
      · have hq := newVma_none hdup
        exact ⟨[], [], .of_quiet hq, h.coherent.of_quiet hq, nil_prefix, by simp, rfl⟩
      · obtain ⟨hc, htmp, hready⟩ := h.step hdup
        obtain ⟨new, copied, hnew, hcoh, hpre, hall, hmap⟩ := ih hready
        have hlt : tmp < _ := hc.allocated tmp (by simp)
        refine ⟨tmp :: new, r :: copied, hc.trans hnew, hcoh, ?_, fun hok => ?_, ?_⟩
        · exact cons_prefix_cons.2 ⟨rfl, hpre⟩
        · rw [hall hok]
        · have hcongr := childAreas_congr (m := m) fun v hv =>
            hc.vma v (h.allocated v (mem_cons_of_mem r (hpre.subset hv)))
          rw [map_cons, hnew.vma tmp hlt, htmp, hmap, hcongr, childAreas, childAreas,
            map_cons, filter_cons_of_pos hr, map_cons]
    · rw [if_neg hr]
      obtain ⟨new, copied, hnew, hcoh, hpre, hall, hmap⟩ := ih h.tail
      refine ⟨new, r :: copied, hnew, hcoh, cons_prefix_cons.2 ⟨rfl, hpre⟩,
        fun hok => by rw [hall hok], ?_⟩
      rw [hmap, childAreas, childAreas, map_cons, filter_cons_of_neg hr]

/-! ### The new address space -/

/-- The new address space `m` has come into being; nothing else has changed. -/
structure Spawned (m : MmId) (s s' : VmState) : Prop where
  mm : ∀ m' ≠ m, s'.mm m' = s.mm m'
  vma : ∀ v < s.nextVma, s'.vma v = s.vma v
  nextVma : s.nextVma ≤ s'.nextVma
  nextMm : s.nextMm ≤ s'.nextMm
  imap : s'.imap = s.imap
  imapCorrupt : s'.imapCorrupt = s.imapCorrupt
  current : s'.current = s.current
  taskMm : ∀ t, (s'.task t).mm = (s.task t).mm
  cache : ∀ m' ≠ m, CacheValid s m' → CacheValid s' m'

theorem Spawned.of_quiet (hq : Quiet s s') : Spawned m s s' :=
  ⟨fun _ _ => by rw [hq.mm], hq.vma, hq.nextVma, hq.nextMm.ge, hq.imap, hq.imapCorrupt, hq.current,
    hq.taskMm, fun m' _ => hq.cache m'⟩

theorem Quiet.trans_spawned (hq : Quiet s s') (h : Spawned m s' s'') : Spawned m s s'' where
  mm m' hm' := by rw [h.mm m' hm', hq.mm]
  vma v hv := (h.vma v (hv.trans_le hq.nextVma)).trans (hq.vma v hv)
  nextVma := hq.nextVma.trans h.nextVma
  nextMm := hq.nextMm ▸ h.nextMm
  imap := h.imap.trans hq.imap
  imapCorrupt := h.imapCorrupt.trans hq.imapCorrupt
  current := h.current.trans hq.current
  taskMm t := (h.taskMm t).trans (hq.taskMm t)
  cache m' hm' hc := h.cache m' hm' (hq.cache m' hc)

/-- The state in which `dup_mmap` starts. -/
def spawn (s : VmState) (oldmm : MmId) : VmState :=
  { s.setMm s.nextMm (mmInit (s.mm oldmm)) with nextMm := s.nextMm + 1 }

theorem spawn_spec (s : VmState) (oldmm : MmId) : Spawned s.nextMm s (spawn s oldmm) where
  mm m' hm' := update_of_ne hm' _ _
  vma _ _ := rfl
  nextVma := le_rfl
  nextMm := Nat.le_succ _
  imap := rfl
  imapCorrupt := rfl
  current := rfl
  taskMm _ := rfl
  cache m' hm' hc t ht i v hv := by
    rw [show (spawn s oldmm).mm m' = s.mm m' from update_of_ne hm' _ _]
    exact hc t ht i v hv

theorem spawn_mm (s : VmState) (oldmm : MmId) :
    (spawn s oldmm).mm s.nextMm = mmInit (s.mm oldmm) := update_self ..

theorem Spawned.trans_copies {new : List VmaId} (h : Spawned m s s') (h' : Copies m new s' s'') :
    Spawned m s s'' where
  mm m' hm' := (h'.elsewhere.mm m' hm').trans (h.mm m' hm')
  vma v hv := (h'.vma v (hv.trans_le h.nextVma)).trans (h.vma v hv)
  nextVma := h.nextVma.trans h'.elsewhere.nextVma
  nextMm := h.nextMm.trans h'.elsewhere.nextMm.ge
  imap := h'.imap.trans h.imap
  imapCorrupt := h'.imapCorrupt.trans h.imapCorrupt
  current := h'.elsewhere.current.trans h.current
  taskMm t := (h'.elsewhere.taskMm t).trans (h.taskMm t)
  cache m' hm' hc := h'.elsewhere.cache m' hm' (h.cache m' hm' hc)

section

variable (h : Coherent s oldmm) (hne : oldmm ≠ s.nextMm)
  (hunused : ∀ t, (s.task t).mm ≠ some s.nextMm)
include h hne hunused

theorem dupReady_spawn : DupReady (spawn s oldmm) s.nextMm ((spawn s oldmm).mm oldmm).mmap := by
  have hmm := (spawn_spec s oldmm).mm oldmm hne
  have hnil : ((spawn s oldmm).mm s.nextMm).mmap = [] := by rw [spawn_mm]; rfl
  refine ⟨.of_empty hnil (by rw [spawn_mm]; rfl) fun t ht => absurd ht (hunused t), hunused, ?_, ?_,
    ?_, ?_⟩
  · rw [hmm]
    exact h.ordered
  · simp [hnil]
  · rw [hmm]
    exact h.bounded
  · rw [hmm]
    exact h.allocated

/-- **`dup_mmap` in a new address space.** -/
theorem dupMmap_spawn : let s' := (dupMmap (spawn s oldmm) s.nextMm oldmm).2
    Spawned s.nextMm s s' ∧ Coherent s' s.nextMm ∧ (s'.mm s.nextMm).mmUsers = 1 ∧
      s'.nextMm = s.nextMm + 1 ∧ ∃ copied, copied <+: (s.mm oldmm).mmap ∧
        ((dupMmap (spawn s oldmm) s.nextMm oldmm).1 = .ok () → copied = (s.mm oldmm).mmap) ∧
        (s'.mm s.nextMm).mmap.map s'.vma = childAreas s s.nextMm copied := by
  intro s'
  obtain ⟨new, copied, hnew, hcoh, hpre, hall, hmap⟩ :=
    dupMmapLoop_spec (dupReady_spawn h hne hunused)
  have hmm := (spawn_spec s oldmm).mm oldmm hne
  have hnew : Copies s.nextMm new (spawn s oldmm) s' := hnew
  refine ⟨(spawn_spec s oldmm).trans_copies hnew, hcoh, ?_, hnew.elsewhere.nextMm, copied,
    hmm ▸ hpre, fun hok => (hall hok).trans (by rw [hmm]), ?_⟩
  · rw [hnew.elsewhere.users, spawn_mm]
    rfl
  · rw [hnew.mmap, spawn_mm]
    exact hmap

end

/-- The two allocations at the beginning of `dup_mm`. -/
theorem dupMm_cases {r : Option MmId} (hr : dupMm s oldmm = (r, s')) :
    (r = none ∧ Quiet s s') ∨ ∃ s₀, Quiet s s₀ ∧
      (match dupMmap (spawn s₀ oldmm) s₀.nextMm oldmm with
        | (.error _, s₁) => r = none ∧ s' = mmput s₁ s₀.nextMm
        | (.ok (), s₁) => r = some s₀.nextMm ∧ s' = s₁) := by
  have hq₁ := Quiet.kmemCacheAlloc s
  unfold dupMm at hr
  rcases hk : s.kmemCacheAlloc with ⟨_ | _, s₁⟩ <;> rw [hk] at hr hq₁
  · cases hr
    exact .inl ⟨rfl, hq₁⟩
  have hq₂ := hq₁.trans (Quiet.kmemCacheAlloc s₁)
  dsimp only at hr
  rcases hk' : s₁.kmemCacheAlloc with ⟨_ | _, s₂⟩ <;> rw [hk'] at hr hq₂
  · cases hr
    exact .inl ⟨rfl, hq₂⟩
  refine .inr ⟨s₂, hq₂, ?_⟩
  change (match dupMmap (spawn s₂ oldmm) s₂.nextMm oldmm with
    | (.error _, s) => (none, mmput s s₂.nextMm)
    | (.ok (), s) => (some s₂.nextMm, s)) = (r, s') at hr
  rcases hd : dupMmap (spawn s₂ oldmm) s₂.nextMm oldmm with ⟨e | ⟨⟩, s₃⟩ <;> rw [hd] at hr <;>
    cases hr <;> exact ⟨rfl, rfl⟩

/-- **A successful `dup_mm`.** The new address space has copies of all VMAs that are copied. -/
theorem dupMm_some (h : Coherent s oldmm) (hne : oldmm ≠ s.nextMm)
    (hunused : ∀ t, (s.task t).mm ≠ some s.nextMm) (hr : dupMm s oldmm = (some m, s')) :
    m = s.nextMm ∧ Spawned m s s' ∧ Coherent s' m ∧
      (s'.mm m).mmap.map s'.vma = childAreas s m (s.mm oldmm).mmap := by
  rcases dupMm_cases hr with ⟨hnone, -⟩ | ⟨s₀, hq, hd⟩
  · cases hnone
  have hnext := hq.nextMm
  obtain ⟨hsp, hcoh, -, -, copied, hpre, hall, hmap⟩ :=
    dupMmap_spawn (h.of_quiet hq) (hnext.symm ▸ hne) fun t => by
      rw [hq.taskMm, hnext]
      exact hunused t
  rcases hd' : dupMmap (spawn s₀ oldmm) s₀.nextMm oldmm with ⟨res, s₁⟩
  rw [hd'] at hd hsp hcoh hall hmap
  rcases res with e | ⟨⟩
  · cases hd.1
  · obtain ⟨hm, rfl⟩ := hd
    obtain rfl : m = s.nextMm := (Option.some.inj hm).trans hnext
    rw [hnext] at hsp hcoh hmap
    refine ⟨rfl, hq.trans_spawned hsp, hcoh, hmap.trans ?_⟩
    rw [hall rfl, hq.mm]
    exact childAreas_congr fun v hv => hq.vma v (h.allocated v hv)

end MinimalKernel.Mm
