import MinimalKernel.Mm.FileRegistry
import MinimalKernel.Mm.Lifecycle

/-!
# The registry of file mappings along runs

Runs of `mmap_region`, `__do_munmap`, `fork` and `exit` by any number of tasks. The registry is
exact as long as no file mapping is copied by a fork and none is cut by an unmapping and stays:
`dup_mmap` does not enter its copies, and when a child that has got a copy exits,
`unlink_file_vma` removes a node that is in no tree.

## Main definitions

* `Childless`, `Anonymous` — a fork that failed, and one that copied no file mapping
* `ForkSafe` — no file mapping is copied by a fork
* `MapOp`, `MapOp.Safe`, `MapStep` — the operations, when they do no harm, and their steps

## Main results

* `Registered.copyMm`, `Registered.exitMm` — forking and exiting keep the invariant
* `fileRegistry_of_run` — the registry is exact along every safe run
* `fork_not_fileRegistry` — after a fork it is not, and the child's exit corrupts it
-/

namespace MinimalKernel.Mm

open Function Lib List VmState

variable {s s' s'' : VmState} {m m' : MmId} {v w : VmaId} {f : FileId} {t : TaskId} {tsk : TaskId}

/-! ### Forking -/

/-- The new task has no address space, and `m` has no VMAs. -/
structure Childless (s : VmState) (tsk : TaskId) (m : MmId) : Prop where
  task : (s.task tsk).mm = none
  mmap : (s.mm m).mmap = []
  users : (s.mm m).mmUsers = 0

/-- The new task runs in `m`, which maps no file. -/
structure Anonymous (s : VmState) (tsk : TaskId) (m : MmId) : Prop where
  task : (s.task tsk).mm = some m
  coherent : Coherent s m
  bound : m < s.nextMm
  users : (s.mm m).mmUsers = 1
  anon : ∀ v ∈ (s.mm m).mmap, (s.vma v).vmFile = none

/-- `s'` comes from `s` by the creation of the task `tsk` and, possibly, of the address space
`m`. -/
structure Forked (m : MmId) (tsk : TaskId) (s s' : VmState) : Prop where
  mm : ∀ m' ≠ m, s'.mm m' = s.mm m'
  vma : ∀ v < s.nextVma, s'.vma v = s.vma v
  nextVma : s.nextVma ≤ s'.nextVma
  nextMm : s.nextMm ≤ s'.nextMm
  imap : s'.imap = s.imap
  imapCorrupt : s'.imapCorrupt = s.imapCorrupt
  taskMm : ∀ t ≠ tsk, (s'.task t).mm = (s.task t).mm
  cache : ∀ m' ≠ m, CacheValid s m' → CacheValid s' m'

/-- The new task starts with an empty VMA cache. -/
theorem Spawned.setTask {tk : Task} (h : Spawned m s s') (htk : ∀ m' ≠ m, tk.mm ≠ some m') :
    Forked m tsk s (s'.setTask tsk tk) where
  __ := h
  taskMm u hu := by
    rw [← h.taskMm u]
    exact congrArg Task.mm (update_of_ne hu _ _)
  cache m' hm' hc u hu i v hv := by
    by_cases hut : u = tsk
    · subst hut
      rw [show (s'.setTask u tk).task u = tk from update_self ..] at hu
      exact absurd hu (htk m' hm')
    · rw [show (s'.setTask tsk tk).task u = s'.task u from update_of_ne hut _ _] at hu hv ⊢
      exact h.cache m' hm' hc u hu i v hv

/-- **A fork keeps the registry exact** when it copies no file mapping. -/
theorem Registered.forked (h : Registered s) (hm : s.nextMm ≤ m) (htsk : (s.task tsk).mm = none)
    (hf : Forked m tsk s s') (hchild : Childless s' tsk m ∨ Anonymous s' tsk m) :
    Registered s' := by
  have hunused : ∀ u, (s.task u).mm ≠ some m := fun u hu => not_lt.2 hm (h.bound u m hu)
  have hempty : (s.mm m).mmap = [] := h.idle m hunused
  have htask : ∀ u m', m' ≠ m → ((s'.task u).mm = some m' ↔ (s.task u).mm = some m') := by
    intro u m' hm'
    by_cases hu : u = tsk
    · subst hu
      rcases hchild with hc | hc
      · rw [hc.task, htsk]
      · rw [hc.task, htsk]
        simp [hm'.symm]
    · rw [hf.taskMm u hu]
  have hlive : ∀ v, Live s v → s'.vma v = s.vma v := fun v hv => hf.vma v (h.lt_nextVma hv)
  have hm_users : usersOf s' m ⊆ {tsk} := fun u hu => by_contra fun hne =>
    hunused u ((hf.taskMm u hne).symm.trans hu)
  refine .of_accounted (fun m' => ?_)
    (h.holds.of_iff hf.imap hf.imapCorrupt fun f v => ?_) fun f n hn => ?_
  · by_cases hm' : m' = m
    · subst hm'
      rcases hchild with hc | hc
      · have hnone : ∀ u, (s'.task u).mm ≠ some m' := fun u hu => by
          obtain rfl : u = tsk := hm_users hu
          simp [hc.task] at hu
        have heq : usersOf s' m' = ∅ := Set.eq_empty_of_forall_notMem hnone
        exact ⟨fun u hu => absurd hu (hnone u), fun _ => hc.mmap, heq ▸ Set.finite_empty,
          by rw [heq, Set.ncard_empty, hc.users]⟩
      · have heq : usersOf s' m' = {tsk} := hm_users.antisymm (by
          rintro u rfl
          exact hc.task)
        exact ⟨fun _ _ => ⟨hc.coherent, hc.bound⟩, fun hu => absurd hc.task (hu tsk),
          heq ▸ Set.finite_singleton tsk, by rw [heq, Set.ncard_singleton, hc.users]⟩
    · refine h.accounted (fun _ => by rw [hf.mm m' hm']) (by rw [hf.mm m' hm'])
        (fun u => htask u m' hm') hf.nextMm fun hcoh => ?_
      exact hcoh.congr (fun v hv => hf.vma v (hcoh.allocated v hv)) hf.nextVma
        (by rw [hf.mm m' hm']) (by rw [hf.mm m' hm']) (hf.cache m' hm' hcoh.cache)
  · constructor
    · rintro ⟨hv, hfile⟩
      refine ⟨?_, by rw [hlive v hv, hfile]⟩
      obtain ⟨m', hv⟩ := hv
      have hm' : m' ≠ m := by
        rintro rfl
        simp [hempty] at hv
      exact ⟨m', by rwa [hf.mm m' hm']⟩
    · rintro ⟨⟨m', hv⟩, hfile⟩
      by_cases hm' : m' = m
      · subst hm'
        rcases hchild with hc | hc
        · simp [hc.mmap] at hv
        · simp [hc.anon v hv] at hfile
      · rw [hf.mm m' hm'] at hv
        exact ⟨⟨m', hv⟩, by rw [← hlive v ⟨m', hv⟩, hfile]⟩
  · rw [hf.imap] at hn
    rw [hlive n.vma ((h.holds.mem f n.vma).1 (mem_map_of_mem hn)).1]
    exact h.keyed f n hn

/-- An address space that has not been handed out yet. -/
theorem Registered.unused (h : Registered s) (hm : s.nextMm ≤ m) :
    (s.mm m).mmap = [] ∧ (s.mm m).mmUsers = 0 := by
  have hunused : ∀ u, (s.task u).mm ≠ some m := fun u hu => not_lt.2 hm (h.bound u m hu)
  have hnone : usersOf s m = ∅ := Set.eq_empty_of_forall_notMem hunused
  exact ⟨h.idle m hunused, by rw [h.users, hnone, Set.ncard_empty]⟩

theorem unlinkFileVmas_of_anon {vs : List VmaId} (h : ∀ v ∈ vs, (s.vma v).vmFile = none) :
    unlinkFileVmas s vs = s := by
  induction vs with
  | nil => rfl
  | cons v vs ih =>
    have hv : unlinkFileVma s v = s := by rw [unlinkFileVma, h v (by simp)]
    rw [unlinkFileVmas, foldl_cons, hv]
    exact ih fun w hw => h w (by simp [hw])

theorem exitMmap_eq (s : VmState) (m : MmId) : exitMmap s m
    = (unlinkFileVmas s (s.mm m).mmap).setMm m { s.mm m with mmap := [] } := by
  unfold exitMmap
  split_ifs with hnil
  · have hself : { s.mm m with mmap := [] } = s.mm m := by rw [← hnil]
    rw [hself, hnil]
    change s = { s with mm := update s.mm m (s.mm m) }
    rw [update_eq_self]
  · simp only [unlinkFileVmas_mm]

/-- Releasing an address space that maps no file. -/
theorem mmput_of_anon (husers : (s.mm m).mmUsers = 1)
    (hanon : ∀ v ∈ (s.mm m).mmap, (s.vma v).vmFile = none) :
    mmput s m = s.setMm m { s.mm m with mmUsers := 0, mmap := [] } := by
  unfold mmput
  simp only [husers, Nat.sub_self, if_true]
  rw [exitMmap_eq]
  have hmm : ∀ mm, (s.setMm m mm).mm m = mm := fun mm => update_self ..
  have hunlink : ∀ mm, unlinkFileVmas (s.setMm m mm) (s.mm m).mmap = s.setMm m mm := fun mm =>
    unlinkFileVmas_of_anon (s := s.setMm m mm) hanon
  simp only [hmm, hunlink]
  simp only [setMm, update_idem]

theorem Spawned.setMm {mm : MmStruct} (h : Spawned m s s') : Spawned m s (s'.setMm m mm) :=
  { h with
    mm := fun m' hm' => (update_of_ne hm' _ _).trans (h.mm m' hm')
    cache := fun m' hm' hc t ht i v hv => by
      rw [show (s'.setMm m mm).mm m' = s'.mm m' from update_of_ne hm' _ _]
      exact h.cache m' hm' hc t ht i v hv }

/-- The VMAs that the child has got map no file if those of the parent that are copied map none. -/
theorem vmFile_of_childAreas {vs : List VmaId} {a : VmArea}
    (hsafe : ∀ v ∈ vs, (s.vma v).copied → (s.vma v).vmFile = none) (ha : a ∈ childAreas s m vs) :
    a.vmFile = none := by
  obtain ⟨b, hb, rfl⟩ := mem_map.1 ha
  obtain ⟨hb, hcopied⟩ := mem_filter.1 hb
  obtain ⟨v, hv, rfl⟩ := mem_map.1 hb
  exact hsafe v hv hcopied

/-- No file mapping is copied by a fork of the address space `m`. -/
def ForkSafe (s : VmState) (m : MmId) : Prop :=
  ∀ v ∈ (s.mm m).mmap, (s.vma v).copied → (s.vma v).vmFile = none

section

variable (h : Registered s)
include h

/-- **`dup_mm` without file mappings**: the new address space maps no file; if the call fails, it
has no VMAs any more. -/
theorem Registered.dupMm {oldmm : MmId} {r : Option MmId}
    (ht : (s.task t).mm = some oldmm) (hsafe : ForkSafe s oldmm) (hr : dupMm s oldmm = (r, s')) :
    Spawned s.nextMm s s' ∧
      ((r = none ∧ (s'.mm s.nextMm).mmap = [] ∧ (s'.mm s.nextMm).mmUsers = 0) ∨
        (r = some s.nextMm ∧ Coherent s' s.nextMm ∧ s.nextMm < s'.nextMm ∧
          (s'.mm s.nextMm).mmUsers = 1 ∧
          ∀ v ∈ (s'.mm s.nextMm).mmap, (s'.vma v).vmFile = none)) := by
  have hunused : ∀ u, (s.task u).mm ≠ some s.nextMm := fun u hu => lt_irrefl _ (h.bound u _ hu)
  have hne : oldmm ≠ s.nextMm := (h.bound t oldmm ht).ne
  have hc := h.used t oldmm ht
  rcases dupMm_cases hr with ⟨rfl, hq⟩ | ⟨s₀, hq, hd⟩
  · obtain ⟨hmmap, husers⟩ := h.unused (m := s.nextMm) le_rfl
    exact ⟨.of_quiet hq, .inl ⟨rfl, by rw [hq.mm, hmmap], by rw [hq.mm, husers]⟩⟩
  have hnext := hq.nextMm
  obtain ⟨hsp, hcoh, husers, hn, copied, hpre, -, hmap⟩ :=
    dupMmap_spawn (hc.of_quiet hq) (hnext.symm ▸ hne) fun u => by
      rw [hq.taskMm, hnext]
      exact hunused u
  have hsafe' : ∀ v ∈ copied, (s₀.vma v).copied → (s₀.vma v).vmFile = none := fun v hv => by
    have hv := hq.mm ▸ hpre.subset hv
    rw [hq.vma v (hc.allocated v hv)]
    exact hsafe v hv
  rcases hd' : dupMmap (spawn s₀ oldmm) s₀.nextMm oldmm with ⟨res, s₁⟩
  rw [hd'] at hd hsp hcoh husers hn hmap
  rw [hnext] at hd hsp hcoh husers hn hmap
  have hsp := hq.trans_spawned hsp
  have hanon : ∀ v ∈ (s₁.mm s.nextMm).mmap, (s₁.vma v).vmFile = none := fun v hv =>
    vmFile_of_childAreas hsafe' (hmap ▸ mem_map_of_mem hv)
  rcases res with e | ⟨⟩ <;> obtain ⟨rfl, rfl⟩ := hd
  · rw [mmput_of_anon husers hanon]
    exact ⟨hsp.setMm, .inl ⟨rfl, by simp [setMm], by simp [setMm]⟩⟩
  · exact ⟨hsp, .inr ⟨rfl, hcoh, hn ▸ Nat.lt_succ_self _, husers, hanon⟩⟩

/-- A new thread shares the address space of the current task. -/
theorem Registered.share {tk : Task} (ht : (s.task t).mm = some m)
    (htsk : (s.task tsk).mm = none) (htk : tk.mm = some m) (hvmas : ∀ i, tk.vmas i = none) :
    Registered ((s.setMm m { s.mm m with mmUsers := (s.mm m).mmUsers + 1 }).setTask tsk tk) := by
  set s' := (s.setMm m { s.mm m with mmUsers := (s.mm m).mmUsers + 1 }).setTask tsk tk with hs'
  have hself : s'.task tsk = tk := update_self ..
  have hother : ∀ u ≠ tsk, s'.task u = s.task u := fun u hu => update_of_ne hu _ _
  have hmm : ∀ m', (s'.mm m').mmap = (s.mm m').mmap ∧ (s'.mm m').mmRb = (s.mm m').mmRb ∧
      (s'.mm m').vmacacheSeqnum = (s.mm m').vmacacheSeqnum := by
    intro m'
    by_cases hm' : m' = m
    · subst hm'
      simp [hs', setMm, setTask, setTasks]
    · simp [hs', setMm, setTask, setTasks, update_of_ne hm']
  have hlive : ∀ v, Live s' v ↔ Live s v := fun v => by simp only [Live, hmm]
  have hcoh : ∀ m', Coherent s m' → Coherent s' m' := by
    refine fun m' hc => hc.congr (fun _ _ => rfl) le_rfl (hmm m').1 (hmm m').2.1 ?_
    intro u hu i v hv
    by_cases hut : u = tsk
    · rw [hut, hself, hvmas] at hv
      simp at hv
    · rw [hother u hut] at hu hv ⊢
      rw [(hmm m').2.2, (hmm m').1]
      exact hc.cache u hu i v hv
  have hmem : ∀ u m', (s'.task u).mm = some m' ↔ (u = tsk ∧ m' = m) ∨ (s.task u).mm = some m' := by
    intro u m'
    by_cases hut : u = tsk
    · rw [hut, hself, htk, htsk]
      simp [eq_comm]
    · rw [hother u hut]
      simp [hut]
  have husers : usersOf s' m = insert tsk (usersOf s m) := by
    ext u
    rw [Set.mem_insert_iff]
    exact (hmem u m).trans (by simp [usersOf])
  refine .of_accounted (fun m' => ?_) (h.holds.congr rfl rfl hlive fun _ _ => rfl) h.keyed
  by_cases hm' : m' = m
  · subst hm'
    refine ⟨fun u _ => ⟨hcoh m' (h.used t m' ht), h.bound t m' ht⟩, fun hu => ?_, ?_, ?_⟩
    · exact absurd ((hmem t m').2 (.inr ht)) (hu t)
    · exact husers ▸ (h.finite m').insert tsk
    · have hnot : tsk ∉ usersOf s m' := fun hu => by simp [usersOf, htsk] at hu
      rw [husers, Set.ncard_insert_of_notMem hnot (h.finite m'), ← h.users]
      simp [hs', setMm, setTask, setTasks]
  · refine h.accounted (fun _ => (hmm m').1) ?_ (fun u => (hmem u m').trans ?_) le_rfl (hcoh m')
    · simp [hs', setMm, setTask, setTasks, update_of_ne hm']
    · simp [hm']

/-- **`copy_mm` keeps the registry exact** when no file mapping is copied. -/
theorem Registered.copyMm {cloneVm : Bool} (htsk : (s.task tsk).mm = none)
    (hsafe : cloneVm = false → ∀ m, s.currentMm = some m → ForkSafe s m) :
    Registered (copyMm s tsk cloneVm).2 := by
  have hself : ∀ (s' : VmState) (tk : Task), (s'.setTask tsk tk).task tsk = tk := fun s' tk =>
    update_self ..
  unfold Mm.copyMm
  rcases hcur : s.currentMm with _ | oldmm
  · obtain ⟨hmmap, husers⟩ := h.unused (m := s.nextMm) le_rfl
    refine h.forked le_rfl htsk (Spawned.setTask (.of_quiet (Quiet.refl s)) (by simp)) (.inl ?_)
    exact ⟨by rw [hself], hmmap, husers⟩
  cases cloneVm with
  | true => exact h.share hcur htsk rfl fun _ => rfl
  | false =>
    simp only [Bool.false_eq_true, if_false]
    rcases hd : Mm.dupMm s oldmm with ⟨r, s₁⟩
    obtain ⟨hsp, hres⟩ := h.dupMm hcur (hsafe rfl oldmm hcur) hd
    rcases hres with ⟨rfl, hmmap, husers⟩ | ⟨rfl, hcoh, hlt, husers, hanon⟩ <;> dsimp only
    · refine h.forked le_rfl htsk (Spawned.setTask hsp (by simp)) (.inl ?_)
      exact ⟨by rw [hself], hmmap, husers⟩
    · refine h.forked le_rfl htsk (Spawned.setTask hsp fun m' hm' => ?_) (.inr ?_)
      · simpa using hm'.symm
      · refine ⟨by rw [hself], hcoh.congr (fun _ _ => rfl) le_rfl rfl rfl ?_, hlt, husers, hanon⟩
        intro u hu i v hv
        by_cases hut : u = tsk
        · rw [hut, hself] at hv
          simp at hv
        · rw [show (s₁.setTask tsk _).task u = s₁.task u from update_of_ne hut _ _] at hu
          rw [hsp.taskMm] at hu
          exact absurd (h.bound u _ hu) (lt_irrefl _)

/-! ### Exiting -/

/-- The current task leaves its address space `m`, which loses its VMAs if nobody else uses it. -/
theorem Registered.of_leave (hcur : s.currentMm = some m)
    (htask : ∀ u ≠ s.current, s'.task u = s.task u) (hleft : (s'.task s.current).mm = none)
    (hmm : ∀ m' ≠ m, s'.mm m' = s.mm m') (hvma : s'.vma = s.vma) (hnext : s'.nextVma = s.nextVma)
    (hmms : s'.nextMm = s.nextMm) (husers : (s'.mm m).mmUsers = (s.mm m).mmUsers - 1)
    (hstay : ∀ u, (s'.task u).mm = some m → (s'.mm m).mmap = (s.mm m).mmap ∧
      (s'.mm m).mmRb = (s.mm m).mmRb ∧ (s'.mm m).vmacacheSeqnum = (s.mm m).vmacacheSeqnum)
    (hidle : (∀ u, (s'.task u).mm ≠ some m) → (s'.mm m).mmap = [])
    (hholds : Holds s' (Live s')) (hkeyed : Keyed s') : Registered s' := by
  have hmem : ∀ u m', (s'.task u).mm = some m' → u ≠ s.current ∧ (s.task u).mm = some m' := by
    intro u m' hu
    have hne : u ≠ s.current := by
      rintro rfl
      simp [hleft] at hu
    exact ⟨hne, htask u hne ▸ hu⟩
  have hother : ∀ m' ≠ m, ∀ u, (s.task u).mm = some m' → (s'.task u).mm = some m' := by
    intro m' hm' u hu
    have hne : u ≠ s.current := by
      rintro rfl
      exact hm' (Option.some.inj (hu.symm.trans hcur))
    rw [htask u hne, hu]
  have husersm : usersOf s' m = usersOf s m \ {s.current} := by
    ext u
    refine ⟨fun hu => (hmem u m hu).symm, fun ⟨hu, hne⟩ => ?_⟩
    exact (congrArg Task.mm (htask u hne)).trans hu
  have hcoh : ∀ m', (s'.mm m').mmap = (s.mm m').mmap → (s'.mm m').mmRb = (s.mm m').mmRb →
      (s'.mm m').vmacacheSeqnum = (s.mm m').vmacacheSeqnum → Coherent s m' → Coherent s' m' := by
    intro m' hmmap hmmRb hseq hc
    refine hc.congr (fun v _ => by rw [hvma]) hnext.ge hmmap hmmRb fun t ht i v hv => ?_
    obtain ⟨hne, ht'⟩ := hmem t m' ht
    rw [htask t hne] at hv ⊢
    rw [hmmap, hseq]
    exact hc.cache t ht' i v hv
  refine .of_accounted (fun m' => ?_) hholds hkeyed
  by_cases hm' : m' = m
  · subst hm'
    refine ⟨fun u hu => ?_, hidle, husersm ▸ (h.finite m').sdiff, ?_⟩
    · obtain ⟨hmmap, hmmRb, hseq⟩ := hstay u hu
      have hu := (hmem u m' hu).2
      exact ⟨hcoh m' hmmap hmmRb hseq (h.used u m' hu), hmms ▸ h.bound u m' hu⟩
    · have hmem' : s.current ∈ usersOf s m' := hcur
      rw [husersm, Set.ncard_sdiff_singleton_of_mem hmem', husers, h.users]
  · have heq := hmm m' hm'
    exact h.accounted (fun _ => by rw [heq]) (by rw [heq])
      (fun u => ⟨fun hu => (hmem u m' hu).2, hother m' hm' u⟩) hmms.ge
      (hcoh m' (by rw [heq]) (by rw [heq]) (by rw [heq]))

/-- **`exit_mm` keeps the registry exact.** -/
theorem Registered.exitMm : Registered (exitMm s) := by
  unfold Mm.exitMm
  rcases hcur : s.currentMm with _ | m
  · exact h
  dsimp only
  set sE := s.setCurrent { s.task s.current with mm := none } with hsE
  have htask : ∀ u ≠ s.current, sE.task u = s.task u := fun u hu => update_of_ne hu _ _
  have hleft : (sE.task s.current).mm = none := by
    rw [show sE.task s.current = { s.task s.current with mm := none } from update_self ..]
  have hcount : (s.mm m).mmUsers - 1 = (usersOf s m \ {s.current}).ncard := by
    have hmem : s.current ∈ usersOf s m := hcur
    rw [Set.ncard_sdiff_singleton_of_mem hmem, h.users]
  have huser : ∀ u, (sE.task u).mm = some m ↔ u ∈ usersOf s m \ {s.current} := by
    intro u
    by_cases hu : u = s.current
    · subst hu
      simp [hleft]
    · rw [htask u hu]
      simp [usersOf, hu]
  set mm₁ : MmStruct := { s.mm m with mmUsers := (s.mm m).mmUsers - 1 } with hmm₁
  have hlive₁ : ∀ v, Live (sE.setMm m mm₁) v ↔ Live s v := by
    intro v
    refine exists_congr fun m' => ?_
    by_cases hm' : m' = m
    · subst hm'
      simp [setMm, hmm₁]
    · simp [setMm, update_of_ne hm', hsE, setCurrent, setTasks]
  have hholds₁ : Holds (sE.setMm m mm₁) (Live s) :=
    h.holds.congr rfl rfl (fun _ => Iff.rfl) fun _ _ => rfl
  change Registered (if (s.mm m).mmUsers - 1 = 0 then exitMmap (sE.setMm m mm₁) m
    else sE.setMm m mm₁)
  split_ifs with hzero
  · have hm : (sE.setMm m mm₁).mm m = mm₁ := update_self ..
    rw [exitMmap_eq, hm]
    set s' := (unlinkFileVmas (sE.setMm m mm₁) mm₁.mmap).setMm m { mm₁ with mmap := [] } with hs'
    have hm' : s'.mm m = { mm₁ with mmap := [] } := update_self ..
    obtain ⟨imap, corrupt, hu⟩ := unlinkFileVmas_eq (sE.setMm m mm₁) mm₁.mmap
    have hmms : ∀ m' ≠ m, s'.mm m' = s.mm m' := by
      intro m' hne
      rw [hs', hu]
      simp [setMm, update_of_ne hne, hsE, setCurrent, setTasks]
    have hsplit : (s.mm m).mmap = [] ++ ((s.mm m).mmap ++ []) := by simp
    have hlive := h.live_iff_of_detached hsplit (by rw [hm']; rfl) hmms
    have hnodup := (h.used s.current m hcur).ordered.nodup
    have hholds : Holds s' (Live s') :=
      (hholds₁.unlinkFileVmas (fun v hv => ⟨m, hv⟩) hnodup).congr rfl rfl hlive fun _ _ => rfl
    refine h.of_leave (m := m) hcur ?_ ?_ hmms ?_ ?_ ?_ (by rw [hm']) (fun u hu' => ?_)
      (fun _ => by rw [hm']) hholds (h.keyed_of_subset (fun f n hn => ?_) fun f v _ => ?_)
    · rw [hs', hu]
      exact htask
    · rw [hs', hu]
      exact hleft
    · rw [hs', hu]
      rfl
    · rw [hs', hu]
      rfl
    · rw [hs', hu]
      rfl
    · rw [hs', hu] at hu'
      rw [hcount, Set.ncard_eq_zero ((h.finite m).sdiff)] at hzero
      exact absurd ((huser u).1 hu') (by simp [hzero])
    · exact mem_of_mem_unlinkFileVmas (s := sE.setMm m mm₁) hn
    · rw [hs', hu]
      rfl
  · have hm : (sE.setMm m mm₁).mm m = mm₁ := update_self ..
    refine h.of_leave (m := m) hcur htask hleft (fun m' hm' => update_of_ne hm' _ _) rfl
      rfl rfl (by rw [hm]) (fun _ _ => by rw [hm]; exact ⟨rfl, rfl, rfl⟩) (fun hnone => ?_)
      (hholds₁.congr rfl rfl hlive₁ fun _ _ => rfl) h.keyed
    rw [hcount] at hzero
    obtain ⟨u, hu⟩ := Set.nonempty_of_ncard_ne_zero hzero
    exact absurd ((huser u).2 hu) (hnone u)

end

/-! ### Runs -/

/-- The operations of the tasks. `schedule` makes another task the current one. -/
inductive MapOp
  | schedule (tsk : TaskId)
  | mmapRegion (file : Option FileId) (addr len : ℕ) (vmFlags : VmFlags) (pgoff : ℕ)
  | munmap (start len : ℕ) (downgrade : Bool)
  | fork (tsk : TaskId) (cloneVm : Bool)
  | exit

namespace MapOp

/-- Carry out an operation of the current task. -/
def exec (s : VmState) : MapOp → Except Oops (Except Errno ℕ × VmState)
  | schedule tsk => .ok (.ok 0, { s with current := tsk })
  | mmapRegion file addr len vmFlags pgoff => Mm.mmapRegion s file addr len vmFlags pgoff
  | munmap start len downgrade =>
    match s.currentMm with
    | none => .error .nullDeref
    | some m => doMunmap s m start len downgrade
  | fork tsk cloneVm => .ok (copyMm s tsk cloneVm)
  | exit => .ok (.ok 0, exitMm s)

/-- What the callers guarantee: areas are not empty and lie in user space, and a forked task is
new. -/
def Contract (s : VmState) : MapOp → Prop
  | mmapRegion _ addr len _ _ => 0 < len ∧ addr + len ≤ taskSize
  | fork tsk _ => (s.task tsk).mm = none
  | _ => True

/-- No file mapping is cut by an unmapping and stays, and none is copied by a fork. -/
def Safe (s : VmState) : MapOp → Prop
  | mmapRegion _ addr len _ _ => ∀ m, s.currentMm = some m → CutSafe s m addr (addr + pageAlign len)
  | munmap start len _ => ∀ m, s.currentMm = some m → CutSafe s m start (start + pageAlign len)
  | fork _ false => ∀ m, s.currentMm = some m → ForkSafe s m
  | _ => True

end MapOp

/-- A call that comes back, with whatever value. -/
def MapStep (s : VmState) (o : MapOp) (t : VmState) : Prop := ∃ r, o.exec s = .ok (r, t)

/-- No address space has a VMA, the user counts are right, and the registry is empty. -/
structure NoMappings (s : VmState) : Prop where
  mmap : ∀ m, (s.mm m).mmap = []
  mmRb : ∀ m, (s.mm m).mmRb = .nil
  bound : ∀ t m, (s.task t).mm = some m → m < s.nextMm
  finite : ∀ m, (usersOf s m).Finite
  users : ∀ m, (s.mm m).mmUsers = (usersOf s m).ncard
  cache : ∀ m, CacheValid s m
  imap : ∀ f, s.imap f = []
  intact : s.imapCorrupt = false

theorem NoMappings.registered (h : NoMappings s) : Registered s := by
  have hlive : ∀ v, ¬ Live s v := by
    rintro v ⟨m, hv⟩
    simp [h.mmap m] at hv
  refine ⟨fun t m _ => .of_empty (h.mmap m) (h.mmRb m) (h.cache m), fun m _ => h.mmap m, h.bound,
    h.finite, h.users, ⟨fun f v => ?_, fun f => ?_, h.intact⟩, fun f n hn => ?_⟩
  · simp [h.imap f, hlive v]
  · simp [h.imap f]
  · simp [h.imap f] at hn

/-- **One step.** A safe operation keeps the registry exact. -/
theorem Registered.step {o : MapOp} (h : Registered s) (hc : o.Contract s) (hsafe : o.Safe s)
    (hstep : MapStep s o s') : Registered s' := by
  obtain ⟨r, hr⟩ := hstep
  cases o with
  | schedule tsk =>
    cases hr
    refine ⟨fun t m ht => ?_, h.idle, h.bound, h.finite, h.users,
      h.holds.congr rfl rfl (fun _ => Iff.rfl) fun _ _ => rfl, h.keyed⟩
    exact (h.used t m ht).congr (fun _ _ => rfl) le_rfl rfl rfl (h.used t m ht).cache
  | mmapRegion file addr len vmFlags pgoff =>
    rcases hcur : s.currentMm with _ | m
    · simp [MapOp.exec, Mm.mmapRegion, hcur] at hr
    · exact h.mmapRegion hcur hc.1 hc.2 (hsafe m hcur) hr
  | munmap start len downgrade =>
    simp only [MapOp.exec] at hr
    rcases hcur : s.currentMm with _ | m <;> rw [hcur] at hr
    · cases hr
    · have ho := doMunmap_outcome (h.used _ m hcur) start len downgrade
      rw [show doMunmap s m start len downgrade = .ok (r, s') from hr] at ho
      exact h.munmap hcur (hsafe m hcur) ho
  | fork tsk cloneVm =>
    obtain rfl : (Mm.copyMm s tsk cloneVm).2 = s' := by rw [Except.ok.inj hr]
    refine h.copyMm hc fun hclone => ?_
    subst hclone
    exact hsafe
  | exit =>
    cases hr
    exact h.exitMm

/-- **The registry along runs.** From a state without mappings, the registry of file mappings is
exact in every state that is reached by steps that neither cut a file mapping nor copy one. -/
theorem fileRegistry_of_run {os : List MapOp} (h : NoMappings s)
    (hrun : Run (guarded (fun s o => o.Contract s ∧ o.Safe s) MapStep) s os s') :
    FileRegistry s' := by
  have hreg : Registered s' := by
    refine hrun.invariant (I := Registered) ?_ h.registered
    rintro s o t hs ⟨⟨hc, hsafe⟩, hstep⟩
    exact hs.step hc hsafe hstep
  exact hreg.holds.fileRegistry hreg.keyed

theorem noMappings_bareTask : NoMappings bareTask := by
  have htask : ∀ t m, (bareTask.task t).mm = some m ↔ t = 0 ∧ m = 0 := by
    intro t m
    by_cases ht : t = 0
    · subst ht
      simp [bareTask, single, eq_comm]
    · simp [bareTask, single, ht]
  have husers : ∀ m, usersOf bareTask m = if m = 0 then {0} else ∅ := by
    intro m
    ext t
    rw [usersOf, Set.mem_ofPred_eq, htask]
    split_ifs with hm <;> simp [hm]
  have hmm : ∀ m, (bareTask.mm m).mmap = [] ∧ (bareTask.mm m).mmRb = .nil ∧
      (bareTask.mm m).mmUsers = if m = 0 then 1 else 0 := by
    intro m
    by_cases hm : m = 0
    · subst hm
      exact ⟨rfl, rfl, rfl⟩
    · simp [bareTask, single, MmStruct.empty, hm]
  refine ⟨fun m => (hmm m).1, fun m => (hmm m).2.1, fun t m ht => ?_, fun m => ?_, fun m => ?_,
    fun m t ht i v hv => ?_, fun _ => rfl, rfl⟩
  · rw [((htask t m).1 ht).2]
    decide
  · rw [husers]
    split_ifs <;> simp
  · rw [husers, (hmm m).2.2]
    split_ifs <;> simp
  · obtain ⟨rfl, -⟩ := (htask t m).1 ht
    cases hv

/-- A page of a file is mapped and unmapped; then the task forks, and the child exits. -/
theorem fileRegistry_mmap_fork_exit :
    ∃ t, Run (guarded (fun s o => o.Contract s ∧ o.Safe s) MapStep) bareTask
        [.mmapRegion (some 3) 0x8000 0x1000 vmRead 0, .munmap 0x8000 0x1000 false, .fork 1 false,
          .schedule 1, .exit] t ∧
      FileRegistry t := by
  obtain ⟨t, hrun⟩ : ∃ t, Run (guarded (fun s o => o.Contract s ∧ o.Safe s) MapStep) bareTask
      [.mmapRegion (some 3) 0x8000 0x1000 vmRead 0, .munmap 0x8000 0x1000 false, .fork 1 false,
        .schedule 1, .exit] t := by
    refine ⟨_, .cons ⟨⟨⟨by decide, by decide⟩, fun m hm => ?_⟩, _, rfl⟩
      (.cons ⟨⟨trivial, fun m hm => ?_⟩, _, rfl⟩ (.cons ⟨⟨rfl, fun m hm => ?_⟩, _, rfl⟩
      (.cons ⟨⟨trivial, trivial⟩, _, rfl⟩ (.cons ⟨⟨trivial, trivial⟩, _, rfl⟩ .nil))))⟩ <;>
      cases hm
    · intro v hv
      exact absurd hv not_mem_nil
    · intro v hv
      obtain rfl : v = 0 := mem_singleton.1 hv
      decide
    · intro v hv
      exact absurd hv not_mem_nil
  exact ⟨t, hrun, fileRegistry_of_run noMappings_bareTask hrun⟩

/-- **A fork of a file mapping.** The copy of the child is live but not in the registry, and when
the child exits, a node is removed that is in no tree. -/
theorem fork_not_fileRegistry :
    NoMappings bareTask ∧
      ∃ t u, Run (guarded (fun s o => o.Contract s) MapStep) bareTask
          [.mmapRegion (some 3) 0x8000 0x1000 vmRead 0, .fork 1 false] t ∧
        Live t 1 ∧ (t.vma 1).vmFile = some 3 ∧ t.imap 3 = [⟨0, 0, 0⟩] ∧ ¬ FileRegistry t ∧
        Run (guarded (fun s o => o.Contract s) MapStep) t [.schedule 1, .exit] u ∧
        u.imapCorrupt = true := by
  refine ⟨noMappings_bareTask, _, _, .cons ⟨⟨by decide, by decide⟩, _, rfl⟩
    (.cons ⟨rfl, _, rfl⟩ .nil), ⟨1, mem_singleton.2 rfl⟩, rfl, rfl, fun h => ?_,
    .cons ⟨trivial, _, rfl⟩ (.cons ⟨trivial, _, rfl⟩ .nil), rfl⟩
  exact absurd ((h.exact 3 ⟨1, 0, 0⟩).2 ⟨⟨1, mem_singleton.2 rfl⟩, rfl, rfl, rfl⟩) (by decide)

end MinimalKernel.Mm
