import MinimalKernel.Mm.Access
import MinimalKernel.Mm.Fork

/-!
# What a child process sees

`dup_mm` gives the child copies of the VMAs of its parent and a page directory of its own. It
copies no page table, so that the child starts with what the mappings show to a process that has
not touched them: the pages of the file, or zeros. What the parent has written to its private pages
is lost in the child.

The child reads what the parent reads exactly if the parent has written nothing like that. From
then on the two processes are isolated: a write to a private mapping is seen by no other process,
and a write to a shared mapping by all that map the same page. This is a property of all runs of
loads and stores. It depends on the allocator handing out pages of zeros, for the page directory of
the child as for the pages and page tables of the accesses.

## Main definitions

* `Machine`, `Machine.dupMm` — VMAs and memory together, and `dup_mm` with its page directory
* `Reads` — the byte that a process would load
* `Isolated` — who sees the stores along all runs of accesses
* `ForkFaithful`, `Inherits` — the contract of a fork, and the condition

## Main results

* `isolated_of_systemOk` — the processes are isolated along every run
* `dupMm_faithful_iff` — a fork meets its contract exactly if `Inherits` holds
-/

namespace MinimalKernel.Mm

open Function Lib List MemState VmState

/-! ### The model -/

/-- `_KERNPG_TABLE`. -/
def kernpgTable : BitVec 32 := 0x063

/-- A word as a directory entry, by the tests `pmd_none` and `pmd_bad`. A page table is the frame
that the word names. -/
def decodePde (frame : ℕ → Frame) (w : BitVec 32) : Pde :=
  if w = 0 then .none
  else if w &&& 0xFFB = kernpgTable then .table (tableOf (frame (w.toNat / pageSize)).data)
  else .bad

/-- VMAs, memory and the page directory of the kernel. -/
structure Machine where
  vm : VmState
  mem : MemState
  swapperPgDir : Pgd

/-- `pgd_alloc`: the entries of the kernel are copied; nothing clears those of user space. -/
def pgdAlloc (s : MemState) (swapperPgDir : Pgd) : Option (ℕ × Pgd) × MemState :=
  match s.allocPage with
  | (none, s') => (none, s')
  | (some p, s') =>
    (some (p, fun i => if i < userPtrsPerPgd then decodePde s.frame (pteWord (s.frame p).data i)
      else swapperPgDir i), s')

/-- `dup_mm` with the page directory that `mm_init` allocates; it is freed again if the call
fails. -/
def Machine.dupMm (s : Machine) (oldmm : MmId) : Option MmId × Machine :=
  match pgdAlloc s.mem s.swapperPgDir with
  | (none, mem) => (none, { s with mem := mem })
  | (some (p, dir), mem) =>
    match Mm.dupMm s.vm oldmm with
    | (none, vm) => (none, { s with vm := vm, mem := mem.putPage p })
    | (some m, vm) => (some m, { s with vm := vm, mem := mem.setPgd m dir })

/-! ### Runs of loads and stores -/

/-- An access of a process to one of its mappings. -/
inductive Access
  | load (a : VmArea) (x : ℕ) (flags : FaultFlags)
  | store (a : VmArea) (x : ℕ) (c : BitVec 8) (flags : FaultFlags)

namespace Access

def area : Access → VmArea
  | load a _ _ => a
  | store a _ _ _ => a

def addr : Access → ℕ
  | load _ x _ => x
  | store _ x _ _ => x

/-- The access is made to a mapping in use, with the memory it may need. -/
structure Permitted (R : VmArea → Prop) (s : MemState) (o : Access) : Prop where
  mem : R o.area
  holds : o.area.Holds o.addr
  ready : Ready s o.area o.addr

/-- An access that the kernel survives. -/
def Step (s : MemState) (o : Access) (s' : MemState) : Prop :=
  match o with
  | load a x flags => ∃ c, s.load a x flags = .ok (c, s')
  | store a x c flags => ∃ done, s.store a x c flags = .ok (done, s')

end Access

/-- A load at the address `x` gives `c`; no byte stands for a signal. -/
def Reads (s : MemState) (a : VmArea) (x : ℕ) (c : Option (BitVec 8)) : Prop :=
  ∀ flags, ∃ s', s.load a x flags = .ok (c, s')

/-- **Isolation.** Along every run of accesses, a store to a private mapping changes nothing that
another process reads, and a store to a shared mapping is read wherever the page is shared. -/
def Isolated (R : VmArea → Prop) (s : MemState) : Prop :=
  ∀ os t, Run (guarded (Access.Permitted R) Access.Step) s os t →
    ∀ a x c flags t', Access.Permitted R t (.store a x c flags) →
      t.store a x c flags = .ok (true, t') →
      (hasFlag a.vmFlags vmShared = false → ∀ b y, R b → b.Holds y → b.vmMm ≠ a.vmMm →
        Ready t b y → Ready t' b y → ∀ d, Reads t' b y d ↔ Reads t b y d) ∧
      (hasFlag a.vmFlags vmShared = true → ∀ b y, R b → b.Holds y →
        hasFlag b.vmFlags vmShared = true → SamePage a b x y → offsetInPage y = offsetInPage x →
        Ready t' b y → Reads t' b y (some c))

variable {R : VmArea → Prop} {s s' : MemState} {a b : VmArea} {x y j k p q : ℕ} {m m' : MmId}
  {o : Access} {c : BitVec 8} {flags : FaultFlags} {dir : Pgd}

/-- What a load gives. -/
def MemState.shownByte (s : MemState) (a : VmArea) (x : ℕ) : Option (BitVec 8) :=
  if a.isAnonymous = true ∧ hasFlag a.vmFlags vmShared = true then none
  else some (s.visible a x (offsetInPage x))

section

variable (hL : Layout R) (h : SystemOk R s)
include hL h

theorem reads_iff (ha : R a) (hx : a.Holds x) (hr : Ready s a x) {d : Option (BitVec 8)} :
    Reads s a x d ↔ d = s.shownByte a x := by
  have hload : ∀ flags, ∃ s', s.load a x flags = .ok (s.shownByte a x, s') := fun flags => by
    unfold shownByte
    rcases load_eq flags hL h ha hx hr with ⟨hanon, hshared, heq⟩ | ⟨hno, s', heq⟩
    · rw [if_pos ⟨hanon, hshared⟩]
      exact ⟨s, heq⟩
    · rw [if_neg hno]
      exact ⟨s', heq⟩
  constructor
  · intro hd
    obtain ⟨s₁, h₁⟩ := hd ⟨false, false, false, false⟩
    obtain ⟨s₂, h₂⟩ := hload ⟨false, false, false, false⟩
    exact congrArg Prod.fst (Except.ok.inj (h₁.symm.trans h₂))
  · rintro rfl
    exact hload

theorem load_keeps (ha : R a) (hx : a.Holds x) (hr : Ready s a x) {d : Option (BitVec 8)}
    (heq : s.load a x flags = .ok (d, s')) : SystemOk R s' := by
  unfold load at heq
  cases hread : s.readByte a x with
  | some e =>
    rw [hread] at heq
    cases heq
    exact h
  | none =>
    rw [hread] at heq
    dsimp only at heq
    cases hf : handleMmFault s a x { flags with write := false } with
    | error e =>
      rw [hf] at heq
      cases heq
    | ok r =>
      obtain ⟨ret, s₁⟩ := r
      have hok := (handleMmFault_keeps hL h ha hx hr hf).1
      rw [hf] at heq
      dsimp only at heq
      split_ifs at heq <;> cases heq <;> exact hok

theorem SystemOk.step (hp : o.Permitted R s) (hstep : o.Step s s') : SystemOk R s' := by
  cases o with
  | load a x flags =>
    obtain ⟨d, heq⟩ := hstep
    exact load_keeps hL h hp.mem hp.holds hp.ready heq
  | store a x c flags =>
    obtain ⟨done, heq⟩ := hstep
    exact (store_cases hL h hp.mem hp.holds hp.ready heq).1

/-- **The processes are isolated along every run.** -/
theorem isolated_of_systemOk : Isolated R s := by
  intro os t hrun a x c flags t' hp hstore
  have ht : SystemOk R t := hrun.invariant (I := SystemOk R)
    (fun s o s' hs hstep => hs.step hL hstep.1 hstep.2) h
  obtain ⟨ht', -, hdone⟩ := store_cases hL ht hp.mem hp.holds hp.ready hstore
  obtain ⟨t₁, ht₁, hview, hw⟩ := hdone rfl
  have hw : t₁.writeByte a x c = some t' := hw
  have hentry := ht₁.entries a hp.mem x hp.holds
  refine ⟨fun hprivate b y hb hy hne hr hr' d => ?_,
    fun hshared b y hb hy hshared' hsame hoff hr' => ?_⟩
  · have hvis : t'.visible b y (offsetInPage y) = t.visible b y (offsetInPage y) :=
      (writeByte_private ht₁ (hL.lt_taskSize hp.mem hp.holds) hentry hprivate hw hne
        (hL.lt_taskSize hb hy)).trans (hview b hb y hy _ (offsetInPage_lt y))
    rw [reads_iff hL ht' hb hy hr', reads_iff hL ht hb hy hr, shownByte, hvis, shownByte]
  · have hvis := writeByte_shared hentry (ht₁.entries b hb y hy) hshared hshared' hsame hw
    have hanon : b.isAnonymous = false := by
      cases hanon : b.isAnonymous with
      | false => rfl
      | true =>
        obtain ⟨p, d, acc, hpte, -⟩ := writeByte_eq_some hw
        have hanon' : a.isAnonymous = true := by
          rw [VmArea.isAnonymous, ← hsame.ops]
          exact hanon
        rw [hentry.of_shared_anon hshared hanon'] at hpte
        cases hpte
    rw [reads_iff hL ht' hb hy hr', shownByte, hoff, hvis, hanon, if_neg (by simp)]

end

/-! ### The VMAs in use -/

/-- The VMAs of all address spaces. -/
def VmState.Area (s : VmState) (a : VmArea) : Prop := ∃ m, ∃ v ∈ (s.mm m).mmap, s.vma v = a

/-- The invariant of the machine. -/
structure Machine.Ok (s : Machine) : Prop where
  coherent : ∀ m, Coherent s.vm m
  aligned : ∀ a, s.vm.Area a → pageSize ∣ a.vmStart
  system : SystemOk s.vm.Area s.mem

/-- Pages of VMAs that follow one another are different. -/
theorem pageOf_ne (hb : pageSize ∣ b.vmStart) (hle : a.vmEnd ≤ b.vmStart) (hx : a.Holds x)
    (hy : b.Holds y) : pageOf x ≠ pageOf y := by
  obtain ⟨r, hr⟩ := hb
  have hlt : x / pageSize < r := by
    rw [Nat.div_lt_iff_lt_mul (by decide), mul_comm]
    exact hx.2.trans_le (hle.trans_eq hr)
  have hge : r ≤ y / pageSize := by
    rw [Nat.le_div_iff_mul_le (by decide), mul_comm]
    exact hr.symm.trans_le hy.1
  exact (hlt.trans_le hge).ne

theorem layout_of_coherent {vm : VmState} (hc : ∀ m, Coherent vm m)
    (hal : ∀ a, vm.Area a → pageSize ∣ a.vmStart) : Layout vm.Area where
  bounded := by
    rintro a ⟨m, v, hv, rfl⟩
    exact (hc m).bounded v hv
  aligned := hal
  apart := by
    rintro a b x y ⟨m, v, hv, rfl⟩ ⟨m', w, hw, rfl⟩ hmm hx hy hpage
    obtain rfl : m = m' := by
      rw [← (hc m).owned v hv, ← (hc m').owned w hw]
      exact hmm
    by_contra hne
    have : Std.Symm fun u z => vm.hi u ≤ vm.lo z ∨ vm.hi z ≤ vm.lo u := ⟨fun _ _ => Or.symm⟩
    have hpair : (vm.mm m).mmap.Pairwise fun u z => vm.hi u ≤ vm.lo z ∨ vm.hi z ≤ vm.lo u :=
      (hc m).ordered.pairwise.imp .inl
    rcases hpair.forall hv hw (fun heq => hne (by rw [heq])) with hle | hle
    · exact pageOf_ne (hal _ ⟨m, w, hw, rfl⟩) hle hx hy hpage
    · exact pageOf_ne (hal _ ⟨m, v, hv, rfl⟩) hle hy hx hpage.symm

theorem Machine.Ok.layout {s : Machine} (h : s.Ok) : Layout s.vm.Area :=
  layout_of_coherent h.coherent h.aligned

/-! ### The address space of the child -/

theorem pageIndex_child : (a.child m).pageIndex x = a.pageIndex x := rfl

theorem isAnonymous_child : (a.child m).isAnonymous = a.isAnonymous := rfl

theorem hasFlag_child : hasFlag (a.child m).vmFlags vmShared = hasFlag a.vmFlags vmShared := by
  have hmask : ~~~ (vmLocked ||| vmLockonfault) &&& vmShared = vmShared := by decide
  show ((a.vmFlags &&& ~~~ (vmLocked ||| vmLockonfault)) &&& vmShared != 0) = _
  rw [BitVec.and_assoc, hmask]
  rfl

theorem ready_child (h : Ready s a x) (hlen : 3 ≤ s'.free.length)
    (hzero : ∀ p ∈ s'.free, ZeroPage (s'.frame p).data) (hspecial : s'.special = s.special) :
    Ready s' (a.child m) x := by
  refine ⟨hlen, hzero, h.delivers.imp_right fun hd => ?_⟩
  unfold Delivers at hd ⊢
  rw [hspecial]
  exact hd

/-- The directory has no page tables in user space. -/
def EmptyDir (dir : Pgd) : Prop := ∀ i < userPtrsPerPgd, dir i = .none

/-- A page of zeros is a directory without page tables. -/
theorem emptyDir_of_zero {swapper : Pgd} {data : ℕ → BitVec 8} {frame : ℕ → Frame}
    (hz : ZeroPage data) :
    EmptyDir fun i => if i < userPtrsPerPgd then decodePde frame (pteWord data i)
      else swapper i := by
  intro i hi
  have hi' : i < ptrsPerPte := hi.trans (by decide)
  have hword : pteWord data i = 0 := by
    by_contra hne
    have htable : decodePte (pteWord data i) = .none := hz.tableOf hi'
    rw [decodePte, if_neg hne] at htable
    split_ifs at htable
  dsimp only
  rw [if_pos hi, hword]
  rfl

theorem EmptyDir.pte (h : EmptyDir dir) (hk : k / ptrsPerPte < userPtrsPerPgd) :
    (s.setPgd m dir).pte m k = .none := by
  show pteOf (update s.pgd m dir m) k = .none
  rw [update_self, pteOf, h _ hk]

theorem pte_setPgd_of_ne (h : m' ≠ m) : (s.setPgd m dir).pte m' k = s.pte m' k := by
  show pteOf (update s.pgd m dir m') k = _
  rw [update_of_ne h]
  rfl

/-- An address space without page tables joins. -/
theorem SystemOk.setPgd {R' : VmArea → Prop} (hL : Layout R') (h : SystemOk R s)
    (hdir : EmptyDir dir) (hR : ∀ a, R' a → a.vmMm ≠ m → R a) : SystemOk R' (s.setPgd m dir) := by
  have hmaps : ∀ m' k q, (s.setPgd m dir).Maps m' k q → s.Maps m' k q := fun m' k q hmap => by
    by_cases hm : m' = m
    · subst hm
      have hpfn := hmap.2
      rw [hdir.pte hmap.1] at hpfn
      cases hpfn
    · exact ⟨hmap.1, by rw [← pte_setPgd_of_ne hm]; exact hmap.2⟩
  have hp := h.mem.pages
  refine ⟨⟨{ hp with },
    fun q hq m' k hmap => h.mem.unmapped q hq m' k (hmaps m' k q hmap), h.mem.uncached,
    fun q hq m₁ k₁ m₂ k₂ h₁ h₂ => h.mem.once q hq m₁ k₁ m₂ k₂ (hmaps _ _ _ h₁) (hmaps _ _ _ h₂),
    fun m' i hi => ?_⟩, h.unspecial, h.inexclusive, fun a ha x hx => ?_⟩
  · by_cases hm : m' = m
    · subst hm
      have hlt : i < userPtrsPerPgd := by
        unfold userPtrsPerPgd
        rwa [Nat.lt_div_iff_mul_lt_of_dvd (by decide) (by decide)]
      show update s.pgd m' dir m' i ≠ .bad
      rw [update_self, hdir i hlt]
      nofun
    · show update s.pgd m dir m' i ≠ .bad
      rw [update_of_ne hm]
      exact h.mem.dirs m' i hi
  · by_cases hm : a.vmMm = m
    · have hpte : (s.setPgd m dir).pte a.vmMm (pageOf x) = .none := by
        rw [hm]
        exact hdir.pte (vpn_lt (hL.lt_taskSize ha hx))
      exact ⟨by rw [hpte]; nofun, fun p w d acc hq => by rw [hpte] at hq; cases hq⟩
    · have hpte : (s.setPgd m dir).pte a.vmMm (pageOf x) = s.pte a.vmMm (pageOf x) :=
        pte_setPgd_of_ne hm
      have hold := h.entries a (hR a ha hm) x hx
      exact ⟨hpte ▸ hold.not_swap, fun p w d acc hq => hold.page p w d acc (hpte ▸ hq)⟩

/-! ### The fork -/

/-- **The contract of a fork.** Where the parent reads a byte the copy of the VMA reads it too, and
from then on the processes are isolated. -/
structure ForkFaithful (s : Machine) (oldmm m : MmId) (s' : Machine) : Prop where
  inherited : ∀ v ∈ (s.vm.mm oldmm).mmap, (s.vm.vma v).copied = true →
    s'.vm.Area ((s.vm.vma v).child m) ∧ ∀ x, (s.vm.vma v).Holds x → ∀ c,
      Reads s.mem (s.vm.vma v) x (some c) → Reads s'.mem ((s.vm.vma v).child m) x (some c)
  isolated : Isolated s'.vm.Area s'.mem

/-- The byte that a mapping shows to a process that has not touched the page. -/
def MemState.untouched (s : MemState) (a : VmArea) (x : ℕ) : BitVec 8 :=
  match s.backing a (a.pageIndex x) with
  | some p => (s.frame p).data (offsetInPage x)
  | none => 0

/-- The condition on a fork: in the VMAs that are copied, the parent sees nothing that it has
written to pages of its own. -/
def Inherits (s : Machine) (oldmm : MmId) : Prop :=
  ∀ v ∈ (s.vm.mm oldmm).mmap, (s.vm.vma v).copied = true → ∀ x, (s.vm.vma v).Holds x →
    ¬ ((s.vm.vma v).isAnonymous = true ∧ hasFlag (s.vm.vma v).vmFlags vmShared = true) →
    s.mem.visible (s.vm.vma v) x (offsetInPage x) = s.mem.untouched (s.vm.vma v) x

/-- A successful `dup_mm` takes the next page of the allocator as the page directory. -/
theorem Machine.dupMm_some {s s' : Machine} {oldmm : MmId} (h : PagesOk s.mem)
    (hzero : ∀ p ∈ s.mem.free, ZeroPage (s.mem.frame p).data) (hr : s.dupMm oldmm = (some m, s')) :
    Mm.dupMm s.vm oldmm = (some m, s'.vm) ∧ ∃ p mem dir, s.mem.free = p :: mem.free ∧
      Prepared m (one p) s.mem mem ∧ mem.cache = s.mem.cache ∧ EmptyDir dir ∧
      s'.mem = mem.setPgd m dir := by
  unfold Machine.dupMm pgdAlloc at hr
  cases hfree : s.mem.free with
  | nil =>
    rw [allocPage, hfree] at hr
    cases hr
  | cons p rest =>
    obtain ⟨mem, halloc, hprep, hrest, hcache⟩ := h.allocPage (m := m) hfree
    rw [halloc] at hr
    dsimp only at hr
    rcases hd : Mm.dupMm s.vm oldmm with ⟨_ | m', vm⟩
    · rw [hd] at hr
      cases hr
    · rw [hd] at hr
      cases hr
      exact ⟨rfl, p, mem, _, by rw [hrest], hprep, hcache,
        emptyDir_of_zero (hzero p (hfree ▸ mem_cons_self)), rfl⟩

section Fork

variable {s s' : Machine} {oldmm : MmId} (h : s.Ok) (hne : oldmm ≠ s.vm.nextMm)
  (hunused : ∀ t, (s.vm.task t).mm ≠ some s.vm.nextMm)
  (hzero : ∀ p ∈ s.mem.free, ZeroPage (s.mem.frame p).data)
  (hr : s.dupMm oldmm = (some m, s'))

include h hne hunused hzero hr

/-- The VMAs after the fork. -/
theorem Machine.Ok.dupMm_area (hb : s'.vm.Area b) :
    b.vmMm ≠ m ∧ s.vm.Area b ∨ ∃ v ∈ (s.vm.mm oldmm).mmap, (s.vm.vma v).copied = true ∧
      b = (s.vm.vma v).child m := by
  obtain ⟨-, hsp, -, hmap⟩ :=
    Mm.dupMm_some (h.coherent oldmm) hne hunused (Machine.dupMm_some h.system.mem.pages hzero hr).1
  obtain ⟨m', w, hw, rfl⟩ := hb
  by_cases hm : m' = m
  · subst hm
    have hchild : s'.vm.vma w ∈ childAreas s.vm m' (s.vm.mm oldmm).mmap :=
      hmap ▸ mem_map_of_mem hw
    obtain ⟨a, ha, hchild⟩ := mem_map.1 hchild
    obtain ⟨ha, hcopied⟩ := mem_filter.1 ha
    obtain ⟨v, hv, rfl⟩ := mem_map.1 ha
    exact .inr ⟨v, hv, hcopied, hchild.symm⟩
  · rw [hsp.mm m' hm] at hw
    have hvma := hsp.vma w ((h.coherent m').allocated w hw)
    refine .inl ⟨?_, m', w, hw, hvma.symm⟩
    rw [hvma, (h.coherent m').owned w hw]
    exact hm

/-- **A fork keeps the invariant of the machine.** -/
theorem Machine.Ok.dupMm : s'.Ok := by
  obtain ⟨hdup, p, mem, dir, hfree, hprep, hcache, hdir, hmem⟩ :=
    Machine.dupMm_some h.system.mem.pages hzero hr
  obtain ⟨-, hsp, hcoh, -⟩ := Mm.dupMm_some (h.coherent oldmm) hne hunused hdup
  have hcoh' : ∀ m', Coherent s'.vm m' := fun m' => by
    by_cases hm : m' = m
    · exact hm ▸ hcoh
    · have hc := h.coherent m'
      exact hc.congr (fun v hv => hsp.vma v (hc.allocated v hv)) hsp.nextVma
        (by rw [hsp.mm m' hm]) (by rw [hsp.mm m' hm]) (hsp.cache m' hm hc.cache)
  have hal : ∀ a, s'.vm.Area a → pageSize ∣ a.vmStart := fun a ha => by
    rcases h.dupMm_area hne hunused hzero hr ha with ⟨-, ha⟩ | ⟨v, hv, -, rfl⟩
    · exact h.aligned a ha
    · exact h.aligned (s.vm.vma v) ⟨oldmm, v, hv, rfl⟩
  refine ⟨hcoh', hal, ?_⟩
  have hsub : ∀ q ∈ mem.free, q ∈ s.mem.free := fun q hq => hprep.free.subset hq
  have hold := h.system
  have hbacking : ∀ a i, mem.backing a i = s.mem.backing a i := fun a i => by
    rw [backing, hcache, hprep.special]
    rfl
  have hok : SystemOk s.vm.Area mem := by
    refine ⟨⟨hprep.ready, fun q hq m' k hmap => ?_, fun q hq hc => ?_, fun q hq m₁ k₁ m₂ k₂ h₁ h₂ =>
      ?_, fun m' i hi => ?_⟩, fun q hq i => ?_, fun q hq => ?_, fun a ha x hx => ⟨?_, ?_⟩⟩
    · exact hold.mem.unmapped q (hsub q hq) m' k (hprep.maps.1 hmap)
    · rw [hprep.exclusive] at hq
      rw [Cached, hcache] at hc
      exact hold.mem.uncached q hq hc
    · rw [hprep.exclusive] at hq
      exact hold.mem.once q hq m₁ k₁ m₂ k₂ (hprep.maps.1 h₁) (hprep.maps.1 h₂)
    · rw [hprep.pgd]
      exact hold.mem.dirs m' i hi
    · rw [hprep.exclusive] at hq
      rw [hprep.special]
      exact hold.unspecial q hq i
    · rw [hprep.exclusive]
      exact hold.inexclusive q (hsub q hq)
    · rw [hprep.pte]
      exact (hold.entries a ha x hx).not_swap
    · intro q w d acc hq
      rw [hprep.pte] at hq
      rw [hprep.exclusive, hbacking]
      exact (hold.entries a ha x hx).page q w d acc hq
  rw [hmem]
  refine hok.setPgd (layout_of_coherent hcoh' hal) hdir fun a ha hm => ?_
  rcases h.dupMm_area hne hunused hzero hr ha with ⟨-, ha⟩ | ⟨v, -, -, rfl⟩
  · exact ha
  · exact absurd rfl hm

/-- **When a fork meets its contract.** -/
theorem dupMm_faithful_iff (hlen : 4 ≤ s.mem.free.length)
    (hdeliver : ∀ v ∈ (s.vm.mm oldmm).mmap, ∀ x, (s.vm.vma v).Holds x →
      (s.vm.vma v).isAnonymous = true ∨
        Delivers s.mem (s.vm.vma v) ((s.vm.vma v).pageIndex x)) :
    ForkFaithful s oldmm m s' ↔ Inherits s oldmm := by
  obtain ⟨hdup, p, mem, dir, hfree, hprep, hcache, hdir, hmem⟩ :=
    Machine.dupMm_some h.system.mem.pages hzero hr
  obtain ⟨-, -, -, hmap⟩ := Mm.dupMm_some (h.coherent oldmm) hne hunused hdup
  have hok' := h.dupMm hne hunused hzero hr
  have harea : ∀ v ∈ (s.vm.mm oldmm).mmap, (s.vm.vma v).copied = true →
      s'.vm.Area ((s.vm.vma v).child m) := fun v hv hcopied => by
    have hchild : (s.vm.vma v).child m ∈ (s'.vm.mm m).mmap.map s'.vm.vma := by
      rw [hmap]
      exact mem_map_of_mem
        (mem_filter.2 ⟨mem_map_of_mem hv, hcopied⟩)
    obtain ⟨w, hw, hchild⟩ := mem_map.1 hchild
    exact ⟨m, w, hw, hchild⟩
  -- the child has no page tables, so it sees what the mapping shows
  have hvisible : ∀ v ∈ (s.vm.mm oldmm).mmap, (s.vm.vma v).copied = true → ∀ x,
      (s.vm.vma v).Holds x → s'.mem.visible ((s.vm.vma v).child m) x (offsetInPage x)
        = s.mem.untouched (s.vm.vma v) x := fun v hv hcopied x hx => by
    have hpte : s'.mem.pte ((s.vm.vma v).child m).vmMm (pageOf x) = .none := by
      rw [hmem]
      exact hdir.pte (vpn_lt (hok'.layout.lt_taskSize (harea v hv hcopied) hx))
    have hback : s'.mem.backing ((s.vm.vma v).child m) ((s.vm.vma v).pageIndex x)
        = s.mem.backing (s.vm.vma v) ((s.vm.vma v).pageIndex x) := by
      rw [hmem]
      show mem.backing (s.vm.vma v) _ = _
      rw [backing, hcache, hprep.special]
      rfl
    have hdata : ∀ q, (s'.mem.frame q).data = (s.mem.frame q).data := fun q => by
      rw [hmem]
      exact hprep.data q
    rw [visible_of_none hpte, pageIndex_child, hback, untouched]
    cases s.mem.backing (s.vm.vma v) ((s.vm.vma v).pageIndex x) with
    | none => rfl
    | some q => exact congrFun (hdata q) _
  have hready : ∀ v ∈ (s.vm.mm oldmm).mmap, ∀ x, (s.vm.vma v).Holds x →
      Ready s.mem (s.vm.vma v) x := fun v hv x hx => ⟨by omega, hzero, hdeliver v hv x hx⟩
  have hready' : ∀ v ∈ (s.vm.mm oldmm).mmap, ∀ x, (s.vm.vma v).Holds x →
      Ready s'.mem ((s.vm.vma v).child m) x := fun v hv x hx => by
    rw [hmem]
    refine ready_child (hready v hv x hx) ?_ (fun q hq => ?_) hprep.special
    · show 3 ≤ mem.free.length
      rw [hfree, length_cons] at hlen
      omega
    · show ZeroPage (mem.frame q).data
      rw [hprep.data]
      exact hzero q (hprep.free.subset hq)
  have hreads : ∀ v ∈ (s.vm.mm oldmm).mmap, ∀ x, (s.vm.vma v).Holds x → ∀ d,
      Reads s.mem (s.vm.vma v) x d ↔ d = s.mem.shownByte (s.vm.vma v) x := fun v hv x hx d =>
    reads_iff h.layout h.system ⟨oldmm, v, hv, rfl⟩ hx (hready v hv x hx)
  have hreads' : ∀ v ∈ (s.vm.mm oldmm).mmap, (s.vm.vma v).copied = true → ∀ x,
      (s.vm.vma v).Holds x → ∀ d, Reads s'.mem ((s.vm.vma v).child m) x d ↔
        d = s'.mem.shownByte ((s.vm.vma v).child m) x := fun v hv hcopied x hx d =>
    reads_iff hok'.layout hok'.system (harea v hv hcopied) hx (hready' v hv x hx)
  constructor
  · intro hf v hv hcopied x hx hno
    have hsame := (hf.inherited v hv hcopied).2 x hx _
      ((hreads v hv x hx _).2 (if_neg hno).symm)
    rw [hreads' v hv hcopied x hx, shownByte, isAnonymous_child, hasFlag_child,
      if_neg hno, hvisible v hv hcopied x hx] at hsame
    exact Option.some.inj hsame
  · intro hinherits
    refine ⟨fun v hv hcopied => ⟨harea v hv hcopied, fun x hx c hc => ?_⟩,
      isolated_of_systemOk hok'.layout hok'.system⟩
    rw [hreads v hv x hx, shownByte] at hc
    rw [hreads' v hv hcopied x hx, shownByte, isAnonymous_child, hasFlag_child]
    split_ifs at hc ⊢ with hno
    rw [hvisible v hv hcopied x hx, ← hinherits v hv hcopied x hx hno]
    exact hc

end Fork

/-! ### A process with one page -/

/-- A process with one page of private anonymous memory that it has not touched yet. -/
def untouchedMachine : Machine where
  vm := .single [privateArea none none] (.node .black .nil 0 .nil)
  mem := { freshMem 0 with free := List.range 8 }
  swapperPgDir _ := .none

theorem untouchedMachine_mm {m : MmId} (hm : m ≠ 0) : untouchedMachine.vm.mm m = .empty := by
  simp [untouchedMachine, single, hm]

theorem untouchedMachine_task {t : TaskId} {m : MmId} (hm : m ≠ 0) :
    (untouchedMachine.vm.task t).mm ≠ some m := by
  by_cases ht : t = 0
  · simp [untouchedMachine, single, ht, hm.symm]
  · simp [untouchedMachine, single, ht]

theorem untouchedMachine_ok : untouchedMachine.Ok where
  coherent m := by
    by_cases hm : m = 0
    · subst hm
      exact .single (by decide) (by decide) rfl (by decide)
    · have hmm := untouchedMachine_mm hm
      exact .of_empty (by rw [hmm]; rfl) (by rw [hmm]; rfl) fun t ht =>
        absurd ht (untouchedMachine_task hm)
  aligned := by
    rintro a ⟨m, v, hv, rfl⟩
    by_cases hm : m = 0
    · subst hm
      obtain rfl : v = 0 := mem_singleton.1 hv
      exact ⟨1, rfl⟩
    · rw [untouchedMachine_mm hm] at hv
      cases hv
  system := by
    have hp := (memOk_freshMem 0).pages
    have hpages : PagesOk untouchedMachine.mem :=
      ⟨nodup_range, fun _ _ => rfl, fun _ _ hc => (nomatch hc.choose_spec.choose_spec),
        fun _ _ _ => nofun, hp.cached_refs, hp.special_refs⟩
    exact ⟨⟨hpages, fun _ _ _ _ hmap => (nomatch hmap.2), fun _ hexcl => (nomatch hexcl),
      fun _ hexcl => (nomatch hexcl), fun _ _ _ => nofun⟩, fun _ hexcl => (nomatch hexcl),
      fun _ _ => rfl, fun _ _ _ _ => ⟨nofun, nofun⟩⟩

/-- A process that has not touched its memory may fork. -/
theorem dupMm_faithful_untouched : ∃ s', untouchedMachine.dupMm 0 = (some 1, s') ∧
    ForkFaithful untouchedMachine 0 1 s' := by
  refine ⟨_, rfl, (dupMm_faithful_iff untouchedMachine_ok (by decide)
    (fun t => untouchedMachine_task one_ne_zero) (fun _ _ _ _ => rfl) rfl (by decide)
    fun v hv x _ => .inl ?_).2 fun v hv _ x _ _ => rfl⟩
  obtain rfl : v = 0 := mem_singleton.1 hv
  rfl

/-- The process writes a byte to its page. -/
def writtenMachine : Machine :=
  match untouchedMachine.mem.store (privateArea none none) 0x1000 7 (accessFlags true) with
  | .ok (_, mem) => { untouchedMachine with mem := mem }
  | .error _ => untouchedMachine

/-- **The child does not get the memory of its parent.** The parent has written the byte `7` and
reads it; the child reads `0` at the same address. -/
theorem dupMm_loses_memory : ∃ s', writtenMachine.dupMm 0 = (some 1, s') ∧
    Reads writtenMachine.mem (privateArea none none) 0x1000 (some 7) ∧
    (s'.mem.load ((privateArea none none).child 1) 0x1000 (accessFlags false)).map Prod.fst
      = .ok (some 0) ∧
    ¬ ForkFaithful writtenMachine 0 1 s' := by
  have hparent : Reads writtenMachine.mem (privateArea none none) 0x1000 (some 7) :=
    fun _ => ⟨_, rfl⟩
  refine ⟨_, rfl, hparent, rfl, fun hf => ?_⟩
  obtain ⟨mem, hload⟩ := (hf.inherited 0 (mem_singleton.2 rfl) rfl).2 0x1000
    ⟨by decide, by decide⟩ 7 hparent (accessFlags false)
  have hmap := congrArg (Except.map Prod.fst) hload
  exact absurd (Option.some.inj (Except.ok.inj hmap)) (by decide)

end MinimalKernel.Mm
