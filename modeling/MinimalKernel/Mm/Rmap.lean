import MinimalKernel.Mm.Fork
import Mathlib.Order.Interval.Finset.Nat

/-!
# The reverse map of anonymous memory

`mm/rmap.c` keeps an `anon_vma` for the anonymous pages of a VMA. A VMA gets one at its first page
fault, a part that is split off shares that of the whole, and the object is freed when the last VMA
linked to it is torn down. The field `degree` counts the VMAs that point to the object and the
objects that have it as their parent.

`VmState` knows the pointer and the chain of a VMA only. `RmapState` puts the objects behind the
pointers next to it, and the operations on it do to the `VmState` what their namesakes do there.

## Main definitions

* `AnonVma`, `RmapState` — the objects, and the memory of the kernel with them
* `RmapState.anonVmaPrepare`, `splitVma`, `dupMm`, `unmapRegion`, `mmput` — the operations
* `RmapState.PointersLive`, `RmapState.DegreesExact` — what the counts are for
* `RmapState.Anchored` — every VMA is linked to the object it points to and to no other

## Main results

* `RmapState.Anchored.attach`, `RmapState.Anchored.unlinkAnonVmas` — linking and unlinking a VMA
-/

namespace MinimalKernel.Mm

open Finset Function Lib List Option VmState

/-! ### The model -/

/-- `struct anon_vma`: `rbRoot` lists the VMAs whose `anon_vma_chain` entries are in the interval
tree of the object. -/
structure AnonVma where
  root : AnonVmaId
  refcount : ℤ
  degree : ℤ
  parent : AnonVmaId
  rbRoot : List VmaId
  deriving DecidableEq, Repr

/-- The memory of the kernel with the `anon_vma` objects. A freed object keeps its number. -/
structure RmapState where
  vm : VmState
  /-- The VMA objects that are allocated and not freed. -/
  areas : Finset VmaId
  anon : AnonVmaId → AnonVma
  /-- The `anon_vma` objects that have been freed. -/
  freed : Finset AnonVmaId

namespace RmapState

variable (s : RmapState) (a : AnonVmaId)

/-- Overwrite an `anon_vma`. -/
def setAnon (x : AnonVma) : RmapState :=
  { s with anon := update s.anon a x }

/-- Change the degree of an `anon_vma`. -/
def addDegree (n : ℤ) : RmapState :=
  s.setAnon a { s.anon a with degree := (s.anon a).degree + n }

/-- Overwrite the `anon_vma` pointer and the chain of a VMA. -/
def setLinks (v : VmaId) (anonVma : Option AnonVmaId) (chain : List AnonVmaId) : RmapState :=
  { s with vm := s.vm.setVma v { s.vm.vma v with anonVma := anonVma, anonVmaChain := chain } }

/-- The object that `anon_vma_alloc` returns: it is its own root and parent. -/
def anonVmaInit : AnonVma where
  root := a
  refcount := 1
  degree := 1
  parent := a
  rbRoot := []

/-- `anon_vma_alloc`, once the slab has room for the object. -/
def newAnonVma : RmapState :=
  { s with vm := { s.vm with nextAnonVma := s.vm.nextAnonVma + 1 } }.setAnon s.vm.nextAnonVma
    (anonVmaInit s.vm.nextAnonVma)

/-- `anon_vma_chain_link`. -/
def anonVmaChainLink (v : VmaId) (a : AnonVmaId) : RmapState :=
  (s.setLinks v (s.vm.vma v).anonVma (a :: (s.vm.vma v).anonVmaChain)).setAnon a
    { s.anon a with rbRoot := v :: (s.anon a).rbRoot }

/-- The part of `__anon_vma_prepare` that attaches an `anon_vma` to the VMA. -/
def attach (v : VmaId) (a : AnonVmaId) : RmapState :=
  ((s.setLinks v (some a) (s.vm.vma v).anonVmaChain).anonVmaChainLink v a).addDegree a 1

/-- `anon_vma_prepare`. -/
def anonVmaPrepare (v : VmaId) : Except Errno Unit × RmapState :=
  if (s.vm.vma v).anonVma.isSome then (.ok (), s)
  else
    match s.vm.kmemCacheAlloc with
    | (false, vm) => (.error .ENOMEM, { s with vm := vm })
    | (true, vm) =>
      match findMergeableAnonVma vm v with
      | some a => (.ok (), { s with vm := vm }.attach v a)
      | none =>
        match vm.kmemCacheAlloc with
        | (false, vm) => (.error .ENOMEM, { s with vm := vm })
        | (true, vm) =>
          (.ok (), { s with vm := vm }.newAnonVma.attach v vm.nextAnonVma)

/-- `anon_vma_free`. -/
def anonVmaFree : RmapState := { s with freed := insert a s.freed }

/-- `put_anon_vma`: the last reference to the object frees it and gives up its reference to the
root. -/
def putAnonVma : RmapState :=
  let s := s.setAnon a { s.anon a with refcount := (s.anon a).refcount - 1 }
  if (s.anon a).refcount = 0 then
    let root := (s.anon a).root
    let s := s.anonVmaFree a
    if root ≠ a then
      let s := s.setAnon root { s.anon root with refcount := (s.anon root).refcount - 1 }
      if (s.anon root).refcount = 0 then s.anonVmaFree root else s
    else s
  else s

/-- The first loop of `unlink_anon_vmas` over the chain of the VMA. Returns the objects whose tree
has become empty; their entries stay on the chain until the lock is released. -/
def unlinkChain (v : VmaId) : List AnonVmaId → RmapState → List AnonVmaId × RmapState
  | [], s => ([], s)
  | a :: as, s =>
    let s := s.setAnon a { s.anon a with rbRoot := (s.anon a).rbRoot.erase v }
    if (s.anon a).rbRoot = [] then
      let (empty, s) := unlinkChain v as (s.addDegree (s.anon a).parent (-1))
      (a :: empty, s)
    else unlinkChain v as s

/-- `unlink_anon_vmas`. -/
def unlinkAnonVmas (v : VmaId) : RmapState :=
  let (empty, s) := unlinkChain v (s.vm.vma v).anonVmaChain s
  let s := (s.vm.vma v).anonVma.elim s fun a => s.addDegree a (-1)
  empty.foldl putAnonVma (s.setLinks v none [])

/-- The allocation of a link by `anon_vma_clone`: without waiting first, and then with waiting. -/
def anonVmaChainAlloc (vm : VmState) : Bool × VmState :=
  match vm.kmemCacheAlloc with
  | (true, vm) => (true, vm)
  | (false, vm) => vm.kmemCacheAlloc

/-- `anon_vma_clone`: the last argument runs over the chain of `src` from its end. -/
def anonVmaClone (dst src : VmaId) : List AnonVmaId → RmapState → Except Errno Unit × RmapState
  | [], s => (.ok (), (s.vm.vma dst).anonVma.elim s fun a => s.addDegree a 1)
  | a :: as, s =>
    match anonVmaChainAlloc s.vm with
    | (false, vm) =>
      let s := { s with vm := vm }
      let s := s.setLinks dst none (s.vm.vma dst).anonVmaChain
      (.error .ENOMEM, s.unlinkAnonVmas dst)
    | (true, vm) =>
      let s := { s with vm := vm }.anonVmaChainLink dst a
      -- a child takes over an object that has no VMA of its own any more
      if (s.vm.vma dst).anonVma = none ∧ (s.vm.vma src).anonVma ≠ none ∧
          some a ≠ (s.vm.vma src).anonVma ∧ (s.anon a).degree < 2 then
        anonVmaClone dst src as (s.setLinks dst (some a) (s.vm.vma dst).anonVmaChain)
      else anonVmaClone dst src as s

/-- `vm_area_free`. -/
def vmAreaFree (v : VmaId) : RmapState := { s with areas := s.areas.erase v }

/-- `__split_vma`. -/
def splitVma (v : VmaId) (addr : ℕ) (newBelow : Bool) : Except Errno Unit × RmapState :=
  match (s.vm.vma v).vmOps.elim (.ok ()) VmOps.maySplit with
  | .error e => (.error e, s)
  | .ok () =>
    match vmAreaDup s.vm v with
    | (none, vm) => (.error .ENOMEM, { s with vm := vm })
    | (some new, vm) =>
      let vm := vm.setVma new
        (if newBelow then { vm.vma new with vmEnd := addr }
         else { vm.vma new with
                vmStart := addr
                vmPgoff := wadd (vm.vma new).vmPgoff (pageOf (wsub addr (vm.vma v).vmStart)) })
      let s := { s with vm := vm, areas := insert new s.areas }
      match anonVmaClone new v (vm.vma v).anonVmaChain.reverse s with
      | (.error e, s) => (.error e, s.vmAreaFree new)
      | (.ok (), s) =>
        if newBelow then
          let pgoff := wadd (s.vm.vma v).vmPgoff (pageOf (wsub addr (s.vm.lo new)))
          (.ok (), { s with vm := vmaAdjust s.vm v addr (s.vm.hi v) pgoff })
        else
          (.ok (), { s with vm := vmaAdjust s.vm v (s.vm.lo v) addr (s.vm.vma v).vmPgoff })

/-- `free_pgtables` as far as the VMAs are concerned: they leave the reverse maps. -/
def freePgtables (vmas : List VmaId) : RmapState :=
  let s := vmas.foldl unlinkAnonVmas s
  { s with vm := unlinkFileVmas s.vm vmas }

/-- The end of `__do_munmap`: the VMA behind `prev` and the following ones that begin before
`endAddr` are detached and torn down. -/
def unmapRegion (m : MmId) (prev : Option VmaId) (endAddr : ℕ) : RmapState :=
  match vmaNext s.vm m prev with
  | none => s
  | some vma =>
    let (gone, _, vm) := detachVmasToBeUnmapped s.vm m vma prev endAddr
    gone.foldl vmAreaFree ({ s with vm := vm }.freePgtables gone)

/-- `exit_mmap`. -/
def exitMmap (m : MmId) : RmapState :=
  let gone := (s.vm.mm m).mmap
  let s := s.freePgtables gone
  let s := { s with vm := s.vm.setMm m { s.vm.mm m with mmap := [] } }
  gone.foldl vmAreaFree s

/-- `mmput`. -/
def mmput (m : MmId) : RmapState :=
  let users := (s.vm.mm m).mmUsers - 1
  let s := { s with vm := s.vm.setMm m { s.vm.mm m with mmUsers := users } }
  if users = 0 then s.exitMmap m else s

/-- `dup_mmap`: the slab hands out the copies one after the other. -/
def dupMmap (m oldmm : MmId) : Except Errno Unit × RmapState :=
  let (r, vm) := Mm.dupMmap s.vm m oldmm
  (r, { s with vm := vm, areas := s.areas ∪ Finset.Ico s.vm.nextVma vm.nextVma })

/-- `dup_mm` for the address space `oldmm`. -/
def dupMm (oldmm : MmId) : Option MmId × RmapState :=
  match s.vm.kmemCacheAlloc with
  | (false, vm) => (none, { s with vm := vm })
  | (true, vm) =>
    match vm.kmemCacheAlloc with
    | (false, vm) => (none, { s with vm := vm })
    | (true, vm) =>
      let m := vm.nextMm
      let vm := { vm.setMm m (mmInit (vm.mm oldmm)) with nextMm := m + 1 }
      match { s with vm := vm }.dupMmap m oldmm with
      | (.error _, s) => (none, s.mmput m)
      | (.ok (), s) => (some m, s)

/-! ### What the counts are for -/

/-- The object is allocated and not freed. -/
def Live : Prop := a < s.vm.nextAnonVma ∧ a ∉ s.freed

/-- The VMAs that point to the object. -/
def users : Finset VmaId :=
  s.areas.filter fun v => (s.vm.vma v).anonVma = some a

/-- The objects that have the object as their parent, among them a root itself. -/
def children : Finset AnonVmaId :=
  (Finset.range s.vm.nextAnonVma).filter fun b => b ∉ s.freed ∧ (s.anon b).parent = a

/-- No VMA points to an object that has been freed. -/
def PointersLive : Prop :=
  ∀ v ∈ s.areas, ∀ a, (s.vm.vma v).anonVma = some a → s.Live a

/-- The degree of an object is the number of its users and of its children. -/
def DegreesExact : Prop :=
  ∀ a, s.Live a → (s.anon a).degree = (s.users a).card + (s.children a).card

/-! ### The invariant -/

/-- The object is its own root and parent, its tree holds its users, and its degree is one more
than their number. -/
structure Rooted (a : AnonVmaId) : Prop where
  root : (s.anon a).root = a
  parent : (s.anon a).parent = a
  refcount : (s.anon a).refcount = 1
  nodup : (s.anon a).rbRoot.Nodup
  mem : ∀ v, v ∈ (s.anon a).rbRoot ↔ v ∈ s.areas ∧ (s.vm.vma v).anonVma = some a
  degree : (s.anon a).degree = (s.anon a).rbRoot.length + 1

/-- A VMA is linked to the object it points to and to no other, and the objects are right. -/
structure Anchored : Prop where
  chain : ∀ v ∈ s.areas, (s.vm.vma v).anonVmaChain = (s.vm.vma v).anonVma.toList
  live : s.PointersLive
  rooted : ∀ a, s.Live a → s.Rooted a
  freed_lt : ∀ a ∈ s.freed, a < s.vm.nextAnonVma

/-- An object is freed with its last user. -/
def NoOrphan : Prop := ∀ a, s.Live a → (s.anon a).rbRoot ≠ []

/-- The lists of the address spaces hold VMAs that exist, each in the list of its own address
space. -/
structure Mapped : Prop where
  nodup : ∀ m, (s.vm.mm m).mmap.Nodup
  exist : ∀ m, ∀ v ∈ (s.vm.mm m).mmap, v ∈ s.areas ∧ (s.vm.vma v).vmMm = m
  allocated : ∀ v ∈ s.areas, v < s.vm.nextVma

/-- `Mapped`, `Anchored` and `NoOrphan` together. -/
structure RmapOk : Prop where
  mapped : s.Mapped
  anchored : s.Anchored
  noOrphan : s.NoOrphan

variable {s} {t : RmapState} {v w : VmaId} {a b : AnonVmaId} {m : MmId}

theorem Rooted.users_card (h : s.Rooted a) : (s.users a).card = (s.anon a).rbRoot.length := by
  have husers : s.users a = (s.anon a).rbRoot.toFinset := by
    ext v
    simp [users, h.mem]
  rw [husers, toFinset_card_of_nodup h.nodup]

/-- What an object is depends on its fields and its users only. -/
theorem Rooted.congr (h : s.Rooted a) (hanon : t.anon a = s.anon a)
    (hmem : ∀ v, v ∈ t.areas ∧ (t.vm.vma v).anonVma = some a ↔
      v ∈ s.areas ∧ (s.vm.vma v).anonVma = some a) : t.Rooted a := by
  refine ⟨?_, ?_, ?_, ?_, fun v => ?_, ?_⟩ <;> rw [hanon]
  · exact h.root
  · exact h.parent
  · exact h.refcount
  · exact h.nodup
  · rw [h.mem, hmem]
  · exact h.degree

theorem Anchored.children_eq (h : s.Anchored) (ha : s.Live a) : s.children a = {a} := by
  ext b
  simp only [children, Finset.mem_filter, Finset.mem_range, Finset.mem_singleton]
  constructor
  · rintro ⟨hb, hfreed, hparent⟩
    rw [← hparent, (h.rooted b ⟨hb, hfreed⟩).parent]
  · rintro rfl
    exact ⟨ha.1, ha.2, (h.rooted b ha).parent⟩

theorem Anchored.degreesExact (h : s.Anchored) : s.DegreesExact := by
  intro a ha
  rw [h.children_eq ha, (h.rooted a ha).users_card, (h.rooted a ha).degree]
  simp

/-! ### Changes that concern no link -/

/-- The pointers, the chains and the objects are the same in both states, and a VMA that exists in
`t` only has no links. -/
structure SameLinks (s t : RmapState) : Prop where
  areas : s.areas ⊆ t.areas
  fresh : ∀ v ∈ t.areas, v ∉ s.areas →
    (t.vm.vma v).anonVma = none ∧ (t.vm.vma v).anonVmaChain = []
  anonVma : ∀ v ∈ s.areas, (t.vm.vma v).anonVma = (s.vm.vma v).anonVma
  chain : ∀ v ∈ s.areas, (t.vm.vma v).anonVmaChain = (s.vm.vma v).anonVmaChain
  nextAnonVma : t.vm.nextAnonVma = s.vm.nextAnonVma
  anon : t.anon = s.anon
  freed : t.freed = s.freed

section

variable (h : SameLinks s t)
include h

theorem SameLinks.live_iff : t.Live a ↔ s.Live a := by
  rw [Live, Live, h.nextAnonVma, h.freed]

theorem SameLinks.user_iff : (v ∈ t.areas ∧ (t.vm.vma v).anonVma = some a) ↔
    v ∈ s.areas ∧ (s.vm.vma v).anonVma = some a := by
  by_cases hv : v ∈ s.areas
  · simp only [hv, h.areas hv, h.anonVma v hv]
  · simp only [hv, false_and, iff_false, not_and]
    intro hv' ha
    rw [(h.fresh v hv' hv).1] at ha
    cases ha

theorem SameLinks.anchored (hs : s.Anchored) : t.Anchored where
  chain v hv := by
    by_cases hv' : v ∈ s.areas
    · rw [h.chain v hv', h.anonVma v hv', hs.chain v hv']
    · rw [(h.fresh v hv hv').1, (h.fresh v hv hv').2]
      rfl
  live v hv a ha := by
    obtain ⟨hv', ha'⟩ := h.user_iff.1 ⟨hv, ha⟩
    exact h.live_iff.2 (hs.live v hv' a ha')
  rooted a ha := (hs.rooted a (h.live_iff.1 ha)).congr (by rw [h.anon]) fun _ => h.user_iff
  freed_lt a ha := by
    rw [h.nextAnonVma]
    exact hs.freed_lt a (h.freed ▸ ha)

theorem SameLinks.noOrphan (hs : s.NoOrphan) : t.NoOrphan := fun a ha => by
  rw [h.anon]
  exact hs a (h.live_iff.1 ha)

end

/-- Only the slab and the fields of VMAs that are not about anonymous memory have changed. -/
theorem SameLinks.of_vm {vm : VmState} (hlinks : ∀ v ∈ s.areas,
      (vm.vma v).anonVma = (s.vm.vma v).anonVma ∧
      (vm.vma v).anonVmaChain = (s.vm.vma v).anonVmaChain)
    (hnext : vm.nextAnonVma = s.vm.nextAnonVma) : SameLinks s { s with vm := vm } :=
  ⟨fun _ hv => hv, fun _ hv hv' => absurd hv hv', fun v hv => (hlinks v hv).1,
    fun v hv => (hlinks v hv).2, hnext, rfl, rfl⟩

/-! ### Attaching -/

section
variable (s v a)

@[simp] theorem attach_areas : (s.attach v a).areas = s.areas := rfl

theorem attach_vma : (s.attach v a).vm.vma = update s.vm.vma v
    { s.vm.vma v with anonVma := some a, anonVmaChain := a :: (s.vm.vma v).anonVmaChain } := by
  simp [attach, addDegree, setAnon, anonVmaChainLink, setLinks, VmState.setVma]

theorem attach_anon : (s.attach v a).anon = update s.anon a
    { s.anon a with
      rbRoot := v :: (s.anon a).rbRoot
      degree := (s.anon a).degree + 1 } := by
  simp [attach, addDegree, setAnon, anonVmaChainLink, setLinks]

end

theorem Anchored.attach (h : s.Anchored) (hv : v ∈ s.areas) (hnone : (s.vm.vma v).anonVma = none)
    (ha : s.Live a) : (s.attach v a).Anchored where
  freed_lt := h.freed_lt
  chain w hw := by
    rw [attach_vma]
    by_cases hwv : w = v
    · subst hwv
      simp [h.chain w hv, hnone]
    · simp only [update_of_ne hwv]
      exact h.chain w hw
  live w hw b hb := by
    rw [attach_vma] at hb
    by_cases hwv : w = v
    · subst hwv
      simp only [update_self, some.injEq] at hb
      exact hb ▸ ha
    · rw [update_of_ne hwv] at hb
      exact h.live w hw b hb
  rooted b hb := by
    have hr := h.rooted b hb
    by_cases hba : b = a
    · subst hba
      have hvb : v ∉ (s.anon b).rbRoot := fun hmem => by
        have hb := ((hr.mem v).1 hmem).2
        rw [hnone] at hb
        cases hb
      refine ⟨?_, ?_, ?_, ?_, fun w => ?_, ?_⟩ <;>
        simp only [attach_anon, attach_vma, update_self]
      · exact hr.root
      · exact hr.parent
      · exact hr.refcount
      · exact nodup_cons.2 ⟨hvb, hr.nodup⟩
      · by_cases hwv : w = v
        · subst hwv
          simpa using hv
        · simp [hwv, hr.mem]
      · rw [hr.degree]
        push_cast [length_cons]
        ring
    · refine hr.congr (by rw [attach_anon, update_of_ne hba]) fun w => ?_
      rw [attach_areas, attach_vma]
      by_cases hwv : w = v
      · subst hwv
        simp [hnone, Ne.symm hba]
      · rw [update_of_ne hwv]

theorem attach_noOrphan (h : ∀ b, b ≠ a → s.Live b → (s.anon b).rbRoot ≠ []) :
    (s.attach v a).NoOrphan := by
  intro b hb
  rw [attach_anon]
  by_cases hba : b = a
  · subst hba
    simp
  · rw [update_of_ne hba]
    exact h b hba hb

/-! ### Unlinking -/

/-- The first loop of `unlink_anon_vmas` changes the objects only. -/
theorem unlinkChain_frame (v : VmaId) (as : List AnonVmaId) (s : RmapState) :
    (unlinkChain v as s).2.vm = s.vm ∧ (unlinkChain v as s).2.areas = s.areas := by
  induction as generalizing s with
  | nil => exact ⟨rfl, rfl⟩
  | cons a as ih =>
    simp only [unlinkChain]
    split <;> exact ih _

theorem putAnonVma_frame (s : RmapState) (a : AnonVmaId) :
    (s.putAnonVma a).vm = s.vm ∧ (s.putAnonVma a).areas = s.areas := by
  simp only [putAnonVma]
  split_ifs <;> exact ⟨rfl, rfl⟩

theorem foldl_putAnonVma_frame (as : List AnonVmaId) (s : RmapState) :
    (as.foldl putAnonVma s).vm = s.vm ∧ (as.foldl putAnonVma s).areas = s.areas := by
  induction as generalizing s with
  | nil => exact ⟨rfl, rfl⟩
  | cons a as ih =>
    rw [foldl_cons, (ih _).1, (ih _).2]
    exact putAnonVma_frame s a

/-- The VMA is left without pointer and chain; the other VMAs do not change. -/
theorem unlinkAnonVmas_frame (s : RmapState) (v : VmaId) :
    (s.unlinkAnonVmas v).vm
        = s.vm.setVma v { s.vm.vma v with anonVma := none, anonVmaChain := [] } ∧
      (s.unlinkAnonVmas v).areas = s.areas := by
  have hchain := unlinkChain_frame v (s.vm.vma v).anonVmaChain s
  unfold unlinkAnonVmas
  generalize unlinkChain v (s.vm.vma v).anonVmaChain s = p at hchain
  obtain ⟨empty, s₁⟩ := p
  dsimp only at hchain ⊢
  rw [(foldl_putAnonVma_frame ..).1, (foldl_putAnonVma_frame ..).2]
  rcases (s₁.vm.vma v).anonVma with _ | a
  · exact ⟨by simp only [Option.elim, setLinks, hchain.1], hchain.2⟩
  · exact ⟨by simp only [Option.elim, addDegree, setAnon, setLinks, hchain.1], hchain.2⟩

/-- `unlink_anon_vmas` of a VMA without `anon_vma`. -/
theorem unlinkAnonVmas_none (hchain : (s.vm.vma v).anonVmaChain = [])
    (hnone : (s.vm.vma v).anonVma = none) : s.unlinkAnonVmas v = s.setLinks v none [] := by
  simp [unlinkAnonVmas, hchain, unlinkChain, hnone]

section

variable (hchain : (s.vm.vma v).anonVmaChain = [a]) (ha : (s.vm.vma v).anonVma = some a)
include hchain ha

/-- `unlink_anon_vmas` of a VMA whose `anon_vma` has other users. -/
theorem unlinkAnonVmas_shared (hrest : (s.anon a).rbRoot.erase v ≠ []) :
    s.unlinkAnonVmas v = (s.setAnon a { s.anon a with
      rbRoot := (s.anon a).rbRoot.erase v
      degree := (s.anon a).degree - 1 }).setLinks v none [] := by
  simp [unlinkAnonVmas, hchain, unlinkChain, ha, hrest, setAnon, addDegree, setLinks,
    sub_eq_add_neg]

/-- `unlink_anon_vmas` of the last user of an object that is its own root and parent. -/
theorem unlinkAnonVmas_last (h : s.Rooted a) (hrest : (s.anon a).rbRoot.erase v = []) :
    s.unlinkAnonVmas v = ((s.setAnon a { s.anon a with
      rbRoot := []
      degree := (s.anon a).degree - 1 - 1
      refcount := 0 }).anonVmaFree a).setLinks v none [] := by
  simp [unlinkAnonVmas, hchain, unlinkChain, ha, hrest, setAnon, addDegree, setLinks,
    sub_eq_add_neg, putAnonVma, h.root, h.parent, h.refcount, anonVmaFree]

end

/-- `t` comes from `s` by taking the links of `v` away; the objects may have changed. -/
structure Unlinked (v : VmaId) (s t : RmapState) : Prop where
  vm : t.vm = s.vm.setVma v { s.vm.vma v with anonVma := none, anonVmaChain := [] }
  areas : t.areas = s.areas

section

variable (h : Unlinked v s t)
include h

theorem Unlinked.vma_self :
    t.vm.vma v = { s.vm.vma v with anonVma := none, anonVmaChain := [] } := by
  rw [h.vm]
  exact update_self ..

theorem Unlinked.vma_of_ne (hwv : w ≠ v) : t.vm.vma w = s.vm.vma w := by
  rw [h.vm]
  exact update_of_ne hwv ..

theorem Unlinked.nextAnonVma : t.vm.nextAnonVma = s.vm.nextAnonVma := by
  rw [h.vm]
  rfl

/-- The pointers that are left. -/
theorem Unlinked.anonVma_iff :
    (t.vm.vma w).anonVma = some b ↔ w ≠ v ∧ (s.vm.vma w).anonVma = some b := by
  by_cases hwv : w = v
  · subst hwv
    simp [h.vma_self]
  · simp [h.vma_of_ne hwv, hwv]

theorem Unlinked.chain (hs : s.Anchored) :
    ∀ w ∈ t.areas, (t.vm.vma w).anonVmaChain = (t.vm.vma w).anonVma.toList := by
  intro w hw
  by_cases hwv : w = v
  · rw [hwv, h.vma_self]
    rfl
  · rw [h.vma_of_ne hwv]
    exact hs.chain w (h.areas ▸ hw)

/-- An object other than that of `v` does not notice. -/
theorem Unlinked.rooted (hb : s.Rooted b) (hanon : t.anon b = s.anon b)
    (hv : (s.vm.vma v).anonVma ≠ some b) : t.Rooted b := by
  refine hb.congr hanon fun w => ?_
  rw [h.areas, h.anonVma_iff]
  refine and_congr_right fun _ => and_iff_right_of_imp ?_
  rintro hw rfl
  exact hv hw

theorem Unlinked.sameLinks (hanon : t.anon = s.anon) (hfreed : t.freed = s.freed)
    (hnone : (s.vm.vma v).anonVma = none) (hchain : (s.vm.vma v).anonVmaChain = []) :
    SameLinks s t := by
  refine ⟨h.areas.ge, fun w hw hw' => absurd (h.areas ▸ hw) hw', fun w _ => ?_, fun w _ => ?_,
    h.nextAnonVma, hanon, hfreed⟩ <;> by_cases hwv : w = v
  · rw [hwv, h.vma_self, hnone]
  · rw [h.vma_of_ne hwv]
  · rw [hwv, h.vma_self, hchain]
  · rw [h.vma_of_ne hwv]

section

variable (hs : s.Anchored) (hv : v ∈ s.areas) (ha : (s.vm.vma v).anonVma = some a)
include hs hv ha

/-- The object of `v` loses a user and keeps others. -/
theorem Unlinked.anchored_of_shared
    (hanon : t.anon = update s.anon a { s.anon a with
      rbRoot := (s.anon a).rbRoot.erase v
      degree := (s.anon a).degree - 1 }) (hfreed : t.freed = s.freed) : t.Anchored := by
  have hlive : ∀ b, t.Live b ↔ s.Live b := fun b => by
    rw [Live, Live, h.nextAnonVma, hfreed]
  refine ⟨h.chain hs, fun w hw b hb => ?_, fun b hb => ?_, ?_⟩
  · exact (hlive b).2 (hs.live w (h.areas ▸ hw) b (h.anonVma_iff.1 hb).2)
  · by_cases hba : b = a
    · subst hba
      have hr := hs.rooted b (hs.live v hv b ha)
      have hvb : v ∈ (s.anon b).rbRoot := (hr.mem v).2 ⟨hv, ha⟩
      have hpos := length_pos_of_mem hvb
      refine ⟨?_, ?_, ?_, ?_, fun w => ?_, ?_⟩ <;> simp only [hanon, update_self]
      · exact hr.root
      · exact hr.parent
      · exact hr.refcount
      · exact hr.nodup.erase v
      · rw [hr.nodup.mem_erase_iff, hr.mem, h.areas, h.anonVma_iff]
        exact and_left_comm
      · rw [hr.degree, length_erase_of_mem hvb]
        omega
    · refine h.rooted (hs.rooted b ((hlive b).1 hb)) (by rw [hanon, update_of_ne hba]) ?_
      rw [ha]
      exact fun hab => hba (some.inj hab).symm
  · rw [hfreed, h.nextAnonVma]
    exact hs.freed_lt

/-- The object of `v` loses its last user and is freed. -/
theorem Unlinked.anchored_of_last (hrest : (s.anon a).rbRoot.erase v = [])
    (hanon : ∀ b ≠ a, t.anon b = s.anon b) (hfreed : t.freed = insert a s.freed) : t.Anchored := by
  have hr := hs.rooted a (hs.live v hv a ha)
  have honly : ∀ w, w ≠ v → w ∈ s.areas → (s.vm.vma w).anonVma ≠ some a := by
    intro w hwv hw hwa
    have hmem : w ∈ (s.anon a).rbRoot.erase v :=
      hr.nodup.mem_erase_iff.2 ⟨hwv, (hr.mem w).2 ⟨hw, hwa⟩⟩
    rw [hrest] at hmem
    cases hmem
  have hlive : ∀ b, t.Live b ↔ b ≠ a ∧ s.Live b := fun b => by
    rw [Live, Live, h.nextAnonVma, hfreed, mem_insert, not_or]
    exact and_left_comm
  refine ⟨h.chain hs, fun w hw b hb => ?_, fun b hb => ?_, fun b hb => ?_⟩
  · obtain ⟨hwv, hwb⟩ := h.anonVma_iff.1 hb
    have hw' : w ∈ s.areas := h.areas ▸ hw
    refine (hlive b).2 ⟨?_, hs.live w hw' b hwb⟩
    rintro rfl
    exact honly w hwv hw' hwb
  · obtain ⟨hba, hb⟩ := (hlive b).1 hb
    refine h.rooted (hs.rooted b hb) (hanon b hba) ?_
    rw [ha]
    exact fun hab => hba (some.inj hab).symm
  · rw [h.nextAnonVma]
    rcases mem_insert.1 (hfreed ▸ hb) with rfl | hb
    · exact (hs.live v hv b ha).1
    · exact hs.freed_lt b hb

end

end

theorem unlinkAnonVmas_unlinked (s : RmapState) (v : VmaId) : Unlinked v s (s.unlinkAnonVmas v) :=
  ⟨(unlinkAnonVmas_frame s v).1, (unlinkAnonVmas_frame s v).2⟩

/-- **`unlink_anon_vmas` keeps the invariant.** -/
theorem Anchored.unlinkAnonVmas (h : s.Anchored) (hn : s.NoOrphan) (hv : v ∈ s.areas) :
    (s.unlinkAnonVmas v).Anchored ∧ (s.unlinkAnonVmas v).NoOrphan := by
  have hu := unlinkAnonVmas_unlinked s v
  rcases ha : (s.vm.vma v).anonVma with _ | a
  · have hchain : (s.vm.vma v).anonVmaChain = [] := by
      rw [h.chain v hv, ha]
      rfl
    have heq := unlinkAnonVmas_none hchain ha
    have hsame := hu.sameLinks (by rw [heq]; rfl) (by rw [heq]; rfl) ha hchain
    exact ⟨hsame.anchored h, hsame.noOrphan hn⟩
  have hchain : (s.vm.vma v).anonVmaChain = [a] := by
    rw [h.chain v hv, ha]
    rfl
  by_cases hrest : (s.anon a).rbRoot.erase v = []
  · have heq := unlinkAnonVmas_last hchain ha (h.rooted a (h.live v hv a ha)) hrest
    have hanon : ∀ b ≠ a, (s.unlinkAnonVmas v).anon b = s.anon b := fun b hba => by
      rw [heq]
      exact update_of_ne hba ..
    have hfreed : (s.unlinkAnonVmas v).freed = insert a s.freed := by
      rw [heq]
      rfl
    refine ⟨hu.anchored_of_last h hv ha hrest hanon hfreed, fun b hb => ?_⟩
    rw [Live, hu.nextAnonVma, hfreed, mem_insert, not_or] at hb
    rw [hanon b hb.2.1]
    exact hn b ⟨hb.1, hb.2.2⟩
  · have heq := unlinkAnonVmas_shared hchain ha hrest
    have hanon : (s.unlinkAnonVmas v).anon = update s.anon a { s.anon a with
        rbRoot := (s.anon a).rbRoot.erase v
        degree := (s.anon a).degree - 1 } := by
      rw [heq]
      rfl
    have hfreed : (s.unlinkAnonVmas v).freed = s.freed := by
      rw [heq]
      rfl
    refine ⟨hu.anchored_of_shared h hv ha hanon hfreed, fun b hb => ?_⟩
    rw [Live, hu.nextAnonVma, hfreed] at hb
    rw [hanon]
    by_cases hba : b = a
    · rw [hba, update_self]
      exact hrest
    · rw [update_of_ne hba]
      exact hn b hb

end RmapState

end MinimalKernel.Mm
