import MinimalKernel.Lib.Run
import MinimalKernel.Mm.WellFormed

/-!
# The life of an address space

Runs of `mmap_region`, `__do_munmap`, `do_brk_flags`, `insert_vm_struct` and `expand_downwards` on
the address space of one task, from the empty address space on. A step is a call that comes back;
it may return an error.

The address space is well formed in every state of a run in which no heap area is appended to the
last VMA and none is merged on both sides. The condition is needed: extending a heap that is the
last mapping leaves `highest_vm_end` behind.

## Main definitions

* `VmOp`, `VmOp.exec`, `VmStep` — the operations and their steps
* `VmOp.Contract` — what the callers of an operation guarantee
* `VmOp.Safe` — the merge of `do_brk_flags` does not go wrong
* `Fresh s m` — the current task has the empty address space `m`

## Main results

* `wellFormed_of_run` — well-formedness along every safe run
* `brk_brk_not_wellFormed` — two extensions of the heap, and `highest_vm_end` is wrong
-/

namespace MinimalKernel.Mm

open Lib VmState

variable {s t : VmState} {m : MmId} {o : VmOp}

/-- The operations on an address space. -/
inductive VmOp
  | mmapRegion (file : Option FileId) (addr len : ℕ) (vmFlags : VmFlags) (pgoff : ℕ)
  | munmap (start len : ℕ) (downgrade : Bool)
  | brk (addr len : ℕ) (flags : VmFlags)
  | insert (area : VmArea)
  | expand (vma : VmaId) (address : ℕ)

namespace VmOp

/-- Carry out an operation on the address space `m`. -/
def exec (m : MmId) (s : VmState) : VmOp → Except Oops (Except Errno ℕ × VmState)
  | mmapRegion file addr len vmFlags pgoff => Mm.mmapRegion s file addr len vmFlags pgoff
  | munmap start len downgrade => doMunmap s m start len downgrade
  | brk addr len flags => doBrkFlags s addr len flags
  | insert area => installVma s m area
  | expand vma address => .ok (expandDownwards s vma address)

/-- What the callers guarantee: areas are not empty and lie in user space, and a stack is grown
towards an address for which `find_vma` returns it. -/
def Contract (m : MmId) (s : VmState) : VmOp → Prop
  | mmapRegion _ addr len _ _ => 0 < len ∧ addr + len ≤ taskSize
  | munmap _ _ _ => True
  | brk _ len _ => 0 < len
  | insert area => area.vmStart < area.vmEnd ∧ area.vmEnd ≤ taskSize
  | expand vma address => (s.mm m).mmap.find? (fun v => pageMask address < s.hi v) = some vma

/-- The condition on `do_brk_flags`. -/
def Safe (m : MmId) (s : VmState) : VmOp → Prop
  | brk addr len flags => BrkSafe s m addr len flags
  | _ => True

end VmOp

/-- A call that comes back, with whatever value. -/
def VmStep (m : MmId) (s : VmState) (o : VmOp) (t : VmState) : Prop :=
  ∃ r, o.exec m s = .ok (r, t)

/-- The current task has the address space `m`, which is empty; the VMA caches are empty too. -/
structure Fresh (s : VmState) (m : MmId) : Prop where
  active : s.currentMm = some m
  mmap : (s.mm m).mmap = []
  mmRb : (s.mm m).mmRb = .nil
  mapCount : (s.mm m).mapCount = 0
  highest : (s.mm m).highestVmEnd = 0
  cache : CacheValid s m

theorem Fresh.sound (h : Fresh s m) : Sound s m := by
  refine ⟨.of_empty h.mmap h.mmRb h.cache, ?_, ?_, h.active⟩
  · simp [h.mmap, h.mapCount]
  · simp [lastEnd, h.mmap, h.highest]

/-- **One step.** A safe operation keeps the invariant. -/
theorem Sound.step (h : Sound s m) (hc : o.Contract m s) (hsafe : o.Safe m s)
    (hstep : VmStep m s o t) : Sound t m := by
  obtain ⟨r, hr⟩ := hstep
  cases o with
  | mmapRegion file addr len vmFlags pgoff => exact h.mmapRegion hc.1 hc.2 hr
  | munmap start len downgrade =>
    have ho := doMunmap_outcome h.toCoherent start len downgrade
    rw [show doMunmap s m start len downgrade = .ok (r, t) from hr] at ho
    exact ho.sound h
  | brk addr len flags => exact h.doBrkFlags hc hsafe hr
  | insert area => exact h.installVma hc.1 hc.2 hr
  | expand vma address =>
    obtain ⟨-, l₁, l₂, hmmap, hl₁⟩ := List.find?_eq_some_iff_append.1 hc
    obtain rfl : (Mm.expandDownwards s vma address).2 = t := by
      rw [Except.ok.inj hr]
    exact h.expandDownwards hmmap fun w hw => by simpa using hl₁ w hw

/-- **Well-formedness along runs.** From an empty address space, the VMAs are well formed in every
state that is reached by steps whose heap merges are safe. -/
theorem wellFormed_of_run {os : List VmOp} (h : Fresh s m)
    (hrun : Run (guarded (fun s o => o.Contract m s ∧ o.Safe m s) (VmStep m)) s os t) :
    WellFormed t m := by
  refine (hrun.invariant (I := fun s => Sound s m) ?_ h.sound).wellFormed
  rintro s o t hs ⟨⟨hc, hsafe⟩, hstep⟩
  exact hs.step hc hsafe hstep

/-- A task whose address space is empty. -/
def bareTask : VmState := .single [] .nil

theorem fresh_bareTask : Fresh bareTask 0 :=
  ⟨rfl, rfl, rfl, rfl, rfl, (Coherent.single (by decide) (by decide) rfl (by decide)).cache⟩

/-- Mapping one page and unmapping it again. -/
theorem wellFormed_mmap_munmap :
    ∃ t, Run (guarded (fun s o => o.Contract 0 s ∧ o.Safe 0 s) (VmStep 0)) bareTask
        [.mmapRegion none 0x8000 0x1000 (vmRead ||| vmWrite) 8, .munmap 0x8000 0x1000 false] t ∧
      WellFormed t 0 := by
  obtain ⟨t, hrun⟩ : ∃ t, Run (guarded (fun s o => o.Contract 0 s ∧ o.Safe 0 s) (VmStep 0)) bareTask
      [.mmapRegion none 0x8000 0x1000 (vmRead ||| vmWrite) 8, .munmap 0x8000 0x1000 false] t :=
    ⟨_, .cons ⟨⟨⟨by decide, by decide⟩, trivial⟩, _, rfl⟩
      (.cons ⟨⟨trivial, trivial⟩, _, rfl⟩ .nil)⟩
  exact ⟨t, hrun, wellFormed_of_run fresh_bareTask hrun⟩

/-- **Extending the heap.** Two calls of `do_brk_flags` that follow one another, as a program that
loads and then extends its heap makes them, leave an address space that is not well formed: the
heap is the last VMA and ends at `0x8002000`, but `highest_vm_end` is still `0x8001000`. -/
theorem brk_brk_not_wellFormed :
    Fresh bareTask 0 ∧
      ∃ t, Run (guarded (fun s o => o.Contract 0 s) (VmStep 0)) bareTask
          [.brk 0x8000000 0x1000 0, .brk 0x8001000 0x1000 0] t ∧
        lastEnd t 0 = 0x8002000 ∧ (t.mm 0).highestVmEnd = 0x8001000 ∧ ¬ WellFormed t 0 := by
  refine ⟨fresh_bareTask, _, .cons ⟨Nat.succ_pos _, _, rfl⟩
    (.cons ⟨Nat.succ_pos _, _, rfl⟩ .nil), rfl, rfl, fun h => ?_⟩
  exact absurd h.highest (by decide)

end MinimalKernel.Mm
