import Mathlib.NumberTheory.Padics.PadicVal.Basic
import MinimalKernel.Mm.PageRuns

/-!
# Free memory at the end of the boot

The free ranges of `memblock` are cut into blocks for the page allocator.
-/

namespace MinimalKernel.Mm

open Lib Multiset

variable {s : PageAlloc} {start stop : ℕ}

/-- The order of a block in `__free_pages_memory`: the inner loop goes down from `__ffs`, the number
of the lowest bit, which is undefined for 0. Any value would do there. -/
def blockOrder (start stop : ℕ) : ℕ :=
  Nat.findGreatest (start + 2 ^ · ≤ stop) (min (maxOrder - 1) (padicValNat 2 start))

/-- `__free_pages_memory`. -/
def freePagesMemory (s : PageAlloc) (start stop : ℕ) : PageAlloc :=
  if start < stop then
    freePagesMemory (freePagesCore s start (blockOrder start stop))
      (start + 2 ^ blockOrder start stop) stop
  else s
termination_by stop - start
decreasing_by exact Nat.sub_lt_sub_left ‹_› (Nat.lt_add_of_pos_right (Nat.two_pow_pos _))

/-- A block is aligned, and does not go beyond the range. -/
theorem blockOrder_spec (h : start < stop) : blockOrder start stop < maxOrder ∧
    2 ^ blockOrder start stop ∣ start ∧ start + 2 ^ blockOrder start stop ≤ stop := by
  obtain ⟨hlow, hval⟩ := le_min_iff.1 (show blockOrder start stop ≤ _ from Nat.findGreatest_le _)
  exact ⟨Nat.lt_succ_of_le hlow, (pow_dvd_pow 2 hval).trans pow_padicValNat_dvd,
    Nat.findGreatest_spec (P := (start + 2 ^ · ≤ stop)) (Nat.zero_le _) h⟩

/-- The blocks make up the range. -/
theorem freePagesMemory_run {out : List (ℕ × ℕ)} {given : Multiset ℕ}
    (h : Disjoint (Ico start stop) given) : ∃ ops, Run PageStep ⟨s, out, given⟩ ops
      ⟨freePagesMemory s start stop, out, Ico start stop + given⟩ := by
  fun_induction freePagesMemory s start stop generalizing given with
  | case1 s start hlt ih =>
    obtain ⟨hlow, hdvd, hfit⟩ := blockOrder_spec hlt
    have hblock : Ico start _ = frames (blockOrder start stop) start :=
      (nodup_Ico.ext (frames_nodup _ _)).2 fun f => by rw [mem_frames, mem_Ico]
    rw [← Ico_add_Ico_eq_Ico (Nat.le_add_right ..) hfit, disjoint_add_left, hblock] at h
    have hrest : Disjoint (Ico (start + _) stop) (frames (blockOrder start stop) start) :=
      disjoint_left.2 fun hf hf' => (mem_Ico.1 hf).1.not_gt (mem_frames.1 hf').2
    obtain ⟨ops, hops⟩ := ih (disjoint_add_right.2 ⟨hrest, h.2⟩)
    rw [← Ico_add_Ico_eq_Ico (Nat.le_add_right ..) hfit, hblock, add_assoc, add_left_comm]
    exact ⟨_, .cons (.core hlow hdvd h.1) hops⟩
  | case2 s start hle =>
    rw [Ico_eq_zero_of_le (not_lt.1 hle), zero_add]
    exact ⟨[], .nil⟩

/-- **Each page once.** If no page of a range has been given to the allocator before, it gets each
of them in one block, and all books are right. -/
theorem freePagesMemory_partition {r r' : PageRun} {ops : List PageOp} (hr : Blank r)
    (hrun : Run PageStep r ops r') (h : Disjoint (Ico start stop) r'.released) :
    ∃ ops' t, Run PageStep r' ops' t ∧ Partition t ∧
      t = ⟨freePagesMemory r'.alloc start stop, r'.allocated, Ico start stop + r'.released⟩ := by
  obtain ⟨ops', hops⟩ := freePagesMemory_run (s := r'.alloc) h
  have hbooked : Booked _ :=
    (hrun.append hops).invariant (fun _ _ _ h hstep => h.step hstep) hr.booked
  exact ⟨ops', _, hops, hbooked.partition, rfl⟩

theorem freePagesMemory_partition_boot :
    ∃ t, Partition t ∧ t = ⟨freePagesMemory (bootPages fun _ _ => 0) 1 7, [], Ico 1 7 + 0⟩ := by
  obtain ⟨-, t, -, ht⟩ := freePagesMemory_partition (r := ⟨bootPages fun _ _ => 0, [], 0⟩)
    ⟨fun _ => rfl, fun _ _ => rfl, fun _ => rfl, rfl, rfl⟩ .nil
    (disjoint_left.2 fun _ => notMem_zero _)
  exact ⟨t, ht⟩

end MinimalKernel.Mm
