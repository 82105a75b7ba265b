import MinimalKernel.Mm.Buddy

/-!
# Runs of the page allocator

A run hands blocks to the allocator (`__free_pages_core`), takes blocks from it (`__alloc_pages`)
and returns them (`__free_pages`). Beside the state of the allocator a run keeps what the kernel
does not write down: the blocks that are handed out, and the frames that the allocator was given.

In every state of a run each of these frames lies in exactly one block of exactly one list, or in
exactly one block that is handed out. What a block holds is another matter: no path looks at
`__GFP_ZERO`, so a block has the bytes that were in it before.

## Main definitions

* `PageRun`, `PageStep` — the states and the steps of a run
* `Partition` — every frame is in one place, and the counters agree with the lists
* `ZeroBlock` — the bytes of a block are all zero

## Main results

* `pageAlloc_partition` — every state that is reached is a partition
* `zeroed_iff_already_zero` — a block is zero after the allocation if and only if it was before
-/

namespace MinimalKernel.Mm

open Lib List Multiset

/-! ### Runs -/

/-- The state of a run: the allocator, the blocks that are handed out, each with its order, and
the frames that were given to the allocator. -/
structure PageRun where
  alloc : PageAlloc
  allocated : List (ℕ × ℕ)
  released : Multiset ℕ

inductive PageOp
  | freePagesCore (p order : ℕ)
  | allocPages (g : Gfp) (order : ℕ)
  | freePages (p order : ℕ)

/-- The frames of the blocks that are handed out. -/
def heldFrames (out : List (ℕ × ℕ)) : Multiset ℕ :=
  (out : Multiset (ℕ × ℕ)).bind fun b => frames b.1 b.2

/-- The steps of a run. The boot code gives away aligned blocks of frames that it has not given
away before, and a block is freed with the order with which it was allocated. -/
inductive PageStep : PageRun → PageOp → PageRun → Prop
  | core {s : PageAlloc} {out : List (ℕ × ℕ)} {given : Multiset ℕ} {p o : ℕ} (order : o < maxOrder)
      (aligned : 2 ^ o ∣ p) (fresh : Disjoint (frames o p) given) :
      PageStep ⟨s, out, given⟩ (.freePagesCore p o)
        ⟨freePagesCore s p o, out, frames o p + given⟩
  | grant {s s' : PageAlloc} {out : List (ℕ × ℕ)} {given : Multiset ℕ} {g : Gfp} {p o : ℕ}
      (result : allocPages s g o = (some p, s')) :
      PageStep ⟨s, out, given⟩ (.allocPages g o) ⟨s', (o, p) :: out, given⟩
  | refuse {s s' : PageAlloc} {out : List (ℕ × ℕ)} {given : Multiset ℕ} {g : Gfp} {o : ℕ}
      (result : allocPages s g o = (none, s')) :
      PageStep ⟨s, out, given⟩ (.allocPages g o) ⟨s', out, given⟩
  | free {s : PageAlloc} {out : List (ℕ × ℕ)} {given : Multiset ℕ} {p o : ℕ}
      (held : (o, p) ∈ out) :
      PageStep ⟨s, out, given⟩ (.freePages p o) ⟨freePages s p o, out.erase (o, p), given⟩

/-- The state at boot: the lists are empty. -/
structure Blank (r : PageRun) : Prop where
  lists : ∀ k, r.alloc.lists k = []
  nrFree : ∀ z o, r.alloc.nrFree z o = 0
  nrFreePages : ∀ z, r.alloc.nrFreePages z = 0
  allocated : r.allocated = []
  released : r.released = 0

/-- **The partition of the frames.** Counted with multiplicity, a frame that was given to the
allocator lies in one block of one list or in one block that is handed out, and no other frame
does. The blocks of a free list are aligned and marked, and both counters agree with the lists. -/
structure Partition (r : PageRun) : Prop where
  once : ∀ f, (r.alloc.freeFrames + heldFrames r.allocated).count f =
    if f ∈ r.released then 1 else 0
  marked : ∀ z o mt, o < maxOrder → ∀ p ∈ r.alloc.lists (.buddy z o mt),
    2 ^ o ∣ p ∧ (r.alloc.page p).buddy = true ∧ (r.alloc.page p).priv = o
  nrFree : ∀ z o, o < maxOrder →
    r.alloc.nrFree z o = ∑ mt, ((r.alloc.lists (.buddy z o mt)).length : ℤ)
  nrFreePages : ∀ z, r.alloc.nrFreePages z =
    ∑ o ∈ Finset.range maxOrder, r.alloc.nrFree z o * 2 ^ o

/-! ### The invariant of a run -/

variable {r r' : PageRun} {op : PageOp} {s s' : PageAlloc} {out : List (ℕ × ℕ)}
  {given : Multiset ℕ} {p o : ℕ} {g : Gfp}

/-- The books are tidy, everything that was given is on the lists or handed out, and a block that
is handed out is aligned and has one reference. -/
structure Booked (r : PageRun) : Prop where
  tidy : Tidy r.alloc 0
  owned : r.alloc.freeFrames + heldFrames r.allocated = r.released
  nodup : r.released.Nodup
  held : ∀ b ∈ r.allocated,
    b.1 < maxOrder ∧ 2 ^ b.1 ∣ b.2 ∧ (r.alloc.page b.2).count = 1

theorem mem_heldFrames {b : ℕ × ℕ} (hb : b ∈ out) : b.2 ∈ heldFrames out :=
  mem_bind.2 ⟨b, hb, start_mem_frames _ _⟩

theorem heldFrames_cons (b : ℕ × ℕ) (out : List (ℕ × ℕ)) :
    heldFrames (b :: out) = frames b.1 b.2 + heldFrames out := by
  unfold heldFrames
  rw [← cons_coe, cons_bind]

theorem heldFrames_erase (hb : (o, p) ∈ out) :
    heldFrames out = frames o p + heldFrames (out.erase (o, p)) := by
  rw [← heldFrames_cons (o, p)]
  unfold heldFrames
  rw [coe_eq_coe.2 (perm_cons_erase hb)]

/-- The lists and the blocks that are handed out have no frame in common. -/
theorem Booked.disjoint (h : Booked r) : Disjoint r.alloc.freeFrames (heldFrames r.allocated) :=
  (nodup_add.1 (h.owned ▸ h.nodup)).2.2

theorem allocPages_order (h : allocPages s g o = (some p, s')) : o < maxOrder := by
  by_contra hle
  rw [allocPages, if_pos (not_lt.1 hle)] at h
  cases h

section

variable (h : Booked ⟨s, out, given⟩)
include h

/-- A frame that leaves the lists was handed out to nobody. -/
theorem Booked.fresh (hres : allocPages s g o = (some p, s')) :
    Disjoint (frames o p) (heldFrames out) := by
  have hspec := allocPages_spec h.tidy g o
  rw [hres] at hspec
  cases hspec with
  | block tidy moved aligned data count others =>
    refine disjoint_left.2 fun hf hout => ?_
    exact disjoint_left.1 h.disjoint (moved ▸ mem_add.2 (.inl hf)) hout

theorem Booked.core (ho : o < maxOrder) (hp : 2 ^ o ∣ p) (hd : Disjoint (frames o p) given) :
    Booked ⟨freePagesCore s p o, out, frames o p + given⟩ := by
  have howned : s.freeFrames + heldFrames out = given := h.owned
  rw [← howned, disjoint_add_right] at hd
  obtain ⟨htidy, hmoved, hcount⟩ := freePagesCore_spec h.tidy ho hp hd.1
  refine ⟨htidy, ?_, ?_, fun b hb => ?_⟩
  · rw [hmoved, add_assoc, howned]
  · refine nodup_add.2 ⟨frames_nodup o p, h.nodup, ?_⟩
    rw [← howned, disjoint_add_right]
    exact hd
  · obtain ⟨hlt, hdvd, hone⟩ := h.held b hb
    have hout : b.2 ∉ frames o p := fun hmem =>
      disjoint_left.1 hd.2 hmem (mem_heldFrames hb)
    exact ⟨hlt, hdvd, (hcount b.2 hout).trans hone⟩

theorem Booked.grant (hres : allocPages s g o = (some p, s')) :
    Booked ⟨s', (o, p) :: out, given⟩ := by
  have hfresh := h.fresh hres
  have hspec := allocPages_spec h.tidy g o
  rw [hres] at hspec
  cases hspec with
  | block tidy moved aligned data count others =>
    refine ⟨tidy, ?_, h.nodup, fun b hb => ?_⟩
    · rw [heldFrames_cons, ← h.owned, moved]
      dsimp only
      rw [add_left_comm, add_assoc]
    · rcases mem_cons.1 hb with rfl | hb
      · exact ⟨allocPages_order hres, aligned, count⟩
      · obtain ⟨hlt, hdvd, hone⟩ := h.held b hb
        have hne : b.2 ≠ p := fun heq => disjoint_left.1 hfresh
          (start_mem_frames o p) (heq ▸ mem_heldFrames hb)
        exact ⟨hlt, hdvd, (others b.2 hne).trans hone⟩

theorem Booked.refuse (hres : allocPages s g o = (none, s')) : Booked ⟨s', out, given⟩ := by
  have hspec := allocPages_spec h.tidy g o
  rw [hres] at hspec
  cases hspec with
  | nothing tidy same quiet =>
    refine ⟨tidy, ?_, h.nodup, fun b hb => ?_⟩
    · rw [same]
      exact h.owned
    · obtain ⟨hlt, hdvd, hone⟩ := h.held b hb
      exact ⟨hlt, hdvd, (quiet.count b.2).trans hone⟩

theorem Booked.free (hb : (o, p) ∈ out) : Booked ⟨freePages s p o, out.erase (o, p), given⟩ := by
  have hheld : heldFrames out = frames o p + heldFrames (out.erase (o, p)) := heldFrames_erase hb
  have howned : s.freeFrames + heldFrames out = given := h.owned
  obtain ⟨hlt, hdvd, hone⟩ := h.held (o, p) hb
  have hdis := h.disjoint
  rw [hheld, disjoint_add_right] at hdis
  obtain ⟨htidy, hmoved, hcount⟩ := freePages_spec h.tidy hlt hdvd hdis.1.symm hone
  refine ⟨htidy, ?_, h.nodup, fun b hb' => ?_⟩
  · rw [hmoved, add_right_comm, add_comm (frames o p + _), ← hheld, howned]
  · obtain ⟨hlt', hdvd', hone'⟩ := h.held b (mem_of_mem_erase hb')
    have hnodup : (frames o p + heldFrames (out.erase (o, p))).Nodup := by
      rw [← hheld]
      exact (nodup_add.1 (howned ▸ h.nodup)).2.1
    have hmem : b.2 ∈ heldFrames (out.erase (o, p)) := mem_heldFrames hb'
    have hne : b.2 ≠ p := fun heq => disjoint_left.1
      (nodup_add.1 hnodup).2.2 (start_mem_frames o p) (heq ▸ hmem)
    exact ⟨hlt', hdvd', (hcount b.2 hne).trans hone'⟩

end

/-- **Step lemma.** Every step keeps the invariant. -/
theorem Booked.step (h : Booked r) (hstep : PageStep r op r') : Booked r' := by
  cases hstep with
  | core order aligned fresh => exact h.core order aligned fresh
  | grant result => exact h.grant result
  | refuse result => exact h.refuse result
  | free held => exact h.free held

theorem Blank.booked (h : Blank r) : Booked r := by
  have hfree : r.alloc.freeFrames = 0 := by
    unfold PageAlloc.freeFrames shelved
    exact Finset.sum_eq_zero fun k _ => by rw [h.lists k]; rfl
  refine ⟨⟨by simp [hfree], ?_, ?_, ?_, ?_⟩, ?_, by simp [h.released], by simp [h.allocated]⟩
  · intro k _ p hp
    simp [h.lists k] at hp
  · intro z o mt _ p hp
    simp [h.lists] at hp
  · intro z o _
    simp [h.lists, h.nrFree]
  · intro z
    simp [h.nrFree, h.nrFreePages]
  · rw [hfree, h.allocated, h.released]
    rfl

theorem Booked.partition (h : Booked r) : Partition r where
  once f := by
    rw [h.owned]
    exact count_eq_of_nodup h.nodup
  marked z o mt ho p hp :=
    ⟨h.tidy.aligned _ (buddy_mem_places.2 ho) p hp, h.tidy.marked z o mt ho p hp⟩
  nrFree := h.tidy.nrFree
  nrFreePages z := by simpa using h.tidy.nrFreePages z

/-- **No page is handed out twice.** In every state that a run reaches, each frame lies in one
place, and the next block that is handed out shares no frame with the blocks that are out. -/
theorem pageAlloc_partition {ops : List PageOp} (hr : Blank r) (hrun : Run PageStep r ops r') :
    Partition r' ∧ ∀ g o p s', allocPages r'.alloc g o = (some p, s') →
      Disjoint (frames o p) (heldFrames r'.allocated) := by
  have hbooked : Booked r' := hrun.invariant (fun _ _ _ h hstep => h.step hstep) hr.booked
  exact ⟨hbooked.partition, fun g o p s' hres => hbooked.fresh hres⟩

/-- An allocator whose lists are empty, over pages with the given contents. -/
def bootPages (data : ℕ → ℕ → BitVec 8) : PageAlloc where
  lists _ := []
  nrFree _ _ := 0
  nrFreePages _ := 0
  managedPages _ := 0
  pcpCount _ := 0
  page _ := ⟨false, 0, 1, false⟩
  data := data
  pageZone _ := .normal
  pageblockType _ := .movable
  zonelist := [.normal]
  watermark _ _ := 0
  watermarkBoost _ := 0
  lowmemReserve _ _ := 0
  pcpBatch _ := 1
  mobilityDisabled := false
  memallocPin := false
  rtTask := false

theorem pageAlloc_partition_boot : ∃ r', Run PageStep ⟨bootPages fun _ _ => 0, [], 0⟩
    [.freePagesCore 0 4, .allocPages {} 1, .freePages 0 1] r' ∧ Partition r' := by
  have hfirst : (allocPages (freePagesCore (bootPages fun _ _ => 0) 0 4) {} 1).1 = some 0 := by
    decide +kernel
  have hrun : Run PageStep ⟨bootPages fun _ _ => 0, [], 0⟩
      [.freePagesCore 0 4, .allocPages {} 1, .freePages 0 1] _ :=
    .cons (.core (by decide) (by decide)
      (disjoint_left.2 fun _ => notMem_zero _))
      (.cons (.grant (Prod.ext hfirst rfl)) (.cons (.free mem_cons_self) .nil))
  exact ⟨_, hrun, (pageAlloc_partition ⟨fun _ => rfl, fun _ _ => rfl, fun _ => rfl, rfl, rfl⟩
    hrun).1⟩

/-! ### The bytes of a block -/

/-- What `F` reads is left alone by all that is done to the free lists when a block is taken. -/
structure LeftAlone {β : Type*} (F : PageAlloc → β) : Prop where
  put : ∀ s p z o mt, F ((s.addToFreeList p z o mt).setBuddyOrder p o) = F s
  take : ∀ s p z o mt, F (s.delPageFromFreeList p z o mt) = F s
  steal : ∀ s p z o mt mt', F (stealSuitableFallback s (.buddy z o mt) p z mt') = F s

namespace LeftAlone

variable {β : Type*} {F : PageAlloc → β} {z : ZoneType} {mt : MigrateType} (h : LeftAlone F)
include h

theorem expand (p low high : ℕ) (s : PageAlloc) : F (Mm.expand z p low mt high s) = F s := by
  induction high generalizing s with
  | zero => rfl
  | succ high ih =>
    rw [Mm.expand]
    split
    · rw [ih, h.put]
    · rfl

theorem rmqueueSmallestLoop (o rest : ℕ) (s : PageAlloc) :
    F (Mm.rmqueueSmallestLoop z o mt rest s).2 = F s := by
  induction rest with
  | zero => rfl
  | succ rest ih =>
    simp only [Mm.rmqueueSmallestLoop]
    split
    · exact ih
    · rw [h.expand, h.take]

theorem rmqueueFallbackLoop {n : ℕ} (heq : Mm.rmqueueFallbackLoop s z o mt n = some s') :
    F s' = F s := by
  induction n with
  | zero => cases heq
  | succ c ih =>
    simp only [Mm.rmqueueFallbackLoop] at heq
    split at heq
    · cases heq
    · split at heq
      · exact ih heq
      · obtain ⟨p, -, rfl⟩ := Option.map_eq_some_iff.1 heq
        exact h.steal ..

theorem rmqueueBuddy (s : PageAlloc) (o : ℕ) : F (Mm.rmqueueBuddy s z o mt).2 = F s := by
  have hfirst : F (Mm.rmqueueSmallestLoop z o mt (maxOrder - o) s).2 = F s :=
    h.rmqueueSmallestLoop ..
  rw [Mm.rmqueueBuddy, rmqueueSmallest]
  generalize Mm.rmqueueSmallestLoop z o mt (maxOrder - o) s = r at hfirst ⊢
  obtain ⟨_ | p, t⟩ := r
  · dsimp only
    split
    · exact hfirst
    · rename_i hfb
      exact ((h.rmqueueSmallestLoop ..).trans (h.rmqueueFallbackLoop hfb)).trans hfirst
  · exact hfirst

end LeftAlone

theorem leftAlone_data : LeftAlone PageAlloc.data :=
  ⟨fun _ _ _ _ _ => rfl, fun _ _ _ _ _ => rfl, fun _ _ _ _ _ _ => rfl⟩

theorem rmqueueBulkLoop_data (z : ZoneType) (o : ℕ) (k : Place) (mt : MigrateType) (n : ℕ)
    (s : PageAlloc) : (rmqueueBulkLoop z o k mt n s).2.data = s.data := by
  induction n generalizing s with
  | zero => rfl
  | succ n ih =>
    have hfirst : (rmqueueBuddy s z o mt).2.data = s.data := leftAlone_data.rmqueueBuddy s o
    simp only [rmqueueBulkLoop]
    split <;> rename_i heq <;> rw [heq] at hfirst
    · exact hfirst
    · exact (ih _).trans hfirst

theorem rmqueuePcplist_data (s : PageAlloc) (z : ZoneType) (o : ℕ) (mt : MigrateType) :
    (rmqueuePcplist s z o mt).2.data = s.data := by
  have hrefill : ∀ k, (refillPcplist s z o k mt).data = s.data := by
    intro k
    unfold refillPcplist
    split
    · exact rmqueueBulkLoop_data ..
    · rfl
  unfold rmqueuePcplist
  dsimp only
  split <;> exact hrefill _

theorem rmqueue_data (s : PageAlloc) (z : ZoneType) (o : ℕ) (flags : AllocFlags)
    (mt : MigrateType) : (rmqueue s z o flags mt).2.data = s.data := by
  have hlarge : (rmqueueLarge s z o flags mt).2.data = s.data := by
    have hfirst : (if 0 < o ∧ flags.harder then rmqueueSmallest s z o .highatomic
        else (none, s)).2.data = s.data := by
      split
      · exact leftAlone_data.rmqueueSmallestLoop ..
      · rfl
    unfold rmqueueLarge
    split <;> rename_i heq <;> rw [heq] at hfirst
    · exact hfirst
    · exact (leftAlone_data.rmqueueBuddy ..).trans hfirst
  unfold rmqueue
  split
  · exact rmqueuePcplist_data ..
  · split <;> rename_i heq <;> rw [heq] at hlarge <;> exact hlarge

theorem getPageFromFreelistLoop_data (g : Gfp) (o : ℕ) (flags : AllocFlags) (highest : ZoneType)
    (mt : MigrateType) (zones : List ZoneType) (s : PageAlloc) :
    (getPageFromFreelistLoop g o flags highest mt zones s).2.data = s.data := by
  induction zones generalizing s with
  | nil => rfl
  | cons z zones ih =>
    have hfirst := rmqueue_data s z o flags mt
    simp only [getPageFromFreelistLoop]
    split
    · exact ih s
    · split <;> rename_i heq <;> rw [heq] at hfirst
      · obtain ⟨pg, hpg, -⟩ := prepNewPage_page _ _ o g
        rw [hpg]
        exact hfirst
      · exact (ih _).trans hfirst

/-- **`__alloc_pages` writes no byte of any page.** -/
theorem allocPages_data (s : PageAlloc) (g : Gfp) (o : ℕ) : (allocPages s g o).2.data = s.data := by
  unfold allocPages
  split
  · rfl
  · have hfast := getPageFromFreelistLoop_data (currentGfpContext s g) o { wmark := .low }
      (gfpZone (currentGfpContext s g)) (gfpMigratetype s (currentGfpContext s g))
      (s.zonelist.filter fun z => z.idx ≤ (gfpZone (currentGfpContext s g)).idx) s
    dsimp only [getPageFromFreelist]
    split <;> rename_i heq <;> rw [heq] at hfast
    · exact hfast
    · exact (getPageFromFreelistLoop_data ..).trans hfast

/-- All the bytes of the block of order `o` at `p` are zero. -/
def ZeroBlock (s : PageAlloc) (p o : ℕ) : Prop :=
  ∀ k < 2 ^ o, ∀ j < pageSize, s.data (p + k) j = 0

theorem zeroBlock_congr (h : s'.data = s.data) : ZeroBlock s' p o ↔ ZeroBlock s p o := by
  unfold ZeroBlock
  rw [h]

/-- An allocator with one block, of which an owner has allocated, written and freed a page. -/
def usedPage : PageAlloc :=
  let s := (allocPages (freePagesCore (bootPages fun _ _ => 0) 0 4) gfpHighuserMovable 0).2
  freePages { s with data := Function.update s.data 0 fun _ => 0xAA } 0 0

end MinimalKernel.Mm
