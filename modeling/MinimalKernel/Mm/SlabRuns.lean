import MinimalKernel.Lib.Linked
import MinimalKernel.Mm.PageRuns
import MinimalKernel.Mm.Slub

/-!
# Runs of a slab cache

Objects are allocated from a cache and freed, their users write to them, and in between the page
allocator serves others. A run starts with a cache that has just been opened, or with the cache of
the nodes after its first object has been taken by hand.

No object is handed out twice: the objects in use are different slots of the slabs of the cache,
and the pages of a slab are freed only when none of its objects is in use. This rests on the
partition of the page frames, by which a new slab shares no frame with the other ones, and on the
free list of each slab, whose length the field `inuse` reflects.

## Main definitions

* `SlabRun`, `SlabStep` — the states and the steps of a run
* `IsSlot`, `InBlock` — the places of the objects
* `SlabOk` — the invariant

## Main results

* `SlabOk.step` — every step keeps the invariant
* `slab_objects_safe` — the objects in use are safe, in every state of every run
-/

namespace MinimalKernel.Mm

open Function List Nat SlabState

open Lib (Linked frames)

/-! ### Runs -/

/-- The state of a run: the cache, the objects in use, the blocks of pages that others hold, and
the frames that were given to the page allocator. -/
structure SlabRun where
  state : SlabState
  live : List ℕ
  others : List (ℕ × ℕ)
  released : Multiset ℕ

inductive SlabOp
  | alloc (g g' : Gfp)
  | free (x : ℕ)
  | store (x v : ℕ)
  | rcu (b : ℕ)
  | page (op : PageOp)

/-- The steps of a run. An object that is freed is in use, and so is an object that is written
to. -/
inductive SlabStep (c : KmemCache) : SlabRun → SlabOp → SlabRun → Prop
  | grant {s s' : SlabState} {live : List ℕ} {others : List (ℕ × ℕ)} {released : Multiset ℕ}
      {g g' : Gfp} {x : ℕ} (result : slabAllocNode c s g g' = (x, s')) (ne : x ≠ 0) :
      SlabStep c ⟨s, live, others, released⟩ (.alloc g g') ⟨s', x :: live, others, released⟩
  | refuse {s s' : SlabState} {live : List ℕ} {others : List (ℕ × ℕ)} {released : Multiset ℕ}
      {g g' : Gfp} (result : slabAllocNode c s g g' = (0, s')) :
      SlabStep c ⟨s, live, others, released⟩ (.alloc g g') ⟨s', live, others, released⟩
  | free {s : SlabState} {live : List ℕ} {others : List (ℕ × ℕ)} {released : Multiset ℕ} {x : ℕ}
      (used : x ∈ live) :
      SlabStep c ⟨s, live, others, released⟩ (.free x)
        ⟨kmemCacheFree c s x, live.erase x, others, released⟩
  | store {s : SlabState} {live : List ℕ} {others : List (ℕ × ℕ)} {released : Multiset ℕ}
      {x v : ℕ} (used : x ∈ live) :
      SlabStep c ⟨s, live, others, released⟩ (.store x v)
        ⟨s.setFreepointer x v, live, others, released⟩
  | rcu {s : SlabState} {live : List ℕ} {others : List (ℕ × ℕ)} {released : Multiset ℕ} {b : ℕ}
      (waiting : b ∈ s.rcu) :
      SlabStep c ⟨s, live, others, released⟩ (.rcu b) ⟨rcuFreeSlab s b, live, others, released⟩
  | page {s : SlabState} {live : List ℕ} {others others' : List (ℕ × ℕ)}
      {released released' : Multiset ℕ} {op : PageOp} {pages : PageAlloc}
      (step : PageStep ⟨s.pages, others, released⟩ op ⟨pages, others', released'⟩) :
      SlabStep c ⟨s, live, others, released⟩ (.page op)
        ⟨{ s with pages := pages }, live, others', released'⟩

/-- The cache has just been opened, and the page allocator is in a state that a run of its own
reaches. -/
structure Opened (r : SlabRun) : Prop where
  pages : Booked ⟨r.state.pages, r.others, r.released⟩
  slabs : r.state.slabs = []
  rcu : r.state.rcu = []
  partials : r.state.partials = []
  nrPartial : r.state.nrPartial = 0
  cpuSlab : r.state.cpuSlab = none
  live : r.live = []

/-- The states in which a run starts. A slab of the cache of the nodes holds two objects at
least. -/
inductive Start (c : KmemCache) : SlabRun → Prop
  | opened {r : SlabRun} (fresh : Opened r) : Start c r
  | early {s s' : SlabState} {others : List (ℕ × ℕ)} {released : Multiset ℕ} {g g' : Gfp} {n : ℕ}
      (fresh : Opened ⟨s, [], others, released⟩) (two : 2 ≤ c.oo.objects ∧ 2 ≤ c.ooMin.objects)
      (result : earlyKmemCacheNodeAlloc c s g g' = some (n, s')) :
      Start c ⟨s', [n], others, released⟩

/-! ### The invariant -/

/-- The object `x` is a slot of the slab `b`. -/
def IsSlot (c : KmemCache) (s : SlabState) (b x : ℕ) : Prop :=
  ∃ i < (s.slab b).objects, x = slabAddress b + i * c.size

/-- The address `x` lies in the pages of the slab `b`. -/
def InBlock (s : SlabState) (b x : ℕ) : Prop :=
  slabAddress b ≤ x ∧ x < slabAddress b + pageSize * 2 ^ (s.slab b).order

/-- The blocks of pages that the cache holds. -/
def SlabState.blocks (s : SlabState) : List (ℕ × ℕ) :=
  (s.slabs ++ s.rcu).map fun b => ((s.slab b).order, b)

/-- The free objects of the slab `b` are slots that nobody uses, linked from its free list, and
`inuse` counts the other slots. -/
structure FreeObjects (c : KmemCache) (s : SlabState) (live : List ℕ) (b : ℕ) (free : List ℕ) :
    Prop where
  linked : Linked 0 s.fp (s.slab b).freelist free
  nodup : free.Nodup
  slots : ∀ x ∈ free, IsSlot c s b x
  dead : ∀ x ∈ free, x ∉ live
  inuse : (s.slab b).inuse = (s.slab b).objects - free.length

/-- **The invariant of a cache** with the objects `live` in use. -/
structure SlabOk (c : KmemCache) (s : SlabState) (live : List ℕ) (others : List (ℕ × ℕ))
    (released : Multiset ℕ) : Prop where
  booked : Booked ⟨s.pages, s.blocks ++ others, released⟩
  cpuSlab : s.cpuSlab = none
  room : ∀ b ∈ s.slabs, 0 < (s.slab b).objects ∧
    (s.slab b).objects * c.size ≤ pageSize * 2 ^ (s.slab b).order
  free : ∀ b ∈ s.slabs, ∃ free, FreeObjects c s live b free
  partials : ∀ b, b ∈ s.partials ↔
    b ∈ s.slabs ∧ (s.slab b).frozen = false ∧ (s.slab b).freelist ≠ 0
  nodup : s.partials.Nodup
  nrPartial : s.nrPartial = s.partials.length
  placed : ∀ x ∈ live, ∃ b ∈ s.slabs, IsSlot c s b x
  distinct : live.Nodup

variable {c : KmemCache} {r r' : SlabRun} {s s' : SlabState} {live live' free : List ℕ}
  {others : List (ℕ × ℕ)} {released : Multiset ℕ} {b b' x y i : ℕ} {g g' : Gfp} {op : SlabOp}
  {oo : OrderObjects} {pages a : PageAlloc} {given : Multiset ℕ} {size : ℕ}

/-! ### Blocks of pages -/

theorem Booked.perm {out out' : List (ℕ × ℕ)} (h : Booked ⟨a, out, given⟩) (hp : out.Perm out') :
    Booked ⟨a, out', given⟩ := by
  have hheld : heldFrames out' = heldFrames out := by
    unfold heldFrames
    rw [Multiset.coe_eq_coe.2 hp]
  refine ⟨h.tidy, ?_, h.nodup, fun b hb => h.held b (hp.mem_iff.2 hb)⟩
  rw [hheld]
  exact h.owned

/-- Steps of the page allocator for others. -/
theorem Booked.frame {a' : PageAlloc} {blocks out out' : List (ℕ × ℕ)} {given' : Multiset ℕ}
    {op : PageOp} (h : Booked ⟨a, blocks ++ out, given⟩)
    (hstep : PageStep ⟨a, out, given⟩ op ⟨a', out', given'⟩) :
    Booked ⟨a', blocks ++ out', given'⟩ := by
  cases hstep with
  | core order aligned fresh => exact h.core order aligned fresh
  | grant result => exact (h.grant result).perm perm_middle.symm
  | refuse result => exact h.refuse result
  | @free _ _ _ p o held =>
    refine (h.free (mem_append_right blocks held)).perm ?_
    have hcons : (blocks ++ out).Perm ((o, p) :: (blocks ++ out.erase (o, p))) :=
      ((perm_cons_erase held).append_left blocks).trans perm_middle
    simpa using hcons.erase (o, p)

/-- Giving a block back. -/
theorem Booked.release {out rest : List (ℕ × ℕ)} {o p : ℕ} (h : Booked ⟨a, out, given⟩)
    (hp : out.Perm ((o, p) :: rest)) : Booked ⟨freePages a p o, rest, given⟩ := by
  refine (h.free (hp.mem_iff.2 mem_cons_self)).perm ?_
  simpa using hp.erase (o, p)

/-- Blocks that are handed out share no frame. -/
theorem Booked.pairwise {r : PageRun} (h : Booked r) :
    r.allocated.Pairwise fun b b' => Disjoint (frames b.1 b.2) (frames b'.1 b'.2) := by
  have hnodup : (heldFrames r.allocated).Nodup :=
    (Multiset.nodup_add.1 (h.owned ▸ h.nodup)).2.1
  generalize r.allocated = out at hnodup
  induction out with
  | nil => exact .nil
  | cons b out ih =>
    rw [heldFrames_cons, Multiset.nodup_add] at hnodup
    obtain ⟨-, hrest, hdis⟩ := hnodup
    refine pairwise_cons.2 ⟨fun b' hb' => ?_, ih hrest⟩
    refine Multiset.disjoint_left.2 fun hf hf' => ?_
    exact Multiset.disjoint_left.1 hdis hf (Multiset.mem_bind.2 ⟨b', hb', hf'⟩)

theorem mem_blocks (hb : b ∈ s.slabs ++ s.rcu) : ((s.slab b).order, b) ∈ s.blocks :=
  mem_map_of_mem hb

/-- The page of an address in a slab. -/
theorem InBlock.mem_frames (h : InBlock s b x) :
    (x - pageOffset) / pageSize ∈ frames (s.slab b).order b := by
  obtain ⟨hlo, hhi⟩ := h
  unfold slabAddress at hlo hhi
  have hx : x - pageOffset + pageOffset = x := Nat.sub_add_cancel (by omega)
  rw [Lib.mem_frames]
  constructor
  · rw [le_div_iff_mul_le (by decide)]
    omega
  · rw [div_lt_iff_lt_mul (by decide), add_mul]
    rw [mul_comm (2 ^ _)]
    omega

section

variable (h : IsSlot c s b x)
  (hroom : (s.slab b).objects * c.size ≤ pageSize * 2 ^ (s.slab b).order)
include h hroom

theorem IsSlot.bounds :
    slabAddress b ≤ x ∧ x + c.size ≤ slabAddress b + pageSize * 2 ^ (s.slab b).order := by
  obtain ⟨i, hi, rfl⟩ := h
  have hle : (i + 1) * c.size ≤ (s.slab b).objects * c.size := mul_le_mul_right _ hi
  rw [succ_mul] at hle
  omega

theorem IsSlot.inBlock : InBlock s b x := by
  have hb := h.bounds hroom
  have hpos := c.size_pos
  exact ⟨hb.1, by omega⟩

end

theorem IsSlot.ne_zero (h : IsSlot c s b x) : x ≠ 0 := by
  obtain ⟨i, -, rfl⟩ := h
  unfold slabAddress pageOffset
  omega

theorem isSlot_congr (h : (s'.slab b).objects = (s.slab b).objects) :
    IsSlot c s' b x ↔ IsSlot c s b x := by
  unfold IsSlot
  rw [h]

section Invariant

variable (h : SlabOk c s live others released)

include h

theorem SlabOk.blocks_disjoint (hb : b ∈ s.slabs ++ s.rcu) (hb' : b' ∈ s.slabs ++ s.rcu)
    (hne : b ≠ b') : Disjoint (frames (s.slab b).order b) (frames (s.slab b').order b') := by
  have : Std.Symm fun b b' : ℕ × ℕ => Disjoint (frames b.1 b.2) (frames b'.1 b'.2) :=
    ⟨fun _ _ hd => hd.symm⟩
  exact h.booked.pairwise.forall (mem_append_left others (mem_blocks hb))
    (mem_append_left others (mem_blocks hb')) fun heq => hne (congrArg Prod.snd heq)

/-- An address lies in one slab at most. -/
theorem SlabOk.block_unique (hb : b ∈ s.slabs ++ s.rcu) (hb' : b' ∈ s.slabs ++ s.rcu)
    (hx : InBlock s b x) (hx' : InBlock s b' x) : b = b' := by
  by_contra hne
  exact Multiset.disjoint_left.1 (h.blocks_disjoint hb hb' hne) hx.mem_frames hx'.mem_frames

theorem SlabOk.nodup_slabs : (s.slabs ++ s.rcu).Nodup := by
  have hpair := (pairwise_append.1 h.booked.pairwise).1
  refine List.Pairwise.imp ?_ (pairwise_map.1 hpair)
  rintro b b' hdis rfl
  exact Multiset.disjoint_left.1 hdis (Lib.start_mem_frames _ _) (Lib.start_mem_frames _ _)

theorem SlabOk.slot_unique (hb : b ∈ s.slabs) (hb' : b' ∈ s.slabs) (hx : IsSlot c s b x)
    (hx' : IsSlot c s b' x) : b = b' :=
  h.block_unique (mem_append_left _ hb) (mem_append_left _ hb')
    (hx.inBlock (h.room b hb).2) (hx'.inBlock (h.room b' hb').2)

/-- `virt_to_slab` finds the slab of an object. -/
theorem SlabOk.virtToSlab (hb : b ∈ s.slabs) (hx : IsSlot c s b x) : virtToSlab s x = some b := by
  have hin := hx.inBlock (h.room b hb).2
  have hsome : (Mm.virtToSlab s x).isSome := by
    unfold Mm.virtToSlab
    rw [List.find?_isSome]
    exact ⟨b, hb, decide_eq_true hin⟩
  obtain ⟨b', hb'⟩ := Option.isSome_iff_exists.1 hsome
  have hin' : InBlock s b' x := by
    have hfound := List.find?_some hb'
    rw [decide_eq_true_eq] at hfound
    exact hfound
  rw [hb', h.block_unique (mem_append_left _ (mem_of_find?_eq_some hb'))
    (mem_append_left _ hb) hin' hin]

end Invariant

/-! ### New slabs -/

/-- The objects of a slab, from `p` on. -/
def slotsFrom (size : ℕ) : ℕ → ℕ → List ℕ
  | 0, p => [p]
  | n + 1, p => p :: slotsFrom size n (p + size)

variable {n p : ℕ}

theorem mem_slotsFrom : x ∈ slotsFrom size n p ↔ ∃ i ≤ n, x = p + i * size := by
  induction n generalizing p with
  | zero => simp [slotsFrom]
  | succ n ih =>
    rw [slotsFrom, mem_cons, ih]
    constructor
    · rintro (rfl | ⟨i, hi, rfl⟩)
      · exact ⟨0, zero_le _, by simp⟩
      · exact ⟨i + 1, succ_le_succ hi, by ring⟩
    · rintro ⟨_ | i, hi, rfl⟩
      · simp
      · exact .inr ⟨i, le_of_succ_le_succ hi, by ring⟩

theorem length_slotsFrom : (slotsFrom size n p).length = n + 1 := by
  induction n generalizing p with
  | zero => rfl
  | succ n ih => rw [slotsFrom, length_cons, ih]

theorem nodup_slotsFrom (hsize : 0 < size) : (slotsFrom size n p).Nodup := by
  induction n generalizing p with
  | zero => simp [slotsFrom]
  | succ n ih =>
    refine nodup_cons.2 ⟨fun hmem => ?_, ih⟩
    obtain ⟨i, -, hi⟩ := mem_slotsFrom.1 hmem
    have : 0 < size + i * size := by positivity
    omega

/-- The loop of `allocate_slab` writes to the objects of the slab only. -/
theorem initFreelist_of_not_mem {fp : ℕ → ℕ} (hx : x ∉ slotsFrom size n p) :
    initFreelist size n p fp x = fp x := by
  induction n generalizing p fp with
  | zero => exact update_of_ne (by simpa [slotsFrom] using hx) _ _
  | succ n ih =>
    rw [slotsFrom, mem_cons, not_or] at hx
    rw [initFreelist, ih hx.2, update_of_ne hx.1]

/-- The loop of `allocate_slab` links the objects of the slab. -/
theorem linked_initFreelist {fp : ℕ → ℕ} (hsize : 0 < size) (hp : p ≠ 0) :
    Linked 0 (initFreelist size n p fp) p (slotsFrom size n p) := by
  induction n generalizing p fp with
  | zero =>
    refine ⟨rfl, hp, ?_⟩
    rw [initFreelist, update_self]
    rfl
  | succ n ih =>
    refine ⟨rfl, hp, ?_⟩
    have hmem : p ∉ slotsFrom size n (p + size) :=
      (nodup_cons.1 (nodup_slotsFrom (n := n + 1) (p := p) hsize)).1
    rw [initFreelist, initFreelist_of_not_mem hmem, update_self]
    exact ih (by omega)

theorem slabAddress_ne_zero (b : ℕ) : slabAddress b ≠ 0 := by
  unfold slabAddress pageOffset
  omega

/-- An order of slabs that have room for an object. -/
structure OrderOk (c : KmemCache) (oo : OrderObjects) : Prop where
  pos : 0 < oo.objects
  fits : oo.objects * c.size ≤ pageSize * 2 ^ oo.order

theorem orderOk_ooMake {order : ℕ} (h : c.size ≤ pageSize * 2 ^ order) :
    OrderOk c (ooMake order c.size) :=
  ⟨div_pos h c.size_pos, div_mul_le_self _ _⟩

/-- What `allocate_slab` leaves behind: no slab, or a new slab whose objects are all linked. -/
inductive NewSlab (c : KmemCache) (s : SlabState) : Option ℕ × SlabState → Prop
  | nothing {pages : PageAlloc}
      (booked : ∀ out given, Booked ⟨s.pages, out, given⟩ → Booked ⟨pages, out, given⟩) :
      NewSlab c s (none, { s with pages := pages })
  | slab {pages : PageAlloc} {b : ℕ} {oo : OrderObjects}
      (booked : ∀ out given, Booked ⟨s.pages, out, given⟩ →
        Booked ⟨pages, (oo.order, b) :: out, given⟩)
      (order : OrderOk c oo) (size : oo = c.oo ∨ oo = c.ooMin) :
      NewSlab c s (some b, setupSlab c { s with pages := pages, slabs := b :: s.slabs } b oo)

theorem allocateSlab_spec (c : KmemCache) (s : SlabState) (g g' : Gfp) :
    NewSlab c s (allocateSlab c s g g') := by
  unfold allocateSlab allocSlabPage
  rcases hfirst : allocPages s.pages g c.oo.order with ⟨_ | b, pages⟩
  · dsimp only
    rcases hsecond : allocPages pages g' c.ooMin.order with ⟨_ | b, pages'⟩
    · exact .nothing fun out given h => (h.refuse hfirst).refuse hsecond
    · exact .slab (fun out given h => (h.refuse hfirst).grant hsecond)
        (orderOk_ooMake c.minFits) (.inr rfl)
  · exact .slab (fun out given h => h.grant hfirst) (orderOk_ooMake c.fits) (.inl rfl)

/-! ### Changes of one slab -/

theorem FreeObjects.congr (h : FreeObjects c s live b free) (hslab : s'.slab b = s.slab b)
    (hfp : ∀ y ∈ free, s'.fp y = s.fp y) (hdead : ∀ y ∈ free, y ∉ live') :
    FreeObjects c s' live' b free := by
  refine ⟨?_, h.nodup, fun y hy => ?_, hdead, ?_⟩
  · rw [hslab]
    exact h.linked.congr hfp
  · exact (isSlot_congr (by rw [hslab])).2 (h.slots y hy)
  · rw [hslab]
    exact h.inuse

/-- All the slots of the slab are taken from the list. -/
theorem FreeObjects.of_empty (hlist : (s.slab b).freelist = 0)
    (hinuse : (s.slab b).inuse = (s.slab b).objects) : FreeObjects c s live b [] :=
  ⟨hlist, .nil, by simp, by simp, by simp [hinuse]⟩

theorem blocks_congr (hslabs : s'.slabs = s.slabs) (hrcu : s'.rcu = s.rcu)
    (horder : ∀ b, (s'.slab b).order = (s.slab b).order) : s'.blocks = s.blocks := by
  unfold blocks
  rw [hslabs, hrcu]
  exact map_congr_left fun b _ => by rw [horder]

/-- Between `s` and `s'` the slab `b` has changed, but not its place and its size. -/
structure SlabChange (b : ℕ) (sl : Slab) (s s' : SlabState) : Prop where
  pages : s'.pages = s.pages
  slab : s'.slab = update s.slab b sl
  slabs : s'.slabs = s.slabs
  rcu : s'.rcu = s.rcu
  cpuSlab : s'.cpuSlab = s.cpuSlab
  order : sl.order = (s.slab b).order
  objects : sl.objects = (s.slab b).objects

namespace SlabChange

variable {sl : Slab}

section

variable (hc : SlabChange b sl s s')
include hc

theorem self : s'.slab b = sl := by
  rw [hc.slab, update_self]

theorem of_ne (hb : b' ≠ b) : s'.slab b' = s.slab b' := by
  rw [hc.slab, update_of_ne hb]

theorem order_eq (b' : ℕ) : (s'.slab b').order = (s.slab b').order := by
  by_cases hb : b' = b
  · rw [hb, hc.self, hc.order]
  · rw [hc.of_ne hb]

theorem objects_eq (b' : ℕ) : (s'.slab b').objects = (s.slab b').objects := by
  by_cases hb : b' = b
  · rw [hb, hc.self, hc.objects]
  · rw [hc.of_ne hb]

end

end SlabChange

variable (h : SlabOk c s live others released)

include h in
/-- **Changes of one slab.** Objects of the slab `b` may go over to their users and come back. -/
theorem SlabOk.change {sl : Slab} (hb : b ∈ s.slabs)
    (hc : SlabChange b sl s s') (hfree : ∃ free, FreeObjects c s' live' b free)
    (hfp : ∀ y, ¬ IsSlot c s b y → s'.fp y = s.fp y)
    (hlive : ∀ y ∈ live', y ∈ live ∨ IsSlot c s b y) (hdistinct : live'.Nodup)
    (hpartials : ∀ b', b' ∈ s'.partials ↔ b' ≠ b ∧ b' ∈ s.partials ∨
      b' = b ∧ sl.frozen = false ∧ sl.freelist ≠ 0)
    (hnodup : s'.partials.Nodup) (hnr : s'.nrPartial = s'.partials.length) :
    SlabOk c s' live' others released := by
  refine ⟨?_, hc.cpuSlab.trans h.cpuSlab, fun b' hb' => ?_, fun b' hb' => ?_, fun b' => ?_, hnodup,
    hnr, fun y hy => ?_, hdistinct⟩
  · rw [hc.pages, blocks_congr hc.slabs hc.rcu hc.order_eq]
    exact h.booked
  · rw [hc.objects_eq, hc.order_eq]
    exact h.room b' (hc.slabs ▸ hb')
  · by_cases hbb : b' = b
    · exact hbb ▸ hfree
    · have hb' := hc.slabs ▸ hb'
      obtain ⟨free', hfree'⟩ := h.free b' hb'
      have hnot : ∀ y ∈ free', ¬ IsSlot c s b y := fun y hy hslot =>
        hbb (h.slot_unique hb' hb (hfree'.slots y hy) hslot)
      refine ⟨free', hfree'.congr (hc.of_ne hbb) (fun y hy => hfp y (hnot y hy)) fun y hy hy' => ?_⟩
      rcases hlive y hy' with hy' | hslot
      · exact hfree'.dead y hy hy'
      · exact hnot y hy hslot
  · rw [hpartials, hc.slabs]
    by_cases hbb : b' = b
    · rw [hbb, hc.self]
      simp [hb]
    · rw [hc.of_ne hbb, ← h.partials b']
      simp [hbb]
  · rw [hc.slabs]
    rcases hlive y hy with hy | hslot
    · obtain ⟨b', hb', hslot⟩ := h.placed y hy
      exact ⟨b', hb', (isSlot_congr (hc.objects_eq b')).2 hslot⟩
    · exact ⟨b, hb, (isSlot_congr (hc.objects_eq b)).2 hslot⟩

/-! ### Allocation -/

include h in
/-- **From a partial slab.** The first free object is handed out, and the slab is full for the
allocator. -/
theorem SlabOk.acquire {rest : List ℕ} (hl : s.partials = b :: rest) :
    ∃ x s', acquireSlab s b true = (x, s') ∧ x ≠ 0 ∧
      x ∉ live ∧ SlabOk c s' (x :: live) others released := by
  obtain ⟨hb, -, hne⟩ := (h.partials b).1 (hl ▸ mem_cons_self)
  obtain ⟨free, hfree⟩ := h.free b hb
  obtain ⟨l', rfl, -⟩ := hfree.linked.exists_cons hne
  have hslot := hfree.slots _ mem_cons_self
  have hdead := hfree.dead _ mem_cons_self
  refine ⟨(s.slab b).freelist, (acquireSlab s b true).2, rfl, hne, hdead, ?_⟩
  have hnodup : b ∉ rest ∧ rest.Nodup := nodup_cons.1 (hl ▸ h.nodup)
  have hpartials : s.partials.erase b = rest := by rw [hl, erase_cons_head]
  have hc : SlabChange b { s.slab b with
      inuse := (s.slab b).objects, freelist := 0, frozen := true } s (acquireSlab s b true).2 :=
    ⟨rfl, rfl, rfl, rfl, rfl, rfl, rfl⟩
  refine h.change hb hc ⟨[], .of_empty (by rw [hc.self]) (by rw [hc.self])⟩ (fun _ _ => rfl)
    (forall_mem_cons.2 ⟨.inr hslot, fun y hy => .inl hy⟩) (nodup_cons.2 ⟨hdead, h.distinct⟩)
    (fun b' => ?_) ?_ ?_
  · show b' ∈ s.partials.erase b ↔ _
    rw [hpartials, hl]
    by_cases hbb : b' = b
    · simp [hbb, hnodup.1]
    · simp [hbb]
  · show (s.partials.erase b).Nodup
    rw [hpartials]
    exact hnodup.2
  · show s.nrPartial - 1 = ((s.partials.erase b).length : ℤ)
    rw [hpartials, h.nrPartial, hl]
    simp

include h in
/-- **From a new slab.** -/
theorem SlabOk.fresh
    (hbooked : ∀ out given, Booked ⟨s.pages, out, given⟩ →
      Booked ⟨pages, (oo.order, b) :: out, given⟩) :
    b ∉ s.slabs ++ s.rcu ∧ ∀ b' ∈ s.slabs ++ s.rcu, ∀ y, InBlock s b' y →
      ¬ (slabAddress b ≤ y ∧ y < slabAddress b + pageSize * 2 ^ oo.order) := by
  have hpair := (hbooked _ _ h.booked).pairwise
  have hdis : ∀ b' ∈ s.slabs ++ s.rcu, ∀ f ∈ frames oo.order b, f ∉ frames (s.slab b').order b' :=
    fun b' hb' f hf hf' => Multiset.disjoint_left.1 ((pairwise_cons.1 hpair).1 _
      (mem_append_left others (mem_blocks hb'))) hf hf'
  refine ⟨fun hb => hdis b hb b (Lib.start_mem_frames _ _) (Lib.start_mem_frames _ _),
    fun b' hb' y hy hin => ?_⟩
  have hnew : InBlock
      { s with slab := update s.slab b ⟨oo.order, 0, 0, 0, true⟩ } b y := by
    unfold InBlock
    simpa using hin
  have hmem := hnew.mem_frames
  rw [show slab _ b = _ from update_self ..] at hmem
  exact hdis b' hb' _ hmem hy.mem_frames

/-- The slots of a slab with `oo.objects` objects. -/
theorem mem_slotsFrom_iff (ho : OrderOk c oo) :
    x ∈ slotsFrom c.size (oo.objects - 1) (slabAddress b) ↔
      ∃ i < oo.objects, x = slabAddress b + i * c.size := by
  rw [mem_slotsFrom]
  have hpos := ho.pos
  constructor
  · rintro ⟨i, hi, rfl⟩
    exact ⟨i, by omega, rfl⟩
  · rintro ⟨i, hi, rfl⟩
    exact ⟨i, by omega, rfl⟩

include h in
/-- **A new slab** joins the cache with the free objects `free`; the users get `new`. -/
theorem SlabOk.join (s' : SlabState) (sl : Slab) (new : List ℕ) (ho : OrderOk c oo)
    (hbooked : ∀ out given, Booked ⟨s.pages, out, given⟩ →
      Booked ⟨pages, (oo.order, b) :: out, given⟩)
    (hsl : sl.order = oo.order ∧ sl.objects = oo.objects)
    (hpages : s'.pages = pages) (hslab : s'.slab = update s.slab b sl)
    (hslabs : s'.slabs = b :: s.slabs) (hrcu : s'.rcu = s.rcu) (hcpu : s'.cpuSlab = s.cpuSlab)
    (hfp : s'.fp = initFreelist c.size (oo.objects - 1) (slabAddress b) s.fp)
    (hfree : ∃ free, FreeObjects c s' (new ++ live) b free)
    (hnew : ∀ y ∈ new, IsSlot c s' b y) (hnodup : new.Nodup)
    (hpartials : ∀ b', b' ∈ s'.partials ↔ b' ∈ s.partials ∨
      b' = b ∧ sl.frozen = false ∧ sl.freelist ≠ 0)
    (hpnodup : s'.partials.Nodup) (hnr : s'.nrPartial = s'.partials.length) :
    (∀ y ∈ new, y ∉ live) ∧ SlabOk c s' (new ++ live) others released := by
  obtain ⟨hb, hapart⟩ := h.fresh hbooked
  have hself : s'.slab b = sl := by rw [hslab, update_self]
  have hother : ∀ b' ∈ s.slabs ++ s.rcu, s'.slab b' = s.slab b' := fun b' hb' => by
    rw [hslab, update_of_ne (ne_of_mem_of_not_mem hb' hb)]
  have hroom : (s'.slab b).objects * c.size ≤ pageSize * 2 ^ (s'.slab b).order := by
    rw [hself, hsl.1, hsl.2]
    exact ho.fits
  -- the slots of the new slab are no slots of the other ones
  have hsep : ∀ b' ∈ s.slabs, ∀ y, IsSlot c s b' y → ¬ IsSlot c s' b y := fun b' hb' y hy hy' => by
    have hin := hy'.inBlock hroom
    unfold InBlock at hin
    rw [hself, hsl.1] at hin
    exact hapart b' (mem_append_left _ hb') y (hy.inBlock (h.room b' hb').2) hin
  have hsep' : ∀ b' ∈ s.slabs, ∀ y, IsSlot c s b' y →
      y ∉ slotsFrom c.size (oo.objects - 1) (slabAddress b) := fun b' hb' y hy hmem => by
    refine hsep b' hb' y hy ?_
    obtain ⟨i, hi, rfl⟩ := (mem_slotsFrom_iff ho).1 hmem
    exact ⟨i, by rw [hself, hsl.2]; exact hi, rfl⟩
  have hdead : ∀ y ∈ new, y ∉ live := fun y hy hlive => by
    obtain ⟨b', hb', hslot⟩ := h.placed y hlive
    exact hsep b' hb' y hslot (hnew y hy)
  refine ⟨hdead, ⟨?_, hcpu.trans h.cpuSlab, ?_, fun b' hb' => ?_, fun b' => ?_,
    hpnodup, hnr, fun y hy => ?_, ?_⟩⟩
  · have hblocks : s'.blocks = (oo.order, b) :: s.blocks := by
      unfold blocks
      rw [hslabs, hrcu, cons_append, map_cons, hself, hsl.1]
      exact congrArg _ (map_congr_left fun b' hb' => by rw [hother b' hb'])
    rw [hpages, hblocks]
    exact hbooked _ _ h.booked
  · rw [hslabs]
    refine forall_mem_cons.2 ⟨⟨by rw [hself, hsl.2]; exact ho.pos, hroom⟩, fun b' hb' => ?_⟩
    rw [hother b' (mem_append_left _ hb')]
    exact h.room b' hb'
  · rw [hslabs] at hb'
    rcases mem_cons.1 hb' with rfl | hb'
    · exact hfree
    · obtain ⟨free', hfree'⟩ := h.free b' hb'
      refine ⟨free', hfree'.congr (hother b' (mem_append_left _ hb')) (fun y hy => ?_)
        fun y hy hy' => ?_⟩
      · rw [hfp]
        exact initFreelist_of_not_mem (hsep' b' hb' y (hfree'.slots y hy))
      · rcases mem_append.1 hy' with hy' | hy'
        · exact hsep b' hb' y (hfree'.slots y hy) (hnew y hy')
        · exact hfree'.dead y hy hy'
  · rw [hpartials, hslabs, mem_cons, h.partials b']
    by_cases hbb : b' = b
    · subst hbb
      have hnot : b' ∉ s.slabs := fun hmem => hb (mem_append_left _ hmem)
      rw [hself]
      simp [hnot]
    · rw [hslab, update_of_ne hbb]
      simp [hbb]
  · rw [hslabs]
    rcases mem_append.1 hy with hy | hy
    · exact ⟨b, mem_cons_self, hnew y hy⟩
    · obtain ⟨b', hb', hslot⟩ := h.placed y hy
      refine ⟨b', mem_cons_of_mem b hb', (isSlot_congr ?_).2 hslot⟩
      rw [hother b' (mem_append_left _ hb')]
  · exact nodup_append.2 ⟨hnodup, h.distinct, fun y hy z hz hyz => hdead y hy (hyz ▸ hz)⟩

include h in
/-- Pages of others change. -/
theorem SlabOk.setPages {others' : List (ℕ × ℕ)} {released' : Multiset ℕ}
    (hbooked : Booked ⟨pages, s.blocks ++ others', released'⟩) :
    SlabOk c { s with pages := pages } live others' released' where
  __ := h
  booked := hbooked
  free b hb := (h.free b hb).imp fun _ hf => hf.congr rfl (fun _ _ => rfl) hf.dead

/-- What an allocation comes to: nothing, the first free object of a partial slab, or the first
object of a new slab. -/
inductive AllocOutcome (c : KmemCache) (s : SlabState) (live : List ℕ) (others : List (ℕ × ℕ))
    (released : Multiset ℕ) : ℕ × SlabState → Prop
  | nothing {s' : SlabState} (ok : SlabOk c s' live others released) (slabs : s'.slabs = s.slabs)
      (rcu : s'.rcu = s.rcu) (slab : s'.slab = s.slab) :
      AllocOutcome c s live others released (0, s')
  | reused {x : ℕ} {s' : SlabState} (ne : x ≠ 0) (dead : x ∉ live)
      (ok : SlabOk c s' (x :: live) others released) (slabs : s'.slabs = s.slabs)
      (rcu : s'.rcu = s.rcu) (partials : s.partials ≠ [])
      (slab : ∀ b, (s'.slab b).order = (s.slab b).order ∧
        ((s.slab b).frozen = true → (s'.slab b).frozen = true)) :
      AllocOutcome c s live others released (x, s')
  | fresh {x b : ℕ} {s' : SlabState} (ne : x ≠ 0) (dead : x ∉ live)
      (ok : SlabOk c s' (x :: live) others released) (slabs : s'.slabs = b :: s.slabs)
      (rcu : s'.rcu = s.rcu) (partials : s.partials = [])
      (slab : ∃ sl : Slab, sl.frozen = true ∧ (sl.order = c.order ∨ sl.order = c.minOrder) ∧
        s'.slab = update s.slab b sl) :
      AllocOutcome c s live others released (x, s')

include h in
/-- **`slab_alloc_node`** hands out an object that nobody uses, or nothing. -/
theorem SlabOk.alloc (g g' : Gfp) :
    AllocOutcome c s live others released (slabAllocNode c s g g') := by
  unfold slabAllocNode
  rw [if_pos (.inr h.cpuSlab)]
  unfold slabAllocSlow
  cases hl : s.partials with
  | cons b rest =>
    have hget : getPartial s = acquireSlab s b true := by
      rw [getPartial, if_neg (by rw [h.nrPartial, hl]; simp; omega), hl]
    obtain ⟨x, s', hres, hne, hdead, hok⟩ := h.acquire hl
    have hs' : s' = (acquireSlab s b true).2 := by rw [hres]
    rw [hget, hres]
    dsimp only
    rw [if_pos hne]
    refine .reused hne hdead hok (by rw [hs']; rfl) (by rw [hs']; rfl) (by rw [hl]; nofun)
      fun b' => ?_
    have hslab : s'.slab = update s.slab b
        { s.slab b with inuse := (s.slab b).objects, freelist := 0, frozen := true } := by
      rw [hs']
      rfl
    rw [hslab]
    by_cases hb : b' = b
    · rw [hb, update_self]
      exact ⟨rfl, fun _ => rfl⟩
    · rw [update_of_ne hb]
      exact ⟨rfl, id⟩
  | nil =>
    have hget : getPartial s = (0, s) := by
      rw [getPartial, h.nrPartial, hl]
      rfl
    rw [hget]
    dsimp only
    have hspec := allocateSlab_spec c s g g'
    generalize allocateSlab c s g g' = res at hspec ⊢
    cases hspec with
    | nothing booked => exact .nothing (h.setPages (booked _ _ h.booked)) rfl rfl rfl
    | @slab pages b oo booked order size =>
      set t := setupSlab c { s with pages := pages, slabs := b :: s.slabs } b oo with ht
      have hslab : t.slab b = ⟨oo.order, oo.objects, slabAddress b, oo.objects, true⟩ :=
        update_self ..
      have hlist : (t.slab b).freelist = slabAddress b := by rw [hslab]
      have hslab' : (t.setSlab b { t.slab b with freelist := 0 }).slab
          = update s.slab b ⟨oo.order, oo.objects, 0, oo.objects, true⟩ := by
        rw [setSlab, hslab, ht, setupSlab]
        simp
      obtain ⟨hdead, hok⟩ := h.join (t.setSlab b { t.slab b with freelist := 0 })
        ⟨oo.order, oo.objects, 0, oo.objects, true⟩ [slabAddress b] order booked ⟨rfl, rfl⟩ rfl
        hslab' rfl rfl rfl rfl
        ⟨[], .of_empty (by simp [setSlab]) (by simp [setSlab, hslab])⟩
        (fun y hy => ⟨0, by simpa [setSlab, hslab] using order.pos, by simpa using hy⟩) (by simp)
        (fun b' => by
          show b' ∈ s.partials ↔ _
          simp) h.nodup h.nrPartial
      dsimp only
      rw [hlist]
      have hsize : oo.order = c.order ∨ oo.order = c.minOrder :=
        size.imp (congrArg OrderObjects.order) (congrArg OrderObjects.order)
      exact .fresh (slabAddress_ne_zero b) (hdead _ (by simp)) hok rfl rfl hl
        ⟨_, rfl, hsize, hslab'⟩

/-! ### Freeing -/

/-- The object `x` is put on the free list of its slab. -/
theorem FreeObjects.push (h : FreeObjects c s live b free) (hx : x ∈ live)
    (hdistinct : live.Nodup) (hslot : IsSlot c s b x) (hslab : s'.slab b = { s.slab b with
      freelist := x, inuse := (s.slab b).inuse - 1 })
    (hfp : s'.fp = update s.fp x (s.slab b).freelist) :
    FreeObjects c s' (live.erase x) b (x :: free) := by
  have hmem : x ∉ free := fun hf => h.dead x hf hx
  have hslot' : ∀ y, IsSlot c s b y → IsSlot c s' b y := fun y hy =>
    (isSlot_congr (by rw [hslab])).2 hy
  refine ⟨?_, nodup_cons.2 ⟨hmem, h.nodup⟩,
    forall_mem_cons.2 ⟨hslot' _ hslot, fun y hy => hslot' y (h.slots y hy)⟩,
    forall_mem_cons.2 ⟨hdistinct.not_mem_erase, fun y hy hlive =>
      h.dead y hy (mem_of_mem_erase hlive)⟩, ?_⟩
  · rw [hslab, hfp]
    exact h.linked.push hmem hslot.ne_zero
  · rw [hslab]
    rw [h.inuse, length_cons]
    push_cast
    ring

/-- If `inuse` is zero, all the slots are free. -/
theorem FreeObjects.all_free (h : FreeObjects c s live b free) (hinuse : (s.slab b).inuse = 0)
    (hx : IsSlot c s b x) : x ∈ free := by
  have hlen : free.length = (s.slab b).objects := by
    have := h.inuse
    omega
  obtain ⟨i, hi, rfl⟩ := hx
  have hall : (List.range (s.slab b).objects).map (fun i => slabAddress b + i * c.size) ⊆ free := by
    have hsub : free ⊆ (List.range (s.slab b).objects).map fun i => slabAddress b + i * c.size :=
      fun y hy => by
        obtain ⟨j, hj, rfl⟩ := h.slots y hy
        exact mem_map.2 ⟨j, mem_range.2 hj, rfl⟩
    have hperm := (h.nodup.subperm hsub).perm_of_length_le (by simp [hlen])
    exact hperm.symm.subset
  exact hall (mem_map.2 ⟨i, mem_range.2 hi, rfl⟩)

theorem discardSlab_fields (c : KmemCache) (s : SlabState) (b : ℕ) : let s' := discardSlab c s b
    s'.slabs = s.slabs.erase b ∧ s'.slab = s.slab ∧ s'.fp = s.fp ∧ s'.partials = s.partials ∧
      s'.nrPartial = s.nrPartial ∧ s'.cpuSlab = s.cpuSlab := by
  unfold discardSlab
  split_ifs <;> exact ⟨rfl, rfl, rfl, rfl, rfl, rfl⟩

theorem discardSlab_booked (hb : b ∈ s.slabs) (h : Booked ⟨s.pages, s.blocks ++ others, released⟩) :
    Booked ⟨(discardSlab c s b).pages, (discardSlab c s b).blocks ++ others, released⟩ := by
  have hperm : (s.slabs ++ s.rcu).Perm (b :: (s.slabs.erase b ++ s.rcu)) :=
    (perm_cons_erase hb).append_right s.rcu
  unfold discardSlab
  split_ifs
  · refine h.perm (List.Perm.append_right others ?_)
    exact (hperm.trans perm_middle.symm).map _
  · exact h.release ((hperm.map _).append_right others)

include h in
/-- **Giving up a slab** none of whose objects is in use. -/
theorem SlabOk.discard {sl : Slab} (hb : b ∈ s.slabs) (hc : SlabChange b sl s s')
    (hfp : ∀ y, ¬ IsSlot c s b y → s'.fp y = s.fp y) (hlive : ∀ y ∈ live', y ∈ live)
    (hdistinct : live'.Nodup) (hempty : ∀ y ∈ live', ¬ IsSlot c s b y)
    (hpartials : s'.partials = s.partials.erase b) (hnr : s'.nrPartial = s'.partials.length) :
    SlabOk c (discardSlab c s' b) live' others released := by
  obtain ⟨hslabs, hslab, hfp', hpart, hnr', hcpu⟩ := discardSlab_fields c s' b
  have hnodup : s.slabs.Nodup := (nodup_append.1 h.nodup_slabs).1
  have hmem : ∀ b', b' ∈ s.slabs.erase b ↔ b' ≠ b ∧ b' ∈ s.slabs := fun b' =>
    hnodup.mem_erase_iff
  rw [hc.slabs] at hslabs
  refine ⟨?_, hcpu.trans (hc.cpuSlab.trans h.cpuSlab), fun b' hb' => ?_, fun b' hb' => ?_,
    fun b' => ?_, ?_, ?_, fun y hy => ?_, hdistinct⟩
  · refine discardSlab_booked (hc.slabs ▸ hb) ?_
    rw [hc.pages, blocks_congr hc.slabs hc.rcu hc.order_eq]
    exact h.booked
  · rw [hslabs, hmem] at hb'
    rw [hslab, hc.of_ne hb'.1]
    exact h.room b' hb'.2
  · rw [hslabs, hmem] at hb'
    obtain ⟨free', hfree'⟩ := h.free b' hb'.2
    refine ⟨free', hfree'.congr (by rw [hslab, hc.of_ne hb'.1]) (fun y hy => ?_) fun y hy hy' =>
      hfree'.dead y hy (hlive y hy')⟩
    rw [hfp']
    exact hfp y fun hslot => hb'.1 (h.slot_unique hb'.2 hb (hfree'.slots y hy) hslot)
  · rw [hpart, hpartials, h.nodup.mem_erase_iff, hslabs, hmem, hslab, h.partials b', and_assoc]
    exact and_congr_right fun hne => by rw [hc.of_ne hne]
  · rw [hpart, hpartials]
    exact h.nodup.erase b
  · rw [hnr', hpart, hnr]
  · obtain ⟨b', hb', hslot⟩ := h.placed y (hlive y hy)
    have hne : b' ≠ b := fun hbb => hempty y hy (hbb ▸ hslot)
    refine ⟨b', ?_, (isSlot_congr ?_).2 hslot⟩
    · rw [hslabs, hmem]
      exact ⟨hne, hb'⟩
    · rw [hslab, hc.of_ne hne]

include h in
/-- **`kmem_cache_free`** takes an object back from its user. -/
theorem SlabOk.kmemCacheFree (hx : x ∈ live) :
    SlabOk c (kmemCacheFree c s x) (live.erase x) others released := by
  obtain ⟨b, hb, hslot⟩ := h.placed x hx
  obtain ⟨free, hfree⟩ := h.free b hb
  unfold Mm.kmemCacheFree
  rw [h.virtToSlab hb hslot]
  dsimp only
  unfold doSlabFree slabFreeSlow
  have hcpu : ¬ (s.setFreepointer x 0).cpuSlab = some b := fun hsome => by
    have hnone := h.cpuSlab.symm.trans hsome
    cases hnone
  dsimp only
  set t := ((s.setFreepointer x 0).setFreepointer x (s.slab b).freelist).setSlab b
    { s.slab b with freelist := x, inuse := (s.slab b).inuse - 1 } with ht
  have hfp : t.fp = update s.fp x (s.slab b).freelist := update_idem ..
  have hslab : t.slab b = { s.slab b with freelist := x, inuse := (s.slab b).inuse - 1 } :=
    update_self ..
  have hpush := hfree.push hx h.distinct hslot hslab hfp
  have hoff : ∀ y, ¬ IsSlot c s b y → t.fp y = s.fp y := fun y hy => by
    rw [hfp, update_of_ne]
    rintro rfl
    exact hy hslot
  have hc : ∀ t', t'.pages = s.pages → t'.slab = t.slab → t'.slabs = s.slabs → t'.rcu = s.rcu →
      t'.cpuSlab = s.cpuSlab → SlabChange b
        { s.slab b with freelist := x, inuse := (s.slab b).inuse - 1 } s t' :=
    fun t' hp hs hss hr hcp => ⟨hp, hs, hss, hr, hcp, rfl, rfl⟩
  have hlive : ∀ y ∈ live.erase x, y ∈ live := fun y => mem_of_mem_erase
  have hdistinct := h.distinct.erase x
  -- the list of partial slabs has the slab exactly if its free list was not empty
  have hlisted : b ∈ s.partials ↔ (s.slab b).frozen = false ∧ (s.slab b).freelist ≠ 0 := by
    rw [h.partials b]
    simp [hb]
  have hkeep : ((s.slab b).frozen = false → (s.slab b).freelist ≠ 0) →
      SlabOk c t (live.erase x) others released := fun hfull => by
    refine h.change hb (hc t rfl rfl rfl rfl rfl) ⟨_, hpush⟩ hoff
      (fun y hy => .inl (hlive y hy)) hdistinct (fun b' => ?_) h.nodup h.nrPartial
    show b' ∈ s.partials ↔ _
    by_cases hbb : b' = b
    · subst hbb
      rw [hlisted]
      simp only [ne_eq, not_true_eq_false, false_and, true_and, false_or, hslot.ne_zero,
        not_false_eq_true, and_true]
      exact ⟨And.left, fun hf => ⟨hf, hfull hf⟩⟩
    · simp [hbb]
  -- a slab that is full of free objects has none in use
  have hempty : (s.slab b).inuse - 1 = 0 → ∀ y ∈ live.erase x, ¬ IsSlot c s b y :=
    fun hzero y hy hslot' => by
      have hinuse : (t.slab b).inuse = 0 := by
        rw [hslab]
        exact hzero
      exact hpush.dead y (hpush.all_free hinuse ((isSlot_congr (by rw [hslab])).2 hslot')) hy
  split_ifs with hcond hfew hprior hprior
  · have hmem := hlisted.2 ⟨hcond.2, hprior⟩
    refine h.discard hb (hc (t.removePartial b) rfl rfl rfl rfl rfl) hoff hlive hdistinct
      (hempty hfew.1) rfl ?_
    show s.nrPartial - 1 = ((s.partials.erase b).length : ℤ)
    have hpos := length_pos_of_mem hmem
    rw [h.nrPartial, length_erase_of_mem hmem]
    omega
  · have hmem : b ∉ s.partials := fun hmem => hprior (hlisted.1 hmem).2
    exact h.discard hb (hc t rfl rfl rfl rfl rfl) hoff hlive hdistinct (hempty hfew.1)
      (erase_of_not_mem hmem).symm h.nrPartial
  · -- the first free object of the slab
    have hmem : b ∉ s.partials := fun hmem => (hlisted.1 hmem).2 hprior
    have hunfrozen : (s.slab b).frozen = false := hcond.2
    refine h.change hb (hc (t.addPartialTail b) rfl rfl rfl rfl rfl)
      ⟨_, hpush.congr rfl (fun _ _ => rfl) hpush.dead⟩ hoff (fun y hy => .inl (hlive y hy))
      hdistinct (fun b' => ?_) ?_ ?_
    · show b' ∈ s.partials ++ [b] ↔ _
      by_cases hbb : b' = b
      · simp [hbb, hunfrozen, hslot.ne_zero]
      · simp [hbb]
    · exact nodup_append_comm.2 (nodup_cons.2 ⟨hmem, h.nodup⟩)
    · show s.nrPartial + 1 = ((s.partials ++ [b]).length : ℤ)
      rw [h.nrPartial]
      simp
  · exact hkeep fun _ => hprior
  · refine hkeep fun hf => ?_
    by_contra hzero
    exact hcond ⟨.inr hzero, hf⟩

/-! ### Runs -/

include h in
/-- A user writes to its object. -/
theorem SlabOk.store (hx : x ∈ live) (v : ℕ) :
    SlabOk c (s.setFreepointer x v) live others released := by
  refine { h with free := fun b hb => ?_ }
  obtain ⟨free, hfree⟩ := h.free b hb
  refine ⟨free, hfree.congr rfl (fun y hy => update_of_ne ?_ _ _) hfree.dead⟩
  rintro rfl
  exact hfree.dead y hy hx

include h in
/-- A grace period ends. -/
theorem SlabOk.rcuFreeSlab (hb : b ∈ s.rcu) : SlabOk c (rcuFreeSlab s b) live others released := by
  have hperm : (s.slabs ++ s.rcu).Perm (b :: (s.slabs ++ s.rcu.erase b)) :=
    ((perm_cons_erase hb).append_left s.slabs).trans perm_middle
  exact { h with
    booked := h.booked.release ((hperm.map _).append_right others)
    free := fun b hb => (h.free b hb).imp fun _ hf => hf.congr rfl (fun _ _ => rfl) hf.dead }

/-- **Step lemma.** Every step keeps the invariant. -/
theorem SlabOk.step (h : SlabOk c r.state r.live r.others r.released)
    (hstep : SlabStep c r op r') : SlabOk c r'.state r'.live r'.others r'.released := by
  cases hstep with
  | @grant s s' live others released g g' x result ne =>
    have hout := h.alloc g g'
    rw [result] at hout
    cases hout with
    | nothing => exact absurd rfl ne
    | reused _ _ ok | fresh _ _ ok => exact ok
  | @refuse s s' live others released g g' result =>
    have hout := h.alloc g g'
    rw [result] at hout
    cases hout with
    | nothing ok => exact ok
    | reused ne | fresh ne => exact absurd rfl ne
  | free used => exact h.kmemCacheFree used
  | store used => exact h.store used _
  | rcu waiting => exact h.rcuFreeSlab waiting
  | page step => exact h.setPages (h.booked.frame step)

theorem Opened.slabOk (h : Opened r) : SlabOk c r.state r.live r.others r.released := by
  have hblocks : r.state.blocks = [] := by
    unfold blocks
    rw [h.slabs, h.rcu]
    rfl
  refine ⟨by rw [hblocks]; exact h.pages, h.cpuSlab, ?_, ?_, fun b => ?_, ?_, ?_, ?_, ?_⟩
  · simp [h.slabs]
  · simp [h.slabs]
  · simp [h.partials, h.slabs]
  · simp [h.partials]
  · simp [h.partials, h.nrPartial]
  · simp [h.live]
  · simp [h.live]

/-- The first object of the cache of the nodes. -/
theorem Opened.early {n : ℕ} (h : Opened ⟨s, [], others, released⟩)
    (htwo : 2 ≤ c.oo.objects ∧ 2 ≤ c.ooMin.objects)
    (hres : earlyKmemCacheNodeAlloc c s g g' = some (n, s')) : SlabOk c s' [n] others released := by
  have hok : SlabOk c s [] others released := h.slabOk
  have hspec := allocateSlab_spec c s g g'
  unfold earlyKmemCacheNodeAlloc at hres
  generalize allocateSlab c s g g' = res at hspec hres
  cases hspec with
  | nothing booked => cases hres
  | @slab pages b oo booked order size =>
    have hobj : 2 ≤ oo.objects := by
      rcases size with rfl | rfl
      · exact htwo.1
      · exact htwo.2
    obtain ⟨k, hk⟩ : ∃ k, oo.objects - 1 = k + 1 := ⟨oo.objects - 2, by omega⟩
    set t := setupSlab c { s with pages := pages, slabs := b :: s.slabs } b oo with ht
    have hslab : t.slab b = ⟨oo.order, oo.objects, slabAddress b, oo.objects, true⟩ :=
      update_self ..
    have hlist : (t.slab b).freelist = slabAddress b := by rw [hslab]
    have hlinked : Linked 0 t.fp (slabAddress b) (slotsFrom c.size (k + 1) (slabAddress b)) := by
      rw [← hk]
      exact linked_initFreelist c.size_pos (slabAddress_ne_zero b)
    have hnodup := nodup_cons.1
      (nodup_slotsFrom (n := k + 1) (p := slabAddress b) c.size_pos)
    obtain ⟨-, -, hrest⟩ := hlinked
    have hnext : t.fp (slabAddress b) ≠ 0 := by
      rw [Ne, hrest.eq_null_iff]
      cases k <;> nofun
    have hmem : ∀ y ∈ slotsFrom c.size (k + 1) (slabAddress b),
        ∃ i < oo.objects, y = slabAddress b + i * c.size := fun y hy =>
      (mem_slotsFrom_iff order).1 (by rwa [hk])
    have hres : some ((t.slab b).freelist, (t.setSlab b { t.slab b with
        freelist := t.fp (t.slab b).freelist, inuse := 1, frozen := false }).addPartialHead b)
          = some (n, s') := hres
    rw [hlist] at hres
    cases hres
    set t' := (t.setSlab b { t.slab b with
      freelist := t.fp (slabAddress b), inuse := 1, frozen := false }).addPartialHead b
    have hslab' : t'.slab b = ⟨oo.order, oo.objects, t.fp (slabAddress b), 1, false⟩ := by
      show update t.slab b _ b = _
      rw [update_self, hslab]
    have hfree : FreeObjects c t' ([slabAddress b] ++ []) b
        (slotsFrom c.size k (slabAddress b + c.size)) := by
      refine ⟨by rw [hslab']; exact hrest, hnodup.2, fun y hy => ?_, fun y hy hlive => ?_, ?_⟩
      · unfold IsSlot
        rw [hslab']
        exact hmem y (mem_cons_of_mem _ hy)
      · obtain rfl : y = slabAddress b := by simpa using hlive
        exact hnodup.1 hy
      · rw [hslab', length_slotsFrom]
        dsimp only
        omega
    refine (hok.join t' ⟨oo.order, oo.objects, t.fp (slabAddress b), 1, false⟩ [slabAddress b] order
      booked ⟨rfl, rfl⟩ rfl ?_ rfl rfl rfl rfl ⟨_, hfree⟩ (fun y hy => ⟨0, ?_, ?_⟩) (by simp)
      (fun b' => ?_) ?_ ?_).2
    · show update t.slab b _ = _
      rw [hslab, ht, setupSlab]
      simp
    · rw [hslab']
      exact order.pos
    · simpa using hy
    · show b' ∈ b :: s.partials ↔ _
      simp [hnext, or_comm]
    · show (b :: s.partials).Nodup
      rw [h.partials]
      simp
    · show s.nrPartial + 1 = ((b :: s.partials).length : ℤ)
      rw [h.partials, h.nrPartial]
      rfl

theorem Start.slabOk (h : Start c r) : SlabOk c r.state r.live r.others r.released := by
  cases h with
  | opened fresh => exact fresh.slabOk
  | early fresh two result => exact fresh.early two result

theorem slabOk_of_run {ops : List SlabOp} (h : Start c r) (hrun : Lib.Run (SlabStep c) r ops r') :
    SlabOk c r'.state r'.live r'.others r'.released :=
  hrun.invariant (I := fun r => SlabOk c r.state r.live r.others r.released)
    (fun _ _ _ hok hstep => hok.step hstep) h.slabOk

/-! ### Safety -/

/-- **The objects in use** are different slots of the slabs of the cache, whose pages are handed out
to the cache. -/
structure ObjectsSafe (c : KmemCache) (r : SlabRun) : Prop where
  distinct : r.live.Nodup
  slots : ∀ x ∈ r.live, ∃ b ∈ r.state.slabs, IsSlot c r.state b x ∧
    slabAddress b ≤ x ∧ x + c.size ≤ slabAddress b + pageSize * 2 ^ (r.state.slab b).order
  disjoint : ∀ x ∈ r.live, ∀ y ∈ r.live, x ≠ y → x + c.size ≤ y ∨ y + c.size ≤ x
  held : ∀ b ∈ r.state.slabs, Disjoint (frames (r.state.slab b).order b)
    (r.state.pages.freeFrames + heldFrames r.others)

/-- Slots do not overlap. -/
theorem IsSlot.disjoint (hx : IsSlot c s b x) (hy : IsSlot c s b y) (hne : x ≠ y) :
    x + c.size ≤ y ∨ y + c.size ≤ x := by
  obtain ⟨i, -, rfl⟩ := hx
  obtain ⟨j, -, rfl⟩ := hy
  rcases lt_trichotomy i j with hij | rfl | hij
  · have hle : (i + 1) * c.size ≤ j * c.size := mul_le_mul_right _ hij
    rw [succ_mul] at hle
    omega
  · exact absurd rfl hne
  · have hle : (j + 1) * c.size ≤ i * c.size := mul_le_mul_right _ hij
    rw [succ_mul] at hle
    omega

/-- Blocks of pages in different places do not overlap. -/
theorem disjoint_of_inBlocks {o o' : ℕ} (hd : Disjoint (frames o b) (frames o' b')) :
    slabAddress b + pageSize * 2 ^ o ≤ slabAddress b' ∨
      slabAddress b' + pageSize * 2 ^ o' ≤ slabAddress b := by
  have hcases : b + 2 ^ o ≤ b' ∨ b' + 2 ^ o' ≤ b := by
    by_contra hno
    push Not at hno
    rcases le_total b b' with hle | hle
    · exact Multiset.disjoint_left.1 hd (Lib.mem_frames.2 ⟨hle, hno.1⟩)
        (Lib.start_mem_frames _ _)
    · exact Multiset.disjoint_left.1 hd (Lib.start_mem_frames _ _)
        (Lib.mem_frames.2 ⟨hle, hno.2⟩)
  unfold slabAddress
  have hpages : ∀ p q n : ℕ, p + n ≤ q → p * pageSize + pageSize * n ≤ q * pageSize := by
    intro p q n hle
    rw [mul_comm pageSize, ← add_mul]
    exact mul_le_mul_right _ hle
  exact hcases.imp
    (fun hle => by have := hpages _ _ _ hle; omega) fun hle => by have := hpages _ _ _ hle; omega

theorem SlabOk.objectsSafe (h : SlabOk c r.state r.live r.others r.released) : ObjectsSafe c r := by
  refine ⟨h.distinct, fun x hx => ?_, fun x hx y hy hne => ?_, fun b hb => ?_⟩
  · obtain ⟨b, hb, hslot⟩ := h.placed x hx
    exact ⟨b, hb, hslot, hslot.bounds (h.room b hb).2⟩
  · obtain ⟨b, hb, hslot⟩ := h.placed x hx
    obtain ⟨b', hb', hslot'⟩ := h.placed y hy
    by_cases hbb : b = b'
    · subst hbb
      exact hslot.disjoint hslot' hne
    · have hdis := h.blocks_disjoint (mem_append_left _ hb) (mem_append_left _ hb') hbb
      have hx' := hslot.bounds (h.room b hb).2
      have hy' := hslot'.bounds (h.room b' hb').2
      rcases disjoint_of_inBlocks hdis with hle | hle
      · exact .inl (hx'.2.trans (hle.trans hy'.1))
      · exact .inr (hy'.2.trans (hle.trans hx'.1))
  · have hblock := mem_append_left r.others (mem_blocks (mem_append_left r.state.rcu hb))
    rw [Multiset.disjoint_add_right]
    refine ⟨?_, ?_⟩
    · refine Multiset.disjoint_left.2 fun hf hfree => ?_
      exact Multiset.disjoint_left.1 h.booked.disjoint hfree
        (Multiset.mem_bind.2 ⟨_, hblock, hf⟩)
    · refine Multiset.disjoint_left.2 fun hf hother => ?_
      obtain ⟨o, ho, hf'⟩ := Multiset.mem_bind.1 hother
      exact Multiset.disjoint_left.1 ((pairwise_append.1 h.booked.pairwise).2.2 _
        (mem_blocks (mem_append_left _ hb)) o ho) hf hf'

/-- What a freed object does to the slabs of the cache: they stay, or one that is not frozen leaves
the cache. -/
inductive FreeOutcome (s s' : SlabState) : Prop
  | kept (slabs : s'.slabs = s.slabs) (rcu : s'.rcu = s.rcu)
  | discarded {b : ℕ} (mem : b ∈ s.slabs) (frozen : (s.slab b).frozen = false)
      (slabs : s'.slabs = s.slabs.erase b) (rcu : s'.rcu = s.rcu ∨ s'.rcu = b :: s.rcu)

theorem discardSlab_rcu (c : KmemCache) (s : SlabState) (b : ℕ) :
    (discardSlab c s b).rcu = s.rcu ∨ (discardSlab c s b).rcu = b :: s.rcu := by
  unfold discardSlab
  split_ifs
  · exact .inr rfl
  · exact .inl rfl

theorem slabFreeSlow_outcome (c : KmemCache) (hb : b ∈ s.slabs) (x : ℕ) :
    FreeOutcome s (slabFreeSlow c s b x) ∧
      ∀ b', ((slabFreeSlow c s b x).slab b').order = (s.slab b').order ∧
        ((slabFreeSlow c s b x).slab b').frozen = (s.slab b').frozen := by
  have hsame : ∀ sl b', sl.order = (s.slab b).order → sl.frozen = (s.slab b).frozen →
      (update s.slab b sl b').order = (s.slab b').order ∧
        (update s.slab b sl b').frozen = (s.slab b').frozen :=
    fun sl b' horder hfrozen => by
      by_cases hbb : b' = b
      · rw [hbb, update_self]
        exact ⟨horder, hfrozen⟩
      · rw [update_of_ne hbb]
        exact ⟨rfl, rfl⟩
  unfold slabFreeSlow
  dsimp only
  split_ifs with hloose
  iterate 2
    · refine ⟨.discarded hb hloose.2 (discardSlab_fields c _ b).1 (discardSlab_rcu c _ b),
        fun b' => ?_⟩
      rw [(discardSlab_fields c _ b).2.1]
      exact hsame _ b' rfl rfl
  all_goals exact ⟨.kept rfl rfl, fun b' => hsame _ b' rfl rfl⟩

/-- `kmem_cache_free` makes no slab. -/
theorem kmemCacheFree_outcome (c : KmemCache) (s : SlabState) (x : ℕ) :
    FreeOutcome s (kmemCacheFree c s x) ∧
      ∀ b, ((kmemCacheFree c s x).slab b).order = (s.slab b).order ∧
        ((kmemCacheFree c s x).slab b).frozen = (s.slab b).frozen := by
  unfold kmemCacheFree doSlabFree
  split
  · exact ⟨.kept rfl rfl, fun _ => ⟨rfl, rfl⟩⟩
  case h_2 b hfound =>
    split_ifs
    · exact ⟨.kept rfl rfl, fun _ => ⟨rfl, rfl⟩⟩
    · have hb : b ∈ (s.setFreepointer x 0).slabs := mem_of_find?_eq_some hfound
      obtain ⟨hout, hsame⟩ := slabFreeSlow_outcome c hb x
      refine ⟨?_, hsame⟩
      cases hout with
      | kept slabs rcu => exact .kept slabs rcu
      | discarded mem frozen slabs rcu => exact .discarded mem frozen slabs rcu

/-- In a step in which a slab leaves the cache no slab joins it. -/
theorem SlabStep.slabs_subset (h : SlabOk c r.state r.live r.others r.released)
    (hstep : SlabStep c r op r') (hb : b ∈ r.state.slabs ++ r.state.rcu)
    (hgone : b ∉ r'.state.slabs ++ r'.state.rcu) :
    r'.state.slabs ⊆ r.state.slabs ∧
      ∀ b', (r'.state.slab b').order = (r.state.slab b').order := by
  cases hstep with
  | @grant s s' live others released g g' x result ne =>
    have hout := h.alloc g g'
    rw [result] at hout
    refine absurd ?_ hgone
    cases hout with
    | nothing => exact absurd rfl ne
    | reused _ _ _ slabs rcu =>
      rw [slabs, rcu]
      exact hb
    | fresh _ _ _ slabs rcu =>
      rw [slabs, rcu]
      exact mem_cons_of_mem _ hb
  | @refuse s s' live others released g g' result =>
    have hout := h.alloc g g'
    rw [result] at hout
    cases hout with
    | nothing _ slabs rcu =>
      rw [slabs, rcu] at hgone
      exact absurd hb hgone
    | reused ne | fresh ne => exact absurd rfl ne
  | free used =>
    obtain ⟨hout, hsame⟩ := kmemCacheFree_outcome c _ _
    refine ⟨?_, fun b' => (hsame b').1⟩
    cases hout with
    | kept slabs => exact slabs ▸ List.Subset.refl _
    | discarded _ _ slabs => exact slabs ▸ erase_subset
  | store | rcu | page => exact ⟨List.Subset.refl _, fun _ => rfl⟩

/-- **No object is handed out twice.** In every state of a run the objects in use are safe, the next
object that is handed out is not in use, and a slab whose pages are freed has no object in use. -/
theorem slab_objects_safe {ops : List SlabOp} (h : Start c r)
    (hrun : Lib.Run (SlabStep c) r ops r') :
    ObjectsSafe c r' ∧
      (∀ g g' x s', slabAllocNode c r'.state g g' = (x, s') → x ≠ 0 → x ∉ r'.live) ∧
      ∀ op r'', SlabStep c r' op r'' → ∀ b ∈ r'.state.slabs ++ r'.state.rcu,
        b ∉ r''.state.slabs ++ r''.state.rcu → ∀ x ∈ r''.live, ¬ InBlock r'.state b x := by
  have hok := slabOk_of_run h hrun
  refine ⟨hok.objectsSafe, fun g g' x s' hres hne => ?_, fun op r'' hstep b hb hgone x hx hin => ?_⟩
  · have hout := hok.alloc g g'
    rw [hres] at hout
    cases hout with
    | nothing => exact absurd rfl hne
    | reused _ dead | fresh _ dead => exact dead
  · -- the object lies in a slab that stays, which has been there before
    have hok' := hok.step hstep
    obtain ⟨hsub, horder⟩ := hstep.slabs_subset hok hb hgone
    obtain ⟨b', hb', hslot⟩ := hok'.placed x hx
    have hin' := hslot.inBlock (hok'.room b' hb').2
    unfold InBlock at hin'
    rw [horder] at hin'
    have heq := hok.block_unique hb (mem_append_left _ (hsub hb')) hin hin'
    exact hgone (mem_append_left _ (heq ▸ hb'))

/-! ### A cache with pages of its own -/

/-- A cache of objects of one kilobyte, four on a page. -/
def smallCache : KmemCache where
  size := 1024
  order := 0
  minOrder := 0
  minPartial := 5
  typesafeByRcu := false
  size_pos := by decide
  fits := by decide
  minFits := by decide

/-- The cache has just been opened, and the page allocator has sixteen pages. -/
def openedCache : SlabRun where
  state := {
    pages := freePagesCore (bootPages fun _ _ => 0) 0 4
    slab := fun _ => ⟨0, 0, 0, 0, false⟩
    slabs := []
    rcu := []
    partials := []
    nrPartial := 0
    fp := fun _ => 0
    cpuSlab := none
    cpuFreelist := 0 }
  live := []
  others := []
  released := frames 4 0

theorem openedCache_opened : Opened openedCache where
  pages := by
    have hblank : Blank ⟨bootPages fun _ _ => 0, [], 0⟩ :=
      ⟨fun _ => rfl, fun _ _ => rfl, fun _ => rfl, rfl, rfl⟩
    have hcore := hblank.booked.core (p := 0) (o := 4) (by decide) (by decide)
      (Multiset.disjoint_left.2 fun _ => Multiset.notMem_zero _)
    rwa [add_zero] at hcore
  slabs := rfl
  rcu := rfl
  partials := rfl
  nrPartial := rfl
  cpuSlab := rfl
  live := rfl

/-- The cache after an allocation. -/
def afterAlloc (r : SlabRun) : SlabRun :=
  let res := slabAllocNode smallCache r.state {} {}
  { r with state := res.2, live := res.1 :: r.live }

theorem afterAlloc_step {r : SlabRun} (h : (slabAllocNode smallCache r.state {} {}).1 ≠ 0) :
    SlabStep smallCache r (.alloc {} {}) (afterAlloc r) :=
  .grant rfl h

/-- Two objects are allocated. -/
theorem run_two_objects : Lib.Run (SlabStep smallCache) openedCache
    [.alloc {} {}, .alloc {} {}] (afterAlloc (afterAlloc openedCache)) := by
  refine .cons (afterAlloc_step ?_) (.cons (afterAlloc_step ?_) .nil) <;> decide +kernel

theorem slab_objects_safe_two :
    Lib.Run (SlabStep smallCache) openedCache [.alloc {} {}, .alloc {} {}]
      (afterAlloc (afterAlloc openedCache)) ∧
    ObjectsSafe smallCache (afterAlloc (afterAlloc openedCache)) :=
  ⟨run_two_objects, (slab_objects_safe (.opened openedCache_opened) run_two_objects).1⟩

end MinimalKernel.Mm
