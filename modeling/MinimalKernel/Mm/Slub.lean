import MinimalKernel.Mm.PageAlloc

/-!
# The slab allocator

The model of `mm/slub.c` for one cache on one cpu: allocation by `slab_alloc_node` down to
`allocate_slab`, and freeing by `kmem_cache_free` down to `__slab_free` and `__free_slab`. Slabs
come from the page allocator and go back to it.

The free objects of a slab are linked by pointers inside of the objects; `fp` is the word of each
object that holds this pointer while the object is free. A user of an object may write what it
likes there.

The per-cpu slab is part of the model, but no function of the file sets it: `___slab_alloc` takes
all the free objects of a slab and returns the first one; the others are on no list any more.

The debugging options, the memory control groups and the marks for pages from the reserves
(`pfmemalloc`), which the page allocator never sets, are left out. So is the clearing of objects,
which writes to the object that has just been allocated only.

## Main definitions

* `KmemCache`, `Slab`, `SlabState` — a cache, a slab, and the state of the allocator
* `allocateSlab`, `getPartial`, `slabAllocSlow`, `slabAllocNode` — allocation
* `slabFreeSlow`, `discardSlab`, `kmemCacheFree` — freeing
-/

namespace MinimalKernel.Mm

open Function

/-! ### The state of a cache -/

/-- `PAGE_OFFSET`. -/
def pageOffset : ℕ := 0xC0000000

/-- `slab_address`, of the slab that starts at the page frame `b`. -/
def slabAddress (b : ℕ) : ℕ := pageOffset + b * pageSize

/-- `struct kmem_cache_order_objects`. -/
structure OrderObjects where
  order : ℕ
  objects : ℕ
  deriving DecidableEq, Repr

/-- `oo_make`. -/
def ooMake (order size : ℕ) : OrderObjects := ⟨order, pageSize * 2 ^ order / size⟩

/-- The part of `struct kmem_cache` that stays as it is. The orders are those of `oo` and `min`; a
slab of either order has room for an object. -/
structure KmemCache where
  size : ℕ
  order : ℕ
  minOrder : ℕ
  minPartial : ℕ
  typesafeByRcu : Bool
  size_pos : 0 < size
  fits : size ≤ pageSize * 2 ^ order
  minFits : size ≤ pageSize * 2 ^ minOrder

variable (c : KmemCache)

def KmemCache.oo : OrderObjects := ooMake c.order c.size

/-- The field `min`. -/
def KmemCache.ooMin : OrderObjects := ooMake c.minOrder c.size

/-- `struct slab`, with the order of its pages. -/
structure Slab where
  order : ℕ
  objects : ℕ
  freelist : ℕ
  inuse : ℤ
  frozen : Bool
  deriving DecidableEq, Repr

/-- The state of a cache, of its slabs and of the page allocator. Slabs are named by their first
page frame; the pointer `0` is `NULL`. -/
structure SlabState where
  pages : PageAlloc
  slab : ℕ → Slab
  /-- The slabs of the cache. -/
  slabs : List ℕ
  /-- The slabs that wait for the end of a grace period before their pages are freed. -/
  rcu : List ℕ
  /-- The list `n->partial` of the node. -/
  partials : List ℕ
  nrPartial : ℤ
  /-- The word of an object that holds the pointer to the next free object. -/
  fp : ℕ → ℕ
  /-- `cpu_slab->slab`. -/
  cpuSlab : Option ℕ
  /-- `cpu_slab->freelist`. -/
  cpuFreelist : ℕ

namespace SlabState

variable (s : SlabState)

def setSlab (b : ℕ) (sl : Slab) : SlabState := { s with slab := update s.slab b sl }

/-- `set_freepointer`. -/
def setFreepointer (x p : ℕ) : SlabState := { s with fp := update s.fp x p }

/-- `add_partial` with `DEACTIVATE_TO_TAIL`. -/
def addPartialTail (b : ℕ) : SlabState :=
  { s with nrPartial := s.nrPartial + 1, partials := s.partials ++ [b] }

/-- `add_partial` with `DEACTIVATE_TO_HEAD`. -/
def addPartialHead (b : ℕ) : SlabState :=
  { s with nrPartial := s.nrPartial + 1, partials := b :: s.partials }

def removePartial (b : ℕ) : SlabState :=
  { s with partials := s.partials.erase b, nrPartial := s.nrPartial - 1 }

end SlabState

/-! ### New slabs -/

variable (s : SlabState)

/-- `alloc_slab_page`: the page is marked as a slab. -/
def allocSlabPage (g : Gfp) (oo : OrderObjects) : Option ℕ × SlabState :=
  match allocPages s.pages g oo.order with
  | (none, pages) => (none, { s with pages := pages })
  | (some b, pages) => (some b, { s with pages := pages, slabs := b :: s.slabs })

/-- The loop of `allocate_slab` that links the objects behind `p`. -/
def initFreelist (size : ℕ) : ℕ → ℕ → (ℕ → ℕ) → ℕ → ℕ
  | 0, p, fp => update fp p 0
  | n + 1, p, fp => initFreelist size n (p + size) (update fp p (p + size))

variable (s : SlabState)

/-- The part of `allocate_slab` after the pages have been allocated. -/
def setupSlab (b : ℕ) (oo : OrderObjects) : SlabState :=
  { s with
    fp := initFreelist c.size (oo.objects - 1) (slabAddress b) s.fp
    slab := update s.slab b
      ⟨oo.order, oo.objects, slabAddress b, oo.objects, true⟩ }

/-- `allocate_slab`; `g` and `g'` are the flags of the two attempts. -/
def allocateSlab (g g' : Gfp) : Option ℕ × SlabState :=
  match allocSlabPage s g c.oo with
  | (some b, s) => (some b, setupSlab c s b c.oo)
  | (none, s) =>
    match allocSlabPage s g' c.ooMin with
    | (some b, s) => (some b, setupSlab c s b c.ooMin)
    | (none, s) => (none, s)

/-! ### Allocation -/

/-- `acquire_slab`: with `mode` all the free objects are taken. -/
def acquireSlab (b : ℕ) (mode : Bool) : ℕ × SlabState :=
  let sl := s.slab b
  let new := if mode then { sl with inuse := sl.objects, freelist := 0 } else sl
  (sl.freelist, (s.setSlab b { new with frozen := true }).removePartial b)

/-- `get_partial` with `get_partial_node`: the loop ends with the first slab. -/
def getPartial : ℕ × SlabState :=
  if s.nrPartial = 0 then (0, s)
  else
    match s.partials with
    | [] => (0, s)
    | b :: _ => acquireSlab s b true

/-- `___slab_alloc`. -/
def slabAllocSlow (g g' : Gfp) : ℕ × SlabState :=
  match getPartial s with
  | (freelist, s) =>
    if freelist ≠ 0 then (freelist, s)
    else
      match allocateSlab c s g g' with
      | (none, s) => (0, s)
      | (some b, s) => ((s.slab b).freelist, s.setSlab b { s.slab b with freelist := 0 })

/-- `slab_alloc_node`; the result `0` is `NULL`. -/
def slabAllocNode (g g' : Gfp) : ℕ × SlabState :=
  if s.cpuFreelist = 0 ∨ s.cpuSlab = none then slabAllocSlow c s g g'
  else (s.cpuFreelist, { s with cpuFreelist := s.fp s.cpuFreelist })

/-- `early_kmem_cache_node_alloc`: the first object of the cache of the nodes is taken from its
first slab by hand. -/
def earlyKmemCacheNodeAlloc (g g' : Gfp) : Option (ℕ × SlabState) :=
  match allocateSlab c s g g' with
  | (none, _) => none
  | (some b, s) =>
    let n := (s.slab b).freelist
    some (n, (s.setSlab b { s.slab b with
      freelist := s.fp n, inuse := 1, frozen := false }).addPartialHead b)

/-! ### Freeing -/

/-- `__free_slab`. -/
def freeSlabNow (b : ℕ) : SlabState :=
  { s with pages := freePages s.pages b (s.slab b).order }

/-- `discard_slab` with `free_slab`. -/
def discardSlab (b : ℕ) : SlabState :=
  let s := { s with slabs := s.slabs.erase b }
  if c.typesafeByRcu then { s with rcu := b :: s.rcu } else freeSlabNow s b

/-- `rcu_free_slab`, at the end of the grace period. -/
def rcuFreeSlab (b : ℕ) : SlabState :=
  freeSlabNow { s with rcu := s.rcu.erase b } b

/-- `__slab_free`, for one object. -/
def slabFreeSlow (b x : ℕ) : SlabState :=
  let old := s.slab b
  let prior := old.freelist
  let inuse := old.inuse - 1
  let s := (s.setFreepointer x prior).setSlab b { old with freelist := x, inuse := inuse }
  if (inuse = 0 ∨ prior = 0) ∧ old.frozen = false then
    if inuse = 0 ∧ (c.minPartial : ℤ) ≤ s.nrPartial then
      discardSlab c (if prior ≠ 0 then s.removePartial b else s) b
    else if prior = 0 then s.addPartialTail b
    else s
  else s

/-- `do_slab_free`. -/
def doSlabFree (b x : ℕ) : SlabState :=
  if s.cpuSlab = some b then { s.setFreepointer x s.cpuFreelist with cpuFreelist := x }
  else slabFreeSlow c s b x

/-- `virt_to_slab`. -/
def virtToSlab (x : ℕ) : Option ℕ :=
  s.slabs.find? fun b => slabAddress b ≤ x ∧ x < slabAddress b + pageSize * 2 ^ (s.slab b).order

/-- `kmem_cache_free`; `slab_free_freelist_hook` overwrites the pointer of the object first. -/
def kmemCacheFree (x : ℕ) : SlabState :=
  match virtToSlab s x with
  | none => s
  | some b => doSlabFree c (s.setFreepointer x 0) b x

end MinimalKernel.Mm
