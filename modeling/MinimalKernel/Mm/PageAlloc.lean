import MinimalKernel.Basic
import Mathlib.Data.Finset.Insert
import Mathlib.Data.Fintype.Defs

/-!
# The page allocator

The model of `mm/page_alloc.c`: the free lists of the zones, the per-cpu lists, and the paths by
which a block of pages leaves them (`__alloc_pages`) and comes back (`__free_pages`,
`__free_pages_core`). Blocks that are freed are not merged, the per-cpu lists are never drained
(`free_pcppages_bulk` is empty), and a fallback moves one block to the list of the wanted type.

There is one cpu, and the counters of a zone are exact. The isolation of page blocks, the
contiguous memory areas and the memory control groups are compiled out.

## Main definitions

* `PageAlloc` — the state of the allocator, with the bytes of all the pages
* `Gfp`, `AllocFlags` — the bits of a request that are read
* `expand`, `rmqueueSmallest`, `rmqueueFallback`, `rmqueueBuddy` — the free lists of a zone
* `rmqueueBulk`, `rmqueuePcplist` — the per-cpu lists
* `rmqueue`, `getPageFromFreelist`, `allocPages` — the allocation path
* `freePages`, `freePagesCore` — the ways back
-/

namespace MinimalKernel.Mm

open Function

/-! ### The state of the allocator -/

def maxOrder : ℕ := 11
def pageAllocCostlyOrder : ℕ := 3
def migratePcptypes : ℕ := 3
def nrPcpLists : ℕ := migratePcptypes * (pageAllocCostlyOrder + 1)

/-- `enum zone_type`. -/
inductive ZoneType
  | normal
  | movable
  deriving DecidableEq, Repr

instance : Fintype ZoneType := ⟨{.normal, .movable}, fun z => by cases z <;> decide⟩

def ZoneType.idx : ZoneType → ℕ
  | normal => 0
  | movable => 1

/-- `enum migratetype`. -/
inductive MigrateType
  | unmovable
  | movable
  | reclaimable
  | highatomic
  deriving DecidableEq, Repr

instance : Fintype MigrateType :=
  ⟨{.unmovable, .movable, .reclaimable, .highatomic}, fun mt => by cases mt <;> decide⟩

def MigrateType.idx : MigrateType → ℕ
  | unmovable => 0
  | movable => 1
  | reclaimable => 2
  | highatomic => 3

/-- `enum zone_watermarks`. -/
inductive Wmark
  | min
  | low
  | high
  deriving DecidableEq, Repr

/-- A list head of a zone: `free_area[order].free_list[mt]`, or `lists[pindex]` of the per-cpu
pages. -/
inductive Place
  | buddy (z : ZoneType) (order : ℕ) (mt : MigrateType)
  | pcp (z : ZoneType) (pindex : ℕ)
  deriving DecidableEq, Repr

/-- What the allocator keeps in a `struct page`: `PageBuddy`, `page_private`, the reference count
and `PageHead`. -/
structure Page where
  buddy : Bool
  priv : ℕ
  count : ℤ
  head : Bool
  deriving DecidableEq, Repr

/-- The state of the page allocator, and the bytes of the pages. From `pageZone` on, the fields
are not changed by the functions of this file. -/
structure PageAlloc where
  lists : Place → List ℕ
  /-- `free_area[order].nr_free`. -/
  nrFree : ZoneType → ℕ → ℤ
  /-- The counter `NR_FREE_PAGES` of a zone. -/
  nrFreePages : ZoneType → ℤ
  managedPages : ZoneType → ℤ
  pcpCount : ZoneType → ℤ
  page : ℕ → Page
  data : ℕ → ℕ → BitVec 8
  pageZone : ℕ → ZoneType
  /-- `get_pfnblock_migratetype`. -/
  pageblockType : ℕ → MigrateType
  zonelist : List ZoneType
  watermark : ZoneType → Wmark → ℕ
  watermarkBoost : ZoneType → ℕ
  lowmemReserve : ZoneType → ZoneType → ℕ
  pcpBatch : ZoneType → ℕ
  /-- `page_group_by_mobility_disabled`. -/
  mobilityDisabled : Bool
  /-- `current->flags & PF_MEMALLOC_PIN`. -/
  memallocPin : Bool
  /-- `rt_task(current) && in_task()`. -/
  rtTask : Bool

/-- The bits of a `gfp_t` that the allocator reads. No caller asks for both kinds of mobility:
`gfp_migratetype` warns about it. -/
structure Gfp where
  movable : Bool := false
  reclaimable : Bool := false
  highmem : Bool := false
  high : Bool := false
  atomic : Bool := false
  nomemalloc : Bool := false
  comp : Bool := false
  zero : Bool := false
  mobility_excl : ¬ (movable = true ∧ reclaimable = true) := by decide

/-- The bits of `alloc_flags` that the allocator reads. -/
structure AllocFlags where
  wmark : Wmark
  noWatermarks : Bool := false
  oom : Bool := false
  harder : Bool := false
  high : Bool := false

namespace PageAlloc

variable (s : PageAlloc)

def setList (k : Place) (l : List ℕ) : PageAlloc :=
  { s with lists := update s.lists k l }

variable (p : ℕ)

def setPage (pg : Page) : PageAlloc := { s with page := update s.page p pg }

variable (z : ZoneType) (order : ℕ) (n : ℤ)

def addNrFree : PageAlloc :=
  let area := update (s.nrFree z) order (s.nrFree z order + n)
  { s with nrFree := update s.nrFree z area }

/-- `__mod_zone_freepage_state`, and `__mod_zone_page_state` for `NR_FREE_PAGES`. -/
def modZoneFreepageState : PageAlloc :=
  { s with nrFreePages := update s.nrFreePages z (s.nrFreePages z + n) }

/-- The loop of `__free_pages_core` over the pages of a block. -/
def resetCounts (p order : ℕ) : PageAlloc :=
  let reset := fun q =>
    if p ≤ q ∧ q < p + 2 ^ order then { s.page q with count := 0 } else s.page q
  { s with page := reset }

def addManagedPages : PageAlloc :=
  { s with managedPages := update s.managedPages z (s.managedPages z + n) }

def addPcpCount : PageAlloc :=
  { s with pcpCount := update s.pcpCount z (s.pcpCount z + n) }

@[simp] theorem setList_lists (k : Place) (l : List ℕ) :
    (s.setList k l).lists = update s.lists k l := rfl

@[simp] theorem setList_page (k : Place) (l : List ℕ) : (s.setList k l).page = s.page := rfl

@[simp] theorem setPage_lists (pg : Page) : (s.setPage p pg).lists = s.lists := rfl

@[simp] theorem setPage_page (pg : Page) :
    (s.setPage p pg).page = update s.page p pg := rfl

@[simp] theorem addNrFree_lists :
    (s.addNrFree z order n).lists = s.lists := rfl

@[simp] theorem addNrFree_page :
    (s.addNrFree z order n).page = s.page := rfl

def setBuddyOrder (p order : ℕ) : PageAlloc :=
  s.setPage p { s.page p with buddy := true, priv := order }

def addToFreeList (z : ZoneType) (order : ℕ) (mt : MigrateType) : PageAlloc :=
  (s.setList (.buddy z order mt) (p :: s.lists (.buddy z order mt))).addNrFree z order 1

def addToFreeListTail (z : ZoneType) (order : ℕ) (mt : MigrateType) : PageAlloc :=
  (s.setList (.buddy z order mt) (s.lists (.buddy z order mt) ++ [p])).addNrFree z order 1

/-- `move_to_free_list`; `old` is the list on which the page is linked. -/
def moveToFreeList (old : Place) (p : ℕ) (z : ZoneType) (order : ℕ) (mt : MigrateType) :
    PageAlloc :=
  let s := s.setList old ((s.lists old).erase p)
  s.setList (.buddy z order mt) (s.lists (.buddy z order mt) ++ [p])

/-- `del_page_from_free_list`, for a page on the list of the type `mt`. -/
def delPageFromFreeList (z : ZoneType) (order : ℕ) (mt : MigrateType) : PageAlloc :=
  let s := s.setList (.buddy z order mt) ((s.lists (.buddy z order mt)).erase p)
  let s := s.setPage p { s.page p with buddy := false, priv := 0 }
  s.addNrFree z order (-1)

def getPageFromFreeArea (mt : MigrateType) : Option ℕ :=
  (s.lists (.buddy z order mt)).head?

end PageAlloc

/-! ### The free lists of a zone -/

/-- `expand`: the second halves of a block of order `high` go back to the lists, down to the order
`low`. -/
def expand (z : ZoneType) (p : ℕ) (low : ℕ) (mt : MigrateType) : ℕ → PageAlloc → PageAlloc
  | 0, s => s
  | high + 1, s =>
    if low < high + 1 then
      expand z p low mt high
        ((s.addToFreeList (p + 2 ^ high) z high mt).setBuddyOrder (p + 2 ^ high) high)
    else s

/-- The loop of `__rmqueue_smallest` over the last `rest` orders. -/
def rmqueueSmallestLoop (z : ZoneType) (order : ℕ) (mt : MigrateType) :
    ℕ → PageAlloc → Option ℕ × PageAlloc
  | 0, s => (none, s)
  | rest + 1, s =>
    let current := maxOrder - (rest + 1)
    match s.getPageFromFreeArea z current mt with
    | none => rmqueueSmallestLoop z order mt rest s
    | some p => (some p, expand z p order mt current (s.delPageFromFreeList p z current mt))

variable (s : PageAlloc) (z : ZoneType) (order : ℕ) (mt : MigrateType)

/-- `__rmqueue_smallest`. -/
def rmqueueSmallest : Option ℕ × PageAlloc :=
  rmqueueSmallestLoop z order mt (maxOrder - order) s

/-- `fallbacks`; there is no row for `highatomic`, from which no request starts. -/
def fallbacks : MigrateType → List MigrateType
  | .unmovable => [.reclaimable, .movable]
  | .movable => [.reclaimable, .unmovable]
  | .reclaimable => [.unmovable, .movable]
  | .highatomic => []

/-- `find_suitable_fallback`. -/
def findSuitableFallback : Option MigrateType :=
  if s.nrFree z order = 0 then none
  else (fallbacks mt).find? fun m => s.lists (.buddy z order m) ≠ []

/-- `steal_suitable_fallback`, for a page on the list `old`. -/
def stealSuitableFallback (old : Place) (p : ℕ) (z : ZoneType)
    (startType : MigrateType) : PageAlloc :=
  s.moveToFreeList old p z (s.page p).priv startType

/-- The loop of `__rmqueue_fallback` over the orders below its argument, the largest first. -/
def rmqueueFallbackLoop (s : PageAlloc) (z : ZoneType) (order : ℕ) (start : MigrateType) :
    ℕ → Option PageAlloc
  | 0 => none
  | current + 1 =>
    if current < order then none
    else
      match findSuitableFallback s z current start with
      | none => rmqueueFallbackLoop s z order start current
      | some mt =>
        (s.getPageFromFreeArea z current mt).map fun p =>
          stealSuitableFallback s (.buddy z current mt) p z start

/-- `__rmqueue_fallback`: nothing for `false`. -/
def rmqueueFallback (start : MigrateType) : Option PageAlloc :=
  rmqueueFallbackLoop s z order start maxOrder

/-- `__rmqueue`. The search after a fallback finds the block that was moved
(`rmqueueSmallest_of_fallback`), so that there is no third one. -/
def rmqueueBuddy : Option ℕ × PageAlloc :=
  match rmqueueSmallest s z order mt with
  | (some p, s) => (some p, s)
  | (none, s) =>
    match rmqueueFallback s z order mt with
    | none => (none, s)
    | some s => rmqueueSmallest s z order mt

/-! ### The per-cpu lists -/

/-- `order_to_pindex`. -/
def orderToPindex (order : ℕ) : ℕ := migratePcptypes * order + mt.idx

/-- `pcp_allowed_order`. -/
def pcpAllowedOrder : Bool := order ≤ pageAllocCostlyOrder

/-- The loop of `rmqueue_bulk`; it returns the number of blocks that were moved to the list. -/
def rmqueueBulkLoop (z : ZoneType) (order : ℕ) (k : Place) (mt : MigrateType) :
    ℕ → PageAlloc → ℕ × PageAlloc
  | 0, s => (0, s)
  | count + 1, s =>
    match rmqueueBuddy s z order mt with
    | (none, s) => (0, s)
    | (some p, s) =>
      let r := rmqueueBulkLoop z order k mt count (s.setList k (s.lists k ++ [p]))
      (r.1 + 1, r.2)

/-- `rmqueue_bulk`. -/
def rmqueueBulk (order count : ℕ) (k : Place) (mt : MigrateType) : ℕ × PageAlloc :=
  let r := rmqueueBulkLoop z order k mt count s
  (r.1, r.2.modZoneFreepageState z (-(r.1 * 2 ^ order : ℕ)))

/-- The refill of an empty list in `__rmqueue_pcplist`. -/
def refillPcplist (k : Place) (mt : MigrateType) : PageAlloc :=
  if s.lists k = [] then
    let batch := if 1 < s.pcpBatch z then max (s.pcpBatch z / 2 ^ order) 2 else s.pcpBatch z
    let r := rmqueueBulk s z order batch k mt
    r.2.addPcpCount z (r.1 * 2 ^ order : ℕ)
  else s

/-- `rmqueue_pcplist` with `__rmqueue_pcplist`. -/
def rmqueuePcplist : Option ℕ × PageAlloc :=
  let k := Place.pcp z (orderToPindex mt order)
  let s := refillPcplist s z order k mt
  match s.lists k with
  | [] => (none, s)
  | p :: rest => (some p, (s.setList k rest).addPcpCount z (-2 ^ order))

/-! ### Allocation -/

/-- The search of `rmqueue` for a block that is too large for the per-cpu lists. -/
def rmqueueLarge (flags : AllocFlags) (mt : MigrateType) : Option ℕ × PageAlloc :=
  match if 0 < order ∧ flags.harder then rmqueueSmallest s z order .highatomic else (none, s) with
  | (some p, s) => (some p, s)
  | (none, s) => rmqueueBuddy s z order mt

/-- `rmqueue`. -/
def rmqueue (flags : AllocFlags) (mt : MigrateType) : Option ℕ × PageAlloc :=
  if pcpAllowedOrder order then rmqueuePcplist s z order mt
  else
    match rmqueueLarge s z order flags mt with
    | (none, s) => (none, s)
    | (some p, s) => (some p, s.modZoneFreepageState z (-2 ^ order))

/-- `__zone_watermark_ok`. -/
def zoneWatermarkOk (mark : ℕ) (highest : ZoneType) (flags : AllocFlags) (free : ℤ) : Bool :=
  let min := if flags.high then mark - mark / 2 else mark
  let min := if flags.harder || flags.oom then min - min / 2 else min
  decide ((min : ℤ) + s.lowmemReserve z highest < free)

/-- `zone_watermark_fast`. -/
def zoneWatermarkFast (mark : ℕ) (highest : ZoneType) (flags : AllocFlags) : Bool :=
  zoneWatermarkOk s z mark highest flags (s.nrFreePages z)

/-- `post_alloc_hook`: the bytes of the block are left as they are, `__GFP_ZERO` or not. -/
def postAllocHook (p : ℕ) : PageAlloc :=
  s.setPage p { s.page p with priv := 0, count := 1 }

variable (p order : ℕ) (g : Gfp)

/-- `prep_new_page`. -/
def prepNewPage : PageAlloc :=
  let s := postAllocHook s p
  if order ≠ 0 ∧ g.comp then s.setPage p { s.page p with head := true } else s

/-- The loop of `get_page_from_freelist` over the zones. -/
def getPageFromFreelistLoop (g : Gfp) (order : ℕ) (flags : AllocFlags) (highest : ZoneType)
    (mt : MigrateType) : List ZoneType → PageAlloc → Option ℕ × PageAlloc
  | [], s => (none, s)
  | z :: zones, s =>
    let mark := s.watermark z flags.wmark + s.watermarkBoost z
    if !flags.noWatermarks && !zoneWatermarkFast s z mark highest flags then
      getPageFromFreelistLoop g order flags highest mt zones s
    else
      match rmqueue s z order flags mt with
      | (some p, s) => (some p, prepNewPage s p order g)
      | (none, s) => getPageFromFreelistLoop g order flags highest mt zones s

/-- `gfp_zone`. -/
def gfpZone : ZoneType := if g.movable && g.highmem then .movable else .normal

/-- `gfp_migratetype`. -/
def gfpMigratetype : MigrateType :=
  if s.mobilityDisabled then .unmovable
  else
    match g.movable, g.reclaimable with
    | false, false => .unmovable
    | true, false => .movable
    | false, true => .reclaimable
    | true, true => .highatomic

/-- `get_page_from_freelist`, with the zones and the type that `prepare_alloc_pages` sets. -/
def getPageFromFreelist (order : ℕ) (flags : AllocFlags) : Option ℕ × PageAlloc :=
  getPageFromFreelistLoop g order flags (gfpZone g) (gfpMigratetype s g)
    (s.zonelist.filter fun z => z.idx ≤ (gfpZone g).idx) s

/-- `gfp_to_alloc_flags`. -/
def gfpToAllocFlags : AllocFlags where
  wmark := .min
  high := g.high
  harder := if g.atomic then !g.nomemalloc else s.rtTask

/-- `current_gfp_context`. -/
def currentGfpContext : Gfp :=
  if s.memallocPin then { g with movable := false, mobility_excl := by simp } else g

/-- `__alloc_pages` with `__alloc_pages_slowpath`: one search above the low watermark, and one
above the minimum. -/
def allocPages (order : ℕ) : Option ℕ × PageAlloc :=
  if maxOrder ≤ order then (none, s)
  else
    let g := currentGfpContext s g
    match getPageFromFreelist s g order { wmark := .low } with
    | (some p, s) => (some p, s)
    | (none, s) => getPageFromFreelist s g order (gfpToAllocFlags s g)

/-- `__get_free_pages`, returning the frame of the address. -/
def getFreePages (order : ℕ) : Option ℕ × PageAlloc :=
  allocPages s { g with highmem := false } order

/-- `get_zeroed_page`. -/
def getZeroedPage : Option ℕ × PageAlloc :=
  getFreePages s { g with zero := true } 0

/-- `GFP_HIGHUSER_MOVABLE`. -/
def gfpHighuserMovable : Gfp where
  highmem := true
  movable := true

/-- `alloc_zeroed_user_highpage_movable`: `__folio_alloc` adds `__GFP_COMP`. -/
def allocZeroedUserHighpageMovable : Option ℕ × PageAlloc :=
  allocPages s { gfpHighuserMovable with zero := true, comp := true } 0

/-! ### Freeing -/

/-- `free_pages_prepare`: of the flags that it clears, `PageHead` is modelled. -/
def freePagesPrepare (p : ℕ) : PageAlloc :=
  s.setPage p { s.page p with head := false }

/-- `__free_one_page`. -/
def freeOnePage (p : ℕ) (z : ZoneType) (order : ℕ) (mt : MigrateType) (toTail : Bool) : PageAlloc :=
  let s := (s.modZoneFreepageState z (2 ^ order)).setBuddyOrder p order
  if toTail then s.addToFreeListTail p z order mt else s.addToFreeList p z order mt

/-- `__free_pages_ok`. -/
def freePagesOk (toTail : Bool) : PageAlloc :=
  freeOnePage (freePagesPrepare s p) p (s.pageZone p) order (s.pageblockType p) toTail

/-- `__free_pages_core`. -/
def freePagesCore : PageAlloc :=
  freePagesOk ((s.resetCounts p order).addManagedPages (s.pageZone p) (2 ^ order)) p order true

/-- `free_unref_page_commit`; the call of `free_pcppages_bulk` does nothing. -/
def freeUnrefPageCommit (p : ℕ) (mt : MigrateType) (order : ℕ) : PageAlloc :=
  let k := Place.pcp (s.pageZone p) (orderToPindex mt order)
  (s.setList k (p :: s.lists k)).addPcpCount (s.pageZone p) (2 ^ order)

/-- `free_unref_page`. -/
def freeUnrefPage : PageAlloc :=
  let mt := s.pageblockType p
  let mt := if migratePcptypes ≤ mt.idx then .movable else mt
  freeUnrefPageCommit (freePagesPrepare s p) p mt order

/-- `free_the_page`. -/
def freeThePage : PageAlloc :=
  if pcpAllowedOrder order then freeUnrefPage s p order else freePagesOk s p order false

/-- The loop of `__free_pages` over the parts of a block whose first page is still in use. -/
def freeTails (p : ℕ) : ℕ → PageAlloc → PageAlloc
  | 0, s => s
  | order + 1, s => freeTails p order (freeThePage s (p + 2 ^ order) order)

/-- `__free_pages`. -/
def freePages : PageAlloc :=
  let s := s.setPage p { s.page p with count := (s.page p).count - 1 }
  if (s.page p).count = 0 then freeThePage s p order
  else if (s.page p).head then s
  else freeTails p order s

end MinimalKernel.Mm
