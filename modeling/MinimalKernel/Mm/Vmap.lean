import MinimalKernel.Align
import MinimalKernel.Lib.Except
import MinimalKernel.Lib.RbAugmented

/-!
# The areas of the vmalloc address space

`mm/vmalloc.c` keeps the free ranges of the vmalloc address space in a red-black tree whose nodes
know the largest size below them, and in a list in the same order; the allocated ranges are kept in
a second tree and list without that number. An allocation cuts a piece off a free area, and a
release puts it back and joins it with the areas that it touches.

An area is named by a number. `kmem_cache_alloc` gives a name that was not used before, and
`kmem_cache_free` does nothing. The word that holds `subtree_max_size` while an area is in the free
tree holds the pointer `vm` while it is not; it is kept in the tree in the first case.

## Main definitions

* `VmapState` — the areas, the two trees and lists, and the preloaded area
* `findVaLinks`, `linkFree`, `unlinkFree`, `mergeOrAddVmapArea` — the edits of the tree and list
* `findVmapLowestMatch` — the search for a free area
* `allocVmapArea`, `freeVmapArea`, `VmapOp` — the operations
-/

namespace MinimalKernel.Mm

open Function Lib Lib.RbTree

/-- `struct vmap_area`. -/
structure VmapArea where
  vaStart : ℕ
  vaEnd : ℕ
  deriving DecidableEq, Repr

/-- The static variables of `mm/vmalloc.c`. -/
structure VmapState where
  area : ℕ → VmapArea
  /-- The word `vm` of the areas that are not in the free tree. -/
  vm : ℕ → ℕ
  /-- `free_vmap_area_root`; next to an area stands its `subtree_max_size`. -/
  freeRoot : RbTree (ℕ × ℕ)
  /-- `free_vmap_area_list`. -/
  freeList : List ℕ
  /-- `vmap_area_root`. -/
  busyRoot : RbTree ℕ
  /-- `vmap_area_list`. -/
  busyList : List ℕ
  /-- `ne_fit_preload_node`. -/
  preload : Option ℕ
  /-- The first name that has not been used. -/
  next : ℕ

namespace VmapState

variable (s : VmapState) (va : ℕ)

/-- `va_size`. -/
def vaSize : ℕ := wsub (s.area va).vaEnd (s.area va).vaStart

variable (a : VmapArea)

def setArea : VmapState := { s with area := update s.area va a }

def setStart (va x : ℕ) : VmapState := s.setArea va { s.area va with vaStart := x }

def setEnd (va x : ℕ) : VmapState := s.setArea va { s.area va with vaEnd := x }

/-- `kmem_cache_alloc`: a new area with the word `w` where `vm` is. -/
def newArea (w : ℕ) : VmapState :=
  { s.setArea s.next ⟨0, 0⟩ with vm := update s.vm s.next w, next := s.next + 1 }

/-! ### Places in a tree and in its list -/

section Links

variable {β : Type*}

/-- `find_va_links`: the path to the empty link where an area from `start` to `stop` belongs, or
nothing if it overlaps with an area on the way. -/
def findVaLinks (lo hi : β → ℕ) (start stop : ℕ) : RbTree β → Path β → Option (Path β)
  | .nil, p => some p
  | .node c l x r, p =>
    if start < hi x ∧ stop ≤ lo x then findVaLinks lo hi start stop l (.left c x r p)
    else if lo x < stop ∧ hi x ≤ start then findVaLinks lo hi start stop r (.right c l x p)
    else none

/-- `list_add_tail` at an element. -/
def insertBefore (x va : ℕ) : List ℕ → List ℕ
  | [] => [va]
  | y :: ys => if y = x then va :: y :: ys else y :: insertBefore x va ys

/-- `list_add` at an element. -/
def insertAfter (x va : ℕ) : List ℕ → List ℕ
  | [] => [va]
  | y :: ys => if y = x then y :: va :: ys else y :: insertAfter x va ys

/-- The list part of `link_va`. -/
def linkList (key : β → ℕ) (va : ℕ) (list : List ℕ) : Path β → List ℕ
  | .root => va :: list
  | .left _ x _ _ => insertBefore (key x) va list
  | .right _ _ x _ => insertAfter (key x) va list

/-- The element that follows another one; nothing stands for the head of the list. -/
def nextOf (x : ℕ) : List ℕ → Option ℕ
  | [] => none
  | y :: ys => if y = x then ys.head? else nextOf x ys

/-- The element before another one, or before the head of the list. -/
def prevOf (list : List ℕ) : Option ℕ → Option ℕ
  | none => list.getLast?
  | some x => (list.takeWhile (· ≠ x)).getLast?

/-- `get_va_next_sibling`: nothing for an empty tree, otherwise the place in the list behind the
link. -/
def getVaNextSibling (key : β → ℕ) (list : List ℕ) : Path β → Option (Option ℕ)
  | .root => none
  | .left _ x _ _ => some (some (key x))
  | .right _ _ x _ => some (nextOf (key x) list)

end Links

/-- `find_va_links` in the free tree, below a given place. -/
def findFreeLinks (t : RbTree (ℕ × ℕ)) (p : Path (ℕ × ℕ)) : Option (Path (ℕ × ℕ)) :=
  findVaLinks (fun x => (s.area x.1).vaStart) (fun x => (s.area x.1).vaEnd) (s.area va).vaStart
    (s.area va).vaEnd t p

/-- `link_va` for the free tree. The number of the new node is set to 0 after the rotations. -/
def linkFree (p : Path (ℕ × ℕ)) : VmapState :=
  { s with
    freeRoot := (p.insertFixupMax s.vaSize .nil (va, s.vm va) .nil).setMax va 0
    freeList := linkList Prod.fst va s.freeList p }

/-- `unlink_va` for the free tree. -/
def unlinkFree : VmapState :=
  { s with freeRoot := s.freeRoot.eraseMax s.vaSize va, freeList := s.freeList.erase va }

/-- `link_va` for the tree of the allocated areas. -/
def linkBusy (p : Path ℕ) : VmapState :=
  { s with busyRoot := insertAt p va, busyList := linkList id va s.busyList p }

/-- `unlink_va` for the tree of the allocated areas. -/
def unlinkBusy : VmapState :=
  { s with busyRoot := s.busyRoot.erase va, busyList := s.busyList.erase va }

/-- `augment_tree_propagate_from`. -/
def augmentTreePropagateFrom : VmapState :=
  { s with freeRoot := s.freeRoot.propagateFrom s.vaSize va }

/-- `insert_vmap_area` into the tree of the allocated areas. -/
def insertVmapArea : VmapState :=
  match findVaLinks (fun x => (s.area x).vaStart) (fun x => (s.area x).vaEnd) (s.area va).vaStart
    (s.area va).vaEnd s.busyRoot .root with
  | none => s
  | some p => s.linkBusy va p

/-- `insert_vmap_area_augment`, with the search from the node of `start`, or from the root. -/
def insertVmapAreaAugment (start : Option ℕ) : VmapState :=
  let place := match start with
    | none => s.findFreeLinks va s.freeRoot .root
    | some x => (s.freeRoot.locateKey x .root).bind fun n =>
      s.findFreeLinks va (.node n.2.1 n.2.2.1 (x, n.2.2.2.1) n.2.2.2.2) n.1
  match place with
  | none => s
  | some p => (s.linkFree va p).augmentTreePropagateFrom va

/-! ### Release -/

/-- `merge_or_add_vmap_area`, where the next area begins at the end of `va`: the next area, extended
downwards, takes its place. -/
def mergeNext (next : Option ℕ) : VmapState × ℕ × Bool :=
  match next with
  | none => (s, va, false)
  | some sibling =>
    if (s.area sibling).vaStart = (s.area va).vaEnd then
      (s.setStart sibling (s.area va).vaStart, sibling, true)
    else (s, va, false)

/-- `merge_or_add_vmap_area`, where the previous area ends at the start of `va`: it is extended
upwards, and an area that is in the tree already is taken out. -/
def mergePrev (merged : Bool) (prev : Option ℕ) : VmapState × ℕ × Bool :=
  match prev with
  | none => (s, va, merged)
  | some sibling =>
    if (s.area sibling).vaEnd = (s.area va).vaStart then
      ((if merged then s.unlinkFree va else s).setEnd sibling (s.area va).vaEnd, sibling, true)
    else (s, va, merged)

/-- `merge_or_add_vmap_area` for the free tree, with the area that is the result. -/
def mergeOrAddVmapArea : VmapState × Option ℕ :=
  match s.findFreeLinks va s.freeRoot .root with
  | none => (s, none)
  | some p =>
    match getVaNextSibling Prod.fst s.freeList p with
    | none => (s.linkFree va p, some va)
    | some next =>
      let (s₁, va₁, merged₁) := s.mergeNext va next
      let (s₂, va₂, merged₂) := s₁.mergePrev va₁ merged₁ (prevOf s.freeList next)
      (if merged₂ then s₂ else s₂.linkFree va₂ p, some va₂)

/-- `merge_or_add_vmap_area_augment`. -/
def mergeOrAddVmapAreaAugment : VmapState :=
  match s.mergeOrAddVmapArea va with
  | (s', none) => s'
  | (s', some va') => s'.augmentTreePropagateFrom va'

/-- `free_vmap_area`. -/
def freeVmapArea : VmapState := (s.unlinkBusy va).mergeOrAddVmapAreaAugment va

/-! ### The search -/

/-- The address where an allocation from an area would start. -/
def nvaStartAddr (align vstart : ℕ) : ℕ :=
  if vstart < a.vaStart then alignUp a.vaStart align else alignUp vstart align

/-- `is_within_this_va`. -/
def isWithinThisVa (size align vstart : ℕ) : Bool :=
  let addr := nvaStartAddr a align vstart
  if wadd addr size < addr ∨ addr < vstart then false else wadd addr size ≤ a.vaEnd

/-- Where the search stands after one of its loops. -/
inductive Search
  /-- The loop returned an area. -/
  | found (va : ℕ)
  /-- The loop returned no area. -/
  | null
  /-- The loop has come to the node at the top of this subtree. -/
  | at (t : RbTree (ℕ × ℕ)) (p : Path (ℕ × ℕ)) (vstart : ℕ)

/-- The steps of `find_vmap_lowest_match` down the tree. -/
def searchDown (size align length vstart : ℕ) : RbTree (ℕ × ℕ) → Path (ℕ × ℕ) → Search
  | .nil, _ => .null
  | .node c l x r, p =>
    if length ≤ l.cachedMax ∧ vstart < (s.area x.1).vaStart then
      searchDown size align length vstart l (.left c x r p)
    else if isWithinThisVa (s.area x.1) size align vstart then .found x.1
    else if length ≤ r.cachedMax then searchDown size align length vstart r (.right c l x p)
    else .at (.node c l x r) p vstart

/-- The inner loop of `find_vmap_lowest_match`, up the tree. -/
def searchUp (size align length vstart : ℕ) : RbTree (ℕ × ℕ) → Path (ℕ × ℕ) → Search
  | _, .root => .null
  | t, .left c x r up =>
    if isWithinThisVa (s.area x.1) size align vstart then .found x.1
    else if length ≤ r.cachedMax ∧ vstart ≤ (s.area x.1).vaStart then
      .at r (.right c t x up) (wadd (s.area x.1).vaStart 1)
    else searchUp size align length vstart (.node c t x r) up
  | t, .right c l x up =>
    if isWithinThisVa (s.area x.1) size align vstart then .found x.1
    else if length ≤ t.cachedMax ∧ vstart ≤ (s.area x.1).vaStart then
      .at t (.right c l x up) (wadd (s.area x.1).vaStart 1)
    else searchUp size align length vstart (.node c l x t) up

/-- `find_vmap_lowest_match` from a subtree on, for at most `n` turns down and up. -/
def searchLoop (size align length : ℕ) :
    ℕ → RbTree (ℕ × ℕ) → Path (ℕ × ℕ) → ℕ → Except Oops (Option ℕ)
  | 0, _, _, _ => .error .hang
  | n + 1, t, p, vstart =>
    match s.searchDown size align length vstart t p with
    | .found va => .ok (some va)
    | .null => .ok none
    | .at t' p' v =>
      match s.searchUp size align length v t' p' with
      | .found va => .ok (some va)
      | .null => .ok none
      | .at t'' p'' v' => searchLoop size align length n t'' p'' v'

/-- `find_vmap_lowest_match`. Every turn goes past another area, so there are no more turns than
areas. -/
def findVmapLowestMatch (size align vstart : ℕ) (adjustSearchSize : Bool) :
    Except Oops (Option ℕ) :=
  let length := if adjustSearchSize then wsub (wadd size align) 1 else size
  s.searchLoop size align length (s.freeList.length + 1) s.freeRoot .root vstart

/-! ### Allocation -/

/-- `enum fit_type`. -/
inductive FitType
  | nothing
  | full
  | left
  | right
  | middle
  deriving DecidableEq, Repr

/-- `classify_va_fit_type`. -/
def classifyVaFitType (addr size : ℕ) : FitType :=
  if addr < a.vaStart ∨ a.vaEnd < wadd addr size then .nothing
  else if a.vaStart = addr then
    if a.vaEnd = wadd addr size then .full else .left
  else if a.vaEnd = wadd addr size then .right
  else .middle

/-- The second area that `adjust_va_to_fit_type` needs: the preloaded one, or a new one, if the
allocation gives some memory. -/
def takeSplitArea (memory : Option ℕ) : Option (ℕ × VmapState) :=
  match s.preload with
  | some lva => some (lva, { s with preload := none })
  | none => memory.map fun w => (s.next, s.newArea w)

/-- `adjust_va_to_fit_type`; nothing for an error. -/
def adjustVaToFitType (va addr size : ℕ) (type : FitType) (memory : Option ℕ) : Option VmapState :=
  match type with
  | .full => some (s.unlinkFree va)
  | .left =>
    some ((s.setStart va (wadd (s.area va).vaStart size)).augmentTreePropagateFrom va)
  | .right => some ((s.setEnd va addr).augmentTreePropagateFrom va)
  | .middle => (s.takeSplitArea memory).map fun (lva, s₁) =>
    let s₂ := (s₁.setStart lva (s₁.area va).vaStart).setEnd lva addr
    let s₃ := (s₂.setStart va (wadd addr size)).augmentTreePropagateFrom va
    s₃.insertVmapAreaAugment lva (some va)
  | .nothing => none

/-- `__alloc_vmap_area`: the address, or `vend` if there is none. -/
def allocFromFree (size align vstart vend : ℕ) (memory : Option ℕ) : Except Oops (ℕ × VmapState) :=
  let adjustSearchSize := ! decide (align ≤ pageSize ∨ pageSize < align ∧ wsub vend vstart = size)
  (s.findVmapLowestMatch size align vstart adjustSearchSize).map fun
    | none => (vend, s)
    | some va =>
      let addr := nvaStartAddr (s.area va) align vstart
      if vend < wadd addr size then (vend, s)
      else
        match s.adjustVaToFitType va addr size (classifyVaFitType (s.area va) addr size) memory with
        | none => (vend, s)
        | some s' => (addr, s')

/-- The memory that the allocations of `alloc_vmap_area` get: for the preloaded area and for the
second area of a split. -/
structure VmapMemory where
  preload : Option ℕ
  split : Option ℕ
  deriving DecidableEq, Repr

/-- `preload_this_cpu_lock`. -/
def preloadThisCpu (memory : Option ℕ) : VmapState :=
  match s.preload, memory with
  | none, some w => { s.newArea w with preload := some s.next }
  | _, _ => s

/-- An attempt of `alloc_vmap_area`: the new area, or nothing if there is no room. -/
def allocVmapArea (size align vstart vend : ℕ) (memory : VmapMemory) :
    Except Oops (Option ℕ × VmapState) :=
  if size = 0 ∨ offsetInPage size ≠ 0 ∨ ! isPowerOf2 align then .error .bug
  else
    let s₁ := s.preloadThisCpu memory.preload
    (s₁.allocFromFree size align vstart vend memory.split).bind fun (addr, s₂) =>
      if addr = vend then .ok (none, s₂)
      else
        let va := s₂.next
        let s₃ := ((s₂.newArea 0).setStart va addr).setEnd va (wadd addr size)
        if ¬ align ∣ addr ∨ addr < vstart ∨ vend < wadd addr size then .error .bug
        else .ok (some va, s₃.insertVmapArea va)

end VmapState

/-! ### Runs -/

/-- The operations. -/
inductive VmapOp
  /-- `alloc_vmap_area`. -/
  | alloc (size align vstart vend : UInt32) (memory : VmapState.VmapMemory)
  /-- `free_vmap_area` of an allocated area, whose owner has left `vm` in it. -/
  | free (va vm : ℕ)
  deriving DecidableEq, Repr

/-- An operation, with the area that an allocation returns. -/
def VmapOp.run : VmapOp → VmapState → Except Oops (Option ℕ × VmapState)
  | alloc size align vstart vend memory, s =>
    s.allocVmapArea size.toNat align.toNat vstart.toNat vend.toNat memory
  | free va vm, s => 
    .ok (none, { s with vm := update s.vm va vm }.freeVmapArea va)

/-- The free areas as `vmap_init_free_space` puts them in, from an empty tree. -/
def VmapState.init (ranges : List (ℕ × ℕ)) : VmapState :=
  ranges.foldl (fun s r =>
    let s₁ := ((s.newArea 0).setStart s.next r.1).setEnd s.next r.2
    s₁.insertVmapAreaAugment s.next none)
    { area := fun _ => ⟨0, 0⟩, vm := fun _ => 0, freeRoot := .nil, freeList := [], busyRoot := .nil,
      busyList := [], preload := none, next := 0 }

end MinimalKernel.Mm
