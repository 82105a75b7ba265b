import MinimalKernel.Mm.Vma
import MinimalKernel.Mm.Zap

/-!
# Page faults

The fault routines of `mm/memory.c` from `handle_mm_fault` down, with the two fault handlers that
deliver pages, `filemap_fault` of `mm/filemap.c` and `special_mapping_fault` of `mm/mmap.c`.

Memory is a set of page frames. A frame has its bytes, its reference count and the two flags that
mark a page as anonymous and as belonging to one process alone. The allocator is represented by
the frames that it hands out next. What it hands out keeps the bytes that the last user left:
`__GFP_ZERO` is not honoured. This holds for the pages of anonymous memory, for those of the page
cache, which `filemap_fault` does not read in, and for page tables, whose left-over words the
hardware takes for entries.

Of the original copy-on-write path only the reuse of an exclusive anonymous page is left:
`wp_page_copy` reports that memory has run out.

## Main definitions

* `Frame`, `MemState` — page frames, page tables and page caches
* `Vmf`, `FaultFlags`, `VmFault` — the arguments and the result of a fault
* `doAnonymousPage`, `doReadFault`, `doCowFault`, `doSharedFault`, `doWpPage` — the ways to handle
  a fault
* `handleMmFault` — the model of `handle_mm_fault`
-/

namespace MinimalKernel.Mm

open Function

/-! ### Arguments and results of a fault -/

/-- `vm_fault_t`. -/
abbrev VmFault := BitVec 32

def vmFaultOom : VmFault := 0x0001
def vmFaultSigbus : VmFault := 0x0002
def vmFaultWrite : VmFault := 0x0008
def vmFaultNopage : VmFault := 0x0100
def vmFaultLocked : VmFault := 0x0200
def vmFaultRetry : VmFault := 0x0400

/-- `VM_FAULT_ERROR`. -/
def vmFaultError : VmFault := 0x0873

/-- The results at which the routines below give the page back. -/
def vmFaultStop : VmFault := vmFaultError ||| vmFaultNopage ||| vmFaultRetry

/-- The `FAULT_FLAG_` bits that the routines read; `FAULT_FLAG_UNSHARE` is never set by an access
of a user. -/
structure FaultFlags where
  write : Bool
  allowRetry : Bool
  tried : Bool
  retryNowait : Bool
  deriving DecidableEq, Repr

/-- The part of `struct vm_fault` that stays as it is. -/
structure Vmf where
  vma : VmArea
  address : ℕ
  pgoff : ℕ
  flags : FaultFlags

/-- The page of the address space that is accessed. -/
def Vmf.vpn (v : Vmf) : ℕ := pageOf v.address

/-! ### Memory -/

/-- A page frame with its `struct page`. -/
structure Frame where
  data : ℕ → BitVec 8
  refs : ℤ
  anon : Bool
  exclusive : Bool

/-- Page frames, page tables and page caches. -/
structure MemState where
  frame : ℕ → Frame
  /-- The frames that the allocator hands out next. -/
  free : List ℕ
  /-- The frames that hold page tables. -/
  tables : List ℕ
  /-- The page directory of each address space. -/
  pgd : MmId → Pgd
  /-- The page cache of each file. -/
  cache : FileId → ℕ → Option ℕ
  /-- The pages that the handler of a special mapping delivers. -/
  special : ℕ → Option ℕ

variable (data : ℕ → BitVec 8)

/-- A page with zeros. -/
def ZeroPage : Prop := ∀ j < pageSize, data j = 0

/-- The word `i` of a page. -/
def pteWord (i : ℕ) : BitVec 32 :=
  data (4 * i + 3) ++ data (4 * i + 2) ++ data (4 * i + 1) ++ data (4 * i)

/-- A word as a page table entry, by the bits `_PAGE_PRESENT`, `_PAGE_PROTNONE`, `_PAGE_RW`,
`_PAGE_DIRTY` and `_PAGE_ACCESSED`. -/
def decodePte (w : BitVec 32) : Pte :=
  if w = 0 then .none
  else if w.getLsbD 0 || w.getLsbD 8 then
    .present (w.toNat / pageSize) (w.getLsbD 1) (w.getLsbD 6) (w.getLsbD 5)
  else .swap

/-- The bytes of a page as a page table. -/
def tableOf (i : ℕ) : Pte := decodePte (pteWord data i)

/-- `pmd_none`. -/
def Pde.isNone : Pde → Bool
  | .none => true
  | _ => false

namespace MemState

variable (s : MemState)

/-- Overwrite a frame. -/
def setFrame (p : ℕ) (f : Frame) : MemState :=
  { s with frame := update s.frame p f }

variable (m : MmId)

/-- Overwrite the page directory of an address space. -/
def setPgd (dir : Pgd) : MemState :=
  { s with pgd := update s.pgd m dir }

/-- `alloc_page`; nothing clears the page. -/
def allocPage : Option ℕ × MemState :=
  match s.free with
  | [] => (none, s)
  | p :: rest => (some p, { s.setFrame p { s.frame p with refs := 1 } with free := rest })

/-- `get_page`. -/
def getPage (p : ℕ) : MemState :=
  s.setFrame p { s.frame p with refs := (s.frame p).refs + 1 }

/-- `put_page`: with its last reference a page goes back to the allocator. -/
def putPage (p : ℕ) : MemState :=
  if (s.frame p).refs - 1 = 0 then
    { s.setFrame p { s.frame p with refs := 0, anon := false, exclusive := false } with
      free := p :: s.free }
  else s.setFrame p { s.frame p with refs := (s.frame p).refs - 1 }

/-- `pte_alloc_one`. -/
def pteAllocOne : Option ℕ × MemState :=
  match s.allocPage with
  | (none, s) => (none, s)
  | (some t, s) => (some t, { s with tables := t :: s.tables })

/-- `pte_free`. -/
def pteFree (t : ℕ) : MemState :=
  { s.putPage t with tables := s.tables.erase t }

/-- Is there no page table for the page `k`? -/
def pmdNone (k : ℕ) : Bool := (s.pgd m (k / ptrsPerPte)).isNone

/-- `pmd_install`, for a directory entry that is empty. -/
def pmdInstall (k t : ℕ) : MemState :=
  s.setPgd m (update (s.pgd m) (k / ptrsPerPte) (.table (tableOf (s.frame t).data)))

/-- `pte_alloc`: `true` if there is a page table for the page `k` afterwards. -/
def pteAlloc (k : ℕ) : Bool × MemState :=
  if s.pmdNone m k then
    match s.pteAllocOne with
    | (none, s) => (false, s)
    | (some t, s) => (true, s.pmdInstall m k t)
  else (true, s)

/-- The page table entry for the page `k`. -/
def pte (k : ℕ) : Pte := pteOf (s.pgd m) k

/-- `set_pte_at`. -/
def setPte (k : ℕ) (e : Pte) : MemState :=
  match s.pgd m (k / ptrsPerPte) with
  | .table entries =>
    s.setPgd m (update (s.pgd m) (k / ptrsPerPte)
      (.table (update entries (k % ptrsPerPte) e)))
  | _ => s

/-- `page_add_new_anon_rmap`. -/
def pageAddNewAnonRmap (p : ℕ) : MemState :=
  s.setFrame p { s.frame p with anon := true, exclusive := true }

/-- `copy_user_highpage`. -/
def copyUserHighpage (dst src : ℕ) : MemState :=
  s.setFrame dst { s.frame dst with data := (s.frame src).data }

/-- `filemap_add_folio`: the page cache takes a reference of its own. -/
def filemapAddFolio (f : FileId) (index p : ℕ) : MemState :=
  { s.getPage p with cache := update s.cache f (update (s.cache f) index p) }

end MemState

/-! ### Page table entries -/

/-- `pte_mkwrite`. -/
def Pte.mkwrite : Pte → Pte
  | .present p _ d a => .present p true d a
  | e => e

/-- `pte_mkdirty`. -/
def Pte.mkdirty : Pte → Pte
  | .present p w _ a => .present p w true a
  | e => e

/-- `pte_mkyoung`. -/
def Pte.mkyoung : Pte → Pte
  | .present p w d _ => .present p w d true
  | e => e

/-- `maybe_mkwrite`. -/
def maybeMkwrite (e : Pte) (a : VmArea) : Pte :=
  if hasFlag a.vmFlags vmWrite then e.mkwrite else e

/-- `mk_pte` with the protection `vm_page_prot`, in which a private mapping is read-only. -/
def mkPte (p : ℕ) (a : VmArea) : Pte :=
  .present p (hasFlag a.vmFlags vmShared && hasFlag a.vmFlags vmWrite) false true

/-! ### The fault handlers -/

variable (s : MemState) (v : Vmf)

/-- `filemap_fault`: a page that is not in the cache is put there as it comes from the
allocator. -/
def filemapFault : Except Oops (Except VmFault (VmFault × ℕ) × MemState) :=
  match v.vma.vmFile with
  | none => .error .nullDeref
  | some f =>
    match s.cache f v.pgoff with
    | some p => .ok (.ok (vmFaultLocked, p), s.getPage p)
    | none =>
      match s.allocPage with
      | (none, s) => .ok (.error vmFaultOom, s)
      | (some p, s) => .ok (.ok (vmFaultLocked, p), s.filemapAddFolio f v.pgoff p)

/-- `special_mapping_fault`. -/
def specialMappingFault : Except VmFault (VmFault × ℕ) × MemState :=
  match s.special v.pgoff with
  | some p => (.ok (0, p), s.getPage p)
  | none => (.error vmFaultSigbus, s)

variable (ops : VmOps)

/-- The `fault` operation; without one, the pointer is null. -/
def VmOps.fault (s : MemState) (v : Vmf) : Except Oops (Except VmFault (VmFault × ℕ) × MemState) :=
  match ops with
  | .dummy => .error .nullDeref
  | .genericFile => filemapFault s v
  | .specialMapping => .ok (specialMappingFault s v)

/-- The `page_mkwrite` operation: that of a file finds the page still in the cache and returns it
locked. -/
def VmOps.pageMkwrite : VmOps → Option VmFault
  | .genericFile => some vmFaultLocked
  | _ => none

/-! ### Faults on an empty entry -/

/-- `do_anonymous_page`. `anon_vma_prepare` does not fail here, and what it sets is not read. -/
def doAnonymousPage : VmFault × MemState :=
  if hasFlag v.vma.vmFlags vmShared then (vmFaultSigbus, s)
  else
    match s.pteAlloc v.vma.vmMm v.vpn with
    | (false, s) => (vmFaultOom, s)
    | (true, s) =>
      match s.allocPage with
      | (none, s) => (vmFaultOom, s)
      | (some p, s) =>
        let entry := mkPte p v.vma
        let entry := if hasFlag v.vma.vmFlags vmWrite then entry.mkdirty.mkwrite else entry
        if s.pte v.vma.vmMm v.vpn ≠ .none then (0, s.putPage p)
        else (0, (s.pageAddNewAnonRmap p).setPte v.vma.vmMm v.vpn entry)

/-- `__do_fault`: the page table that will be needed is allocated before the handler is called. -/
def callFault : Except Oops (Option ℕ × Except VmFault (VmFault × ℕ) × MemState) :=
  if s.pmdNone v.vma.vmMm v.vpn then
    match s.pteAllocOne with
    | (none, s) => .ok (none, .error vmFaultOom, s)
    | (some t, s) => (ops.fault s v).map (some t, ·)
  else (ops.fault s v).map (none, ·)

/-- `do_set_pte`. -/
def doSetPte (p : ℕ) : MemState :=
  let entry := mkPte p v.vma
  let entry := if v.flags.write then maybeMkwrite entry.mkdirty v.vma else entry
  let s :=
    if v.flags.write && !hasFlag v.vma.vmFlags vmShared then s.pageAddNewAnonRmap p else s
  s.setPte v.vma.vmMm v.vpn entry

/-- `finish_fault` for the page that is to be mapped; returns what is left of the page table that
was allocated beforehand. -/
def finishFault (p : ℕ) (prealloc : Option ℕ) : VmFault × Option ℕ × MemState :=
  let installed : Bool × Option ℕ × MemState :=
    if s.pmdNone v.vma.vmMm v.vpn then
      match prealloc with
      | some t => (true, none, s.pmdInstall v.vma.vmMm v.vpn t)
      | none => ((s.pteAlloc v.vma.vmMm v.vpn).1, none, (s.pteAlloc v.vma.vmMm v.vpn).2)
    else (true, prealloc, s)
  match installed with
  | (false, prealloc, s) => (vmFaultOom, prealloc, s)
  | (true, prealloc, s) =>
    if s.pte v.vma.vmMm v.vpn = .none then (0, prealloc, doSetPte s v p)
    else (vmFaultNopage, prealloc, s)

/-- `do_read_fault`; `do_fault_around` does nothing. -/
def doReadFault : Except Oops (VmFault × Option ℕ × MemState) :=
  match callFault s v ops with
  | .error e => .error e
  | .ok (prealloc, .error ret, s) => .ok (ret, prealloc, s)
  | .ok (prealloc, .ok (ret, page), s) =>
    let (done, prealloc, s) := finishFault s v page prealloc
    let ret := ret ||| done
    .ok (ret, prealloc, if hasFlag ret vmFaultStop then s.putPage page else s)

/-- `do_cow_fault`. -/
def doCowFault : Except Oops (VmFault × Option ℕ × MemState) :=
  match s.allocPage with
  | (none, s) => .ok (vmFaultOom, none, s)
  | (some cow, s) =>
    match callFault s v ops with
    | .error e => .error e
    | .ok (prealloc, .error ret, s) => .ok (ret, prealloc, s.putPage cow)
    | .ok (prealloc, .ok (ret, page), s) =>
      let (done, prealloc, s) := finishFault (s.copyUserHighpage cow page) v cow prealloc
      let ret := ret ||| done
      let s := s.putPage page
      .ok (ret, prealloc, if hasFlag ret vmFaultStop then s.putPage cow else s)

/-- `fault_dirty_shared_page`: the mapping of a file lets go of the locks if it may; without
`page_mkwrite` the times of the file are updated, which has to exist. -/
def faultDirtySharedPage : Except Oops VmFault :=
  match ops.pageMkwrite with
  | some _ =>
    .ok (if v.flags.allowRetry && !v.flags.tried && !v.flags.retryNowait then vmFaultRetry else 0)
  | none => if v.vma.vmFile.isNone then .error .nullDeref else .ok 0

/-- The results of `page_mkwrite` at which `do_shared_fault` gives up. -/
def mkwriteStop (ret : VmFault) : Bool :=
  ret == 0 || hasFlag ret (vmFaultError ||| vmFaultNopage)

/-- `do_shared_fault`. -/
def doSharedFault : Except Oops (VmFault × Option ℕ × MemState) :=
  match callFault s v ops with
  | .error e => .error e
  | .ok (prealloc, .error ret, s) => .ok (ret, prealloc, s)
  | .ok (prealloc, .ok (ret, page), s) =>
    match ops.pageMkwrite.filter mkwriteStop with
    | some tmp => .ok (tmp, prealloc, s.putPage page)
    | none =>
      let (done, prealloc, s) := finishFault s v page prealloc
      let ret := ret ||| done
      if hasFlag ret vmFaultStop then .ok (ret, prealloc, s.putPage page)
      else (faultDirtySharedPage v ops).map fun dirtied => (ret ||| dirtied, prealloc, s)

/-- `do_fault`. -/
def doFault : Except Oops (VmFault × MemState) :=
  match v.vma.vmOps with
  | none => .error .nullDeref
  | some .dummy =>
    .ok (if s.pte v.vma.vmMm v.vpn = .none then vmFaultSigbus else vmFaultNopage, s)
  | some ops =>
    let handled :=
      if !v.flags.write then doReadFault s v ops
      else if !hasFlag v.vma.vmFlags vmShared then doCowFault s v ops
      else doSharedFault s v ops
    handled.map fun (ret, prealloc, s) => (ret, (prealloc.map s.pteFree).getD s)

/-! ### Faults on an entry that is not empty -/

/-- `do_swap_page`. -/
def doSwapPage : VmFault := vmFaultSigbus

/-- `wp_page_reuse`. -/
def wpPageReuse (entry : Pte) : MemState :=
  s.setPte v.vma.vmMm v.vpn (maybeMkwrite entry.mkyoung.mkdirty v.vma)

/-- `wp_page_copy`. -/
def wpPageCopy : VmFault := vmFaultOom

/-- `do_wp_page` for the entry `entry` that maps the page `p`. The reference that is taken before
the copy is not given back. -/
def doWpPage (entry : Pte) (p : ℕ) : VmFault × MemState :=
  if (s.frame p).anon && (s.frame p).exclusive then (vmFaultWrite, wpPageReuse s v entry)
  else (wpPageCopy, s.getPage p)

/-! ### The entry points -/

/-- `handle_pte_fault`; a directory entry that is no page table is followed all the same. -/
def handlePteFault : Except Oops (VmFault × MemState) :=
  match s.pgd v.vma.vmMm (v.vpn / ptrsPerPte) with
  | .bad => .error .wildAccess
  | _ =>
    match s.pte v.vma.vmMm v.vpn with
    | .none => if v.vma.isAnonymous then .ok (doAnonymousPage s v) else doFault s v
    | .swap => .ok (doSwapPage, s)
    | .present p w d a =>
      if v.flags.write && !w then .ok (doWpPage s v (.present p w d a) p) else .ok (0, s)

/-- `handle_mm_fault`; three of the five levels of the page tables are folded. -/
def handleMmFault (a : VmArea) (x : ℕ) (flags : FaultFlags) : Except Oops (VmFault × MemState) :=
  handlePteFault s ⟨a, pageMask x, a.pageIndex x, flags⟩

end MinimalKernel.Mm
