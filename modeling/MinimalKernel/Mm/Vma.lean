import MinimalKernel.Basic
import MinimalKernel.Lib.Chain
import MinimalKernel.Lib.RbTree

/-!
# Virtual memory areas

The data of `mm/mmap.c`, `mm/vmacache.c` and `kernel/fork.c` that describes address spaces: the
VMAs (`struct vm_area_struct`), the address spaces that own them (`struct mm_struct`) with their
linked list and red-black tree, the per-task VMA cache and the registry of file mappings, together
with the functions that look VMAs up and link them.

VMAs are named by identifiers and live in one heap, since the list, the tree, the VMA caches and
the file registry all refer to the same object, whose bounds are changed in place. A slab
allocation may fail; the outcomes of the coming allocations are part of the state, so that a
function is determined by the state it starts in and a statement over all states covers every
pattern of failures.

## Main definitions

* `VmArea`, `MmStruct`, `Task`, `VmState` — the data model
* `findVma`, `findVmaIntersection`, `findVmaLinks` — lookups
* `vmaLink`, `unlinkFileVma` — linking a VMA, and taking it out of the file registry
-/

namespace MinimalKernel.Mm

open Function Lib

abbrev VmaId := ℕ
abbrev MmId := ℕ
abbrev TaskId := ℕ
abbrev FileId := ℕ
abbrev AnonVmaId := ℕ

/-! ### Flags and operations of a VMA -/

abbrev VmFlags := BitVec 32

def vmRead : VmFlags := 0x00000001
def vmWrite : VmFlags := 0x00000002
def vmExec : VmFlags := 0x00000004
def vmShared : VmFlags := 0x00000008
def vmMayread : VmFlags := 0x00000010
def vmMaywrite : VmFlags := 0x00000020
def vmMayexec : VmFlags := 0x00000040
def vmGrowsdown : VmFlags := 0x00000100
def vmPfnmap : VmFlags := 0x00000400
def vmLocked : VmFlags := 0x00002000
def vmIo : VmFlags := 0x00004000
def vmDontcopy : VmFlags := 0x00020000
def vmDontexpand : VmFlags := 0x00040000
def vmLockonfault : VmFlags := 0x00080000
def vmAccount : VmFlags := 0x00100000
def vmMixedmap : VmFlags := 0x10000000
def vmNohugepage : VmFlags := 0x40000000

def vmAccessFlags : VmFlags := vmRead ||| vmWrite ||| vmExec
def vmSpecial : VmFlags := vmIo ||| vmDontexpand ||| vmPfnmap ||| vmMixedmap

/-- `flags & mask` as a condition. -/
def hasFlag (flags mask : VmFlags) : Bool := flags &&& mask != 0

/-- The tables of VMA operations: the empty one of a new VMA, the one of a mapped file and the one
of a special mapping such as the vdso. -/
inductive VmOps
  | dummy
  | genericFile
  | specialMapping
  deriving DecidableEq, Repr

/-- Does the table have a `close` operation? -/
def VmOps.close : VmOps → Bool
  | .specialMapping => true
  | _ => false

/-- The `may_split` operation; a special mapping does not let itself be split. -/
def VmOps.maySplit : VmOps → Except Errno Unit
  | .specialMapping => .error .EINVAL
  | _ => .ok ()

/-- `struct vm_area_struct`. An anonymous VMA has no operations. `anonVmaChain` lists the
`anon_vma`s that the VMA is linked to. -/
structure VmArea where
  vmStart : ℕ
  vmEnd : ℕ
  vmFlags : VmFlags
  vmPgoff : ℕ
  vmFile : Option FileId
  vmOps : Option VmOps
  anonVma : Option AnonVmaId
  anonVmaChain : List AnonVmaId
  vmMm : MmId
  deriving DecidableEq, Repr

/-- `vma_init`. -/
def vmaInit (m : MmId) : VmArea where
  vmStart := 0
  vmEnd := 0
  vmFlags := 0
  vmPgoff := 0
  vmFile := none
  vmOps := some .dummy
  anonVma := none
  anonVmaChain := []
  vmMm := m

namespace VmArea

variable (a : VmArea)

/-- `vma_pages`. -/
def pages : ℕ := pageOf (a.vmEnd - a.vmStart)

/-- `vma_last_pgoff`. -/
def lastPgoff : ℕ := wsub (wadd a.vmPgoff a.pages) 1

/-- The page index at which the VMA maps the address `x`. -/
def pageIndex (x : ℕ) : ℕ := wadd a.vmPgoff (pageOf (x - a.vmStart))

/-- `vma_is_anonymous`. -/
def isAnonymous : Bool := a.vmOps.isNone

/-- `vma_is_accessible`. -/
def isAccessible : Bool := hasFlag a.vmFlags vmAccessFlags

end VmArea

/-- `stack_guard_gap`. -/
def stackGuardGap : ℕ := 256 * pageSize

/-- `vm_start_gap`: a stack keeps a gap below it. -/
def vmStartGap (a : VmArea) : ℕ :=
  if hasFlag a.vmFlags vmGrowsdown then
    let vmStart := wsub a.vmStart stackGuardGap
    if a.vmStart < vmStart then 0 else vmStart
  else a.vmStart

/-- `vm_end_gap`; no VMA grows upwards on x86. -/
def vmEndGap (a : VmArea) : ℕ := a.vmEnd

/-! ### Address spaces and tasks -/

/-- The choice between the two searches for an unmapped area, `mm->get_unmapped_area`. -/
inductive MmapLayout
  | legacy
  | topdown
  deriving DecidableEq, Repr

/-- `struct mm_struct`: `mmap` is the list of VMAs and `mmRb` the tree of the same VMAs. -/
structure MmStruct where
  mmap : List VmaId
  mmRb : RbTree VmaId
  mapCount : ℤ
  highestVmEnd : ℕ
  mmapBase : ℕ
  layout : MmapLayout
  defFlags : VmFlags
  vmacacheSeqnum : ℕ
  mmUsers : ℕ
  deriving Repr

/-- The part of `struct task_struct` that the memory code reads. A kernel thread has no address
space of its own. -/
structure Task where
  mm : Option MmId
  seqnum : ℕ
  vmas : ℕ → Option VmaId
  readImpliesExec : Bool
  rlimitStack : ℕ

/-- A node of the interval tree `i_mmap` of a file: the VMA, and the page indices under which it
was inserted. -/
structure ImapNode where
  vma : VmaId
  start : ℕ
  last : ℕ
  deriving DecidableEq, Repr

/-- `sysctl_max_map_count`. -/
def sysctlMaxMapCount : ℤ := 65530

/-- The memory of the kernel as far as address spaces are concerned. -/
structure VmState where
  /-- The VMA objects. -/
  vma : VmaId → VmArea
  /-- The next VMA object that the slab hands out. -/
  nextVma : VmaId
  nextAnonVma : AnonVmaId
  mm : MmId → MmStruct
  nextMm : MmId
  task : TaskId → Task
  current : TaskId
  /-- The interval tree of each file. -/
  imap : FileId → List ImapNode
  /-- Set when a node is removed from an interval tree that does not hold it. -/
  imapCorrupt : Bool
  /-- The operations that the `mmap` handler of a file installs, if it succeeds. -/
  fileMmap : FileId → Option VmOps
  /-- Whether the coming slab allocations succeed. -/
  slab : ℕ → Bool
  /-- `totalram_pages() + total_swap_pages`. -/
  totalPages : ℕ

/-- An address space without VMAs. -/
def MmStruct.empty : MmStruct where
  mmap := []
  mmRb := .nil
  mapCount := 0
  highestVmEnd := 0
  mmapBase := 0xB7000000
  layout := .topdown
  defFlags := 0
  vmacacheSeqnum := 0
  mmUsers := 0

namespace VmState

/-- A machine with one task, whose address space `0` has the given VMAs in ascending order. -/
def single (areas : List VmArea) (rb : RbTree VmaId) : VmState where
  vma v := areas.getD v (vmaInit 0)
  nextVma := areas.length
  nextAnonVma := 0
  mm := update (fun _ => .empty) 0 { MmStruct.empty with
    mmap := List.range areas.length
    mmRb := rb
    mapCount := areas.length
    highestVmEnd := (areas.getLast?.map VmArea.vmEnd).getD 0
    mmUsers := 1 }
  nextMm := 1
  task := update (fun _ => ⟨none, 0, fun _ => none, false, 0x800000⟩) 0
    ⟨some 0, 0, fun _ => none, false, 0x800000⟩
  current := 0
  imap _ := []
  imapCorrupt := false
  fileMmap _ := some .genericFile
  slab _ := true
  totalPages := 0x10000

variable (s : VmState)

/-- Overwrite a VMA object. -/
def setVma (v : VmaId) (a : VmArea) : VmState :=
  { s with vma := update s.vma v a }

/-- Overwrite an address space. -/
def setMm (m : MmId) (mm : MmStruct) : VmState :=
  { s with mm := update s.mm m mm }

/-- Overwrite the tasks. -/
def setTasks (tk : TaskId → Task) : VmState := { s with task := tk }

/-- Overwrite the current task. -/
def setCurrent (t : Task) : VmState :=
  s.setTasks (update s.task s.current t)

/-- Overwrite the interval tree of a file. -/
def setImap (f : FileId) (nodes : List ImapNode) : VmState :=
  { s with imap := update s.imap f nodes }

/-- `current->mm`. -/
def currentMm : Option MmId := (s.task s.current).mm

/-- The bounds of the VMAs, as functions of the VMA. -/
def lo (v : VmaId) : ℕ := (s.vma v).vmStart

def hi (v : VmaId) : ℕ := (s.vma v).vmEnd

@[simp] theorem setTasks_task : s.setTasks s.task = s := rfl

section

variable (s : VmState) (tk : TaskId → Task)

@[simp] theorem setTasks_mm : (s.setTasks tk).mm = s.mm := rfl

end

/-- `kmem_cache_alloc`: does the next allocation succeed? -/
def kmemCacheAlloc : Bool × VmState :=
  (s.slab 0, { s with slab := fun n => s.slab (n + 1) })

/-- Put a new VMA object into the heap, if the slab has room for it. -/
def newVma (a : VmArea) : Option VmaId × VmState :=
  match s.kmemCacheAlloc with
  | (false, s) => (none, s)
  | (true, s) => (some s.nextVma, { s.setVma s.nextVma a with nextVma := s.nextVma + 1 })

end VmState

open VmState

variable (s : VmState) (m : MmId)

/-- `vm_area_alloc`. -/
def vmAreaAlloc : Option VmaId × VmState := s.newVma (vmaInit m)

/-- `vm_area_dup`: the copy starts with an empty `anon_vma_chain`. -/
def vmAreaDup (orig : VmaId) : Option VmaId × VmState :=
  s.newVma { s.vma orig with anonVmaChain := [] }

/-! ### The VMA cache -/

def vmacacheSize : ℕ := 4

variable (addr : ℕ)

/-- `VMACACHE_HASH`, with `VMACACHE_SHIFT` the 22 bits of a page directory entry. -/
def vmacacheHash : ℕ := addr / 2 ^ 22 % vmacacheSize

/-- `vmacache_update`. -/
def vmacacheUpdate (newvma : VmaId) : VmState :=
  let curr := s.task s.current
  if curr.mm = some (s.vma newvma).vmMm then
    s.setCurrent { curr with vmas := update curr.vmas (vmacacheHash addr) (some newvma) }
  else s

/-- `vmacache_valid`: a cache of another generation is flushed. -/
def vmacacheValid : Bool × VmState :=
  let curr := s.task s.current
  if curr.mm ≠ some m then (false, s)
  else if (s.mm m).vmacacheSeqnum ≠ curr.seqnum then
    (false, s.setCurrent { curr with seqnum := (s.mm m).vmacacheSeqnum, vmas := fun _ => none })
  else (true, s)

/-- The cached VMA in one slot, if it holds the address. -/
def vmacacheSlot (addr idx : ℕ) : Option VmaId :=
  ((s.task s.current).vmas idx).filter fun v => s.lo v ≤ addr ∧ addr < s.hi v

/-- `vmacache_find`: the slots are tried in turn, beginning with the one of the address. -/
def vmacacheFind : Option VmaId × VmState :=
  match vmacacheValid s m with
  | (false, s) => (none, s)
  | (true, s) =>
    ((List.range vmacacheSize).findSome? fun i =>
      vmacacheSlot s addr ((vmacacheHash addr + i) % vmacacheSize), s)

/-! ### Looking up and linking -/

/-- `find_vma`: the first VMA that ends after the address. -/
def findVma : Option VmaId × VmState :=
  match vmacacheFind s m addr with
  | (some v, s) => (some v, s)
  | (none, s) =>
    match (s.mm m).mmRb.findFrom (fun v => addr < s.hi v) (fun v => s.lo v ≤ addr) none with
    | some v => (some v, vmacacheUpdate s addr v)
    | none => (none, s)

/-- `find_vma_prev`, which no longer looks for the preceding VMA. -/
def findVmaPrev : Option VmaId × Option VmaId × VmState :=
  let (vma, s) := findVma s m addr
  (vma, none, s)

/-- `find_vma_intersection`. -/
def findVmaIntersection (startAddr endAddr : ℕ) : Option VmaId × VmState :=
  let (vma, s) := findVma s m startAddr
  (vma.filter fun v => ¬ endAddr ≤ s.lo v, s)

/-- `find_vma_links`: the place in the tree for `[addr, end)` and the preceding VMA, unless a VMA
that is met on the way overlaps the range. -/
def findVmaLinks (addr endAddr : ℕ) : Option (Path VmaId × Option VmaId) :=
  (s.mm m).mmRb.descend (fun v => addr < s.hi v) (fun v => s.lo v < endAddr) .root none

/-- `vma_next`. -/
def vmaNext (prev : Option VmaId) : Option VmaId :=
  match prev with
  | none => (s.mm m).mmap.head?
  | some v => nextOf (s.mm m).mmap v

variable (v : VmaId)

/-- `__vma_link_list`. -/
def vmaLinkList (prev : Option VmaId) : VmState :=
  s.setMm m { s.mm m with mmap := insertAfter (s.mm m).mmap prev v }

/-- `__vma_link_rb`: a VMA without a successor moves the end of the address space. -/
def vmaLinkRb (place : Path VmaId) : VmState :=
  let mm := s.mm m
  s.setMm m { mm with
    highestVmEnd := if nextOf mm.mmap v = none then vmEndGap (s.vma v) else mm.highestVmEnd
    mmRb := RbTree.insertAt place v }

/-- `__vma_link_file`. -/
def vmaLinkFile : VmState :=
  match (s.vma v).vmFile with
  | none => s
  | some f =>
    s.setImap f (⟨v, (s.vma v).vmPgoff, (s.vma v).lastPgoff⟩ :: s.imap f)

section

variable (s : VmState) (v : VmaId)

@[simp] theorem vmaLinkFile_mm : (vmaLinkFile s v).mm = s.mm := by
  unfold vmaLinkFile
  split <;> rfl

@[simp] theorem vmaLinkFile_vma : (vmaLinkFile s v).vma = s.vma := by
  unfold vmaLinkFile
  split <;> rfl

@[simp] theorem vmaLinkFile_nextVma : (vmaLinkFile s v).nextVma = s.nextVma := by
  unfold vmaLinkFile
  split <;> rfl

@[simp] theorem vmaLinkFile_nextMm : (vmaLinkFile s v).nextMm = s.nextMm := by
  unfold vmaLinkFile
  split <;> rfl

@[simp] theorem vmaLinkFile_task : (vmaLinkFile s v).task = s.task := by
  unfold vmaLinkFile
  split <;> rfl

@[simp] theorem vmaLinkFile_current : (vmaLinkFile s v).current = s.current := by
  unfold vmaLinkFile
  split <;> rfl

end

/-- `vma_link`. -/
def vmaLink (prev : Option VmaId) (place : Path VmaId) : VmState :=
  let s := vmaLinkList s m v prev
  let s := vmaLinkRb s m v place
  let s := vmaLinkFile s v
  s.setMm m { s.mm m with mapCount := (s.mm m).mapCount + 1 }

/-- `unlink_file_vma`: the node of the VMA is taken out of the interval tree of its file. Taking
out a node that is not there corrupts the tree. -/
def unlinkFileVma : VmState :=
  match (s.vma v).vmFile with
  | none => s
  | some f =>
    { s.setImap f ((s.imap f).eraseP fun n => n.vma == v) with
      imapCorrupt := s.imapCorrupt || (s.imap f).all fun n => n.vma != v }

/-- `__vma_adjust`, reduced to the change of the bounds. -/
def vmaAdjust (start endAddr pgoff : ℕ) : VmState :=
  s.setVma v { s.vma v with vmStart := start, vmEnd := endAddr, vmPgoff := pgoff }

end MinimalKernel.Mm
