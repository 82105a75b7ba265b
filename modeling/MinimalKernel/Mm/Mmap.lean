import MinimalKernel.Mm.Vma

/-!
# The operations on an address space

The functions of `mm/mmap.c` that change an address space: searching for an unmapped area,
splitting a VMA, unmapping a range, mapping a region, extending the heap, inserting a prepared VMA
and growing a stack downwards.

A function that can be stopped by an oops has the type `Except Oops (Except Errno ℕ × VmState)`:
the inner `Except` is the value that the C function returns, and the state comes with it also when
an error is returned, since several functions return an error after they have changed something.

## Main definitions

* `genericGetUnmappedArea`, `genericGetUnmappedAreaTopdown`, `getUnmappedArea`
* `splitVma`, `detachVmasToBeUnmapped`, `doMunmap`
* `vmaMerge`, `mmapRegion`, `doBrkFlags`, `insertVmStruct`, `expandDownwards`
-/

namespace MinimalKernel.Mm

open Lib VmState

/-! ### Searching for an unmapped area -/

/-- `mmap_min_addr`. -/
def mmapMinAddr : ℕ := 4096

/-- `TASK_UNMAPPED_BASE`, a third of user space. -/
def taskUnmappedBase : ℕ := pageAlign (taskSize / 3)

/-- `struct vm_unmapped_area_info`. -/
structure VmUnmappedAreaInfo where
  topdown : Bool
  length : ℕ
  lowLimit : ℕ
  highLimit : ℕ
  alignMask : ℕ
  alignOffset : ℕ

/-- `unmapped_area`: the place behind the last VMA, or the lower limit if that is higher. -/
def unmappedArea (mm : MmStruct) (info : VmUnmappedAreaInfo) : ℕ :=
  if info.highLimit < info.length then errWord .ENOMEM
  else if wsub info.highLimit info.length < info.lowLimit then errWord .ENOMEM
  else
    let gapStart := max mm.highestVmEnd info.lowLimit
    let gapStart := wadd gapStart (wsub info.alignOffset gapStart &&& info.alignMask)
    if info.highLimit < wadd gapStart info.length then errWord .ENOMEM else gapStart

/-- `unmapped_area_topdown`: the place that ends where the last VMA ends, or at the upper limit if
the last VMA ends above it. -/
def unmappedAreaTopdown (mm : MmStruct) (info : VmUnmappedAreaInfo) : ℕ :=
  if info.highLimit < info.length then errWord .ENOMEM
  else if wsub info.highLimit info.length < info.lowLimit then errWord .ENOMEM
  else
    let gapEnd := if mm.highestVmEnd ≤ info.highLimit then mm.highestVmEnd else info.highLimit
    let gapEnd := wsub gapEnd info.length
    let gapEnd := wsub gapEnd (wsub gapEnd info.alignOffset &&& info.alignMask)
    if gapEnd < info.lowLimit then errWord .ENOMEM else gapEnd

/-- `vm_unmapped_area`. -/
def vmUnmappedArea (mm : MmStruct) (info : VmUnmappedAreaInfo) : ℕ :=
  if info.topdown then unmappedAreaTopdown mm info else unmappedArea mm info

variable (s : VmState) (m : MmId) (addr len : ℕ)

/-- The test of the address that the caller asked for, which both searches begin with: the place
is taken if it lies in user space and ends before the next VMA. -/
def tryHint : Option ℕ × VmState :=
  if addr = 0 then (none, s)
  else
    let addr := pageAlign addr
    let (vma, prev, s) := findVmaPrev s m addr
    if addr ≤ wsub taskSize len ∧ mmapMinAddr ≤ addr ∧
        (∀ v ∈ vma, wadd addr len ≤ vmStartGap (s.vma v)) ∧
        (∀ v ∈ prev, vmEndGap (s.vma v) ≤ addr) then
      (some addr, s)
    else (none, s)

variable (fixed : Bool)

/-- `generic_get_unmapped_area`; `fixed` is the flag `MAP_FIXED`. -/
def genericGetUnmappedArea : ℕ × VmState :=
  if taskSize - mmapMinAddr < len then (errWord .ENOMEM, s)
  else if fixed then (addr, s)
  else
    match tryHint s m addr len with
    | (some addr, s) => (addr, s)
    | (none, s) =>
      (vmUnmappedArea (s.mm m)
        { topdown := false, length := len, lowLimit := (s.mm m).mmapBase, highLimit := taskSize,
          alignMask := 0, alignOffset := 0 }, s)

/-- `generic_get_unmapped_area_topdown`. -/
def genericGetUnmappedAreaTopdown : ℕ × VmState :=
  if taskSize - mmapMinAddr < len then (errWord .ENOMEM, s)
  else if fixed then (addr, s)
  else
    match tryHint s m addr len with
    | (some addr, s) => (addr, s)
    | (none, s) =>
      let addr := vmUnmappedArea (s.mm m)
        { topdown := true, length := len, lowLimit := max pageSize mmapMinAddr,
          highLimit := (s.mm m).mmapBase, alignMask := 0, alignOffset := 0 }
      if offsetInPage addr ≠ 0 then
        -- the search from above failed, so the one from below is tried
        (vmUnmappedArea (s.mm m)
          { topdown := false, length := len, lowLimit := taskUnmappedBase, highLimit := taskSize,
            alignMask := 0, alignOffset := 0 }, s)
      else (addr, s)

/-- The call through the pointer `mm->get_unmapped_area`. -/
def mmGetUnmappedArea : ℕ × VmState :=
  match (s.mm m).layout with
  | .legacy => genericGetUnmappedArea s m addr len fixed
  | .topdown => genericGetUnmappedAreaTopdown s m addr len fixed

/-- `get_unmapped_area` for a mapping that is neither of a file nor shared. -/
def getUnmappedArea : ℕ × VmState :=
  if taskSize < len then (errWord .ENOMEM, s)
  else
    let (addr, s) := mmGetUnmappedArea s m addr len fixed
    if isErrValue addr then (addr, s)
    else if taskSize - len < addr then (errWord .ENOMEM, s)
    else if offsetInPage addr ≠ 0 then (errWord .EINVAL, s)
    else (addr, s)

/-! ### Splitting -/

variable (v : VmaId)

/-- `anon_vma_chain_link`. -/
def anonVmaChainLink (a : AnonVmaId) : VmState :=
  s.setVma v { s.vma v with anonVmaChain := a :: (s.vma v).anonVmaChain }

/-- `anon_vma_clone` for a copy that has kept the `anon_vma` of the original: each link is
allocated without waiting first, and again with waiting. The first argument runs over the chain of
the original from its end. -/
def anonVmaClone : List AnonVmaId → VmState → VmaId → Except Errno Unit × VmState
  | [], s, _ => (.ok (), s)
  | a :: as, s, dst =>
    match s.kmemCacheAlloc with
    | (true, s) => anonVmaClone as (anonVmaChainLink s dst a) dst
    | (false, s) =>
      match s.kmemCacheAlloc with
      | (true, s) => anonVmaClone as (anonVmaChainLink s dst a) dst
      | (false, s) =>
        (.error .ENOMEM, s.setVma dst { s.vma dst with anonVma := none, anonVmaChain := [] })

/-- `__split_vma`: the VMA gives up the part below `addr` (`newBelow`) or above it to a copy. The
copy is never linked anywhere. -/
def splitVma (addr : ℕ) (newBelow : Bool) : Except Errno Unit × VmState :=
  match (s.vma v).vmOps.elim (.ok ()) VmOps.maySplit with
  | .error e => (.error e, s)
  | .ok () =>
    match vmAreaDup s v with
    | (none, s) => (.error .ENOMEM, s)
    | (some new, s) =>
      let a := s.vma v
      let s := s.setVma new
        (if newBelow then { s.vma new with vmEnd := addr }
         else { s.vma new with
                vmStart := addr
                vmPgoff := wadd (s.vma new).vmPgoff (pageOf (wsub addr a.vmStart)) })
      match anonVmaClone (s.vma v).anonVmaChain.reverse s new with
      | (.error e, s) => (.error e, s)
      | (.ok (), s) =>
        if newBelow then
          (.ok (), vmaAdjust s v addr (s.hi v)
            (wadd (s.vma v).vmPgoff (pageOf (wsub addr (s.lo new)))))
        else (.ok (), vmaAdjust s v (s.lo v) addr (s.vma v).vmPgoff)

/-! ### Unmapping -/

/-- `detach_vmas_to_be_unmapped`: the VMA behind `prev` and the following ones that begin before
`endAddr` leave the list and the tree. Returns them with the permission to downgrade the lock. -/
def detachVmasToBeUnmapped (vma : VmaId) (prev : Option VmaId)
    (endAddr : ℕ) : List VmaId × Bool × VmState :=
  let mm := s.mm m
  let kept := upTo mm.mmap prev
  let rest := (mm.mmap.drop kept.length).tail
  -- the loop tests its condition only after it has detached the first VMA
  let detached := vma :: rest.takeWhile fun v => s.lo v < endAddr
  let remaining := rest.dropWhile fun v => s.lo v < endAddr
  let s := s.setMm m { mm with
    mmap := kept ++ remaining
    mmRb := detached.foldl (fun t v => t.erase v) mm.mmRb
    mapCount := mm.mapCount - detached.length
    highestVmEnd :=
      if remaining = [] then prev.elim 0 fun p => vmEndGap (s.vma p) else mm.highestVmEnd
    vmacacheSeqnum := mm.vmacacheSeqnum + 1 }
  (detached, remaining.head?.all fun v => !hasFlag (s.vma v).vmFlags vmGrowsdown, s)

/-- `free_pgtables` as far as the VMAs are concerned: they leave the registry of their file. -/
def unlinkFileVmas (vmas : List VmaId) : VmState := vmas.foldl unlinkFileVma s

/-- The beginning of `__do_munmap`: a VMA that begins before the range is cut at its start, and
the VMA behind which the range is to be detached is determined. -/
def munmapSplitStart (vma : VmaId) (start endAddr : ℕ) : Except Errno (Option VmaId) × VmState :=
  if s.lo vma < start then
    if endAddr < s.hi vma ∧ sysctlMaxMapCount ≤ (s.mm m).mapCount then (.error .ENOMEM, s)
    else
      match splitVma s vma start false with
      | (.error e, s) => (.error e, s)
      | (.ok (), s) => (.ok (some vma), s)
  else (.ok (prevOf (s.mm m).mmap vma), s)

/-- A VMA that reaches past the end of the range is cut there. -/
def munmapSplitEnd (endAddr : ℕ) : Except Errno Unit × VmState :=
  match findVma s m endAddr with
  | (none, s) => (.ok (), s)
  | (some last, s) =>
    if s.lo last < endAddr then splitVma s last endAddr true else (.ok (), s)

variable (prev : Option VmaId)

/-- The end of `__do_munmap`: the VMAs behind `prev` are detached and unmapped. -/
def munmapDetach (endAddr : ℕ) (downgrade : Bool) : Except Oops (Except Errno ℕ × VmState) :=
  match vmaNext s m prev with
  | none => .error .nullDeref
  | some vma =>
    let (detached, mayDowngrade, s) := detachVmasToBeUnmapped s m vma prev endAddr
    .ok (.ok (if downgrade && mayDowngrade then 1 else 0), unlinkFileVmas s detached)

/-- `__do_munmap`. -/
def doMunmap (start len : ℕ) (downgrade : Bool) : Except Oops (Except Errno ℕ × VmState) :=
  if offsetInPage start ≠ 0 ∨ taskSize < start ∨ taskSize - start < len then
    .ok (.error .EINVAL, s)
  else
    let len := pageAlign len
    let endAddr := wadd start len
    if len = 0 then .ok (.error .EINVAL, s)
    else
      match findVmaIntersection s m start endAddr with
      | (none, s) => .ok (.ok 0, s)
      | (some vma, s) =>
        match munmapSplitStart s m vma start endAddr with
        | (.error e, s) => .ok (.error e, s)
        | (.ok prev, s) =>
          match munmapSplitEnd s m endAddr with
          | (.error e, s) => .ok (.error e, s)
          | (.ok (), s) => munmapDetach s m prev endAddr downgrade

/-- The loop of `munmap_vma_range`, for at most `fuel` turns: unmap until nothing overlaps the
range, and give back the place for a new VMA. -/
def munmapVmaRangeLoop : ℕ → VmState → MmId → ℕ → ℕ →
    Except Oops (Except Errno (Path VmaId × Option VmaId) × VmState)
  | 0, _, _, _, _ => .error .hang
  | fuel + 1, s, m, start, len =>
    match findVmaLinks s m start (wadd start len) with
    | some place => .ok (.ok place, s)
    | none =>
      match doMunmap s m start len false with
      | .error e => .error e
      | .ok (.error _, s) => .ok (.error .ENOMEM, s)
      | .ok (.ok _, s) => munmapVmaRangeLoop fuel s m start len

/-- `munmap_vma_range`. Every turn of the loop detaches a VMA, so there cannot be more turns than
VMAs unless the list and the tree disagree. -/
def munmapVmaRange (start len : ℕ) :
    Except Oops (Except Errno (Path VmaId × Option VmaId) × VmState) :=
  munmapVmaRangeLoop ((s.mm m).mmap.length + 2) s m start len

/-! ### Mapping a region -/

/-- `mmap_region`. -/
def mmapRegion (file : Option FileId) (addr len : ℕ) (vmFlags : VmFlags)
    (pgoff : ℕ) : Except Oops (Except Errno ℕ × VmState) :=
  match s.currentMm with
  | none => .error .nullDeref
  | some m =>
    match munmapVmaRange s m addr len with
    | .error e => .error e
    | .ok (.error _, s) => .ok (.error .ENOMEM, s)
    | .ok (.ok (place, prev), s) =>
      match vmAreaAlloc s m with
      | (none, s) => .ok (.error .ENOMEM, s)
      | (some v, s) =>
        let a := { s.vma v with
          vmStart := addr, vmEnd := wadd addr len, vmFlags := vmFlags, vmPgoff := pgoff }
        match file with
        | none => .ok (.ok addr, vmaLink (s.setVma v { a with vmOps := none }) m v prev place)
        | some f =>
          match s.fileMmap f with
          | none => .ok (.error .EINVAL, s)
          | some ops =>
            .ok (.ok addr,
              vmaLink (s.setVma v { a with vmFile := some f, vmOps := some ops }) m v prev place)

/-! ### Merging and the heap -/

/-- `is_mergeable_vma`. -/
def isMergeableVma (a : VmArea) (file : Option FileId) (vmFlags : VmFlags) : Bool :=
  a.vmFlags == vmFlags && a.vmFile == file && !(a.vmOps.any VmOps.close)

/-- `is_mergeable_anon_vma`; the chain is that of the VMA, if one is given. -/
def isMergeableAnonVma (anonVma₁ anonVma₂ : Option AnonVmaId) (vma : Option VmArea) : Bool :=
  (anonVma₁.isNone || anonVma₂.isNone) && vma.all (fun a => a.anonVmaChain.length == 1) ||
    anonVma₁ == anonVma₂

/-- `can_vma_merge_before`. -/
def canVmaMergeBefore (a : VmArea) (vmFlags : VmFlags) (anonVma : Option AnonVmaId)
    (file : Option FileId) (vmPgoff : ℕ) : Bool :=
  isMergeableVma a file vmFlags && isMergeableAnonVma anonVma a.anonVma (some a) &&
    a.vmPgoff == vmPgoff

/-- `can_vma_merge_after`. -/
def canVmaMergeAfter (a : VmArea) (vmFlags : VmFlags) (anonVma : Option AnonVmaId)
    (file : Option FileId) (vmPgoff : ℕ) : Bool :=
  isMergeableVma a file vmFlags && isMergeableAnonVma anonVma a.anonVma (some a) &&
    wadd a.vmPgoff a.pages == vmPgoff

/-- The VMA that `vma_merge` takes for the one behind the new area. -/
def mergeNext (endAddr : ℕ) : Option VmaId :=
  (vmaNext s m prev).bind fun area =>
    if s.hi area = endAddr then nextOf (s.mm m).mmap area else some area

/-- Can the new area `[addr, endAddr)` be appended to the VMA before it? -/
def mergesAfter (addr : ℕ) (vmFlags : VmFlags)
    (anonVma : Option AnonVmaId) (file : Option FileId) (pgoff : ℕ) : Option VmaId :=
  prev.filter fun p => s.hi p = addr ∧ canVmaMergeAfter (s.vma p) vmFlags anonVma file pgoff

/-- Can the new area be prepended to the VMA behind it? -/
def mergesBefore (next : Option VmaId) (endAddr : ℕ) (vmFlags : VmFlags)
    (anonVma : Option AnonVmaId) (file : Option FileId) (pgoff : ℕ) : Option VmaId :=
  next.filter fun n => endAddr = s.lo n ∧ canVmaMergeBefore (s.vma n) vmFlags anonVma file pgoff

/-- `vma_merge`. When the area is merged on both sides, the VMA before it is extended to the end of
the one behind it, which stays where it is. -/
def vmaMerge (addr endAddr : ℕ)
    (vmFlags : VmFlags) (anonVma : Option AnonVmaId) (file : Option FileId) (pgoff : ℕ) :
    Option VmaId × VmState :=
  let pglen := pageOf (wsub endAddr addr)
  if hasFlag vmFlags vmSpecial then (none, s)
  else
    let before := mergesBefore s (mergeNext s m prev endAddr) endAddr vmFlags anonVma file
      (wadd pgoff pglen)
    match mergesAfter s prev addr vmFlags anonVma file pgoff with
    | some p =>
      match before.filter fun n =>
          isMergeableAnonVma (s.vma p).anonVma (s.vma n).anonVma none with
      | some n => (some p, vmaAdjust s p (s.lo p) (s.hi n) (s.vma p).vmPgoff)
      | none => (some p, vmaAdjust s p (s.lo p) endAddr (s.vma p).vmPgoff)
    | none =>
      match before with
      | none => (none, s)
      | some n =>
        let area := (vmaNext s m prev).getD n
        match prev.filter fun p => addr < s.hi p with
        | some p => (some area, vmaAdjust s p (s.lo p) addr (s.vma p).vmPgoff)
        | none => (some n, vmaAdjust s area addr (s.hi n) (wsub (s.vma n).vmPgoff pglen))

/-- `security_vm_enough_memory_mm` under the default policy of overcommitting by guess. -/
def vmEnoughMemory (pages : ℕ) : Bool := pages ≤ s.totalPages

/-- `VM_DATA_DEFAULT_FLAGS`, which depends on the personality of the current task. -/
def vmDataDefaultFlags : VmFlags :=
  vmRead ||| vmWrite ||| (if (s.task s.current).readImpliesExec then vmExec else 0) |||
    vmMayread ||| vmMaywrite ||| vmMayexec

/-- The flags of a heap area. -/
def brkFlags (flags : VmFlags) : VmFlags :=
  flags ||| vmDataDefaultFlags s ||| vmAccount ||| (s.mm m).defFlags

/-- The second half of `do_brk_flags`, when the range is free: extend a neighbour or link a new
VMA. -/
def brkMap (flags : VmFlags) (place : Path VmaId)
    (prev : Option VmaId) : Except Errno ℕ × VmState :=
  if sysctlMaxMapCount < (s.mm m).mapCount then (.error .ENOMEM, s)
  else if !vmEnoughMemory s (pageOf len) then (.error .ENOMEM, s)
  else
    match vmaMerge s m prev addr (wadd addr len) flags none none (pageOf addr) with
    | (some _, s) => (.ok 0, s)
    | (none, s) =>
      match vmAreaAlloc s m with
      | (none, s) => (.error .ENOMEM, s)
      | (some v, s) =>
        (.ok 0, vmaLink (s.setVma v { s.vma v with
          vmOps := none, vmStart := addr, vmEnd := wadd addr len, vmPgoff := pageOf addr,
          vmFlags := flags }) m v prev place)

/-- `do_brk_flags`. -/
def doBrkFlags (flags : VmFlags) : Except Oops (Except Errno ℕ × VmState) :=
  match s.currentMm with
  | none => .error .nullDeref
  | some m =>
    if flags &&& ~~~ vmExec ≠ 0 then .ok (.error .EINVAL, s)
    else
      let flags := brkFlags s m flags
      let (mapped, s) := getUnmappedArea s m addr len true
      if isErrValue mapped then
        -- the error code of the search is handed on
        .ok (.error (if mapped = errWord .EINVAL then .EINVAL else .ENOMEM), s)
      else
        match munmapVmaRange s m addr len with
        | .error e => .error e
        | .ok (.error _, s) => .ok (.error .ENOMEM, s)
        | .ok (.ok (place, prev), s) => .ok (brkMap s m addr len flags place prev)

/-! ### Inserting a prepared VMA -/

/-- `insert_vm_struct`. -/
def insertVmStruct : Except Oops (Except Errno ℕ × VmState) :=
  match findVmaLinks s m (s.lo v) (s.hi v) with
  | none => .ok (.error .ENOMEM, s)
  | some (place, prev) =>
    if hasFlag (s.vma v).vmFlags vmAccount ∧ !vmEnoughMemory s (s.vma v).pages then
      .ok (.error .ENOMEM, s)
    else if (s.vma v).isAnonymous then
      if (s.vma v).anonVma.isSome then .error .bug
      else
        let s := s.setVma v { s.vma v with vmPgoff := pageOf (s.lo v) }
        .ok (.ok 0, vmaLink s m v prev place)
    else .ok (.ok 0, vmaLink s m v prev place)

/-- What the callers of `insert_vm_struct` do (`__install_special_mapping`, `__bprm_mm_init`):
allocate a VMA, fill it in, and insert it. -/
def installVma (a : VmArea) : Except Oops (Except Errno ℕ × VmState) :=
  match vmAreaAlloc s m with
  | (none, s) => .ok (.error .ENOMEM, s)
  | (some v, s) => insertVmStruct (s.setVma v { a with vmMm := m }) m v

/-! ### Growing a stack -/

/-- `anon_vma_compatible`. -/
def anonVmaCompatible (a b : VmArea) : Bool :=
  a.vmEnd == b.vmStart && a.vmFile == b.vmFile &&
    (a.vmFlags ^^^ b.vmFlags) &&& ~~~ vmAccessFlags == 0 &&
    b.vmPgoff == wadd a.vmPgoff (pageOf (wsub b.vmStart a.vmStart))

/-- `reusable_anon_vma`. -/
def reusableAnonVma (old a b : VmArea) : Option AnonVmaId :=
  if anonVmaCompatible a b && old.anonVmaChain.length == 1 then old.anonVma else none

/-- `find_mergeable_anon_vma`. -/
def findMergeableAnonVma : Option AnonVmaId :=
  let mmap := (s.mm (s.vma v).vmMm).mmap
  ((nextOf mmap v).bind fun n => reusableAnonVma (s.vma n) (s.vma v) (s.vma n)).or
    ((prevOf mmap v).bind fun p => reusableAnonVma (s.vma p) (s.vma p) (s.vma v))

/-- Attach an `anon_vma` to a VMA. -/
def setAnonVma (a : AnonVmaId) : VmState :=
  anonVmaChainLink (s.setVma v { s.vma v with anonVma := some a }) v a

/-- `anon_vma_prepare`. -/
def anonVmaPrepare : Except Errno Unit × VmState :=
  if (s.vma v).anonVma.isSome then (.ok (), s)
  else
    match s.kmemCacheAlloc with
    | (false, s) => (.error .ENOMEM, s)
    | (true, s) =>
      match findMergeableAnonVma s v with
      | some a => (.ok (), setAnonVma s v a)
      | none =>
        match s.kmemCacheAlloc with
        | (false, s) => (.error .ENOMEM, s)
        | (true, s) =>
          (.ok (), { setAnonVma s v s.nextAnonVma with nextAnonVma := s.nextAnonVma + 1 })

/-- `acct_stack_growth`. -/
def acctStackGrowth (size grow : ℕ) : Except Errno Unit :=
  if (s.task s.current).rlimitStack < size then .error .ENOMEM
  else if !vmEnoughMemory s grow then .error .ENOMEM
  else .ok ()

/-- The stack guard gap of `expand_downwards`; the subtraction is unsigned. -/
def guardGapViolated (address : ℕ) : Bool :=
  (prevOf (s.mm (s.vma v).vmMm).mmap v).any fun p =>
    !hasFlag (s.vma p).vmFlags vmGrowsdown && (s.vma p).isAccessible &&
      wsub address (s.hi p) < stackGuardGap

/-- `expand_downwards`. -/
def expandDownwards (address : ℕ) : Except Errno ℕ × VmState :=
  let address := pageMask address
  if address < mmapMinAddr then (.error .EPERM, s)
  else if guardGapViolated s v address then (.error .ENOMEM, s)
  else
    match anonVmaPrepare s v with
    | (.error _, s) => (.error .ENOMEM, s)
    | (.ok (), s) =>
      if address < s.lo v then
        let grow := pageOf (s.lo v - address)
        if grow ≤ (s.vma v).vmPgoff then
          match acctStackGrowth s (wsub (s.hi v) address) grow with
          | .error e => (.error e, s)
          | .ok () =>
            (.ok 0, s.setVma v { s.vma v with
              vmStart := address, vmPgoff := (s.vma v).vmPgoff - grow })
        else (.error .ENOMEM, s)
      else (.ok 0, s)

end MinimalKernel.Mm
