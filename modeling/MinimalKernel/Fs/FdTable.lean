import MinimalKernel.Basic
import MinimalKernel.Lib.Bitmap
import Mathlib.Data.Nat.Size

/-!
# The table of file descriptors

`struct files_struct` is shared by the tasks of a thread group. Its descriptors are in a table with
three bitmaps: which descriptors are taken, which are closed on exec, and which words of the first
bitmap are full. The table grows: a task that needs a larger one sets `resize_in_progress`, drops
`file_lock`, allocates, waits for the tasks that are installing a file without the lock, takes the
lock again and copies.

A step of a task is a whole section under `file_lock`, or one access of `fd_install`, which goes
without the lock unless the table is being resized. A bitmap is a function from positions to bits,
and what `kvmalloc` returns holds arbitrary bits.

## Main definitions

* `FdTable`, `Files` — the table and the structure around it
* `findNextFd`, `allocFd` — the search, and one pass of the loop of `alloc_fd` under the lock
* `copyFdtable`, `allocFdtable`, `expandFdtable` — growing the table
* `FdState.step`, `FdStep` — the tasks that share the table
-/

namespace MinimalKernel.Fs

open Function Lib

/-- `BITS_PER_LONG`. -/
def bitsPerLong : ℕ := 32

/-- `sysctl_nr_open`. -/
def sysctlNrOpen : ℕ := 1024 * 1024

/-- `NR_OPEN_DEFAULT`. -/
def nrOpenDefault : ℕ := bitsPerLong

/-- `O_CLOEXEC`. -/
def oCloexec : ℕ := 0x80000

/-- `BITS_TO_LONGS`. -/
def bitsToLongs (nr : ℕ) : ℕ := (nr + bitsPerLong - 1) / bitsPerLong

/-- `BITBIT_SIZE`, in bytes. -/
def bitbitSize (nr : ℕ) : ℕ := bitsToLongs (bitsToLongs nr) * 4

/-- `roundup_pow_of_two`. -/
def roundupPowOfTwo (n : ℕ) : ℕ := 2 ^ (n - 1).size

/-- `struct fdtable`. -/
structure FdTable (F : Type*) where
  maxFds : ℕ
  fd : ℕ → Option F
  closeOnExec : ℕ → Bool
  openFds : ℕ → Bool
  fullFdsBits : ℕ → Bool

/-- `struct files_struct`. -/
structure Files (F : Type*) where
  fdt : FdTable F
  nextFd : ℕ
  resizeInProgress : Bool

variable {F : Type*}

/-- `init_files`, and the table of a task that has no file. -/
def initFiles : Files F where
  fdt :=
    { maxFds := nrOpenDefault
      fd := fun _ => none
      closeOnExec := fun _ => false
      openFds := fun _ => false
      fullFdsBits := fun _ => false }
  nextFd := 0
  resizeInProgress := false

/-! ### Bits -/

variable (fdt : FdTable F)

/-- `__set_open_fd`. -/
def setOpenFd (fd : ℕ) : FdTable F :=
  let openFds := update fdt.openFds fd true
  let word := fd / bitsPerLong
  { fdt with
    openFds := openFds
    fullFdsBits :=
      if ∀ j < bitsPerLong, openFds (word * bitsPerLong + j) then
        update fdt.fullFdsBits word true
      else fdt.fullFdsBits }

/-- `__clear_open_fd`. -/
def clearOpenFd (fd : ℕ) : FdTable F :=
  { fdt with
    openFds := update fdt.openFds fd false
    fullFdsBits := update fdt.fullFdsBits (fd / bitsPerLong) false }

/-- `__set_close_on_exec` or `__clear_close_on_exec`. -/
def setCloseOnExec (fd : ℕ) (b : Bool) : FdTable F :=
  { fdt with closeOnExec := update fdt.closeOnExec fd b }

/-- The pointer `fdt->fd[fd]` is written. -/
def setFd (fd : ℕ) (file : Option F) : FdTable F :=
  { fdt with fd := update fdt.fd fd file }

/-- `find_next_fd`. -/
def findNextFd (start : ℕ) : ℕ :=
  let maxfd := fdt.maxFds
  let bitbit := findNext (fun i => !fdt.fullFdsBits i) (maxfd / bitsPerLong) (start / bitsPerLong) *
    bitsPerLong
  if maxfd < bitbit then maxfd
  else findNext (fun i => !fdt.openFds i) maxfd (if start < bitbit then bitbit else start)

/-! ### Growing the table -/

/-- `memcpy` of the first `cpy` bytes of a bitmap and `memset` of the next `set` bytes to zero. -/
def copyBits (new old : ℕ → Bool) (cpy set : ℕ) : ℕ → Bool := fun i =>
  if i < cpy * 8 then old i else if i < (cpy + set) * 8 then false else new i

/-- `copy_fd_bitmaps`. -/
def copyFdBitmaps (nfdt ofdt : FdTable F) (count : ℕ) : FdTable F :=
  let cpy := count / 8
  let set := (nfdt.maxFds - count) / 8
  let bitbit := bitbitSize count
  { nfdt with
    openFds := copyBits nfdt.openFds ofdt.openFds cpy set
    closeOnExec := copyBits nfdt.closeOnExec ofdt.closeOnExec cpy set
    fullFdsBits := copyBits nfdt.fullFdsBits ofdt.fullFdsBits bitbit
      (bitbitSize nfdt.maxFds - bitbit) }

/-- `copy_fdtable`. -/
def copyFdtable (nfdt ofdt : FdTable F) : FdTable F :=
  let fd := fun i =>
    if i < ofdt.maxFds then ofdt.fd i else if i < nfdt.maxFds then none else nfdt.fd i
  copyFdBitmaps { nfdt with fd := fd } ofdt ofdt.maxFds

/-- The size that `alloc_fdtable` chooses; 256 pointers are a kilobyte. -/
def fdtableSize (nr : ℕ) : ℕ :=
  let size := roundupPowOfTwo (nr / 256 + 1) * 256
  let size := (size + bitsPerLong - 1) / bitsPerLong * bitsPerLong
  if sysctlNrOpen < size then ((sysctlNrOpen - 1) / bitsPerLong + 1) * bitsPerLong else size

/-- `alloc_fdtable` in memory that holds `mem`. -/
def allocFdtable (nr : ℕ) (mem : FdTable F) : FdTable F := { mem with maxFds := fdtableSize nr }

/-- What the first part of `expand_files` finds, with `file_lock` held. -/
inductive Expand
  | ready
  | fails (error : Errno)
  | waits
  | resizes
deriving DecidableEq

variable (files : Files F)

/-- The first part of `expand_files`. -/
def expandFiles (nr : ℕ) : Expand :=
  if nr < files.fdt.maxFds then .ready
  else if sysctlNrOpen ≤ nr then .fails .EMFILE
  else if files.resizeInProgress then .waits
  else .resizes

/-- The second part of `expand_fdtable`, with `file_lock` held again, and the end of
`expand_files`; `mem` is the memory of the new table, if it could be had. -/
def expandFdtable (nr : ℕ) (mem : Option (FdTable F)) : Except Oops (Files F × Except Errno Unit) :=
  match mem with
  | none => .ok ({ files with resizeInProgress := false }, .error .ENOMEM)
  | some mem =>
    let newFdt := allocFdtable nr mem
    if newFdt.maxFds ≤ nr then .ok ({ files with resizeInProgress := false }, .error .EMFILE)
    else if nr < files.fdt.maxFds ∨ newFdt.maxFds < files.fdt.maxFds then .error .bug
    else .ok ({ files with
      fdt := copyFdtable newFdt files.fdt
      resizeInProgress := false }, .ok ())

/-! ### The calls -/

/-- How a section under `file_lock` ends: the call returns, or it waits for another task that
resizes the table, or it is to resize the table itself. -/
inductive Ending
  | returns (result : Except Errno ℕ)
  | waits (nr : ℕ)
  | resizes (nr : ℕ)

/-- The descriptor that `alloc_fd` tries. -/
def firstFd (start : ℕ) : ℕ :=
  let fd := if start < files.nextFd then files.nextFd else start
  if fd < files.fdt.maxFds then findNextFd files.fdt fd else fd

/-- `alloc_fd` takes the descriptor `fd`. -/
def takeFd (start fd flags : ℕ) : Files F :=
  { files with
    nextFd := if start ≤ files.nextFd then fd + 1 else files.nextFd
    -- a file that were there would be overwritten, with a message
    fdt := setFd (setCloseOnExec (setOpenFd files.fdt fd) fd (flags &&& oCloexec ≠ 0)) fd none }

/-- The loop of `alloc_fd` from `repeat` on. -/
def allocFd (start stop flags : ℕ) : Files F × Ending :=
  let fd := firstFd files start
  if stop ≤ fd then (files, .returns (.error .EMFILE))
  else
    match expandFiles files fd with
    | .fails error => (files, .returns (.error error))
    | .waits => (files, .waits fd)
    | .resizes => ({ files with resizeInProgress := true }, .resizes fd)
    | .ready => (takeFd files start fd flags, .returns (.ok fd))

/-- `__put_unused_fd`. -/
def putUnusedFd (fd : ℕ) : Files F :=
  { files with
    fdt := clearOpenFd files.fdt fd
    nextFd := if fd < files.nextFd then fd else files.nextFd }

/-- `files_lookup_fd_locked`. -/
def filesLookupFd (fd : ℕ) : Option F :=
  if fd < files.fdt.maxFds then files.fdt.fd fd else none

/-- `pick_file`. -/
def pickFile (fd : ℕ) : Files F × Option F :=
  if files.fdt.maxFds ≤ fd then (files, none)
  else
    match files.fdt.fd fd with
    | none => (files, none)
    | some file =>
      (putUnusedFd { files with fdt := setFd files.fdt fd none } fd, some file)

/-- `do_dup2`. -/
def doDup2 (file : F) (fd flags : ℕ) : Files F × Except Errno ℕ :=
  if files.fdt.fd fd = none ∧ files.fdt.openFds fd then (files, .error .EBUSY)
  else
    ({ files with
      fdt := setCloseOnExec (setOpenFd (setFd files.fdt fd (some file)) fd) fd
        (flags &&& oCloexec ≠ 0) }, .ok fd)

/-- `ksys_dup3` after `expand_files`, whose answer is `err`. -/
def dupExpanded (oldfd newfd flags : ℕ) (err : Except Errno Unit) : Files F × Except Errno ℕ :=
  match filesLookupFd files oldfd with
  | none => (files, .error .EBADF)
  | some file =>
    match err with
    | .error .EMFILE => (files, .error .EBADF)
    | .error e => (files, .error e)
    | .ok () => doDup2 files file newfd flags

/-- The bits of one word of `close_on_exec`, in the inner loop of `do_close_on_exec`. -/
def closeBits (files : Files F) (fd : ℕ) : List Bool → Files F
  | [] => files
  | b :: set =>
    let files := if b then
        match files.fdt.fd fd with
        | none => files
        | some _ => putUnusedFd { files with fdt := setFd files.fdt fd none } fd
      else files
    closeBits files (fd + 1) set

/-- The outer loop of `do_close_on_exec` from word `i` on, over `n` words. -/
def closeWords (files : Files F) (i : ℕ) : ℕ → Files F
  | 0 => files
  | n + 1 =>
    let fd := i * bitsPerLong
    let set := (List.range bitsPerLong).map fun j => files.fdt.closeOnExec (fd + j)
    let cleared := { files with
      fdt := { files.fdt with
        closeOnExec := fun k => if k / bitsPerLong = i then false else files.fdt.closeOnExec k } }
    closeWords (closeBits cleared fd set) (i + 1) n

/-- `do_close_on_exec`. -/
def doCloseOnExec : Files F :=
  closeWords files 0 (bitsToLongs files.fdt.maxFds)

/-! ### Tasks -/

/-- A call that can need a larger table. -/
inductive FdCall
  | allocFd (start stop flags : ℕ)
  | dup3 (oldfd newfd flags : ℕ)
deriving DecidableEq

/-- The first section of a call under `file_lock`. -/
def FdCall.enter : FdCall → Files F × Ending
  | .allocFd start stop flags => Fs.allocFd files start stop flags
  | .dup3 oldfd newfd flags =>
    match expandFiles files newfd with
    | .waits => (files, .waits newfd)
    | .resizes => ({ files with resizeInProgress := true }, .resizes newfd)
    | .fails error =>
      let done := dupExpanded files oldfd newfd flags (.error error)
      (done.1, .returns done.2)
    | .ready =>
      let done := dupExpanded files oldfd newfd flags (.ok ())
      (done.1, .returns done.2)

/-- A call goes on after `expand_files` has dropped `file_lock` and taken it again. -/
def FdCall.resume (err : Except Errno Unit) : FdCall → Files F × Ending
  | .allocFd start stop flags =>
    match err with
    | .error e => (files, .returns (.error e))
    | .ok () => Fs.allocFd files start stop flags
  | .dup3 oldfd newfd flags =>
    let done := dupExpanded files oldfd newfd flags err
    (done.1, .returns done.2)

/-- Where a task is. -/
inductive FdPc (F : Type*)
  | idle
  | returned (call : FdCall) (result : Except Errno ℕ)
  | enter (call : FdCall)
  /-- waits in `wait_event` -/
  | waiting (nr : ℕ) (call : FdCall)
  /-- in `expand_fdtable`, without the lock -/
  | resizing (nr : ℕ) (call : FdCall)
  /-- `fd_install`: reads `resize_in_progress`, reads `files->fdt`, writes -/
  | install (fd : ℕ) (file : F)
  | installRcu (fd : ℕ) (file : F)
  | installStore (table : ℕ) (fd : ℕ) (file : F)
  | installLocked (fd : ℕ) (file : F)
  /-- has run into `BUG_ON` -/
  | bug

/-- The place after a section. -/
def Ending.pc (call : FdCall) : Ending → FdPc F
  | .returns result => .returned call result
  | .waits nr => .waiting nr call
  | .resizes nr => .resizing nr call

/-- The shared structure and its tasks. `table` counts the tables there have been, so that a task
can hold a pointer to an old one; `reserved` are the descriptors that `alloc_fd` has returned and
that have been neither used in `fd_install` nor given back. -/
structure FdState (T F : Type*) where
  files : Files F
  table : ℕ
  reserved : ℕ → Bool
  pc : T → FdPc F

variable {T : Type*} [DecidableEq T]

def fdInit : FdState T F where
  files := initFiles
  table := 0
  reserved := fun _ => false
  pc := fun _ => .idle

namespace FdState

variable (s : FdState T F)

def goto (t : T) (p : FdPc F) : FdState T F :=
  { s with pc := update s.pc t p }

/-- What `alloc_fd` returns belongs to the caller. -/
def reserve (reserved : ℕ → Bool) : FdCall → Ending → ℕ → Bool
  | .allocFd _ _ _, .returns (.ok fd) => update reserved fd true
  | _, _ => reserved

/-- The end of a section of `call`. -/
def finish (t : T) (call : FdCall) (done : Files F × Ending) : FdState T F :=
  { s with files := done.1, reserved := reserve s.reserved call done.2 }.goto t (done.2.pc call)

/-- The file is written into table number `table`. -/
def install (t : T) (table fd : ℕ) (file : F) : FdState T F :=
  if table ≠ s.table then
    -- the write goes to a table that is no longer in use
    s.goto t .idle
  else
    match s.files.fdt.fd fd with
    | some _ => s.goto t .bug
    | none =>
      { s with files := { s.files with fdt := setFd s.files.fdt fd (some file) } }.goto t .idle

/-- The next step of task `t`. The memory `mem` is what `alloc_fdtable` gets. -/
def step (t : T) (mem : Option (FdTable F)) : Option (FdState T F) :=
  match s.pc t with
  | .idle | .returned _ _ | .bug => none
  | .enter call => some (s.finish t call (call.enter s.files))
  | .waiting nr call =>
    if s.files.resizeInProgress then none
    else
      match expandFiles s.files nr with
      | .ready => some (s.finish t call (call.resume s.files (.ok ())))
      | .fails error => some (s.finish t call (call.resume s.files (.error error)))
      | .waits => some (s.goto t (.waiting nr call))
      | .resizes =>
        some ({ s with files := { s.files with resizeInProgress := true } }.goto t
          (.resizing nr call))
  | .resizing nr call =>
    match expandFdtable s.files nr mem with
    | .error _ => some (s.goto t .bug)
    | .ok (files, .ok ()) =>
      some ({ s with table := s.table + 1 }.finish t call (call.resume files (.ok ())))
    | .ok (files, .error error) =>
      some (s.finish t call (call.resume files (.error error)))
  | .install fd file =>
    some (s.goto t (if s.files.resizeInProgress then .installLocked fd file
      else .installRcu fd file))
  | .installRcu fd file => some (s.goto t (.installStore s.table fd file))
  | .installStore table fd file => some (s.install t table fd file)
  | .installLocked fd file => some (s.install t s.table fd file)

end FdState

/-- The task is outside. -/
def FdPc.outside : FdPc F → Bool
  | .idle | .returned _ _ => true
  | _ => false

/-- The task is between `rcu_read_lock_sched` and `rcu_read_unlock_sched`. -/
def FdPc.inRcu : FdPc F → Bool
  | .installRcu _ _ | .installStore _ _ _ => true
  | _ => false

/-- The task is in `expand_fdtable`. -/
def FdPc.isResizing : FdPc F → Bool
  | .resizing _ _ => true
  | _ => false

/-- `ksys_dup3` up to `file_lock`; `limit` is `RLIMIT_NOFILE`. -/
def ksysDup3 (oldfd newfd flags limit : ℕ) : FdPc F :=
  if flags ≠ 0 ∧ flags ≠ oCloexec then .returned (.dup3 oldfd newfd flags) (.error .EINVAL)
  else if oldfd = newfd then .returned (.dup3 oldfd newfd flags) (.error .EINVAL)
  else if limit ≤ newfd then .returned (.dup3 oldfd newfd flags) (.error .EBADF)
  else .enter (.dup3 oldfd newfd flags)

/-- The system call `dup2`. -/
def dup2 (oldfd newfd limit : ℕ) : FdPc F :=
  if newfd = oldfd then
    .returned (.dup3 oldfd newfd 0)
      (if filesLookupFd files oldfd = none then .error .EBADF else .ok oldfd)
  else ksysDup3 oldfd newfd 0 limit

inductive FdOp (T F : Type*)
  | allocFd (t : T) (start stop flags : ℕ)
  | dup3 (t : T) (oldfd newfd flags limit : ℕ)
  | dup2 (t : T) (oldfd newfd limit : ℕ)
  | fdInstall (t : T) (fd : ℕ) (file : F)
  | putUnusedFd (t : T) (fd : ℕ)
  | closeFd (t : T) (fd : ℕ)
  | doCloseOnExec (t : T)
  | step (t : T) (mem : Option (FdTable F))

/-- What the tasks can do. A task installs a file in, or gives back, a descriptor that `alloc_fd`
has returned; `do_close_on_exec` runs after `unshare_files`, so that no other task is inside; and
`synchronize_rcu` keeps a task that resizes the table waiting for those that are installing a file
without the lock. -/
inductive FdStep : FdState T F → FdOp T F → FdState T F → Prop
  | allocFd {s : FdState T F} {t : T} {start stop flags : ℕ} (h : (s.pc t).outside) :
      FdStep s (.allocFd t start stop flags) (s.goto t (.enter (.allocFd start stop flags)))
  | dup3 {s : FdState T F} {t : T} {oldfd newfd flags limit : ℕ} (h : (s.pc t).outside) :
      FdStep s (.dup3 t oldfd newfd flags limit) (s.goto t (ksysDup3 oldfd newfd flags limit))
  | dup2 {s : FdState T F} {t : T} {oldfd newfd limit : ℕ} (h : (s.pc t).outside) :
      FdStep s (.dup2 t oldfd newfd limit) (s.goto t (Fs.dup2 s.files oldfd newfd limit))
  | fdInstall {s : FdState T F} {t : T} {fd : ℕ} {file : F} (h : (s.pc t).outside)
      (hfd : s.reserved fd) :
      FdStep s (.fdInstall t fd file)
        ({ s with reserved := update s.reserved fd false }.goto t (.install fd file))
  | putUnusedFd {s : FdState T F} {t : T} {fd : ℕ} (h : (s.pc t).outside) (hfd : s.reserved fd) :
      FdStep s (.putUnusedFd t fd)
        { s with
          files := Fs.putUnusedFd s.files fd
          reserved := update s.reserved fd false }
  | closeFd {s : FdState T F} {t : T} {fd : ℕ} (h : (s.pc t).outside) :
      FdStep s (.closeFd t fd) { s with files := (pickFile s.files fd).1 }
  | doCloseOnExec {s : FdState T F} {t : T} (h : ∀ u, (s.pc u).outside) :
      FdStep s (.doCloseOnExec t) { s with files := Fs.doCloseOnExec s.files }
  | step {s s' : FdState T F} {t : T} {mem : Option (FdTable F)}
      (hrcu : (s.pc t).isResizing → ∀ u, (s.pc u).inRcu = false)
      (h : s.step t mem = some s') : FdStep s (.step t mem) s'

end MinimalKernel.Fs
