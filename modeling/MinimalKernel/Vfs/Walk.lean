import MinimalKernel.Lib.Outcome
import MinimalKernel.Vfs.Tree

/-!
# The path walk

The path walk of `fs/namei.c`, from `path_init` to `filename_lookup`. A walk runs in one of two
modes. In RCU mode it takes no references and checks sequence counters instead; when it cannot go
on it tries to take references for what it holds (`try_to_unlazy`) and continues in reference mode,
or gives up with `ECHILD`.

The walk is written over the operations `Ops σ` on a dentry cache with state `σ`. Nested symbolic
links are kept on the stack `nd->stack`, an array of two entries that is replaced by one of
`MAXSYMLINKS` entries when it is full; every access to it is checked against its size.

Nothing else runs during a walk, so the tests of `mount_lock`, `rename_lock` and `fs->seq` against
values read before never fail and are left out. References to mounts are not counted. The counter
`nd->seq` is not set by `path_init` for a relative path or a preset root: it holds what happened to
be on the kernel stack.

## Main definitions

* `LookupFlags`, `Nameidata`, `Walk` — the flags, the state and the monad of a walk
* `Ops` — the operations on the dentry cache
* `tryToUnlazy`, `tryToUnlazyNext` — leaving RCU mode
* `handleMounts`, `stepInto`, `pickLink`, `handleDots`, `walkComponent` — one component
* `linkPathWalk`, `pathLookupat`, `filenameLookup` — a whole path
-/

namespace MinimalKernel.Vfs

/-! ### The state of a walk -/

/-- The `LOOKUP_` flags that the walk reads. -/
structure LookupFlags where
  follow : Bool := false
  directory : Bool := false
  down : Bool := false
  mountpoint : Bool := false
  rcu : Bool := false
  cached : Bool := false
  noSymlinks : Bool := false
  noXdev : Bool := false
  beneath : Bool := false
  inRoot : Bool := false
  deriving DecidableEq, Repr

/-- `LOOKUP_IS_SCOPED`. -/
def LookupFlags.isScoped (f : LookupFlags) : Bool := f.beneath || f.inRoot

/-- The type of the last component, `nd->last_type`. -/
inductive LastType
  | norm
  | root
  | dot
  | dotdot
  deriving DecidableEq, Repr

/-- The flags of `walk_component` and `step_into`: no flag, `WALK_MORE`, `WALK_TRAILING` or
`WALK_NOFOLLOW`. -/
inductive WalkFlag
  | nested
  | more
  | trailing
  | nofollow
  deriving DecidableEq, Repr

/-- `struct saved`: a symbolic link that is being followed, and what is left of the path that it
interrupts. -/
structure Saved where
  link : Path
  seq : ℕ
  name : Name
  deriving DecidableEq, Repr

/-- `struct nameidata`. `last` is the last component found, and `lastRest` the string behind it;
`dfd` is `none` for `AT_FDCWD`. -/
structure Nameidata where
  path : Path
  last : Name
  lastRest : Name
  lastType : LastType
  root : Path
  inode : Option InodeId
  flags : LookupFlags
  /-- `ND_ROOT_PRESET`. -/
  rootPreset : Bool
  /-- `ND_ROOT_GRABBED`. -/
  rootGrabbed : Bool
  seq : ℕ
  rootSeq : ℕ
  depth : ℕ
  totalLinkCount : ℕ
  /-- The array `nd->stack`, with as many entries as are allocated. -/
  stack : List Saved
  name : Name
  dfd : Option ℕ
  deriving DecidableEq, Repr

/-- `EMBEDDED_LEVELS`. -/
def embeddedLevels : ℕ := 2

/-- Why a walk stops. -/
inductive Stop
  | errno (e : Errno)
  | oops (o : Oops)
  /-- The model has run out of steps. -/
  | fuel
  deriving DecidableEq, Repr

/-- The operations on a dentry cache with state `σ`. -/
structure Ops (σ : Type) where
  /-- What the state looks like to a reader. -/
  tree : σ → Tree
  dget : DentryId → σ → σ
  dput : DentryId → σ → σ
  /-- `lockref_get_not_dead`. -/
  getNotDead : DentryId → σ → Bool × σ
  /-- `d_lookup` and `__d_lookup`, which take a reference to what they find. -/
  dLookup : DentryId → Name → σ → Option DentryId × σ
  /-- `__d_lookup_rcu`. -/
  dLookupRcu : DentryId → Name → σ → Option DentryId
  /-- `d_alloc_parallel`. -/
  dAllocParallel : DentryId → Name → σ → Except Stop DentryId × σ
  /-- `d_in_lookup`. -/
  dInLookup : DentryId → σ → Bool
  /-- `i_op->lookup` of a directory, for a dentry. -/
  lookup : DentryId → DentryId → σ → Except Errno (Option DentryId) × σ
  /-- `d_lookup_done`. -/
  dLookupDone : DentryId → σ → σ
  /-- `i_op->create` of a directory, for a dentry and with a mode. -/
  create : Cred → DentryId → DentryId → BitVec 16 → σ → Except Errno Unit × σ
  /-- Can the larger stack be allocated? -/
  kmalloc : σ → Bool × σ

/-- The state of a walk: `created` is `FMODE_CREATED` of the file that is being opened. -/
structure WalkState (σ : Type) where
  nd : Nameidata
  fs : σ
  created : Bool

/-- A computation that changes the state of a walk and may stop. -/
abbrev Walk (σ : Type) := EStateM Stop (WalkState σ)

variable {σ α β : Type}

/-- The `nameidata`. -/
def getNd : Walk σ Nameidata := do
  return (← get).nd

/-- Change the `nameidata`. -/
def modifyNd (f : Nameidata → Nameidata) : Walk σ Unit :=
  modify fun s => { s with nd := f s.nd }

/-- Read the dentry cache. -/
def readFs (f : σ → α) : Walk σ α := do
  return f (← get).fs

/-- Carry out an operation on the dentry cache. -/
def onFs (f : σ → α × σ) : Walk σ α := fun s => .ok (f s.fs).1 { s with fs := (f s.fs).2 }

/-- Change the dentry cache. -/
def modifyFs (f : σ → σ) : Walk σ Unit :=
  modify fun s => { s with fs := f s.fs }

/-- Return an error. -/
def fail (e : Errno) : Walk σ α := throw (.errno e)

/-- Follow a pointer. -/
def deref : Option α → Walk σ α
  | some a => pure a
  | none => throw (.oops .nullDeref)

/-- Turn a returned error into one of the walk. -/
def ofExcept : Except Errno α → Walk σ α
  | .ok a => pure a
  | .error e => fail e

/-- Run `x` if the condition holds. -/
def onlyIf (p : Prop) [Decidable p] (x : Walk σ Unit) : Walk σ Unit := if p then x else pure ()

/-- Run `next` if `first` fails with the error `e`. -/
def retryOn (e : Errno) (first next : Walk σ α) : Walk σ α := fun s =>
  match first s with
  | .error (.errno e') t => if e' = e then next t else .error (.errno e') t
  | r => r

/-- Run `last` at the end, whether `body` has failed or not. -/
def andFinally (body : Walk σ α) (last : Walk σ Unit) : Walk σ α := fun s =>
  match body s with
  | .ok a t =>
    match last t with
    | .ok () u => .ok a u
    | .error e u => .error e u
  | .error e t =>
    match last t with
    | .ok () u => .error e u
    | .error e' u => .error e' u

/-- An entry of the stack. -/
def getSaved (i : ℕ) : Walk σ Saved := do
  match (← getNd).stack[i]? with
  | some x => pure x
  | none => throw (.oops .wildAccess)

/-- Overwrite an entry of the stack. -/
def setSaved (i : ℕ) (x : Saved) : Walk σ Unit := do
  if i < (← getNd).stack.length then
    modifyNd fun nd => { nd with stack := nd.stack.set i x }
  else throw (.oops .wildAccess)

variable (V : Ops σ) (task : Task)

/-- What the state looks like now. -/
def getTree : Walk σ Tree := readFs V.tree

section Apply

variable (s : WalkState σ) {p : Prop}

@[simp] theorem getNd_apply : getNd s = .ok s.nd s := rfl

@[simp] theorem modifyNd_apply (f : Nameidata → Nameidata) :
    modifyNd f s = .ok () { s with nd := f s.nd } := rfl

@[simp] theorem getNd_bind (f : Nameidata → Walk σ α) : (getNd >>= f) s = f s.nd s := rfl

@[simp] theorem modifyNd_bind (f : Nameidata → Nameidata) (g : Unit → Walk σ α) :
    (modifyNd f >>= g) s = g () { s with nd := f s.nd } := rfl

@[simp] theorem deref_some_bind (b : β) (f : β → Walk σ α) : (deref (some b) >>= f) = f b := rfl

@[simp] theorem onlyIf_true [Decidable p] (h : p) (x : Walk σ Unit) :
    onlyIf p x = x := if_pos h

@[simp] theorem onlyIf_false [Decidable p] (h : ¬ p) (x : Walk σ Unit) :
    onlyIf p x = pure () := if_neg h

theorem onlyIf_ok [Decidable p] {x : Walk σ Unit} {s : WalkState σ} (h : x s = .ok () s) :
    onlyIf p x s = .ok () s := by
  unfold onlyIf
  split
  · exact h
  · rfl

@[simp] theorem onFs_apply (f : σ → α × σ) :
    onFs f s = .ok (f s.fs).1 { s with fs := (f s.fs).2 } := rfl

@[simp] theorem modifyFs_apply (f : σ → σ) : modifyFs f s = .ok () { s with fs := f s.fs } := rfl

@[simp] theorem deref_some (a : α) : (deref (some a) : Walk σ α) = pure a := rfl

@[simp] theorem getTree_apply : getTree V s = .ok (V.tree s.fs) s := rfl

theorem getSaved_apply (i : ℕ) : getSaved i s = match s.nd.stack[i]? with
    | some x => .ok x s
    | none => .error (.oops .wildAccess) s := by
  unfold getSaved
  simp only [Lib.bind_apply, getNd_apply]
  cases s.nd.stack[i]? <;> rfl

theorem setSaved_apply (i : ℕ) (x : Saved) : setSaved i x s =
    if i < s.nd.stack.length then
      .ok () { s with nd := { s.nd with stack := s.nd.stack.set i x } }
    else .error (.oops .wildAccess) s := by
  unfold setSaved
  simp only [Lib.bind_apply, getNd_apply, Lib.ite_apply]
  rfl

end Apply

/-! ### References -/

/-- `dput` of a pointer that may be null. -/
def dputPtr : Option DentryId → Walk σ Unit
  | some d => modifyFs (V.dput d)
  | none => pure ()

/-- `dget` of a pointer that may be null. -/
def dgetPtr : Option DentryId → Walk σ Unit
  | some d => modifyFs (V.dget d)
  | none => pure ()

/-- `path_put`. -/
def pathPut (p : Path) : Walk σ Unit := dputPtr V p.dentry

/-- `path_get`. -/
def pathGet (p : Path) : Walk σ Unit := dgetPtr V p.dentry

/-- `drop_links`, which touches the entries of the stack that are in use. -/
def dropLinks : Walk σ Unit := do
  let nd ← getNd
  if nd.depth ≤ nd.stack.length then pure () else throw (.oops .wildAccess)

/-- `path_put` of the links on the stack. -/
def putLinks : List Saved → Walk σ Unit
  | [] => pure ()
  | x :: xs => do
    pathPut V x.link
    putLinks xs

/-- The references that `terminate_walk` releases. -/
def putReferences : Walk σ Unit := do
  let nd ← getNd
  if nd.flags.rcu then
    modifyNd fun nd => { nd with flags := { nd.flags with rcu := false } }
  else
    pathPut V nd.path
    putLinks V (nd.stack.take nd.depth)
    onlyIf nd.rootGrabbed do
      pathPut V nd.root
      modifyNd fun nd => { nd with rootGrabbed := false }

/-- `terminate_walk`. -/
def terminateWalk : Walk σ Unit := do
  dropLinks
  putReferences V
  modifyNd fun nd => { nd with depth := 0, path := .null }

/-! ### Leaving RCU mode -/

/-- `legitimize_path`: is the path still what it was at the time of `seq`? The path loses its
dentry if that is dead. -/
def legitimizePath (p : Path) (seq : ℕ) : Walk σ (Bool × Path) := do
  let d ← deref p.dentry
  if ← onFs (V.getNotDead d) then
    let t ← getTree V
    pure ((t.dentry d).seq = seq, p)
  else pure (false, { p with dentry := none })

/-- The loop of `legitimize_links`, from the entry `i` on. -/
def legitimizeLinksFrom : ℕ → ℕ → Walk σ Bool
  | 0, _ => pure true
  | n + 1, i => do
    let last ← getSaved i
    let res ← legitimizePath V last.link last.seq
    if res.1 then legitimizeLinksFrom n (i + 1)
    else
      setSaved i { last with link := res.2 }
      dropLinks
      modifyNd fun nd => { nd with depth := i + 1 }
      pure false

/-- `legitimize_links`. -/
def legitimizeLinks : Walk σ Bool := do
  let nd ← getNd
  if nd.flags.cached then
    dropLinks
    modifyNd fun nd => { nd with depth := 0 }
    pure false
  else legitimizeLinksFrom V nd.depth 0

/-- `legitimize_root`. -/
def legitimizeRoot : Walk σ Bool := do
  let nd ← getNd
  if nd.root.mnt.isNone || nd.rootPreset then pure true
  else
    modifyNd fun nd => { nd with rootGrabbed := true }
    let res ← legitimizePath V nd.root nd.rootSeq
    modifyNd fun nd => { nd with root := res.2 }
    pure res.1

/-- `BUG_ON(!(nd->flags & LOOKUP_RCU))`, and the end of RCU mode. -/
def leaveRcu : Walk σ Unit := do
  if (← getNd).flags.rcu then
    modifyNd fun nd => { nd with flags := { nd.flags with rcu := false } }
  else throw (.oops .bug)

/-- `try_to_unlazy`. -/
def tryToUnlazy : Walk σ Bool := do
  let parent := (← getNd).path.dentry
  leaveRcu
  if ← legitimizeLinks V then
    let nd ← getNd
    let res ← legitimizePath V nd.path nd.seq
    modifyNd fun nd => { nd with path := res.2 }
    if res.1 then
      if ← legitimizeRoot V then
        let t ← getTree V
        let d ← deref parent
        if (← getNd).inode = (t.dentry d).inode then pure true else throw (.oops .bug)
      else pure false
    else pure false
  else
    modifyNd fun nd => { nd with path := .null }
    pure false

/-- `try_to_unlazy_next`. -/
def tryToUnlazyNext (dentry : DentryId) (seq : ℕ) : Walk σ Bool := do
  leaveRcu
  if ← legitimizeLinks V then
    let parent ← deref (← getNd).path.dentry
    if ← onFs (V.getNotDead parent) then
      if ← onFs (V.getNotDead dentry) then
        let t ← getTree V
        if (t.dentry dentry).seq = seq then
          if ← legitimizeRoot V then pure true
          else
            modifyFs (V.dput dentry)
            pure false
        else
          modifyFs (V.dput dentry)
          pure false
      else pure false
    else
      modifyNd fun nd => { nd with path := { nd.path with dentry := none } }
      pure false
  else
    modifyNd fun nd => { nd with path := .null }
    pure false

/-- Leave RCU mode, or give up. -/
def unlazyOrFail : Walk σ Unit := do
  if ← tryToUnlazy V then pure () else fail .ECHILD

/-- `complete_walk`. -/
def completeWalk : Walk σ Unit := do
  let nd ← getNd
  onlyIf nd.flags.rcu do
    onlyIf (nd.rootPreset = false ∧ nd.flags.isScoped = false)
      (modifyNd fun nd => { nd with root := { nd.root with mnt := none } })
    modifyNd fun nd => { nd with flags := { nd.flags with cached := false } }
    unlazyOrFail V

/-! ### The root -/

/-- `set_root`. -/
def setRoot : Walk σ Unit := do
  let nd ← getNd
  if nd.flags.isScoped then fail .ENOTRECOVERABLE
  else if nd.flags.rcu then
    let t ← getTree V
    modifyNd fun nd =>
      { nd with root := task.root.path, rootSeq := (t.dentry task.root.dentry).seq }
  else
    modifyFs (V.dget task.root.dentry)
    modifyNd fun nd => { nd with root := task.root.path, rootGrabbed := true }

/-- `set_root`, unless the root is known. -/
def needRoot : Walk σ Unit := do
  onlyIf ((← getNd).root.mnt = none) (setRoot V task)

/-- `nd_jump_root`. -/
def ndJumpRoot : Walk σ Unit := do
  let nd ← getNd
  if nd.flags.beneath then fail .EXDEV
  else if nd.flags.noXdev && nd.path.mnt.isSome && nd.path.mnt ≠ nd.root.mnt then fail .EXDEV
  else
    needRoot V task
    let nd ← getNd
    let d ← deref nd.root.dentry
    let t ← getTree V
    if nd.flags.rcu then
      modifyNd fun nd =>
        { nd with path := nd.root, inode := (t.dentry d).inode, seq := nd.rootSeq }
      if (t.dentry d).seq = nd.rootSeq then pure () else fail .ECHILD
    else
      pathPut V nd.path
      pathGet V nd.root
      modifyNd fun nd => { nd with path := nd.root, inode := (t.dentry d).inode }

/-! ### Symbolic links -/

/-- `put_link`. -/
def putLink : Walk σ Unit := do
  let nd ← getNd
  if nd.depth = 0 then throw (.oops .wildAccess)
  else
    let last ← getSaved (nd.depth - 1)
    modifyNd fun nd => { nd with depth := nd.depth - 1 }
    onlyIf (nd.flags.rcu = false) (pathPut V last.link)

/-- `nd_alloc_stack`. -/
def ndAllocStack : Walk σ Bool := do
  if ← onFs V.kmalloc then
    modifyNd fun nd =>
      { nd with stack := nd.stack ++ List.replicate (maxSymlinks - nd.stack.length) ⟨.null, 0, []⟩ }
    pure true
  else pure false

variable (link : Path)

/-- The second attempt of `reserve_stack`, outside of RCU mode. -/
def reserveUnlazy (seq : ℕ) : Walk σ (Option Errno × Path) := do
  let res ← legitimizePath V link seq
  let ok ← tryToUnlazy V
  if ok && res.1 then
    if ← ndAllocStack V then pure (none, res.2) else pure (some .ENOMEM, res.2)
  else pure (some .ECHILD, res.2)

/-- `reserve_stack`: returns the error, and the link, which may have lost its dentry. -/
def reserveStack (seq : ℕ) : Walk σ (Option Errno × Path) := do
  let nd ← getNd
  modifyNd fun nd => { nd with totalLinkCount := nd.totalLinkCount + 1 }
  if maxSymlinks ≤ nd.totalLinkCount then pure (some .ELOOP, link)
  else if nd.depth ≠ embeddedLevels then pure (none, link)
  else if nd.stack.length ≠ embeddedLevels then pure (none, link)
  else if ← ndAllocStack V then pure (none, link)
  else if nd.flags.rcu then reserveUnlazy V link seq
  else pure (some .ENOMEM, link)

/-- The body of a symbolic link, `i_op->get_link`. An RCU walk reads it from the page cache. -/
def getLink (i : Inode) : Walk σ Name := do
  onlyIf ((← getNd).flags.rcu ∧ i.linkCached = false) (unlazyOrFail V)
  ofExcept i.link

/-- `'/'` and `'.'`. -/
def slash : UInt8 := 47

def dot : UInt8 := 46

/-- The link becomes the last one of the stack. -/
def pushLink (seq : ℕ) : Walk σ Unit := do
  let nd ← getNd
  let old ← getSaved nd.depth
  setSaved nd.depth { old with link := link, seq := seq }
  modifyNd fun nd => { nd with depth := nd.depth + 1 }

/-- The end of `pick_link`: a link without components is released at once. -/
def bodyOrDone (res : Name) : Walk σ (Option Name) := do
  if res = [] then
    putLink V
    pure none
  else pure (some res)

/-- `pick_link`: returns the body of the link, or `none` if there is nothing left to walk. The
check of `may_follow_link` allows every link. -/
def pickLink (inode : Option InodeId) (seq : ℕ) : Walk σ (Option Name) := do
  match ← reserveStack V link seq with
  | (some e, link) =>
    onlyIf ((← getNd).flags.rcu = false) (pathPut V link)
    fail e
  | (none, link) =>
    pushLink link seq
    let m ← deref link.mnt
    let t ← getTree V
    let nd ← getNd
    if nd.flags.noSymlinks || (t.mnt m).nosymfollow then fail .ELOOP
    else
      let i ← deref inode
      onlyIf (nd.flags.rcu ∧ (t.inode i).atimeDue) (unlazyOrFail V)
      let res ← getLink V (t.inode i)
      onlyIf (res.head? = some slash) (ndJumpRoot V task)
      bodyOrDone V (res.dropWhile (· = slash))

/-! ### Mounts -/

/-- Where a step leads, with the inode and the sequence counter that belong to it. -/
structure Step where
  path : Path
  inode : Option InodeId
  seq : ℕ
  deriving DecidableEq, Repr

/-- The loop of `__follow_mount_rcu`: the mounts on top of a dentry are crossed. -/
def followMountRcuLoop (t : Tree) : ℕ → MntId → DentryId → Option InodeId → ℕ → Walk σ Step
  | fuel, m, d, inode, seq =>
    match t.mountOn m d, fuel with
    | none, _ => pure ⟨⟨some m, some d⟩, inode, seq⟩
    | some _, 0 => throw .fuel
    | some m', fuel + 1 =>
      let d' := (t.mnt m').root
      followMountRcuLoop t fuel m' d' (t.dentry d').inode (t.dentry d').seq

variable (fuel : ℕ)

/-- `__follow_mount_rcu`: `none` if RCU mode has to be left. No dentry is an automount point. -/
def followMountRcu (m : MntId) (d : DentryId) (inode : Option InodeId) (seq : ℕ) :
    Walk σ (Option Step) := do
  let t ← getTree V
  if !(t.dentry d).mounted then pure (some ⟨⟨some m, some d⟩, inode, seq⟩)
  else if (← getNd).flags.noXdev then pure none
  else
    let step ← followMountRcuLoop t fuel m d inode seq
    pure (some step)

/-- `traverse_mounts`; `__traverse_mounts` is a stub, so no mount is crossed. -/
def traverseMounts (d : DentryId) : Walk σ (Option Errno) := do
  let t ← getTree V
  pure (if !(t.dentry d).mounted && t.isNegative d then some .ENOENT else none)

/-- The part of `handle_mounts` that runs in reference mode. -/
def handleMountsRef (dentry : DentryId) : Walk σ Step := do
  let m := (← getNd).path.mnt
  match ← traverseMounts V dentry with
  | some e =>
    modifyFs (V.dput dentry)
    fail e
  | none =>
    let t ← getTree V
    pure ⟨⟨m, some dentry⟩, (t.dentry dentry).inode, 0⟩

/-- `handle_mounts`: the path that a step to `dentry` leads to, with its inode and its sequence
counter. -/
def handleMounts (dentry : DentryId) (inode : Option InodeId) (seq : ℕ) : Walk σ Step := do
  let nd ← getNd
  if nd.flags.rcu then
    if inode.isNone then fail .ENOENT
    else
      let m ← deref nd.path.mnt
      match ← followMountRcu V fuel m dentry inode seq with
      | some step => pure step
      | none =>
        if ← tryToUnlazyNext V dentry seq then handleMountsRef V dentry
        else fail .ECHILD
  else handleMountsRef V dentry

/-! ### One component -/

/-- `step_into`: returns the body of a symbolic link that is to be followed. -/
def stepInto (flags : WalkFlag) (dentry : DentryId) (inode : Option InodeId)
    (seq : ℕ) : Walk σ (Option Name) := do
  let step ← handleMounts V fuel dentry inode seq
  let d ← deref step.path.dentry
  let t ← getTree V
  let nd ← getNd
  if !t.isSymlink d || flags = .trailing && !nd.flags.follow || flags = .nofollow then
    onlyIf (nd.flags.rcu = false) (dputPtr V nd.path.dentry)
    modifyNd fun nd => { nd with path := step.path, inode := step.inode, seq := step.seq }
    pure none
  else if nd.flags.rcu && (t.dentry d).seq ≠ step.seq then fail .ECHILD
  else pickLink V task step.path step.inode step.seq

/-- `lookup_fast`: the dentry from the cache with its inode and its sequence counter, which are
set in RCU mode only. No dentry has an operation `d_revalidate`. -/
def lookupFast : Walk σ (Option (DentryId × Option InodeId × ℕ)) := do
  let nd ← getNd
  let parent ← deref nd.path.dentry
  if nd.flags.rcu then
    match ← readFs (V.dLookupRcu parent nd.last) with
    | none =>
      unlazyOrFail V
      pure none
    | some d =>
      let t ← getTree V
      if (t.dentry parent).seq = nd.seq then
        pure (some (d, (t.dentry d).inode, (t.dentry d).seq))
      else fail .ECHILD
  else
    match ← onFs (V.dLookup parent nd.last) with
    | none => pure none
    | some d => pure (some (d, none, 0))

variable (name : Name)

/-- `lookup_slow`. -/
def lookupSlow (dir : DentryId) : Walk σ DentryId := do
  let t ← getTree V
  if (t.inodeOf dir).any Inode.dead then fail .ENOENT
  else
    match ← onFs (V.dAllocParallel dir name) with
    | .error e => throw e
    | .ok d =>
      if ← readFs (V.dInLookup d) then
        let old ← onFs (V.lookup dir d)
        modifyFs (V.dLookupDone d)
        match old with
        | .ok none => pure d
        | .ok (some e) =>
          modifyFs (V.dput d)
          pure e
        | .error e =>
          modifyFs (V.dput d)
          fail e
      else pure d

/-- The parent directory and its inode and sequence counter, or `none` in the root. A mount is
never left, since `choose_mountpoint` is a stub. -/
def followDotdot : Walk σ (Option (DentryId × Option InodeId × ℕ)) := do
  let nd ← getNd
  let m ← deref nd.path.mnt
  let d ← deref nd.path.dentry
  let t ← getTree V
  let p := (t.dentry d).parent
  if nd.path = nd.root || d = (t.mnt m).root then
    if nd.flags.beneath then fail (if nd.flags.rcu then .ECHILD else .EXDEV)
    else if nd.flags.rcu then pure none
    else
      modifyFs (V.dget d)
      pure none
  else if nd.flags.rcu then
    if (t.dentry d).seq ≠ nd.seq then fail .ECHILD
    else if !t.pathConnected m p then fail .ECHILD
    else pure (some (p, (t.dentry p).inode, (t.dentry p).seq))
  else
    modifyFs (V.dget p)
    if !t.pathConnected m p then
      modifyFs (V.dput p)
      fail .ENOENT
    else pure (some (p, (t.dentry p).inode, 0))

/-- `handle_dots`. -/
def handleDots (type : LastType) : Walk σ (Option Name) := do
  if type = .dotdot then
    needRoot V task
    match ← followDotdot V with
    | some (p, inode, seq) => stepInto V task fuel .nofollow p inode seq
    | none =>
      let nd ← getNd
      let d ← deref nd.path.dentry
      stepInto V task fuel .nofollow d nd.inode nd.seq
  else pure none

/-- Release the link whose body ends with this component. -/
def putLinkUnlessMore (flags : WalkFlag) : Walk σ Unit := do
  onlyIf (flags ≠ .more ∧ (← getNd).depth ≠ 0) (putLink V)

/-- `walk_component`. -/
def walkComponent (flags : WalkFlag) : Walk σ (Option Name) := do
  let nd ← getNd
  if nd.lastType ≠ .norm then
    putLinkUnlessMore V flags
    handleDots V task fuel nd.lastType
  else
    match ← lookupFast V with
    | some (d, inode, seq) =>
      putLinkUnlessMore V flags
      stepInto V task fuel flags d inode seq
    | none =>
      let nd ← getNd
      let d ← lookupSlow V nd.last (← deref nd.path.dentry)
      putLinkUnlessMore V flags
      stepInto V task fuel flags d none 0

/-! ### A whole path -/

/-- `may_lookup`. Without access control lists a permission check never asks to leave RCU mode. -/
def mayLookup : Walk σ Unit := do
  let t ← getTree V
  let i ← deref (← getNd).inode
  ofExcept (inodePermission task.cred (t.inode i) mayExec)

/-- The first component of a path, which ends before the first slash. -/
def component : Name := name.takeWhile (· ≠ slash)

/-- What follows the first component. -/
def afterComponent : Name := name.dropWhile (· ≠ slash)

/-- The type of a component. -/
def componentType (c : Name) : LastType :=
  if c = [dot, dot] then .dotdot else if c = [dot] then .dot else .norm

/-- A directory is needed to go on. -/
def needDirectory : Walk σ Unit := do
  let t ← getTree V
  let nd ← getNd
  let d ← deref nd.path.dentry
  if t.canLookup d then pure ()
  else
    onlyIf nd.flags.rcu (unlazyOrFail V)
    fail .ENOTDIR

/-- The walk goes on after a component: into the body of a symbolic link, or with the rest `name`
of the path if the component was no link. -/
def walkOn (walk : Name → ℕ → Walk σ Unit) (name : Name) (depth : ℕ) : Option Name → Walk σ Unit
  | some link => do
    let saved ← getSaved depth
    setSaved depth { saved with name := name }
    walk link (depth + 1)
  | none => do
    needDirectory V
    walk name depth

/-- The loop of `link_path_walk`. `depth` counts the links whose rest is to be walked afterwards. -/
def linkPathWalkLoop : ℕ → Name → ℕ → Walk σ Unit
  | 0, _, _ => throw .fuel
  | fuel + 1, name, depth => do
    mayLookup V task
    let rest := (afterComponent name).dropWhile (· = slash)
    modifyNd fun nd =>
      { nd with
        last := component name
        lastRest := afterComponent name
        lastType := componentType (component name) }
    if rest = [] then
      if depth = 0 then pure ()
      else
        let saved ← getSaved (depth - 1)
        let link ← walkComponent V task fuel .nested
        walkOn V (linkPathWalkLoop fuel) saved.name (depth - 1) link
    else
      let link ← walkComponent V task fuel .more
      walkOn V (linkPathWalkLoop fuel) rest depth link

/-- `link_path_walk`. -/
def linkPathWalk : Walk σ Unit := do
  modifyNd fun nd => { nd with lastType := .root }
  let name := name.dropWhile (· = slash)
  if name = [] then pure () else linkPathWalkLoop V task fuel name 0

/-- The walk begins at an open directory, to which a reference is taken in both modes. -/
def startAt (p : Loc) : Walk σ Unit := do
  modifyFs (V.dget p.dentry)
  let t ← getTree V
  modifyNd fun nd => { nd with path := p.path, inode := (t.dentry p.dentry).inode }

/-- The start of a relative path: the working directory or that of an open file. -/
def startRelative (s : Name) : Option ℕ → Walk σ Unit
  | none => startAt V task.pwd
  | some fd => do
    match task.fd fd with
    | none => fail .EBADF
    | some p =>
      let t ← getTree V
      if s ≠ [] && !t.canLookup p.dentry then fail .ENOTDIR else startAt V p

/-- The start of a walk below a given root. -/
def startPreset (s : Name) : Walk σ Unit := do
  let nd ← getNd
  let d ← deref nd.root.dentry
  let t ← getTree V
  if s ≠ [] && !t.canLookup d then fail .ENOTDIR
  else
    modifyNd fun nd => { nd with path := nd.root, inode := (t.dentry d).inode }
    onlyIf (nd.flags.rcu = false) (pathGet V nd.root)

/-- `LOOKUP_IS_SCOPED`: the start is the root of the walk. -/
def scopeRoot : Walk σ Unit := do
  let nd ← getNd
  onlyIf nd.flags.isScoped do
    pathGet V nd.path
    modifyNd fun nd => { nd with root := nd.path, rootGrabbed := true }

/-- The start of a walk, by the form of the path. -/
def startWalk (s : Name) : Walk σ Unit := do
  let nd ← getNd
  if nd.rootPreset then startPreset V s
  else
    modifyNd fun nd => { nd with root := { nd.root with mnt := none } }
    if s.head? = some slash && !nd.flags.inRoot then ndJumpRoot V task
    else
      startRelative V task s nd.dfd
      scopeRoot V

variable (flags : LookupFlags)

/-- `path_init`: returns the path to walk. -/
def pathInit : Walk σ Name := do
  if !flags.rcu && flags.cached then fail .EAGAIN
  else
    let nd ← getNd
    modifyNd fun nd =>
      { nd with flags := if nd.name = [] then { flags with rcu := false } else flags }
    startWalk V task nd.name
    pure nd.name

/-- A slash behind the last component asks for a directory. -/
def Nameidata.trailingSlash (nd : Nameidata) : Nameidata :=
  if nd.lastType = .norm ∧ nd.lastRest ≠ [] then
    { nd with flags := { nd.flags with follow := true, directory := true } }
  else nd

/-- `lookup_last`. -/
def lookupLast : Walk σ (Option Name) := do
  modifyNd Nameidata.trailingSlash
  walkComponent V task fuel .trailing

/-- `handle_lookup_down`. -/
def handleLookupDown : Walk σ Unit := do
  let nd ← getNd
  let d ← deref nd.path.dentry
  onlyIf (nd.flags.rcu = false) (modifyFs (V.dget d))
  let _ ← stepInto V task fuel .nofollow d nd.inode nd.seq

/-- The loop of `path_lookupat` over the bodies of trailing links. -/
def lookupLoop : ℕ → Name → Walk σ Unit
  | 0, _ => throw .fuel
  | fuel + 1, s => do
    linkPathWalk V task fuel s
    match ← lookupLast V task fuel with
    | some link => lookupLoop fuel link
    | none => pure ()

/-- The check of `LOOKUP_DIRECTORY` at the end of a walk. -/
def checkDirectory : Walk σ Unit := do
  let nd ← getNd
  onlyIf nd.flags.directory do
    let d ← deref nd.path.dentry
    let t ← getTree V
    onlyIf (t.canLookup d = false) (fail .ENOTDIR)

/-- The walk of `path_lookupat`, up to the path that it returns. -/
def lookupAt : Walk σ Path := do
  let s ← pathInit V task flags
  onlyIf flags.down (handleLookupDown V task fuel)
  lookupLoop V task fuel s
  onlyIf (← getNd).flags.mountpoint (handleLookupDown V task fuel)
  completeWalk V
  checkDirectory V
  let nd ← getNd
  modifyNd fun nd => { nd with path := .null }
  pure nd.path

/-- `path_lookupat`. -/
def pathLookupat : Walk σ Path :=
  andFinally (lookupAt V task fuel flags) (terminateWalk V)

/-- A `nameidata` on the kernel stack, where `seq` and `rootSeq` happen to lie. -/
def setNameidata (dfd : Option ℕ) (name : Name) (root : Option Loc) (seq rootSeq : ℕ) :
    Nameidata where
  path := .null
  last := []
  lastRest := []
  lastType := .root
  root := (root.map Loc.path).getD .null
  inode := none
  flags := {}
  rootPreset := root.isSome
  rootGrabbed := false
  seq := seq
  rootSeq := rootSeq
  depth := 0
  totalLinkCount := 0
  stack := List.replicate embeddedLevels ⟨.null, 0, []⟩
  name := name
  dfd := dfd

/-- `filename_lookup`, once the `nameidata` is set: first in RCU mode, then with references. -/
def filenameLookup : Walk σ Path :=
  retryOn .ESTALE
    (retryOn .ECHILD (pathLookupat V task fuel { flags with rcu := true })
      (pathLookupat V task fuel flags))
    (pathLookupat V task fuel flags)

end MinimalKernel.Vfs
