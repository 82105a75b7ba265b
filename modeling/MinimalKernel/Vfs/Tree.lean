import MinimalKernel.Basic

/-!
# Dentries, inodes, mounts and permissions

The part of the virtual file system that a path walk reads. Numbers stand for pointers to dentries,
inodes and mounts. The type of a dentry (`d_is_dir`, `d_is_symlink`, …) is that of its inode, a
dentry without inode is negative. There is one user namespace, so ids are mapped to themselves.

`inode_permission` and `may_create` are the checks of `fs/namei.c`; `mnt_want_write` refuses a
mount that is read-only.

## Main definitions

* `Inode`, `Dentry`, `Mount`, `Tree` — the objects
* `Cred`, `Task` — whose walk it is, and where it begins
* `inodePermission`, `mayCreate`, `mntWantWrite` — the permission checks
-/

namespace MinimalKernel.Vfs

abbrev DentryId := ℕ

abbrev InodeId := ℕ

abbrev MntId := ℕ

/-- A file name or a path, without the null byte at its end. -/
abbrev Name := List UInt8

/-- `NAME_MAX`. -/
def nameMax : ℕ := 255

/-- `MAXSYMLINKS`. -/
def maxSymlinks : ℕ := 40

/-- `INVALID_UID` and `INVALID_GID`. -/
def invalidId : ℕ := 2 ^ 32 - 1

/-- The type of a file, `i_mode & S_IFMT`. -/
inductive FileType
  | dir
  | lnk
  | reg
  | special
  deriving DecidableEq, Repr

/-- The part of `struct inode` that a walk or an open reads. -/
structure Inode where
  type : FileType
  /-- The permission bits of `i_mode`. -/
  perm : BitVec 16
  uid : ℕ
  gid : ℕ
  immutable : Bool
  append : Bool
  /-- `S_DEAD`: the directory has been removed. -/
  dead : Bool
  /-- `SB_RDONLY` of the superblock. -/
  sbRdonly : Bool
  /-- What `i_op->get_link` returns. -/
  link : Except Errno Name
  /-- The body of the link is in the page cache, so that an RCU walk can read it. -/
  linkCached : Bool
  /-- `atime_needs_update`. -/
  atimeDue : Bool
  /-- The directory has the operation `create`. -/
  canCreate : Bool
  /-- `i_writecount` is negative: the file must not be opened for writing. -/
  denyWrite : Bool
  /-- What `f_op->open` returns. -/
  fopOpen : Except Errno Unit
  /-- What `do_truncate` returns. -/
  truncate : Except Errno Unit

/-- The part of `struct dentry` that a walk reads. -/
structure Dentry where
  name : Name
  parent : DentryId
  inode : Option InodeId
  /-- `d_seq`. -/
  seq : ℕ
  /-- `DCACHE_MOUNTED`. -/
  mounted : Bool

/-- The part of `struct vfsmount` that a walk reads. -/
structure Mount where
  /-- `mnt_root`. -/
  root : DentryId
  /-- `mnt_sb->s_root`. -/
  sbRoot : DentryId
  /-- `mnt_is_readonly`. -/
  readonly : Bool
  noexec : Bool
  nosymfollow : Bool

/-- `struct path`; both pointers may be null. -/
structure Path where
  mnt : Option MntId
  dentry : Option DentryId
  deriving DecidableEq, Repr

def Path.null : Path := ⟨none, none⟩

/-- A path that is known not to be null. -/
structure Loc where
  mnt : MntId
  dentry : DentryId
  deriving DecidableEq, Repr

def Loc.path (l : Loc) : Path := ⟨some l.mnt, some l.dentry⟩

/-- The dentries, inodes and mounts, with `__lookup_mnt`. -/
structure Tree where
  dentry : DentryId → Dentry
  inode : InodeId → Inode
  mnt : MntId → Mount
  lookupMnt : MntId → DentryId → Option MntId

namespace Tree

variable (t : Tree) (d : DentryId)

/-- The inode of a dentry. -/
def inodeOf : Option Inode := (t.dentry d).inode.map t.inode

/-- `d_is_negative`. -/
def isNegative : Bool := (t.dentry d).inode.isNone

/-- Is the dentry that of a file of this type? -/
def hasType (ty : FileType) : Bool := (t.inodeOf d).any fun i => i.type = ty

/-- `d_can_lookup`, which is also `d_is_dir`. -/
def canLookup : Bool := t.hasType d .dir

/-- `d_is_symlink`. -/
def isSymlink : Bool := t.hasType d .lnk

/-- `d_is_reg`. -/
def isReg : Bool := t.hasType d .reg

/-- `path_connected`; `d_ancestor`, on which `is_subdir` relies, never finds an ancestor. -/
def pathConnected (m : MntId) (d : DentryId) : Bool :=
  (t.mnt m).root = (t.mnt m).sbRoot || d = (t.mnt m).root

/-- The mount on top of a dentry: `__lookup_mnt`, where `DCACHE_MOUNTED` is set. -/
def mountOn (m : MntId) (d : DentryId) : Option MntId :=
  if (t.dentry d).mounted then t.lookupMnt m d else none

theorem mounted_of_mountOn {t : Tree} {m m' : MntId} {d : DentryId} (h : t.mountOn m d = some m') :
    (t.dentry d).mounted = true := by
  by_contra hn
  exact nomatch (if_neg hn).symm.trans h

end Tree

/-! ### Permissions -/

/-- The credentials of a task. -/
structure Cred where
  fsuid : ℕ
  fsgid : ℕ
  /-- `in_group_p`. -/
  inGroup : ℕ → Bool
  capDacOverride : Bool
  capDacReadSearch : Bool
  capFowner : Bool
  capFsetid : Bool

/-- A task, with the paths that a walk can begin at. -/
structure Task where
  cred : Cred
  root : Loc
  pwd : Loc
  /-- The paths of the open files. -/
  fd : ℕ → Option Loc

/-- `MAY_EXEC`, `MAY_WRITE`, `MAY_READ` and `MAY_APPEND`. -/
def mayExec : BitVec 16 := 1

def mayWrite : BitVec 16 := 2

def mayRead : BitVec 16 := 4

def mayAppend : BitVec 16 := 8

/-- `uid_valid` and `gid_valid` for the owner of an inode. -/
def Inode.mapped (i : Inode) : Bool := i.uid ≠ invalidId && i.gid ≠ invalidId

/-- `capable_wrt_inode_uidgid`. -/
def capableWrt (cap : Bool) (i : Inode) : Bool := cap && i.mapped

variable (c : Cred)

/-- `acl_permission_check`. -/
def aclPermissionCheck (i : Inode) (mask : BitVec 16) : Bool :=
  let mask := mask &&& 7
  if c.fsuid = i.uid then mask &&& ~~~ (i.perm >>> 6) = 0
  else
    let mode :=
      if mask &&& (i.perm ^^^ (i.perm >>> 3)) ≠ 0 && c.inGroup i.gid then i.perm >>> 3
      else i.perm
    mask &&& ~~~ mode = 0

/-- `generic_permission`; the only error is `EACCES`. -/
def genericPermission (i : Inode) (mask : BitVec 16) : Bool :=
  if aclPermissionCheck c i mask then true
  else if i.type = .dir then
    mask &&& mayWrite = 0 && capableWrt c.capDacReadSearch i || capableWrt c.capDacOverride i
  else
    mask &&& 7 = mayRead && capableWrt c.capDacReadSearch i ||
      (mask &&& mayExec = 0 || i.perm &&& 0o111 ≠ 0) && capableWrt c.capDacOverride i

/-- `inode_permission`. -/
def inodePermission (i : Inode) (mask : BitVec 16) : Except Errno Unit :=
  if mask &&& mayWrite ≠ 0 ∧ i.sbRdonly ∧ i.type ≠ .special then .error .EROFS
  else if mask &&& mayWrite ≠ 0 ∧ i.immutable then .error .EPERM
  else if mask &&& mayWrite ≠ 0 ∧ ¬ i.mapped then .error .EACCES
  else if genericPermission c i mask then .ok ()
  else .error .EACCES

/-- `may_create`, the check before `mkdir` and `mknod`. -/
def mayCreate (dir : Inode) (child : Option InodeId) : Except Errno Unit :=
  if child.isSome then .error .EEXIST
  else if dir.dead then .error .ENOENT
  else if c.fsuid = invalidId ∨ c.fsgid = invalidId then .error .EOVERFLOW
  else inodePermission c dir (mayWrite ||| mayExec)

/-- `S_ISGID` and `S_IXGRP`. -/
def setGid : BitVec 16 := 0o2000

def execGroup : BitVec 16 := 0o010

/-- The inode that `ramfs_get_inode` makes for a regular file in the directory `dir`, with the
owner that `inode_init_owner` gives it. -/
def newInode (dir : Inode) (mode : BitVec 16) : Inode where
  type := .reg
  perm :=
    if dir.perm &&& setGid ≠ 0 ∧ mode &&& (setGid ||| execGroup) = setGid ||| execGroup ∧
        ¬ c.inGroup dir.gid ∧ ¬ capableWrt c.capFsetid dir then
      mode &&& ~~~ setGid
    else mode
  uid := c.fsuid
  gid := if dir.perm &&& setGid ≠ 0 then dir.gid else c.fsgid
  immutable := false
  append := false
  dead := false
  sbRdonly := dir.sbRdonly
  link := .error .EINVAL
  linkCached := false
  atimeDue := false
  canCreate := false
  denyWrite := false
  fopOpen := .ok ()
  truncate := .ok ()

/-- `mnt_want_write`. -/
def mntWantWrite (m : Mount) : Except Errno Unit :=
  if m.readonly then .error .EROFS else .ok ()

end MinimalKernel.Vfs
