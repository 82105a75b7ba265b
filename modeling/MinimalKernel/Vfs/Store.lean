import MinimalKernel.Vfs.Walk

/-!
# A dentry cache at rest

An instance of the operations `Ops` in which nobody else uses the dentry cache: references are not
counted, every dentry is alive, and a name that is not in the cache does not exist. The only change
is that `create` gives an inode to a negative dentry.

The dentry of a name in a directory is `entry d n`, whether it is in the cache already
(`cached d n`) or is made by `d_alloc_parallel` when the name is looked up. The invariants of a
`Store` say that such a new dentry is negative, that a mountpoint is positive, and that mounts are
not mounted on each other in a circle.

## Main definitions

* `Store` — the state
* `Store.instantiate` — `d_instantiate` of a new inode
* `Store.ops` — the operations
-/

namespace MinimalKernel.Vfs

open Function

/-- A dentry cache without concurrent change. -/
structure Store where
  tree : Tree
  /-- The dentry of a name in a directory. -/
  entry : DentryId → Name → DentryId
  /-- Is it in the hash table? -/
  cached : DentryId → Name → Bool
  /-- Is there memory for a larger stack, or for a new inode? -/
  memory : Bool
  /-- The next inode. -/
  inodes : InodeId
  /-- The directory entries that have been created, the last one first. -/
  created : List (DentryId × Name)
  /-- Mounts lie on top of each other in finitely many layers. -/
  height : MntId → ℕ
  entry_parent : ∀ d n, (tree.dentry (entry d n)).parent = d
  entry_name : ∀ d n, (tree.dentry (entry d n)).name = n
  uncached_negative : ∀ d n, cached d n = false → (tree.dentry (entry d n)).inode = none
  uncached_unmounted : ∀ d n, cached d n = false → (tree.dentry (entry d n)).mounted = false
  mounted_positive : ∀ d, (tree.dentry d).mounted → (tree.dentry d).inode ≠ none
  inode_lt : ∀ d i, (tree.dentry d).inode = some i → i < inodes
  height_lt : ∀ m d m', tree.lookupMnt m d = some m' → height m' < height m

namespace Store

variable (s : Store)

/-- The dentry of a name in the hash table. -/
def child (d : DentryId) (n : Name) : Option DentryId :=
  if s.cached d n then some (s.entry d n) else none

theorem height_mountOn {s : Store} {m m' : MntId} {d : DentryId}
    (h : s.tree.mountOn m d = some m') : s.height m' < s.height m := by
  unfold Tree.mountOn at h
  split at h
  · exact s.height_lt m d m' h
  · exact nomatch h

/-- `simple_lookup`, the lookup of a name that is not in the cache. -/
def simpleLookup (e : DentryId) : Except Errno (Option DentryId) :=
  if nameMax < (s.tree.dentry e).name.length then .error .ENAMETOOLONG else .ok none

/-- `d_instantiate`, with the new inode `i`. -/
def instantiate (e : DentryId) (i : Inode) : Store where
  tree :=
    { s.tree with
      dentry := update s.tree.dentry e
        { s.tree.dentry e with
          inode := some s.inodes
          seq := (s.tree.dentry e).seq + 2 }
      inode := update s.tree.inode s.inodes i }
  entry := s.entry
  cached := fun d n => s.cached d n || s.entry d n = e
  memory := s.memory
  inodes := s.inodes + 1
  created := ((s.tree.dentry e).parent, (s.tree.dentry e).name) :: s.created
  height := s.height
  entry_parent := fun d n => by
    by_cases h : s.entry d n = e
    · rw [← h]; simpa using s.entry_parent d n
    · simpa [update_of_ne h] using s.entry_parent d n
  entry_name := fun d n => by
    by_cases h : s.entry d n = e
    · rw [← h]; simpa using s.entry_name d n
    · simpa [update_of_ne h] using s.entry_name d n
  uncached_negative := fun d n h => by
    rw [Bool.or_eq_false_iff, decide_eq_false_iff_not] at h
    simpa [update_of_ne h.2] using s.uncached_negative d n h.1
  uncached_unmounted := fun d n h => by
    rw [Bool.or_eq_false_iff, decide_eq_false_iff_not] at h
    simpa [update_of_ne h.2] using s.uncached_unmounted d n h.1
  mounted_positive := fun d h => by
    by_cases hd : d = e
    · subst hd; simp
    · simp only [update_of_ne hd] at h ⊢
      exact s.mounted_positive d h
  inode_lt := fun d i h => by
    by_cases hd : d = e
    · subst hd
      simp only [update_self, Option.some.injEq] at h
      exact h ▸ Nat.lt_succ_self _
    · simp only [update_of_ne hd] at h
      exact Nat.lt_succ_of_lt (s.inode_lt d i h)
  height_lt := s.height_lt

/-- The inode of a directory, for the new inodes in it. -/
def dirInode (d : DentryId) : Inode := s.tree.inode ((s.tree.dentry d).inode.getD 0)

/-- The operations on a dentry cache at rest. -/
def ops : Ops Store where
  tree := Store.tree
  dget := fun _ s => s
  dput := fun _ s => s
  getNotDead := fun _ s => (true, s)
  dLookup := fun d n s => (s.child d n, s)
  dLookupRcu := fun d n s => s.child d n
  dAllocParallel := fun d n s => (.ok (s.entry d n), s)
  dInLookup := fun e s => !s.cached (s.tree.dentry e).parent (s.tree.dentry e).name
  lookup := fun _ e s => (s.simpleLookup e, s)
  dLookupDone := fun _ s => s
  create := fun c dir e mode s =>
    if s.memory then (.ok (), s.instantiate e (newInode c (s.dirInode dir) mode))
    else (.error .ENOSPC, s)
  kmalloc := fun s => (s.memory, s)

end Store

/-! ### The walk on a dentry cache at rest -/

section Apply

variable {α : Type} (s : WalkState Store)

@[simp] theorem ops_tree (w : Store) : Store.ops.tree w = w.tree := rfl

variable (d : DentryId)

@[simp] theorem ops_getNotDead (w : Store) :
    Store.ops.getNotDead d w = (true, w) := rfl

theorem ops_dget (w : Store) : Store.ops.dget d w = w := rfl

theorem tree_bind (f : Tree → Walk Store α) : (getTree Store.ops >>= f) s = f s.fs.tree s := rfl

theorem dget_bind (f : Unit → Walk Store α) : (modifyFs (Store.ops.dget d) >>= f) s = f () s := rfl

theorem dget_apply : modifyFs (Store.ops.dget d) s = .ok () s := rfl

theorem getNotDead_bind (f : Bool → Walk Store α) :
    (onFs (Store.ops.getNotDead d) >>= f) s = f true s := rfl

theorem kmalloc_bind (f : Bool → Walk Store α) :
    (onFs Store.ops.kmalloc >>= f) s = f s.fs.memory s := rfl

section

variable (d : DentryId) (n : Name) (f : Option DentryId → Walk Store α)

theorem dLookup_bind : (onFs (Store.ops.dLookup d n) >>= f) s = f (s.fs.child d n) s := rfl

theorem dLookupRcu_bind : (readFs (Store.ops.dLookupRcu d n) >>= f) s = f (s.fs.child d n) s := rfl

end

@[simp] theorem dputPtr_apply (p : Option DentryId) : dputPtr Store.ops p s = .ok () s := by
  cases p <;> rfl

@[simp] theorem dgetPtr_apply (p : Option DentryId) : dgetPtr Store.ops p s = .ok () s := by
  cases p <;> rfl

@[simp] theorem pathPut_apply (p : Path) : pathPut Store.ops p s = .ok () s := dputPtr_apply s _

@[simp] theorem pathGet_apply (p : Path) : pathGet Store.ops p s = .ok () s := dgetPtr_apply s _

@[simp] theorem putLinks_apply (l : List Saved) : putLinks Store.ops l s = .ok () s := by
  induction l with
  | nil => rfl
  | cons x xs ih => simp [putLinks, ih]

end Apply

end MinimalKernel.Vfs
