import MinimalKernel.Fs.RamfsFile
import MinimalKernel.Mm.Fault

/-!
# Mapped ramfs files

A process that maps a regular ramfs file should see the bytes of the file: what has been written,
and zeros in the holes and behind the end. `filemap_fault` looks for the page in the page cache. It
does not ask whether a page that it finds is up to date, and a page that it does not find is taken
from the allocator and put into the cache without `simple_read_folio`, which would clear it. The
process then sees what the last owner of the page has left there.

The page cache of the memory state, together with the marks `PG_uptodate` of the frames and the size
of the file, is an inode of the ramfs model (`fileInode`).

## Main definitions

* `fileInode` — the inode that the page cache of a file stands for
* `ShowsFile` — a page with the bytes of the file
* `Clean` — the condition on the page that a fault will find or allocate

## Main results

* `filemapFault_shows_iff` — the fault shows the file exactly when its page is clean
-/

namespace MinimalKernel.Mm

open MemState

open Fs (Inode CachePage)

variable {s s' : MemState} {v : Vmf} {f : FileId} {p : ℕ} {ret : VmFault} {uptodate : ℕ → Bool}

/-- The inode that the page cache of the file `f` stands for, when it is `size` bytes long and
`uptodate` are the marks of the page frames. -/
def fileInode (s : MemState) (uptodate : ℕ → Bool) (size : ℕ) (f : FileId) : Inode where
  iSize := size
  iPages i := (s.cache f i).map fun p => ⟨(s.frame p).data, uptodate p⟩

/-- The byte of the file at `k`, which is zero behind the end. -/
def fileByte (ino : Inode) (k : ℕ) : BitVec 8 := if k < ino.iSize then ino.byteAt k else 0

/-- The page holds the bytes of the file at `index`. -/
def ShowsFile (ino : Inode) (index : ℕ) (data : ℕ → BitVec 8) : Prop :=
  ∀ j < pageSize, data j = fileByte ino (index * pageSize + j)

/-- The page that a fault at `index` finds in the cache has zeros behind the end of the file, and
nothing else unless it is up to date. If there is none, the page that is allocated next has zeros
only. -/
def Clean (s : MemState) (uptodate : ℕ → Bool) (size : ℕ) (f : FileId) (index : ℕ) : Prop :=
  match s.cache f index with
  | some p => ∀ j < pageSize,
      uptodate p = true ∧ index * pageSize + j < size ∨ (s.frame p).data j = 0
  | none => ∀ p, s.free.head? = some p → ZeroPage (s.frame p).data

theorem pageOf_index {i j : ℕ} (hj : j < pageSize) : pageOf (i * pageSize + j) = i := by
  unfold pageOf
  rw [Nat.mul_comm, Nat.mul_add_div (by decide), Nat.div_eq_of_lt hj, Nat.add_zero]

theorem offsetInPage_index {i j : ℕ} (hj : j < pageSize) : offsetInPage (i * pageSize + j) = j := by
  unfold offsetInPage
  rw [Nat.mul_comm, Nat.mul_add_mod, Nat.mod_eq_of_lt hj]

/-- The bytes of a page that is cached. -/
theorem fileByte_of_cached {size i j : ℕ} (hc : s.cache f i = some p) (hj : j < pageSize) :
    fileByte (fileInode s uptodate size f) (i * pageSize + j)
      = if uptodate p = true ∧ i * pageSize + j < size then (s.frame p).data j else 0 := by
  have hpage : (fileInode s uptodate size f).iPages (pageOf (i * pageSize + j))
      = some ⟨(s.frame p).data, uptodate p⟩ := by
    rw [pageOf_index hj]
    simp [fileInode, hc]
  unfold fileByte Inode.byteAt
  rw [hpage, offsetInPage_index hj]
  dsimp only
  show (if i * pageSize + j < size then _ else _) = _
  by_cases hsize : i * pageSize + j < size
  · simp [hsize]
  · simp [hsize]

/-- A hole reads as zeros. -/
theorem fileByte_of_hole {size i j : ℕ} (hc : s.cache f i = none) (hj : j < pageSize) :
    fileByte (fileInode s uptodate size f) (i * pageSize + j) = 0 := by
  have hpage : (fileInode s uptodate size f).iPages (pageOf (i * pageSize + j)) = none := by
    rw [pageOf_index hj]
    simp [fileInode, hc]
  unfold fileByte Inode.byteAt
  rw [hpage]
  exact ite_self 0

theorem showsFile_of_cached {size i : ℕ} (hc : s.cache f i = some p) :
    ShowsFile (fileInode s uptodate size f) i (s.frame p).data ↔ Clean s uptodate size f i := by
  unfold ShowsFile Clean
  rw [hc]
  refine forall₂_congr fun j hj => ?_
  rw [fileByte_of_cached hc hj]
  by_cases hin : uptodate p = true ∧ i * pageSize + j < size
  · simp [hin]
  · rw [if_neg hin, or_iff_right hin]

theorem showsFile_of_hole {size i : ℕ} {data : ℕ → BitVec 8} (hc : s.cache f i = none) :
    ShowsFile (fileInode s uptodate size f) i data ↔ ZeroPage data := by
  unfold ShowsFile ZeroPage
  refine forall₂_congr fun j hj => ?_
  rw [fileByte_of_hole hc hj]

/-- What `filemap_fault` does: it finds the page, allocates it, or runs out of memory. -/
inductive FilemapFault (s : MemState) (f : FileId) (i : ℕ) :
    Except VmFault (VmFault × ℕ) × MemState → Prop
  | cached {p : ℕ} (hit : s.cache f i = some p) :
      FilemapFault s f i (.ok (vmFaultLocked, p), s.getPage p)
  | fresh {p : ℕ} {s' : MemState} (miss : s.cache f i = none) (head : s.free.head? = some p)
      (data : (s'.frame p).data = (s.frame p).data) :
      FilemapFault s f i (.ok (vmFaultLocked, p), s')
  | oom (miss : s.cache f i = none) (empty : s.free = []) :
      FilemapFault s f i (.error vmFaultOom, s)

theorem data_getPage (s : MemState) (p q : ℕ) :
    ((s.getPage p).frame q).data = (s.frame q).data := by
  unfold getPage setFrame
  by_cases hq : q = p
  · rw [hq]
    simp
  · simp [hq]

theorem filemapFault_spec (s : MemState) (v : Vmf) (hf : v.vma.vmFile = some f) :
    ∃ res, filemapFault s v = .ok res ∧ FilemapFault s f v.pgoff res := by
  unfold filemapFault
  rw [hf]
  dsimp only
  cases hc : s.cache f v.pgoff with
  | some p => exact ⟨_, rfl, .cached hc⟩
  | none =>
    dsimp only
    unfold allocPage
    cases hfree : s.free with
    | nil => exact ⟨_, rfl, .oom hc hfree⟩
    | cons p rest =>
      refine ⟨_, rfl, .fresh hc (by rw [hfree]; rfl) ?_⟩
      show (((({ s.setFrame p { s.frame p with refs := 1 } with free := rest } : MemState)).getPage
        p).frame p).data = _
      rw [data_getPage]
      simp [setFrame]

/-- **Mapped files.** A fault comes back, and the page that it hands to the process holds the bytes
of the file exactly when its page is clean; otherwise the process sees bytes that were never written
to the file. -/
theorem filemapFault_shows_iff (s : MemState) (uptodate : ℕ → Bool) (size : ℕ) (v : Vmf)
    (hf : v.vma.vmFile = some f) :
    ∃ res, filemapFault s v = .ok res ∧
      ((∀ ret p, res.1 = .ok (ret, p) →
          ShowsFile (fileInode s uptodate size f) v.pgoff (res.2.frame p).data) ↔
        Clean s uptodate size f v.pgoff) := by
  obtain ⟨res, hres, hspec⟩ := filemapFault_spec s v hf
  refine ⟨res, hres, ?_⟩
  cases hspec with
  | @cached p hit =>
    rw [← showsFile_of_cached hit, ← data_getPage s p p]
    exact ⟨fun h => h _ p rfl, fun h ret q heq => by cases heq; exact h⟩
  | @fresh p s' miss head data =>
    have hclean : Clean s uptodate size f v.pgoff ↔ ZeroPage (s'.frame p).data := by
      unfold Clean
      rw [miss, data]
      dsimp only
      rw [head]
      exact ⟨fun h => h p rfl, fun h q heq => by cases heq; exact h⟩
    rw [hclean, ← showsFile_of_hole miss]
    exact ⟨fun h => h _ p rfl, fun h ret q heq => by cases heq; exact h⟩
  | oom miss empty =>
    refine iff_of_true (fun ret p heq => nomatch heq) ?_
    unfold Clean
    rw [miss, empty]
    exact fun p heq => nomatch heq

/-! ### A page that was used before -/

/-- One free page, all of whose bytes are `b`, and no page in the cache. -/
def usedMemory (b : BitVec 8) : MemState where
  frame _ := ⟨fun _ => b, 0, false, false⟩
  free := [0]
  tables := []
  pgd _ _ := .none
  cache _ _ := none
  special _ := none

/-- A fault on the first page of a shared mapping of the file `0`. -/
def firstFault : Vmf where
  vma := { vmaInit 0 with
    vmEnd := pageSize, vmFlags := vmShared, vmFile := some 0, vmOps := some .genericFile }
  address := 0
  pgoff := 0
  flags := ⟨false, false, false, false⟩

/-- When the page was cleared before, the process sees the hole. -/
theorem filemapFault_shows_zeros : ∃ res, filemapFault (usedMemory 0) firstFault = .ok res ∧
    ∀ ret p, res.1 = .ok (ret, p) →
      ShowsFile (fileInode (usedMemory 0) (fun _ => false) 10 0) 0 (res.2.frame p).data := by
  obtain ⟨res, hres, hiff⟩ :=
    filemapFault_shows_iff (f := 0) (usedMemory 0) (fun _ => false) 10 firstFault rfl
  exact ⟨res, hres, hiff.2 fun _ _ _ _ => rfl⟩

/-- Otherwise it sees the bytes of the last owner: the file has no byte `0xff`. -/
theorem filemapFault_leaks : ∃ ret p s', filemapFault (usedMemory 0xff) firstFault
      = .ok (.ok (ret, p), s') ∧ (s'.frame p).data 0 = 0xff ∧
    fileByte (fileInode (usedMemory 0xff) (fun _ => false) 10 0) 0 = 0 :=
  ⟨_, _, _, rfl, by simp [filemapAddFolio, getPage, setFrame, usedMemory], rfl⟩

end MinimalKernel.Mm
