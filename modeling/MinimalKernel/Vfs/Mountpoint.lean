import MinimalKernel.Lib.Returns
import MinimalKernel.Vfs.Tree
import Mathlib.Data.List.Lookmap

/-!
# Mountpoints

`get_mountpoint` finds the mountpoint of a dentry in a hash table, or makes one and sets
`DCACHE_MOUNTED`. `d_set_mounted` refuses a dentry that is mounted already and one that has been
unlinked, both with `-EBUSY`. The caller takes this for the first and looks the mountpoint up again,
so for an unlinked dentry without a mountpoint it goes round for ever.

The structure that is allocated in advance is one of those that are `live`; to free one that is not
is an error.

## Main definitions

* `MountTable.getMountpoint` — `get_mountpoint`
* `MountTable.Served` — what it may come back with

## Main results

* `MountTable.getMountpoint_served_iff` — for which dentries it does
-/

namespace MinimalKernel.Vfs

open Bool Function Lib Option

/-- `struct mountpoint`, with its address. -/
structure Mountpoint where
  addr : ℕ
  dentry : DentryId
  count : ℤ

/-- What `get_mountpoint` reads and writes. -/
structure MountTable where
  /-- `DCACHE_MOUNTED`. -/
  mounted : DentryId → Bool
  unhashed : DentryId → Bool
  isRoot : DentryId → Bool
  /-- The chains of `mountpoint_hashtable`. -/
  chain : ℕ → List Mountpoint
  /-- The structures that have been allocated and not freed. -/
  live : ℕ → Bool

namespace MountTable

variable (hash : DentryId → ℕ) (d : DentryId) (s : MountTable)

/-- `d_unlinked`. -/
def unlinked : Bool := s.unhashed d && !s.isRoot d

def setChain (l : List Mountpoint) : MountTable := { s with chain := update s.chain (hash d) l }

/-- `lookup_mountpoint`: the count of the first mountpoint of the dentry is raised. -/
def lookupMountpoint : Option (ℕ × MountTable) :=
  ((s.chain (hash d)).find? (·.dentry = d)).map fun mp =>
    (mp.addr, s.setChain hash d ((s.chain (hash d)).lookmap fun mp =>
      if mp.dentry = d then some { mp with count := mp.count + 1 } else none))

/-- `d_set_mounted`. -/
def dSetMounted : Except Errno MountTable :=
  if !s.unlinked d && !s.mounted d then .ok { s with mounted := update s.mounted d true }
  else .error .EBUSY

/-- `kmalloc`, which returns `mem`. -/
def kmalloc : Option ℕ → MountTable
  | none => s
  | some p => { s with live := update s.live p true }

/-- `kfree`. -/
def kfree : Option ℕ → Except Oops MountTable
  | none => .ok s
  | some p => if s.live p then .ok { s with live := update s.live p false } else .error .wildAccess

/-- `get_mountpoint` from the label `mountpoint` on, if it is to `look`, or from behind the search.
`new` is the structure that it holds. -/
def getLoop (mem : Option ℕ) :
    ℕ → Bool → Option ℕ → MountTable → Except Oops (Except Errno ℕ × MountTable)
  | 0, _, _, _ => .error .hang
  | fuel + 1, look, new, s =>
    match if look then s.lookupMountpoint hash d else none with
    | some (mp, s) => (s.kfree new).map (.ok mp, ·)
    | none =>
      let s := if new.isNone then s.kmalloc mem else s
      match new.or mem with
      | none => .ok (.error .ENOMEM, s)
      | some p =>
        match s.dSetMounted d with
        | .error .EBUSY => getLoop mem fuel true (some p) s
        | .error e => (s.kfree (some p)).map (.error e, ·)
        | .ok s => .ok (.ok p, s.setChain hash d (⟨p, d, 1⟩ :: s.chain (hash d)))

/-- `get_mountpoint`. -/
def getMountpoint (mem : Option ℕ) (fuel : ℕ) : Except Oops (Except Errno ℕ × MountTable) :=
  if s.mounted d && s.unlinked d then .ok (.error .ENOENT, s)
  else getLoop hash d mem fuel (s.mounted d) none s

/-- What a call may come back with: the mountpoint of the dentry with its count raised, a new one
for a dentry that is mounted now, or an error. Nothing else has changed, and of the structures only
a new mountpoint stays allocated. -/
inductive Served (mem : Option ℕ) : Except Errno ℕ → MountTable → Prop
  | existing {mp : ℕ} {t : MountTable} (h : s.lookupMountpoint hash d = some (mp, t)) :
      Served mem (.ok mp) t
  | made {p : ℕ} (h : mem = some p) : Served mem (.ok p)
      ({ s.kmalloc mem with mounted := update s.mounted d true }.setChain hash d
        (⟨p, d, 1⟩ :: s.chain (hash d)))
  | unlinked (h : s.unlinked d) : Served mem (.error .ENOENT) s
  | noMemory (h : mem = none) : Served mem (.error .ENOMEM) s

variable {hash d s} {p : ℕ} {mem : Option ℕ}

theorem lookupMountpoint_eq_none :
    s.lookupMountpoint hash d = none ↔ ¬ ∃ mp ∈ s.chain (hash d), mp.dentry = d := by
  simp [lookupMountpoint]

theorem dSetMounted_of_ne (h : s.mounted d ≠ s.unlinked d) : s.dSetMounted d = .error .EBUSY := by
  rw [dSetMounted, if_neg]
  intro hboth
  simp only [and_eq_true, not_eq_true'] at hboth
  exact h (hboth.2.trans hboth.1.symm)

section

variable (hlook : s.mounted d → s.lookupMountpoint hash d = none)
include hlook

theorem firstLook_eq_none : (if s.mounted d then s.lookupMountpoint hash d else none) = none := by
  split
  · next hm => exact hlook hm
  · rfl

theorem getLoop_noMemory (fuel : ℕ) :
    getLoop hash d none (fuel + 1) (s.mounted d) none s = .ok (.error .ENOMEM, s) := by
  rw [getLoop, firstLook_eq_none hlook]
  rfl

/-- The first attempt on a dentry that is refused. -/
theorem getLoop_refused (hne : s.mounted d ≠ s.unlinked d) (fuel : ℕ) :
    getLoop hash d (some p) (fuel + 1) (s.mounted d) none s =
      getLoop hash d (some p) fuel true (some p) (s.kmalloc (some p)) := by
  have hset := dSetMounted_of_ne (s := s.kmalloc (some p)) hne
  simp only [getLoop, firstLook_eq_none hlook, isNone_none, if_true, none_or, hset]

end

/-- A dentry that is refused and has no mountpoint keeps the loop going. -/
theorem getLoop_hang (p : ℕ) (mem : Option ℕ) (hne : s.mounted d ≠ s.unlinked d)
    (hnone : s.lookupMountpoint hash d = none) (fuel : ℕ) :
    getLoop hash d mem fuel true (some p) s = .error .hang := by
  induction fuel with
  | zero => rfl
  | succ fuel ih =>
    simp only [getLoop, if_true, hnone, isNone_some, false_eq_true, if_false,
      some_or, dSetMounted_of_ne hne]
    exact ih

/-- A mountpoint that is found after all: what had been allocated is freed. -/
theorem getLoop_found {mp : ℕ} {t : MountTable} (hp : s.live p = false)
    (hsome : s.lookupMountpoint hash d = some (mp, t)) (fuel : ℕ) :
    getLoop hash d mem (fuel + 1) true (some p) (s.kmalloc (some p)) = .ok (.ok mp, t) := by
  obtain ⟨found, hfound, heq⟩ := map_eq_some_iff.1 hsome
  obtain ⟨rfl, rfl⟩ := Prod.mk.inj heq
  have hlook : (s.kmalloc (some p)).lookupMountpoint hash d = some (found.addr, _) :=
    map_eq_some_iff.2 ⟨found, hfound, rfl⟩
  have hlive : update (update s.live p true) p false = s.live := by
    rw [update_idem, ← hp, update_eq_self]
  rw [getLoop, if_pos rfl, hlook]
  show Except.map _ (if update s.live p true p then _ else _) = _
  rw [update_self, if_pos rfl]
  show Except.ok (_, MountTable.mk _ _ _ _ (update (update s.live p true) p false)) = _
  rw [hlive]
  rfl

/-- **`get_mountpoint`** comes back as it should, unless the dentry has no mountpoint, one could be
allocated and the dentry is either marked as mounted or unlinked, but not both. -/
theorem getMountpoint_served_iff (hash : DentryId → ℕ) (d : DentryId) (s : MountTable)
    {mem : Option ℕ} (hmem : ∀ p ∈ mem, s.live p = false) :
    (∃ r t, Returns (s.getMountpoint hash d mem) (r, t) ∧ Served hash d s mem r t) ↔
      mem = none ∨ (∃ mp ∈ s.chain (hash d), mp.dentry = d) ∨ s.mounted d = s.unlinked d := by
  by_cases hboth : s.mounted d && s.unlinked d
  · obtain ⟨hm, hu⟩ := and_eq_true_iff.1 hboth
    exact iff_of_true ⟨_, _, ⟨0, fun n _ => if_pos hboth⟩, .unlinked hu⟩
      (.inr (.inr (hm.trans hu.symm)))
  have hcall : s.getMountpoint hash d mem = fun n => getLoop hash d mem n (s.mounted d) none s :=
    funext fun n => if_neg hboth
  rw [hcall]
  by_cases heq : s.mounted d = s.unlinked d
  · -- neither mounted nor unlinked
    have hm : s.mounted d = false := by
      by_contra h
      rw [← heq, Bool.and_self] at hboth
      exact h (eq_false_iff.2 hboth)
    refine iff_of_true ?_ (.inr (.inr heq))
    cases mem with
    | none =>
      exact ⟨_, _, Returns.of_add 1 (getLoop_noMemory (absurd · (by simp [hm]))), .noMemory rfl⟩
    | some p =>
      refine ⟨_, _, Returns.of_add 1 fun n => ?_, .made rfl⟩
      have hset : (s.kmalloc (some p)).dSetMounted d = .ok _ :=
        if_pos (show (!s.unlinked d && !s.mounted d) = true by rw [← heq, hm]; rfl)
      simp only [getLoop, hm, false_eq_true, if_false, isNone_none, if_true, none_or, hset]
      rfl
  · rw [or_iff_left heq]
    cases hlook : s.lookupMountpoint hash d with
    | none =>
      have hno := lookupMountpoint_eq_none.1 hlook
      rw [or_iff_left hno]
      cases mem with
      | none =>
        exact iff_of_true
          ⟨_, _, Returns.of_add 1 (getLoop_noMemory fun _ => hlook), .noMemory rfl⟩ rfl
      | some p =>
        refine iff_of_false ?_ nofun
        rintro ⟨r, t, ⟨N, hret⟩, -⟩
        have hhang := getLoop_hang (s := s.kmalloc (some p)) p (some p) heq
          (lookupMountpoint_eq_none.2 hno) N
        rw [← getLoop_refused (fun _ => hlook) heq] at hhang
        cases (hret (N + 1) (Nat.le_succ N)).symm.trans hhang
    | some found =>
      refine iff_of_true ?_ (.inr (not_not.1 fun h => ?_))
      · by_cases hm : s.mounted d
        · exact ⟨_, _, Returns.of_add 1 fun n => by rw [getLoop, if_pos hm, hlook]; rfl,
            .existing hlook⟩
        · -- found only when the dentry has been refused
          cases mem with
          | none => exact ⟨_, _, Returns.of_add 1 (getLoop_noMemory (absurd · hm)), .noMemory rfl⟩
          | some p =>
            refine ⟨_, _, Returns.of_add 2 fun n => ?_, .existing hlook⟩
            rw [getLoop_refused (absurd · hm) heq]
            exact getLoop_found (hmem p rfl) hlook n
      · rw [lookupMountpoint_eq_none.2 h] at hlook
        cases hlook

/-- No mounts yet, and the dentry 1 is unlinked. -/
def unlinkedDentry : MountTable where
  mounted := fun _ => false
  unhashed := fun d => d = 1
  isRoot := fun _ => false
  chain := fun _ => []
  live := fun _ => false

theorem getMountpoint_first_mount : ∃ r t,
    Returns (unlinkedDentry.getMountpoint id 2 (some 8)) (r, t) ∧
      Served id 2 unlinkedDentry (some 8) r t :=
  (getMountpoint_served_iff id 2 unlinkedDentry fun _ _ => rfl).2 (.inr (.inr rfl))

/-- For an unlinked dentry the call does not come back. -/
theorem getMountpoint_unlinked_hangs :
    unlinkedDentry.getMountpoint id 1 (some 8) = fun _ => .error .hang := by
  funext fuel
  cases fuel with
  | zero => rfl
  | succ fuel =>
    exact getLoop_hang (s := unlinkedDentry.kmalloc (some 8)) (d := 1) _ _ (by decide) rfl fuel

end MountTable

end MinimalKernel.Vfs
