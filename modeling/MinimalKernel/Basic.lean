import Mathlib.Tactic.Ring

/-!
# Machine words, pages and error codes

The kernel is built for 32-bit x86 without high memory: `unsigned long` has 32 bits, a page has
4096 bytes and user space ends at `PAGE_OFFSET`. Addresses and lengths are natural numbers; where
the C arithmetic can wrap, the model reduces modulo `2 ^ 32` explicitly.

## Main definitions

* `wadd`, `wsub` — addition and subtraction of `unsigned long`
* `pageAlign`, `offsetInPage` — `PAGE_ALIGN` and `offset_in_page`
* `Errno`, `errWord`, `isErrValue` — error codes, and error codes returned as pointers
* `Oops` — the ways in which a call does not come back
-/

namespace MinimalKernel

/-- The number of values of an `unsigned long`. -/
def wordSize : ℕ := 2 ^ 32

def pageSize : ℕ := 4096

/-- `TASK_SIZE`, which is `PAGE_OFFSET`. -/
def taskSize : ℕ := 0xC0000000

/-- Addition of `unsigned long`. -/
def wadd (a b : ℕ) : ℕ := (a + b) % wordSize

/-- Subtraction of `unsigned long`, for `b` below `wordSize`. -/
def wsub (a b : ℕ) : ℕ := (a + (wordSize - b)) % wordSize

variable (x : ℕ)

/-- `offset_in_page`. -/
def offsetInPage : ℕ := x % pageSize

/-- `x & PAGE_MASK`. -/
def pageMask : ℕ := x / pageSize * pageSize

/-- `PAGE_ALIGN`: up to the next page boundary; the addition can wrap. -/
def pageAlign : ℕ := pageMask (wadd x (pageSize - 1))

/-- `x >> PAGE_SHIFT`. -/
def pageOf : ℕ := x / pageSize

theorem wadd_of_lt {a b : ℕ} (h : a + b < wordSize) : wadd a b = a + b :=
  Nat.mod_eq_of_lt h

theorem wsub_of_le {a b : ℕ} (h : b ≤ a) (ha : a < wordSize) : wsub a b = a - b := by
  unfold wsub
  rw [show a + (wordSize - b) = (a - b) + wordSize by omega, Nat.add_mod_right,
    Nat.mod_eq_of_lt (by omega)]

theorem wsub_of_lt {a b : ℕ} (h : a < b) (hb : b ≤ wordSize) : wsub a b = a + (wordSize - b) :=
  Nat.mod_eq_of_lt (by omega)

theorem pageSize_dvd_pageMask : pageSize ∣ pageMask x := Nat.dvd_mul_left _ _

theorem pageMask_le : pageMask x ≤ x := Nat.div_mul_le_self x pageSize

theorem pageSize_dvd_pageAlign : pageSize ∣ pageAlign x := pageSize_dvd_pageMask _

theorem pageSize_dvd_taskSize : pageSize ∣ taskSize := by decide

/-- Below the last page of the address space `PAGE_ALIGN` does not wrap. -/
theorem le_pageAlign {x : ℕ} (h : x + pageSize ≤ wordSize) : x ≤ pageAlign x := by
  unfold pageAlign pageMask
  rw [wadd_of_lt (by unfold pageSize at *; omega)]
  unfold pageSize
  omega

theorem pageAlign_le_of_dvd {x y : ℕ} (hxy : x ≤ y) (hy : pageSize ∣ y)
    (h : x + pageSize ≤ wordSize) : pageAlign x ≤ y := by
  obtain ⟨k, rfl⟩ := hy
  unfold pageAlign pageMask
  rw [wadd_of_lt (by unfold pageSize at *; omega)]
  unfold pageSize at *
  omega

/-- The error codes that the modelled functions return. -/
inductive Errno
  | EPERM
  | ENOENT
  | EINTR
  | E2BIG
  | ENOMEM
  | EFAULT
  | EBUSY
  | EEXIST
  | EINVAL
  | EMFILE
  | EBADF
  | ECHILD
  | EAGAIN
  | EACCES
  | EXDEV
  | ENOTDIR
  | EISDIR
  | ETXTBSY
  | ENOSPC
  | EROFS
  | ENAMETOOLONG
  | ELOOP
  | EOVERFLOW
  | EOPNOTSUPP
  | ESTALE
  | ENOTRECOVERABLE
  deriving DecidableEq, Repr

/-- The number of an error code. -/
def Errno.code : Errno → ℕ
  | .EPERM => 1
  | .ENOENT => 2
  | .EINTR => 4
  | .E2BIG => 7
  | .ENOMEM => 12
  | .EFAULT => 14
  | .EBUSY => 16
  | .EEXIST => 17
  | .EINVAL => 22
  | .EMFILE => 24
  | .EBADF => 9
  | .ECHILD => 10
  | .EAGAIN => 11
  | .EACCES => 13
  | .EXDEV => 18
  | .ENOTDIR => 20
  | .EISDIR => 21
  | .ETXTBSY => 26
  | .ENOSPC => 28
  | .EROFS => 30
  | .ENAMETOOLONG => 36
  | .ELOOP => 40
  | .EOVERFLOW => 75
  | .EOPNOTSUPP => 95
  | .ESTALE => 116
  | .ENOTRECOVERABLE => 131

/-- An error code returned as an `unsigned long`. -/
def errWord (e : Errno) : ℕ := wordSize - e.code

/-- `IS_ERR_VALUE`: the last 4095 words are error codes. -/
def isErrValue : Bool := wordSize - 4095 ≤ x

theorem isErrValue_errWord (e : Errno) : isErrValue (errWord e) = true := by
  cases e <;> decide

/-- How a call fails to come back. -/
inductive Oops
  /-- A null pointer is followed. -/
  | nullDeref
  /-- A `BUG_ON` is hit. -/
  | bug
  /-- A loop does not end. -/
  | hang
  /-- Memory is accessed outside of the object that is meant. -/
  | wildAccess
  deriving DecidableEq, Repr

end MinimalKernel
