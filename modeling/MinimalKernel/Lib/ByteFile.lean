import Mathlib.Data.List.Range
import Mathlib.Order.Lattice

/-!
# Files as byte arrays

What a file is for: a size, and a byte at every position. Writing replaces a range and extends the
size, reading returns a range up to the size.

## Main definitions

* `ByteFile` — a size and the bytes; behind the end a file that is well kept is zero
* `ByteFile.write`, `ByteFile.read` — replacing a range and reading one

## Main results

* `ByteFile.slice_append` — adjacent ranges
* `ByteFile.read_eq_append` — a read in two parts
-/

namespace MinimalKernel.Lib

/-- A file as a byte array. -/
@[ext] structure ByteFile where
  size : ℕ
  byte : ℕ → BitVec 8

namespace ByteFile

variable (b : ByteFile)

/-- Replaces the bytes from `pos` on by `buf`. -/
def write (pos : ℕ) (buf : List (BitVec 8)) : ByteFile where
  size := max b.size (pos + buf.length)
  byte k := if pos ≤ k ∧ k < pos + buf.length then buf.getD (k - pos) 0 else b.byte k

/-- The bytes from `lo` up to `hi`. -/
def slice (lo hi : ℕ) : List (BitVec 8) := (List.range (hi - lo)).map fun i => b.byte (lo + i)

/-- The at most `count` bytes from `pos` on. -/
def read (pos count : ℕ) : List (BitVec 8) := b.slice pos (min b.size (pos + count))

variable {b} {lo mid hi pos count : ℕ}

theorem slice_eq_nil (h : hi ≤ lo) : b.slice lo hi = [] := by
  simp [slice, Nat.sub_eq_zero_of_le h]

/-- Adjacent ranges. -/
theorem slice_append (hlo : lo ≤ mid) (hhi : mid ≤ hi) :
    b.slice lo mid ++ b.slice mid hi = b.slice lo hi := by
  obtain ⟨i, rfl⟩ := Nat.exists_eq_add_of_le hlo
  obtain ⟨j, rfl⟩ := Nat.exists_eq_add_of_le hhi
  have hsum : lo + i + j - lo = i + j := by omega
  simp only [slice, Nat.add_sub_cancel_left, hsum]
  simp only [List.range_add, List.map_append, List.map_map, Function.comp_def, Nat.add_assoc]

/-- A read that stops at `mid` and goes on from there. -/
theorem read_eq_append (hlo : pos ≤ mid) (hhi : mid ≤ min b.size (pos + count)) :
    b.read pos count = b.slice pos mid ++ b.read mid (count - (mid - pos)) := by
  have hend : mid + (count - (mid - pos)) = pos + count := by omega
  rw [read, read, hend, slice_append hlo hhi]

/-- Behind the end of a file that is zero there, a write leaves zeros. -/
theorem write_zero_tail {buf : List (BitVec 8)} (h : ∀ k, b.size ≤ k → b.byte k = 0) (k : ℕ)
    (hk : (b.write pos buf).size ≤ k) : (b.write pos buf).byte k = 0 := by
  simp only [write] at hk ⊢
  rw [if_neg (by omega)]
  exact h k (by omega)

end ByteFile

end MinimalKernel.Lib
