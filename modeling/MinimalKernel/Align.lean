import Mathlib.Data.Nat.Bitwise
import MinimalKernel.Basic

/-!
# Alignment of machine words

`ALIGN` adds to the word and masks the low bits, so that near the end of the address space it wraps
to 0. For a power of two it is the next multiple, unless it wraps.

## Main definitions

* `alignUp` — `ALIGN`
* `isPowerOf2` — `is_power_of_2`

## Main results

* `alignUp_eq`, `dvd_alignUp` — the masked word is a multiple of the alignment
* `alignUp_mono` — monotone, unless the larger word wraps
-/

namespace MinimalKernel

open Nat

/-- `ALIGN` of an `unsigned long`. -/
def alignUp (x a : ℕ) : ℕ := wadd x (wsub a 1) &&& (wordSize - 1 - wsub a 1)

/-- `is_power_of_2`. -/
def isPowerOf2 (n : ℕ) : Bool := n ≠ 0 ∧ n &&& (n - 1) = 0

theorem exists_of_isPowerOf2 {n : ℕ} (h : isPowerOf2 n) (hn : n < wordSize) :
    ∃ k < 32, n = 2 ^ k := by
  simp only [isPowerOf2, decide_eq_true_eq] at h
  obtain ⟨k, rfl⟩ := (and_sub_one_eq_zero_iff_isPowerOfTwo h.1).1 h.2
  exact ⟨k, (Nat.pow_lt_pow_iff_right one_lt_two).1 hn, rfl⟩

variable {x k : ℕ}

/-- Masking with the upper bits cuts a word down to a multiple. -/
theorem and_highBits (hx : x < wordSize) (hk : k ≤ 32) :
    x &&& (wordSize - 2 ^ k) = x / 2 ^ k * 2 ^ k := by
  have hmask : wordSize - 2 ^ k = (2 ^ (32 - k) - 1) <<< k := by
    rw [Nat.shiftLeft_eq, Nat.sub_mul, ← pow_add, Nat.sub_add_cancel hk, one_mul]
    rfl
  rw [hmask, ← shiftLeft_eq, ← shiftRight_eq_div_pow]
  apply eq_of_testBit_eq
  intro i
  simp only [testBit_and, testBit_shiftLeft, testBit_two_pow_sub_one, testBit_shiftRight]
  by_cases hi : k ≤ i
  · have hadd : k + (i - k) = i := by omega
    by_cases hlt : i < 32
    · have : i - k < 32 - k := by omega
      simp [hi, hadd, this]
    · have hx' : x.testBit i = false :=
        Nat.testBit_lt_two_pow (hx.trans_le (Nat.pow_le_pow_right two_pos (by omega)))
      simp [hi, hadd, hx']
  · simp [hi]

theorem alignUp_eq (hk : k < 32) : alignUp x (2 ^ k) = wadd x (2 ^ k - 1) / 2 ^ k * 2 ^ k := by
  have hlt : 2 ^ k < wordSize := Nat.pow_lt_pow_right one_lt_two hk
  have hpos : 0 < 2 ^ k := Nat.two_pow_pos k
  rw [alignUp, wsub_of_le hpos hlt, show wordSize - 1 - (2 ^ k - 1) = wordSize - 2 ^ k by omega]
  exact and_highBits (mod_lt _ (by decide)) hk.le

theorem dvd_alignUp (hk : k < 32) : 2 ^ k ∣ alignUp x (2 ^ k) := by
  rw [alignUp_eq hk]
  exact dvd_mul_left _ _

/-- Where the addition wraps, the result is 0. -/
theorem add_lt_of_le_alignUp (hk : k < 32) (hx : x < wordSize)
    (h : x ≤ alignUp x (2 ^ k)) : x + (2 ^ k - 1) < wordSize := by
  have hlt : 2 ^ k < wordSize := Nat.pow_lt_pow_right one_lt_two hk
  by_contra hwrap
  have hmod : wadd x (2 ^ k - 1) = x + (2 ^ k - 1) - wordSize := by
    rw [wadd, mod_eq_sub_mod (by omega), mod_eq_of_lt (by omega)]
  have hzero : alignUp x (2 ^ k) = 0 := by
    rw [alignUp_eq hk, hmod, div_eq_of_lt (by omega), zero_mul]
  omega

theorem le_alignUp (hk : k < 32) (hx : x + (2 ^ k - 1) < wordSize) : x ≤ alignUp x (2 ^ k) := by
  rw [alignUp_eq hk, wadd_of_lt hx]
  have := Nat.div_add_mod' (x + (2 ^ k - 1)) (2 ^ k)
  have := Nat.mod_lt (x + (2 ^ k - 1)) (Nat.two_pow_pos k)
  omega

/-- `ALIGN` is the next multiple. -/
theorem alignUp_le_of_dvd {x y k : ℕ} (hk : k < 32) (hxy : x ≤ y) (hy : 2 ^ k ∣ y)
    (hlt : y < wordSize) : x ≤ alignUp x (2 ^ k) ∧ alignUp x (2 ^ k) ≤ y := by
  have hword : 2 ^ k ∣ wordSize := pow_dvd_pow 2 hk.le
  obtain ⟨m, rfl⟩ := hy
  obtain ⟨n, hn⟩ := hword
  have hmn : m < n := Nat.lt_of_mul_lt_mul_left (hn ▸ hlt)
  have hlast : 2 ^ k * m + 2 ^ k ≤ wordSize := hn ▸ Nat.mul_le_mul_left (2 ^ k) hmn
  refine ⟨le_alignUp hk (by omega), ?_⟩
  rw [alignUp_eq hk, wadd_of_lt (by omega), mul_comm (2 ^ k)]
  refine Nat.mul_le_mul_right _ (Nat.le_of_lt_succ (Nat.div_lt_of_lt_mul ?_))
  rw [Nat.mul_succ]
  have := Nat.two_pow_pos k
  omega

/-- **`ALIGN` is monotone**, as long as the larger word does not wrap. -/
theorem alignUp_mono {x y k : ℕ} (hk : k < 32) (hxy : x ≤ y)
    (hy : y + (2 ^ k - 1) < wordSize) : alignUp x (2 ^ k) ≤ alignUp y (2 ^ k) := by
  rw [alignUp_eq hk, alignUp_eq hk, wadd_of_lt (by omega), wadd_of_lt hy]
  exact Nat.mul_le_mul_right _ (Nat.div_le_div_right (by omega))

end MinimalKernel
