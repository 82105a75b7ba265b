import Mathlib.Data.Nat.Digits.Defs

/-!
# Printing a number without a division

`put_dec` of the 32-bit kernel writes a number of 64 bits in decimal, the lowest digit first. It
multiplies by rounded reciprocals where it would have to divide, two or four digits at a time, and
puts the number together from pieces of 16 bits with carries to the base of ten thousand.

The arithmetic of 32 bits is a parameter. With the one that fails where the processor would wrap
around, a result is a run without an overflow; a table index of a hundred or more fails always.
-/

namespace MinimalKernel.Format

open List Nat Option

/-! ### The code -/

/-- What arithmetic of 32 bits makes of the exact value of an expression. -/
abbrev Arith := ℤ → Option ℕ

/-- The arithmetic of the processor. -/
def wrapping : Arith := fun x => some (x % 2 ^ 32).toNat

/-- Arithmetic that fails where the one of the processor wraps around. The expressions below only
add, or take away a product that is not the larger part, so that their parts fit if they do. -/
def checked : Arith := fun x => if 0 ≤ x ∧ x < 2 ^ 32 then some x.toNat else none

/-- `decpair`: the two bytes of an entry, the one at the lower address first. -/
def decpair (i : ℕ) : Option (Char × Char) :=
  if i < 100 then some (.ofNat (i % 10 + 0x30), .ofNat (i / 10 + 0x30)) else none

/-- An entry of the table is written to the buffer, and the pointer moved behind it. A buffer is
the list of the bytes in front of the pointer, the last of them first. -/
def putPair (buf : List Char) (i : ℕ) : Option (List Char) := do
  let (lo, hi) ← decpair i
  return hi :: lo :: buf

/-- `put_dec_trunc8` from `out_r` on: the pointer may stay in front of the second byte. -/
def outR (buf : List Char) (r : ℕ) : Option (List Char) := do
  let (lo, hi) ← decpair r
  return if r < 10 then lo :: buf else hi :: lo :: buf

variable (u : Arith) (buf : List Char)

def putDecTrunc8 (r : ℕ) : Option (List Char) :=
  if r < 100 then outR buf r
  else do
    let q : ℕ := r * 0x28f5c29 / 2 ^ 32
    let buf ← putPair buf (← u (r - 100 * q))
    if q < 100 then outR buf q
    else do
      let r : ℕ := q * 0x28f5c29 / 2 ^ 32
      let buf ← putPair buf (← u (q - 100 * r))
      if r < 100 then outR buf r
      else do
        let q : ℕ := (← u (r * 0x147b)) / 2 ^ 19
        let buf ← putPair buf (← u (r - 100 * q))
        outR buf q

def putDecFull4 (r : ℕ) : Option (List Char) := do
  let q : ℕ := (← u (r * 0x147b)) / 2 ^ 19
  let buf ← putPair buf (← u (r - 100 * q))
  putPair buf q

def putDecHelper4 (x : ℕ) : Option (ℕ × List Char) := do
  let q : ℕ := x * 0x346DC5D7 / 2 ^ 43
  let buf ← putDecFull4 u buf (← u (x - q * 10000))
  return (q, buf)

def putDec (n : ℕ) : Option (List Char) :=
  if n < 100 * 1000 * 1000 then do putDecTrunc8 u buf (← u n)
  else do
    let d1 : ℕ := n % 2 ^ 32 / 2 ^ 16
    let h : ℕ := n / 2 ^ 32
    let d2 : ℕ := h % 2 ^ 16
    let d3 : ℕ := h / 2 ^ 16
    let q ← u (656 * d3 + 7296 * d2 + 5536 * d1 + n % 2 ^ 32 % 2 ^ 16)
    let (q, buf) ← putDecHelper4 u buf q
    let q ← u (q + (7671 * d3 + 9496 * d2 + 6 * d1))
    let (q, buf) ← putDecHelper4 u buf q
    let q ← u (q + (4749 * d3 + 42 * d2))
    let (q, buf) ← putDecHelper4 u buf q
    let q ← u (q + 281 * d3)
    if q ≠ 0 then putDecTrunc8 u buf q
    else return buf.dropWhile (· == '0')

/-! ### Digits -/

variable {u} {buf : List Char} {k n m r q x : ℕ}

/-- The `k` lowest digits of `n`, written to a buffer. -/
def pushDigits : ℕ → ℕ → List Char → List Char
  | 0, _, buf => buf
  | k + 1, n, buf => pushDigits k (n / 10) ((n % 10).digitChar :: buf)

theorem pushDigits_add (j k n : ℕ) (buf : List Char) :
    pushDigits (j + k) n buf = pushDigits k (n / 10 ^ j) (pushDigits j n buf) := by
  induction j generalizing n buf with
  | zero => rw [Nat.zero_add, Nat.pow_zero, Nat.div_one, pushDigits]
  | succ j ih =>
    rw [Nat.succ_add, pushDigits, ih, Nat.div_div_eq_div_mul, ← Nat.pow_succ', pushDigits]

theorem pushDigits_mod (k n : ℕ) (buf : List Char) :
    pushDigits k (n % 10 ^ k) buf = pushDigits k n buf := by
  induction k generalizing n buf with
  | zero => rfl
  | succ k ih =>
    rw [pushDigits, pushDigits, Nat.pow_succ', Nat.mod_mul_right_div_self, ih,
      Nat.mod_mul_right_mod]

/-- The digits above the `k` lowest ones stand in front of them. -/
theorem toDigits_append (h : 10 ^ k ≤ n) :
    toDigits 10 (n / 10 ^ k) ++ pushDigits k n buf = toDigits 10 n ++ buf := by
  induction k generalizing n buf with
  | zero => rw [Nat.pow_zero, Nat.div_one, pushDigits]
  | succ k ih =>
    have hle : 10 ^ k ≤ n / 10 := by omega
    rw [Nat.pow_succ', ← Nat.div_div_eq_div_mul, pushDigits, ih hle,
      toDigits_of_base_le (n := n) (by decide) (by have := Nat.one_le_pow k 10; omega),
      append_assoc, singleton_append]

theorem toDigits_hundred (h : 100 ≤ n) :
    toDigits 10 (n / 100) ++ pushDigits 2 n buf = toDigits 10 n ++ buf :=
  toDigits_append (k := 2) h

theorem dropWhile_pushDigits (hn : 0 < n) (h : n < 10 ^ k) :
    (pushDigits k n buf).dropWhile (· == '0') = toDigits 10 n ++ buf := by
  have hzero : ∀ k buf, (pushDigits k 0 buf).dropWhile (· == '0') = buf.dropWhile (· == '0') := by
    intro k
    induction k with
    | zero => exact fun buf => rfl
    | succ k ih => exact fun buf => ih _
  induction k generalizing n buf with
  | zero => omega
  | succ k ih =>
    rw [pushDigits]
    by_cases hlt : n < 10
    · have hdigit : ∀ d < 10, 0 < d → (d.digitChar == '0') = false := by decide
      rw [Nat.div_eq_of_lt hlt, hzero, Nat.mod_eq_of_lt hlt, toDigits_of_lt_base hlt]
      rw [dropWhile_cons_of_neg (by rw [hdigit n hlt hn]; decide), singleton_append]
    · rw [ih (by omega) (by omega), toDigits_of_base_le (n := n) (by decide) (by omega),
        append_assoc, singleton_append]

/-! ### What is written -/

theorem ofNat_eq_digitChar : ∀ d < 10, Char.ofNat (d + 0x30) = d.digitChar := by decide

theorem decpair_eq (h : r < 100) : decpair r = some ((r % 10).digitChar, (r / 10).digitChar) := by
  rw [decpair, if_pos h, ofNat_eq_digitChar _ (by omega), ofNat_eq_digitChar _ (by omega)]

theorem putPair_eq (h : r < 100) : putPair buf r = some (pushDigits 2 r buf) := by
  rw [putPair, decpair_eq h, pushDigits, pushDigits, pushDigits,
    Nat.mod_eq_of_lt (a := r / 10) (by omega)]
  rfl

theorem outR_eq (h : r < 100) : outR buf r = some (toDigits 10 r ++ buf) := by
  rw [outR, decpair_eq h]
  by_cases hlt : r < 10
  · simp [hlt, toDigits_of_lt_base hlt, Nat.mod_eq_of_lt hlt]
  · simp [hlt, toDigits_of_base_le (b := 10) (by decide) (not_lt.1 hlt),
      toDigits_of_lt_base (show r / 10 < 10 by omega)]

/-! The reciprocals, each on the range on which it is used. -/

theorem mul_shift_32 (h : r < 10 ^ 8) : r * 0x28f5c29 / 2 ^ 32 = r / 100 := by omega

theorem mul_shift_19 (h : r < 10 ^ 4) : r * 0x147b / 2 ^ 19 = r / 100 := by omega

theorem mul_shift_43 (h : x < 1125600000) : x * 0x346DC5D7 / 2 ^ 43 = x / 10 ^ 4 := by omega

section

variable (hu : ∀ x : ℕ, x < 2 ^ 32 → u x = some x)
include hu

theorem u_mul (h : r < 10 ^ 4) : u (r * 0x147b) = some (r * 0x147b) :=
  hu (r * 0x147b) (by omega)

/-- The remainder of a division by a hundred is written as two digits. -/
theorem put_rest {α : Type} (r : ℕ) (buf : List Char) (f : List Char → Option α) :
    ((u (r - 100 * (r / 100 : ℕ))).bind fun i => (putPair buf i).bind f) =
      f (pushDigits 2 r buf) := by
  have hrest : (r - 100 * (r / 100 : ℕ) : ℤ) = (r % 100 : ℕ) := by omega
  rw [hrest, hu _ (by omega), bind_some, putPair_eq (by omega), ← pushDigits_mod 2 r]
  rfl

theorem putDecTrunc8_eq (h : r < 10 ^ 8) : putDecTrunc8 u buf r = some (toDigits 10 r ++ buf) := by
  have hnext : r / 100 < 10 ^ 8 := by omega
  simp only [putDecTrunc8, bind_eq_bind, mul_shift_32 h, mul_shift_32 hnext, put_rest hu]
  split_ifs with h₁ h₂ h₃
  · exact outR_eq h₁
  · rw [outR_eq h₂, toDigits_hundred (not_lt.1 h₁)]
  · rw [outR_eq h₃, toDigits_hundred (not_lt.1 h₂), toDigits_hundred (not_lt.1 h₁)]
  · have hlast : r / 100 / 100 < 10 ^ 4 := by omega
    simp only [u_mul hu hlast, bind_some, mul_shift_19 hlast, put_rest hu]
    rw [outR_eq (by omega), toDigits_hundred (not_lt.1 h₃), toDigits_hundred (not_lt.1 h₂),
      toDigits_hundred (not_lt.1 h₁)]

theorem putDecFull4_eq (h : r < 10 ^ 4) : putDecFull4 u buf r = some (pushDigits 4 r buf) := by
  simp only [putDecFull4, bind_eq_bind, u_mul hu h, bind_some, mul_shift_19 h, put_rest hu]
  rw [putPair_eq (by omega)]
  exact congrArg some (pushDigits_add 2 2 r buf).symm

theorem putDecHelper4_eq (h : x < 1125600000) :
    putDecHelper4 u buf x = some (x / 10 ^ 4, pushDigits 4 x buf) := by
  have hrest : (x - (x / 10 ^ 4 : ℕ) * 10000 : ℤ) = (x % 10 ^ 4 : ℕ) := by omega
  simp only [putDecHelper4, mul_shift_43 h, hrest, hu (x % 10 ^ 4) (by omega),
    bind_eq_bind, bind_some,
    putDecFull4_eq hu (Nat.mod_lt x (by decide : 0 < 10 ^ 4)), pushDigits_mod]
  rfl

theorem putDec_eq (h : n < 2 ^ 64) : putDec u buf n = some (toDigits 10 n ++ buf) := by
  have hu' : ∀ (z : ℤ) (x : ℕ), z = x → x < 2 ^ 32 → u z = some x := by
    rintro _ x rfl
    exact hu x
  simp only [putDec, bind_eq_bind]
  split_ifs with hsmall
  · rw [hu n (by omega)]
    exact putDecTrunc8_eq hu hsmall
  · generalize hd3 : n / 2 ^ 32 / 2 ^ 16 = d3
    generalize hd2 : n / 2 ^ 32 % 2 ^ 16 = d2
    generalize hd1 : n % 2 ^ 32 / 2 ^ 16 = d1
    -- the carries: each limb and what is above it make up what is left of the number
    obtain ⟨a, ha⟩ : ∃ a, a = 656 * d3 + 7296 * d2 + 5536 * d1 + n % 2 ^ 32 % 2 ^ 16 := ⟨_, rfl⟩
    obtain ⟨b, hb⟩ : ∃ b, b = a / 10 ^ 4 + (7671 * d3 + 9496 * d2 + 6 * d1) := ⟨_, rfl⟩
    obtain ⟨c, hc⟩ : ∃ c, c = b / 10 ^ 4 + (4749 * d3 + 42 * d2) := ⟨_, rfl⟩
    have hn : n % 10 ^ 4 = a % 10 ^ 4 := by omega
    have hn₁ : n / 10 ^ 4 % 10 ^ 4 = b % 10 ^ 4 := by omega
    have hn₂ : n / 10 ^ 4 / 10 ^ 4 % 10 ^ 4 = c % 10 ^ 4 := by omega
    have hn₃ : n / 10 ^ 12 = c / 10 ^ 4 + 281 * d3 := by omega
    have hlow : pushDigits 4 c (pushDigits 4 b (pushDigits 4 a buf)) = pushDigits 12 n buf := by
      rw [pushDigits_add 4 8, pushDigits_add 4 4, ← pushDigits_mod 4 n, hn, pushDigits_mod,
        ← pushDigits_mod 4 (n / 10 ^ 4), hn₁, pushDigits_mod, ← pushDigits_mod 4 (_ / _), hn₂,
        pushDigits_mod]
    rw [hu' _ a (by omega) (by omega), bind_some, putDecHelper4_eq hu (by omega),
      bind_some, hu' _ b (by omega) (by omega), bind_some,
      putDecHelper4_eq hu (by omega), bind_some, hu' _ c (by omega) (by omega),
      bind_some, putDecHelper4_eq hu (by omega), bind_some,
      hu' _ (n / 10 ^ 12) (by omega) (by omega), bind_some, hlow]
    split_ifs with htop
    · rw [putDecTrunc8_eq hu (by omega), toDigits_append (by omega)]
    · exact congrArg some (dropWhile_pushDigits (by omega) (by omega))

end

/-- **`put_dec` writes the digits of its argument**, the lowest first and without zeros in front of
the highest. No arithmetic of 32 bits wraps around, and no table index is a hundred or more. -/
theorem put_dec_writes_digits (n : UInt64) (buf : List Char) :
    putDec wrapping buf n.toNat = some (toDigits 10 n.toNat ++ buf) ∧
      putDec checked buf n.toNat = some (toDigits 10 n.toNat ++ buf) := by
  constructor
  · exact putDec_eq (fun x hx => congrArg some (by omega)) n.toNat_lt
  · exact putDec_eq (fun x hx => if_pos (by omega)) n.toNat_lt

end MinimalKernel.Format
