import Mathlib.Data.Nat.Bitwise
import Mathlib.Data.Int.ModEq
import MinimalKernel.Basic

/-!
# The timekeeper and its readers

The kernel's clock is a fixed-point number. `xtime_sec` counts seconds, `xtime_nsec` nanoseconds
times `2 ^ shift`, and what the hardware counter has gone on since `cycle_last` counts `mult` such
units a cycle. A reader adds the three up.

The fields are machine integers: a `u64` is a natural number below `2 ^ 64`, an `s64` an integer
of that width, and every operation that can wrap is reduced explicitly. The kernel is configured
with `HZ = 250`. A function that reads the hardware counter takes its value as an argument.

## Main definitions

* `Timekeeper`, `TkReadBase`, `Clocksource` — the records of the source
* `clocksourceDelta` — the cycles since `cycle_last`
* `ktimeGet`, `ktimeGetRealTs64`, `ktimeGetTs64` — the readers

## Main results

* `clocksourceDelta_eq` — the delta is the distance to `cycle_last`, and 0 from half the mask on
* `carry_eq` — the loops that move whole seconds out of a remainder divide
-/

namespace MinimalKernel.Time

open Int Nat

/-! ### Machine integers of 64 and 32 bits -/

variable (z : ℤ)

/-- The conversion to `u64`. -/
def u64 : ℕ := (z % 2 ^ 64).toNat

/-- The conversion to `s64`. -/
def s64 : ℤ := z.bmod (2 ^ 64)

/-- The conversion to `u32`. -/
def u32 : ℕ := (z % 2 ^ 32).toNat

/-- The conversion to `s32`. -/
def s32 : ℤ := z.bmod (2 ^ 32)

theorem u64_lt : u64 z < 2 ^ 64 := by
  unfold u64
  omega

theorem cast_u64 : (u64 z : ℤ) = z % 2 ^ 64 := by
  unfold u64
  omega

theorem u64_of_lt {n : ℕ} (h : n < 2 ^ 64) : u64 n = n := by
  unfold u64
  omega

theorem u32_of_lt {n : ℕ} (h : n < 2 ^ 32) : u32 n = n := by
  unfold u32
  omega

theorem u64_natCast (n : ℕ) : u64 n = n % 2 ^ 64 := by
  unfold u64
  omega

theorem s64_congr {a b : ℤ} (h : a % 2 ^ 64 = b % 2 ^ 64) : s64 a = s64 b := by
  have ha : s64 a = bmod (a % 2 ^ 64) (2 ^ 64) := (emod_bmod (x := a) (n := 2 ^ 64)).symm
  have hb : s64 b = bmod (b % 2 ^ 64) (2 ^ 64) := (emod_bmod (x := b) (n := 2 ^ 64)).symm
  rw [ha, hb, h]

@[simp]
theorem s64_u64 : s64 (u64 z) = s64 z :=
  s64_congr (by rw [cast_u64, emod_emod])

theorem s64_emod : s64 z % 2 ^ 64 = z % 2 ^ 64 := by
  exact_mod_cast bmod_emod (x := z) (m := 2 ^ 64)

theorem s64_add_natCast (q : ℕ) : s64 (s64 z + q) = s64 (z + q) := by
  apply s64_congr
  have := s64_emod z
  omega

theorem s64_of_range {z : ℤ} (hl : -2 ^ 63 ≤ z) (hu : z < 2 ^ 63) : s64 z = z := by
  unfold s64
  rw [bmod_def]
  split <;> omega

/-- `NSEC_PER_SEC`. -/
def nsecPerSec : ℕ := 1000000000

/-- A loop `while (x >= d) { x -= d; n++; }`: the number of turns and what is left of `x`. Each
turn takes at least one from `x`, so `x` turns are enough for `d > 0`. -/
def carry (d : ℕ) : ℕ → ℕ → ℕ × ℕ
  | 0, x => (0, x)
  | fuel + 1, x =>
    if d ≤ x then ((carry d fuel (x - d)).1 + 1, (carry d fuel (x - d)).2) else (0, x)

/-- The loop divides. -/
theorem carry_eq {d : ℕ} (hd : 0 < d) : ∀ fuel x : ℕ, x ≤ fuel → carry d fuel x = (x / d, x % d)
  | 0, x, h => by
    obtain rfl : x = 0 := by omega
    simp [carry]
  | fuel + 1, x, h => by
    rw [carry]
    split
    next hx =>
      rw [carry_eq hd fuel (x - d) (by omega), div_eq_sub_div hd hx, mod_eq_sub_mod hx]
    next hx => rw [div_eq_of_lt (by omega), mod_eq_of_lt (by omega)]

/-- `__iter_div_u64_rem`: quotient, a `u32`, and remainder. -/
def iterDivU64Rem (dividend divisor : ℕ) : ℕ × ℕ :=
  (u32 (carry divisor dividend dividend).1, (carry divisor dividend dividend).2)

theorem iterDivU64Rem_eq {dividend divisor : ℕ} (hd : 0 < divisor) :
    iterDivU64Rem dividend divisor = (u32 (dividend / divisor : ℕ), dividend % divisor) := by
  rw [iterDivU64Rem, carry_eq hd _ _ le_rfl]

/-! ### Points in time -/

/-- `struct timespec64`. -/
structure Timespec64 where
  tvSec : ℤ
  tvNsec : ℤ
  deriving DecidableEq, Repr

/-- `set_normalized_timespec64`; its two loops leave the floor of the division. -/
def setNormalizedTimespec64 (sec nsec : ℤ) : Timespec64 :=
  ⟨s64 (sec + nsec / nsecPerSec), nsec % nsecPerSec⟩

/-- `timespec64_sub`. -/
def timespec64Sub (lhs rhs : Timespec64) : Timespec64 :=
  setNormalizedTimespec64 (s64 (lhs.tvSec - rhs.tvSec)) (s32 (lhs.tvNsec - rhs.tvNsec))

/-- `timespec64_add_ns`. -/
def timespec64AddNs (a : Timespec64) (ns : ℕ) : Timespec64 :=
  let q := iterDivU64Rem (u64 (a.tvNsec + ns)) nsecPerSec
  ⟨s64 (a.tvSec + q.1), q.2⟩

theorem timespec64AddNs_eq (sec : ℤ) {ns : ℕ} (h : ns < 2 ^ 64) :
    timespec64AddNs ⟨sec, 0⟩ ns =
      ⟨s64 (sec + u32 (ns / nsecPerSec : ℕ)), (ns % nsecPerSec : ℕ)⟩ := by
  rw [timespec64AddNs, zero_add, u64_of_lt h, iterDivU64Rem_eq (by decide)]

/-- `KTIME_MAX`. -/
def ktimeMax : ℤ := 2 ^ 63 - 1

/-- `ktime_set`; `KTIME_SEC_MAX` is the number of whole seconds in `KTIME_MAX`. -/
def ktimeSet (secs : ℤ) (nsecs : ℕ) : ℤ :=
  if ktimeMax / nsecPerSec ≤ secs then ktimeMax else s64 (secs * nsecPerSec + nsecs)

/-- `timespec64_to_ktime`. -/
def timespec64ToKtime (ts : Timespec64) : ℤ := ktimeSet ts.tvSec (u32 ts.tvNsec)

/-! ### The records -/

/-- `enum vdso_clock_mode`. -/
inductive VdsoClockMode
  | none
  | tsc
  | pvclock
  | hvclock
  deriving DecidableEq, Repr

/-- What the timekeeping code reads of a `struct clocksource`. -/
structure Clocksource where
  mask : ℕ
  mult : ℕ
  shift : ℕ
  vdsoClockMode : VdsoClockMode
  deriving DecidableEq, Repr

/-- `struct tk_read_base`. -/
structure TkReadBase where
  clock : Clocksource
  mask : ℕ
  cycleLast : ℕ
  mult : ℕ
  shift : ℕ
  xtimeNsec : ℕ
  base : ℤ
  baseReal : ℕ
  deriving DecidableEq, Repr

/-- `struct timekeeper`. -/
structure Timekeeper where
  tkrMono : TkReadBase
  tkrRaw : TkReadBase
  xtimeSec : ℕ
  ktimeSec : ℕ
  wallToMonotonic : Timespec64
  offsReal : ℤ
  offsTai : ℤ
  taiOffset : ℤ
  clockWasSetSeq : ℕ
  csWasChangedSeq : ℕ
  nextLeapKtime : ℤ
  rawSec : ℕ
  monotonicToBoot : Timespec64
  cycleInterval : ℕ
  xtimeInterval : ℕ
  xtimeRemainder : ℤ
  rawInterval : ℕ
  ntpTick : ℕ
  ntpError : ℤ
  ntpErrorShift : ℕ
  ntpErrMult : ℕ
  skipSecondOverflow : ℕ
  deriving DecidableEq, Repr

/-! ### Reading the clock -/

/-- `clocksource_delta`: a counter that seems to have gone back gives 0. -/
def clocksourceDelta (now last mask : ℕ) : ℕ :=
  let ret := u64 ((now : ℤ) - last) &&& mask
  if ret &&& ((2 ^ 64 - 1) ^^^ (mask >>> 1)) ≠ 0 then 0 else ret

/-- `timekeeping_get_delta`, for the counter value `now`. -/
def timekeepingGetDelta (tkr : TkReadBase) (now : ℕ) : ℕ :=
  clocksourceDelta now tkr.cycleLast tkr.mask

/-- `timekeeping_delta_to_ns`. -/
def timekeepingDeltaToNs (tkr : TkReadBase) (delta : ℕ) : ℕ :=
  u64 ((delta * tkr.mult + tkr.xtimeNsec : ℕ)) >>> tkr.shift

/-- `timekeeping_get_ns`. -/
def timekeepingGetNs (tkr : TkReadBase) (now : ℕ) : ℕ :=
  timekeepingDeltaToNs tkr (timekeepingGetDelta tkr now)

/-- `ktime_get`. -/
def ktimeGet (tk : Timekeeper) (now : ℕ) : ℤ :=
  s64 (tk.tkrMono.base + timekeepingGetNs tk.tkrMono now)

/-- `ktime_get_real_ts64`. -/
def ktimeGetRealTs64 (tk : Timekeeper) (now : ℕ) : Timespec64 :=
  timespec64AddNs ⟨s64 tk.xtimeSec, 0⟩ (timekeepingGetNs tk.tkrMono now)

/-- `ktime_get_ts64`. -/
def ktimeGetTs64 (tk : Timekeeper) (now : ℕ) : Timespec64 :=
  timespec64AddNs ⟨s64 (s64 tk.xtimeSec + tk.wallToMonotonic.tvSec), 0⟩
    (u64 (timekeepingGetNs tk.tkrMono now + tk.wallToMonotonic.tvNsec))

/-! ### The delta -/

/-- `CLOCKSOURCE_MASK`. -/
def clocksourceMask (bits : ℕ) : ℕ := 2 ^ bits - 1

theorem clocksourceMask_shiftRight (bits : ℕ) :
    clocksourceMask (bits + 1) >>> 1 = clocksourceMask bits := by
  unfold clocksourceMask
  rw [Nat.shiftRight_eq_div_pow, pow_succ]
  omega

/-- A number has no bit above the lower half of the mask iff it fits into that half. -/
theorem and_not_mask_eq_zero {x bits : ℕ} (hx : x < 2 ^ 64) :
    x &&& ((2 ^ 64 - 1) ^^^ clocksourceMask bits) = 0 ↔ x < 2 ^ bits := by
  constructor
  · intro h
    apply Nat.lt_pow_two_of_testBit
    intro i hi
    by_cases h64 : i < 64
    · have hbit := congrArg (Nat.testBit · i) h
      simpa [clocksourceMask, Nat.testBit_two_pow_sub_one, h64, not_lt.2 hi, -Nat.reducePow,
        -Nat.reduceSub] using hbit
    · exact Nat.testBit_lt_two_pow (hx.trans_le (Nat.pow_le_pow_right two_pos (not_lt.1 h64)))
  · intro h
    apply eq_of_testBit_eq
    intro i
    by_cases hi : i < bits
    · by_cases h64 : i < 64
      · simp [clocksourceMask, Nat.testBit_two_pow_sub_one, h64, hi, -Nat.reducePow, -Nat.reduceSub]
      · have := testBit_lt_two_pow
          (hx.trans_le (Nat.pow_le_pow_right two_pos (not_lt.1 h64)))
        simp [this]
    · have := Nat.testBit_lt_two_pow (h.trans_le (Nat.pow_le_pow_right two_pos (not_lt.1 hi)))
      simp [this]

/-- **The delta is the distance to `cycle_last`**, modulo the width of the counter, and 0 if that
is half the range or more. -/
theorem clocksourceDelta_eq (now last bits : ℕ) :
    clocksourceDelta now last (clocksourceMask (bits + 1)) =
      if u64 ((now : ℤ) - last) % 2 ^ (bits + 1) < 2 ^ bits then
        u64 ((now : ℤ) - last) % 2 ^ (bits + 1)
      else 0 := by
  have hmask : u64 ((now : ℤ) - last) &&& clocksourceMask (bits + 1) =
      u64 ((now : ℤ) - last) % 2 ^ (bits + 1) := and_two_pow_sub_one_eq_mod _ _
  have hlt : u64 ((now : ℤ) - last) % 2 ^ (bits + 1) < 2 ^ 64 :=
    (mod_le _ _).trans_lt (u64_lt _)
  simp only [clocksourceDelta, hmask, clocksourceMask_shiftRight, ne_eq,
    and_not_mask_eq_zero hlt, ite_not]

/-- A counter of `bits + 1` bits that has gone on by `d`, less than half its range. -/
theorem clocksourceDelta_of_lt {now last bits d : ℕ} (hbits : bits < 64) (hd : d < 2 ^ bits)
    (h : (now : ℤ) ≡ last + d [ZMOD 2 ^ (bits + 1)]) :
    clocksourceDelta now last (clocksourceMask (bits + 1)) = d := by
  have hdvd : (2 : ℤ) ^ (bits + 1) ∣ 2 ^ 64 := pow_dvd_pow 2 (by omega)
  have hmod : u64 ((now : ℤ) - last) % 2 ^ (bits + 1) = d := by
    have hcast : ((u64 ((now : ℤ) - last) % 2 ^ (bits + 1) : ℕ) : ℤ) = d := by
      push_cast
      rw [cast_u64, emod_emod_of_dvd _ hdvd]
      have : (now : ℤ) - last ≡ d [ZMOD 2 ^ (bits + 1)] := by
        simpa using h.sub_right (last : ℤ)
      rw [this]
      exact emod_eq_of_lt (by omega) (by exact_mod_cast (by omega : d < 2 ^ (bits + 1)))
    exact_mod_cast hcast
  rw [clocksourceDelta_eq, hmod, if_pos hd]

end MinimalKernel.Time
