import MinimalKernel.Time.Timekeeper

/-!
# The clock in user space

`update_vsyscall` publishes a timekeeper on a page that user space can read, and `do_hres` there
reads the hardware counter and computes the time from that page without entering the kernel. The
published base of a clock is its seconds, and its nanoseconds times `2 ^ shift`; for the monotonic
clock the kernel carries whole seconds over before it publishes, whereas the kernel's own readers
carry them over after the shift.

## Main definitions

* `VdsoPage`, `updateVsyscall` — the published data
* `doHres` — the reader in user space

## Main results

* `doHres_eq_ktimeGet` — the clock in user space is the kernel's, as long as nothing overflows
-/

namespace MinimalKernel.Time

open Nat

/-! ### The published page -/

/-- The clocks that have a base on the page. -/
inductive ClockId
  | realtime
  | monotonic
  | monotonicRaw
  | realtimeCoarse
  | monotonicCoarse
  | boottime
  | tai
  deriving DecidableEq, Repr

/-- `struct vdso_timestamp`. -/
structure VdsoTimestamp where
  sec : ℕ
  nsec : ℕ
  deriving DecidableEq, Repr

/-- `struct vdso_data`. -/
structure VdsoData where
  seq : ℕ
  clockMode : VdsoClockMode
  cycleLast : ℕ
  mask : ℕ
  mult : ℕ
  shift : ℕ
  basetime : ClockId → VdsoTimestamp

/-- The two elements of `_vdso_data`. -/
structure VdsoPage where
  hresCoarse : VdsoData
  raw : VdsoData

/-- Assignment to a member of `basetime`. -/
def VdsoData.setBase (vd : VdsoData) (clk : ClockId) (ts : VdsoTimestamp) : VdsoData :=
  { vd with basetime := Function.update vd.basetime clk ts }

/-- The increment of `vdso_write_begin` and `vdso_write_end`. -/
def VdsoData.bumpSeq (vd : VdsoData) : VdsoData := { vd with seq := u32 (vd.seq + 1) }

/-- `vdso_write_begin` and `vdso_write_end`. -/
def VdsoPage.bumpSeq (page : VdsoPage) : VdsoPage := ⟨page.hresCoarse.bumpSeq, page.raw.bumpSeq⟩

/-- The loop that carries whole seconds from a shifted nanosecond count to the seconds. -/
def carrySeconds (sec nsec shift : ℕ) : VdsoTimestamp :=
  let q := carry (u64 (nsecPerSec <<< shift : ℕ)) nsec nsec
  ⟨u64 (sec + q.1), q.2⟩

/-- The published base of the monotonic clock. -/
def monotonicBase (tk : Timekeeper) : VdsoTimestamp :=
  carrySeconds (u64 (tk.xtimeSec + tk.wallToMonotonic.tvSec))
    (u64 (tk.tkrMono.xtimeNsec +
      u64 (u64 tk.wallToMonotonic.tvNsec <<< tk.tkrMono.shift : ℕ) : ℕ)) tk.tkrMono.shift

/-- The published base of `CLOCK_BOOTTIME`, which starts from that of the monotonic clock. -/
def boottimeBase (tk : Timekeeper) : VdsoTimestamp :=
  let mono := monotonicBase tk
  carrySeconds (u64 (mono.sec + tk.monotonicToBoot.tvSec))
    (u64 (mono.nsec + u64 (u64 tk.monotonicToBoot.tvNsec <<< tk.tkrMono.shift : ℕ) : ℕ))
    tk.tkrMono.shift

/-- `update_vdso_data`. -/
def updateVdsoData (page : VdsoPage) (tk : Timekeeper) : VdsoPage where
  hresCoarse :=
    { page.hresCoarse with
      cycleLast := tk.tkrMono.cycleLast
      mask := tk.tkrMono.mask
      mult := tk.tkrMono.mult
      shift := tk.tkrMono.shift }
    |>.setBase .monotonic (monotonicBase tk)
    |>.setBase .boottime (boottimeBase tk)
    |>.setBase .tai ⟨u64 (tk.xtimeSec + tk.taiOffset), tk.tkrMono.xtimeNsec⟩
  raw :=
    { page.raw with
      cycleLast := tk.tkrRaw.cycleLast
      mask := tk.tkrRaw.mask
      mult := tk.tkrRaw.mult
      shift := tk.tkrRaw.shift }
    |>.setBase .monotonicRaw ⟨tk.rawSec, tk.tkrRaw.xtimeNsec⟩

/-- The base of `CLOCK_MONOTONIC_COARSE`. -/
def monotonicCoarseBase (tk : Timekeeper) : VdsoTimestamp :=
  let q := iterDivU64Rem
    (u64 ((tk.tkrMono.xtimeNsec >>> tk.tkrMono.shift : ℕ) + tk.wallToMonotonic.tvNsec)) nsecPerSec
  ⟨u64 (u64 (tk.xtimeSec + tk.wallToMonotonic.tvSec) + q.1), q.2⟩

/-- `update_vsyscall`. -/
def updateVsyscall (page : VdsoPage) (tk : Timekeeper) : VdsoPage :=
  let page := page.bumpSeq
  let mode := tk.tkrMono.clock.vdsoClockMode
  let page : VdsoPage :=
    { hresCoarse :=
        { page.hresCoarse with clockMode := mode }
        |>.setBase .realtime ⟨tk.xtimeSec, tk.tkrMono.xtimeNsec⟩
        |>.setBase .realtimeCoarse ⟨tk.xtimeSec, tk.tkrMono.xtimeNsec >>> tk.tkrMono.shift⟩
        |>.setBase .monotonicCoarse (monotonicCoarseBase tk)
      raw := { page.raw with clockMode := mode } }
  let page := if mode ≠ .none then updateVdsoData page tk else page
  page.bumpSeq

/-! ### The reader in user space -/

/-- `__arch_get_hw_counter`: `tsc` is the value of the time stamp counter. -/
def archGetHwCounter (mode : VdsoClockMode) (tsc : ℕ) : ℕ :=
  if mode = .tsc then tsc else 2 ^ 64 - 1

/-- `arch_vdso_cycles_ok`. -/
def archVdsoCyclesOk (cycles : ℕ) : Bool := 0 ≤ s64 cycles

/-- `vdso_calc_delta` of x86. -/
def vdsoCalcDelta (cycles last mult : ℕ) : ℕ :=
  if last < cycles then u64 ((cycles - last) * mult : ℕ) else 0

/-- `do_hres`, where no update intervenes: `none` is the result -1, upon which the caller enters
the kernel. An odd sequence number is that of an update that has not ended. -/
def doHres (vd : VdsoData) (clk : ClockId) (tsc : ℕ) : Except Oops (Option Timespec64) :=
  if vd.seq % 2 = 1 then .error .hang
  else
    let cycles := archGetHwCounter vd.clockMode tsc
    if !archVdsoCyclesOk cycles then .ok none
    else
      let ns := u64 ((vd.basetime clk).nsec + vdsoCalcDelta cycles vd.cycleLast vd.mult : ℕ)
        >>> vd.shift
      let q := iterDivU64Rem ns nsecPerSec
      .ok (some ⟨s64 (u64 ((vd.basetime clk).sec + q.1)), q.2⟩)

/-! ### What is published -/

section Published

variable {page : VdsoPage} {tk : Timekeeper}

theorem updateVsyscall_seq (tk : Timekeeper) (heven : page.hresCoarse.seq % 2 = 0) :
    (updateVsyscall page tk).hresCoarse.seq % 2 = 0 := by
  have hseq : (updateVsyscall page tk).hresCoarse.seq =
      u32 ((u32 (page.hresCoarse.seq + 1) : ℕ) + 1) := by
    by_cases h : tk.tkrMono.clock.vdsoClockMode = .none <;>
      simp [updateVsyscall, VdsoPage.bumpSeq, VdsoData.bumpSeq, VdsoData.setBase, updateVdsoData, h]
  rw [hseq]
  unfold u32
  omega

/-- What `do_hres` reads of the page, after a timekeeper that runs on the time stamp counter has
been published. -/
theorem updateVsyscall_published (page : VdsoPage) (hmode : tk.tkrMono.clock.vdsoClockMode = .tsc) :
    let vd := (updateVsyscall page tk).hresCoarse
    vd.clockMode = .tsc ∧ vd.cycleLast = tk.tkrMono.cycleLast ∧ vd.mult = tk.tkrMono.mult ∧
      vd.shift = tk.tkrMono.shift ∧
      vd.basetime .realtime = ⟨tk.xtimeSec, tk.tkrMono.xtimeNsec⟩ ∧
      vd.basetime .monotonic = monotonicBase tk := by
  refine ⟨?_, ?_, ?_, ?_, ?_, ?_⟩ <;>
    simp [updateVsyscall, hmode, VdsoPage.bumpSeq, VdsoData.bumpSeq, VdsoData.setBase,
      updateVdsoData]

theorem archVdsoCyclesOk_of_lt {cycles : ℕ} (h : cycles < 2 ^ 63) :
    archVdsoCyclesOk cycles = true := by
  rw [archVdsoCyclesOk, s64_of_range (by omega) (by exact_mod_cast h), decide_eq_true_eq]
  omega

/-- `do_hres` on the published page, at a counter value that is not before `cycle_last` and has
the upper bit clear. -/
theorem doHres_published {c : ℕ} (clk : ClockId) (heven : page.hresCoarse.seq % 2 = 0)
    (hmode : tk.tkrMono.clock.vdsoClockMode = .tsc) (hlast : tk.tkrMono.cycleLast ≤ c)
    (hc : c < 2 ^ 63) : let ts := (updateVsyscall page tk).hresCoarse.basetime clk
    let ns := (ts.nsec + (c - tk.tkrMono.cycleLast) * tk.tkrMono.mult) % 2 ^ 64 /
      2 ^ tk.tkrMono.shift
    doHres (updateVsyscall page tk).hresCoarse clk c =
      .ok (some ⟨s64 (ts.sec + u32 (ns / nsecPerSec : ℕ)), (ns % nsecPerSec : ℕ)⟩) := by
  obtain ⟨hm, hl, hmult, hshift, -, -⟩ := updateVsyscall_published page hmode
  have hseq := updateVsyscall_seq tk heven
  have hdelta : vdsoCalcDelta c tk.tkrMono.cycleLast tk.tkrMono.mult =
      (c - tk.tkrMono.cycleLast) * tk.tkrMono.mult % 2 ^ 64 := by
    unfold vdsoCalcDelta
    split
    · rw [u64_natCast]
    · rw [show c - tk.tkrMono.cycleLast = 0 by omega, zero_mul, zero_mod]
  simp only [doHres, hm, hl, hmult, hshift, hseq, archGetHwCounter, if_true,
    archVdsoCyclesOk_of_lt hc, hdelta, Bool.not_true, Bool.false_eq_true, if_false, u64_natCast,
    add_mod_mod, zero_ne_one, s64_u64, shiftRight_eq_div_pow,
    iterDivU64Rem_eq (show 0 < nsecPerSec by decide)]

end Published

/-! ### Agreement with the kernel -/

/-- A published timekeeper and a counter value at which the time can be computed: the clock runs
on the time stamp counter, the counter value is not before `cycle_last` and has its upper bit
clear, and neither the shifted nanoseconds nor the seconds in them overflow. -/
structure Readable (tk : Timekeeper) (c : ℕ) : Prop where
  mode : tk.tkrMono.clock.vdsoClockMode = .tsc
  mask : tk.tkrMono.mask = clocksourceMask 64
  shift : tk.tkrMono.shift ≤ 32
  toMono : 0 ≤ tk.wallToMonotonic.tvNsec
  last : tk.tkrMono.cycleLast ≤ c
  half : c < 2 ^ 63
  nsec : (c - tk.tkrMono.cycleLast) * tk.tkrMono.mult + tk.tkrMono.xtimeNsec +
    tk.wallToMonotonic.tvNsec.toNat * 2 ^ tk.tkrMono.shift < 2 ^ 64
  sec : ((c - tk.tkrMono.cycleLast) * tk.tkrMono.mult + tk.tkrMono.xtimeNsec) /
    2 ^ tk.tkrMono.shift + tk.wallToMonotonic.tvNsec.toNat < 2 ^ 32 * nsecPerSec

section Agreement

variable {page : VdsoPage} {tk : Timekeeper} {c : ℕ}

/-- The kernel's count of nanoseconds, before the seconds are taken out. -/
theorem Readable.getNs (h : Readable tk c) : timekeepingGetNs tk.tkrMono c =
    ((c - tk.tkrMono.cycleLast) * tk.tkrMono.mult + tk.tkrMono.xtimeNsec) /
      2 ^ tk.tkrMono.shift := by
  have hdelta : timekeepingGetDelta tk.tkrMono c = c - tk.tkrMono.cycleLast := by
    rw [timekeepingGetDelta, h.mask]
    apply clocksourceDelta_of_lt (by norm_num) (by have := h.half; omega)
    rw [← Nat.cast_add, Nat.add_sub_cancel' h.last]
  rw [timekeepingGetNs, hdelta, timekeepingDeltaToNs, u64_of_lt, shiftRight_eq_div_pow]
  have := h.nsec
  omega

/-- Whole seconds can be carried over before the shift or after it. -/
theorem carry_before_shift (b d s : ℕ) :
    (b % (nsecPerSec * 2 ^ s) + d) / 2 ^ s + b / (nsecPerSec * 2 ^ s) * nsecPerSec =
      (b + d) / 2 ^ s := by
  have hb := mod_add_div b (nsecPerSec * 2 ^ s)
  calc (b % (nsecPerSec * 2 ^ s) + d) / 2 ^ s + b / (nsecPerSec * 2 ^ s) * nsecPerSec
      = (b % (nsecPerSec * 2 ^ s) + d +
          b / (nsecPerSec * 2 ^ s) * nsecPerSec * 2 ^ s) / 2 ^ s :=
        (Nat.add_mul_div_right _ _ (Nat.two_pow_pos s)).symm
    _ = (b + d) / 2 ^ s := by
        congr 1
        rw [mul_assoc, mul_comm (b / _) (nsecPerSec * 2 ^ s), add_right_comm, hb]

/-- What is left of the nanoseconds has the same remainder and so many seconds less. -/
theorem div_mod_of_add_mul {ns total k : ℕ} (h : ns + k * nsecPerSec = total) :
    ns % nsecPerSec = total % nsecPerSec ∧ ns / nsecPerSec + k = total / nsecPerSec := by
  subst h
  exact ⟨(add_mul_mod_self_right _ _ _).symm, (add_mul_div_right _ _ (by decide)).symm⟩

theorem Readable.monotonicBase_eq (h : Readable tk c) :
    let b := tk.tkrMono.xtimeNsec + tk.wallToMonotonic.tvNsec.toNat * 2 ^ tk.tkrMono.shift
    let second := nsecPerSec * 2 ^ tk.tkrMono.shift
    monotonicBase tk =
      ⟨u64 (u64 (tk.xtimeSec + tk.wallToMonotonic.tvSec) + (b / second : ℕ)), b % second⟩ := by
  have hnsec := h.nsec
  have hpow : 2 ^ tk.tkrMono.shift ≤ 2 ^ 32 := Nat.pow_le_pow_right two_pos h.shift
  have hpos := Nat.two_pow_pos tk.tkrMono.shift
  have hsecond : u64 (nsecPerSec <<< tk.tkrMono.shift : ℕ) = nsecPerSec * 2 ^ tk.tkrMono.shift := by
    rw [shiftLeft_eq, u64_of_lt]
    unfold nsecPerSec
    omega
  have hle : tk.wallToMonotonic.tvNsec.toNat ≤
      tk.wallToMonotonic.tvNsec.toNat * 2 ^ tk.tkrMono.shift := Nat.le_mul_of_pos_right _ hpos
  have htv : u64 tk.wallToMonotonic.tvNsec = tk.wallToMonotonic.tvNsec.toNat := by
    rw [← Int.toNat_of_nonneg h.toMono]
    exact u64_of_lt (by omega)
  have hsecond_pos : 0 < nsecPerSec * 2 ^ tk.tkrMono.shift := mul_pos (by decide) hpos
  simp only [monotonicBase, carrySeconds, htv, hsecond]
  rw [shiftLeft_eq, u64_of_lt (n := tk.wallToMonotonic.tvNsec.toNat * 2 ^ tk.tkrMono.shift)
    (by omega), u64_of_lt (by omega), carry_eq hsecond_pos _ _ le_rfl]

/-- The seconds of the two readers are the same sum. -/
theorem s64_seconds (xtime toMono : ℤ) {k q total : ℕ} (h : k + q = total) :
    s64 (u64 (u64 (xtime + toMono) + k) + q) = s64 (s64 (s64 xtime + toMono) + total) := by
  apply s64_congr
  have h₁ := s64_emod (s64 xtime + toMono)
  have h₂ := s64_emod xtime
  rw [cast_u64, cast_u64]
  omega

theorem Readable.ktimeGetRealTs64_eq (h : Readable tk c) :
    let total := ((c - tk.tkrMono.cycleLast) * tk.tkrMono.mult + tk.tkrMono.xtimeNsec) /
      2 ^ tk.tkrMono.shift
    ktimeGetRealTs64 tk c =
      ⟨s64 (s64 tk.xtimeSec + u32 (total / nsecPerSec : ℕ)), (total % nsecPerSec : ℕ)⟩ := by
  have hnsec := h.nsec
  have hdiv := div_le_self ((c - tk.tkrMono.cycleLast) * tk.tkrMono.mult +
    tk.tkrMono.xtimeNsec) (2 ^ tk.tkrMono.shift)
  rw [ktimeGetRealTs64, h.getNs, timespec64AddNs_eq _ (by omega)]

theorem Readable.doHres_realtime (h : Readable tk c) (heven : page.hresCoarse.seq % 2 = 0) :
    doHres (updateVsyscall page tk).hresCoarse .realtime c =
      .ok (some (ktimeGetRealTs64 tk c)) := by
  obtain ⟨-, -, -, -, hreal, -⟩ := updateVsyscall_published page h.mode
  have hnsec := h.nsec
  rw [doHres_published .realtime heven h.mode h.last h.half, hreal, h.ktimeGetRealTs64_eq]
  dsimp only
  generalize (c - tk.tkrMono.cycleLast) * tk.tkrMono.mult = d at *
  generalize tk.tkrMono.xtimeNsec = x at *
  have hmod : (x + d) % 2 ^ 64 = d + x := by
    rw [mod_eq_of_lt (by omega), add_comm]
  rw [hmod, s64_add_natCast]

/-- The kernel's monotonic clock counts the offset to the wall clock after the shift. -/
theorem Readable.ktimeGetTs64_eq (h : Readable tk c) :
    let total := ((c - tk.tkrMono.cycleLast) * tk.tkrMono.mult + tk.tkrMono.xtimeNsec) /
      2 ^ tk.tkrMono.shift + tk.wallToMonotonic.tvNsec.toNat
    ktimeGetTs64 tk c =
      ⟨s64 (s64 (s64 tk.xtimeSec + tk.wallToMonotonic.tvSec) + (total / nsecPerSec : ℕ)),
        (total % nsecPerSec : ℕ)⟩ := by
  have hsec := h.sec
  have hlt : 2 ^ 32 * nsecPerSec < 2 ^ 64 := by decide
  rw [ktimeGetTs64, h.getNs, ← Int.toNat_of_nonneg h.toMono, ← Nat.cast_add,
    u64_of_lt (hsec.trans hlt), timespec64AddNs_eq _ (hsec.trans hlt),
    u32_of_lt (Nat.div_lt_of_lt_mul (hsec.trans_eq (mul_comm _ _))), Int.toNat_natCast]

theorem Readable.doHres_monotonic (h : Readable tk c) (heven : page.hresCoarse.seq % 2 = 0) :
    doHres (updateVsyscall page tk).hresCoarse .monotonic c = .ok (some (ktimeGetTs64 tk c)) := by
  obtain ⟨-, -, -, -, -, hmono⟩ := updateVsyscall_published page h.mode
  have hnsec := h.nsec
  have hsec := h.sec
  rw [doHres_published .monotonic heven h.mode h.last h.half, hmono, h.monotonicBase_eq,
    h.ktimeGetTs64_eq]
  dsimp only
  generalize (c - tk.tkrMono.cycleLast) * tk.tkrMono.mult = d at *
  generalize tk.tkrMono.xtimeNsec = x at *
  generalize tk.wallToMonotonic.tvNsec.toNat = t at *
  generalize tk.tkrMono.shift = s at *
  -- the count of nanoseconds before and after the carry
  have htotal : (x + t * 2 ^ s + d) / 2 ^ s = (d + x) / 2 ^ s + t := by
    rw [show x + t * 2 ^ s + d = d + x + t * 2 ^ s by ring,
      Nat.add_mul_div_right _ _ (Nat.two_pow_pos s)]
  have hcarry := carry_before_shift (x + t * 2 ^ s) d s
  rw [htotal] at hcarry
  have hmod : (x + t * 2 ^ s) % (nsecPerSec * 2 ^ s) ≤ x + t * 2 ^ s := mod_le _ _
  obtain ⟨hrem, hquot⟩ := div_mod_of_add_mul hcarry
  have hlt : ((d + x) / 2 ^ s + t) / nsecPerSec < 2 ^ 32 :=
    Nat.div_lt_of_lt_mul (hsec.trans_eq (mul_comm _ _))
  rw [← hquot] at hlt
  rw [mod_eq_of_lt (by omega), u32_of_lt (lt_of_add_right_lt hlt), hrem,
    s64_seconds _ _ rfl, add_comm _ (_ / nsecPerSec), hquot]

/-- **The clock in user space is the kernel's.** For a published timekeeper and a counter value at
which the time can be computed, `do_hres` gives the seconds and nanoseconds of the kernel's
readers. -/
theorem doHres_eq_ktimeGet (h : Readable tk c) (heven : page.hresCoarse.seq % 2 = 0) :
    doHres (updateVsyscall page tk).hresCoarse .realtime c =
        .ok (some (ktimeGetRealTs64 tk c)) ∧
      doHres (updateVsyscall page tk).hresCoarse .monotonic c = .ok (some (ktimeGetTs64 tk c)) :=
  ⟨h.doHres_realtime heven, h.doHres_monotonic heven⟩

end Agreement

/-- A time stamp counter at 2 GHz. -/
def tscClock : Clocksource := ⟨clocksourceMask 64, 2 ^ 23, 24, .tsc⟩

/-- A timekeeper on the time stamp counter, 0.6 s after a full second, whose monotonic clock is
0.6 s ahead of the wall clock. -/
def tscTimekeeper (cycleLast : ℕ) : Timekeeper where
  tkrMono := ⟨tscClock, clocksourceMask 64, cycleLast, 2 ^ 23, 24, 600000000 * 2 ^ 24, 600000000, 0⟩
  tkrRaw := ⟨tscClock, clocksourceMask 64, cycleLast, 2 ^ 23, 24, 0, 0, 0⟩
  xtimeSec := 1000
  ktimeSec := 1
  wallToMonotonic := ⟨-1000, 600000000⟩
  offsReal := 999400000000
  offsTai := 999400000000
  taiOffset := 0
  clockWasSetSeq := 1
  csWasChangedSeq := 1
  nextLeapKtime := ktimeMax
  rawSec := 0
  monotonicToBoot := ⟨0, 0⟩
  cycleInterval := 8000000
  xtimeInterval := 8000000 * 2 ^ 23
  xtimeRemainder := 0
  rawInterval := 8000000 * 2 ^ 23
  ntpTick := 4000000 * 2 ^ 32
  ntpError := 0
  ntpErrorShift := 8
  ntpErrMult := 0
  skipSecondOverflow := 0

/-- The page before the first update. -/
def zeroPage : VdsoPage where
  hresCoarse := ⟨0, .none, 0, 0, 0, 0, fun _ => ⟨0, 0⟩⟩
  raw := ⟨0, .none, 0, 0, 0, 0, fun _ => ⟨0, 0⟩⟩

theorem doHres_eq_ktimeGet_tsc :
    doHres (updateVsyscall zeroPage (tscTimekeeper 500)).hresCoarse .realtime 8000000500 =
        .ok (some (ktimeGetRealTs64 (tscTimekeeper 500) 8000000500)) ∧
      doHres (updateVsyscall zeroPage (tscTimekeeper 500)).hresCoarse .monotonic 8000000500 =
        .ok (some (ktimeGetTs64 (tscTimekeeper 500) 8000000500)) :=
  doHres_eq_ktimeGet ⟨rfl, rfl, by decide, by decide, by decide, by decide, by decide +kernel,
    by decide +kernel⟩ rfl

/-- Less than half the counter range after `cycle_last` is not enough. About 18 minutes after it
the product of cycles and multiplier overflows, and the two monotonic clocks differ by 1100 s; and
a counter with its upper bit set is refused. -/
theorem doHres_overflow :
    doHres (updateVsyscall zeroPage (tscTimekeeper 0)).hresCoarse .monotonic
        (2 ^ 41 - 1000000000) = .ok (some ⟨1100, 211627776⟩) ∧
      ktimeGetTs64 (tscTimekeeper 0) (2 ^ 41 - 1000000000) = ⟨0, 700000000⟩ ∧
      doHres (updateVsyscall zeroPage (tscTimekeeper (2 ^ 63 - 1))).hresCoarse .monotonic
        (2 ^ 63) = .ok none := by
  refine ⟨?_, ?_, ?_⟩ <;> decide +kernel

end MinimalKernel.Time
