import MinimalKernel.Time.Vdso

/-!
# Keeping the time

The timer tick moves whole intervals of the hardware counter into `xtime_sec` and `xtime_nsec`,
first in large steps and then in smaller ones, and corrects `mult` so that the clock follows the
nominal tick length; `ntp` is stubbed in this kernel, so that length is constant and there are no
leap seconds. A change of the clock source first accounts for the cycles of the old counter and
then scales `xtime_nsec` to the shift of the new one. The tick works on a shadow copy.

## Main definitions

* `TkCore` — `tk_core`, the shadow timekeeper and the page that user space reads
* `timekeepingAdvance` — the tick
* `changeClocksource` — the change to another clock source
* `timekeepingInit` — the state at boot
-/

namespace MinimalKernel.Time

/-- `CONFIG_HZ`. -/
def hz : ℕ := 250

/-- `NTP_INTERVAL_LENGTH`. -/
def ntpIntervalLength : ℕ := nsecPerSec / hz

/-- `TICK_NSEC`. -/
def tickNsec : ℕ := (nsecPerSec + hz / 2) / hz

/-- `ntp_tick_length`. -/
def ntpTickLength : ℕ := tickNsec <<< 32

/-- `ntp_get_next_leap`. -/
def ntpGetNextLeap : ℤ := ktimeMax

/-- `second_overflow`. -/
def secondOverflow (_secs : ℕ) : ℤ := 0

/-- `(u64)NSEC_PER_SEC << shift`. -/
def nsecps (shift : ℕ) : ℕ := u64 (nsecPerSec <<< shift : ℕ)

/-- What is read through `tk_core`, its shadow, and the page for user space. -/
structure TkCore where
  timekeeper : Timekeeper
  shadow : Timekeeper
  page : VdsoPage

/-! ### Small updates -/

variable (tk : Timekeeper)

/-- `tk_normalize_xtime`. -/
def tkNormalizeXtime : Timekeeper :=
  let mono := carry (nsecps tk.tkrMono.shift) tk.tkrMono.xtimeNsec tk.tkrMono.xtimeNsec
  let raw := carry (nsecps tk.tkrRaw.shift) tk.tkrRaw.xtimeNsec tk.tkrRaw.xtimeNsec
  { tk with
    tkrMono := { tk.tkrMono with xtimeNsec := mono.2 }
    xtimeSec := u64 (tk.xtimeSec + mono.1)
    tkrRaw := { tk.tkrRaw with xtimeNsec := raw.2 }
    rawSec := u64 (tk.rawSec + raw.1) }

/-- `tk_set_xtime`. -/
def tkSetXtime (ts : Timespec64) : Timekeeper :=
  { tk with
    xtimeSec := u64 ts.tvSec
    tkrMono := { tk.tkrMono with xtimeNsec := u64 (u64 ts.tvNsec <<< tk.tkrMono.shift : ℕ) } }

/-- `tk_set_wall_to_mono`; the old value is only compared in a warning. -/
def tkSetWallToMono (wtm : Timespec64) : Timekeeper :=
  let offsReal := timespec64ToKtime (setNormalizedTimespec64 (s64 (-wtm.tvSec)) (-wtm.tvNsec))
  { tk with
    wallToMonotonic := wtm
    offsReal := offsReal
    offsTai := s64 (offsReal + ktimeSet tk.taiOffset 0) }

/-- `__timekeeping_set_tai_offset`. -/
def timekeepingSetTaiOffset (taiOffset : ℤ) : Timekeeper :=
  { tk with taiOffset := taiOffset, offsTai := s64 (tk.offsReal + ktimeSet taiOffset 0) }

/-- `tk_update_leap_state`. -/
def tkUpdateLeapState : Timekeeper :=
  { tk with
    nextLeapKtime :=
      if ntpGetNextLeap ≠ ktimeMax then s64 (ntpGetNextLeap - tk.offsReal) else ntpGetNextLeap }

/-- `tk_update_ktime_data`. -/
def tkUpdateKtimeData : Timekeeper :=
  let seconds := u64 (tk.xtimeSec + tk.wallToMonotonic.tvSec)
  let nsec := u32 tk.wallToMonotonic.tvNsec
  let nsec' := u32 (nsec + u32 (tk.tkrMono.xtimeNsec >>> tk.tkrMono.shift : ℕ))
  { tk with
    tkrMono := { tk.tkrMono with base := s64 (u64 (seconds * nsecPerSec + nsec : ℕ)) }
    ktimeSec := u32 (if nsecPerSec ≤ nsec' then u64 (seconds + 1) else seconds : ℕ)
    tkrRaw := { tk.tkrRaw with base := s64 (u64 (tk.rawSec * nsecPerSec : ℕ)) } }

/-- The flags of `timekeeping_update`. -/
structure UpdateAction where
  clearNtp : Bool
  clockWasSet : Bool

/-- `timekeeping_update`: the timekeeper and the page for user space. The copy that `TK_MIRROR`
asks for is made by the callers. -/
def timekeepingUpdate (page : VdsoPage) (tk : Timekeeper) (action : UpdateAction) :
    Timekeeper × VdsoPage :=
  let tk := if action.clearNtp then { tk with ntpError := 0 } else tk
  let tk := tkUpdateKtimeData (tkUpdateLeapState tk)
  let page := updateVsyscall page tk
  let tk := { tk with
    tkrMono := { tk.tkrMono with baseReal := u64 (tk.tkrMono.base + tk.offsReal) } }
  (if action.clockWasSet then { tk with clockWasSetSeq := u32 (tk.clockWasSetSeq + 1) } else tk,
    page)

/-! ### Changing the clock source -/

variable (clock : Clocksource)

/-- The cycles of one tick: `NTP_INTERVAL_LENGTH` in units of the clock, rounded, at least 1. -/
def cycleIntervalOf : ℕ :=
  let tmp := u64 (u64 (ntpIntervalLength <<< clock.shift : ℕ) + clock.mult / 2 : ℕ) / clock.mult
  if tmp = 0 then 1 else tmp

/-- Scaling `xtime_nsec` from the shift of the old clock to that of the new one. -/
def rescale (oldShift shift nsec : ℕ) : ℕ :=
  if shift < oldShift then nsec >>> (oldShift - shift) else u64 (nsec <<< (shift - oldShift) : ℕ)

/-- `tk_setup_internals`: `old` is the clock of `tk`, if it has one, and `now` the counter of the
new one. -/
def tkSetupInternals (old : Option Clocksource) (clock : Clocksource) (now : ℕ) : Timekeeper :=
  let ntpinterval := u64 (ntpIntervalLength <<< clock.shift : ℕ)
  let interval := cycleIntervalOf clock
  let scaled := fun nsec => old.elim nsec fun o => rescale o.shift clock.shift nsec
  { tk with
    csWasChangedSeq := (tk.csWasChangedSeq + 1) % 256
    tkrMono :=
      { tk.tkrMono with
        clock := clock
        mask := clock.mask
        cycleLast := now
        xtimeNsec := scaled tk.tkrMono.xtimeNsec
        shift := clock.shift
        mult := clock.mult }
    tkrRaw :=
      { tk.tkrRaw with
        clock := clock
        mask := clock.mask
        cycleLast := now
        xtimeNsec := scaled tk.tkrRaw.xtimeNsec
        shift := clock.shift
        mult := clock.mult }
    cycleInterval := interval
    xtimeInterval := u64 (interval * clock.mult : ℕ)
    xtimeRemainder := s64 ((ntpinterval : ℤ) - u64 (interval * clock.mult : ℕ))
    rawInterval := u64 (interval * clock.mult : ℕ)
    ntpError := 0
    ntpErrorShift := u32 (32 - (clock.shift : ℤ))
    ntpTick := u64 (ntpinterval <<< u32 (32 - (clock.shift : ℤ)) : ℕ)
    ntpErrMult := 0
    skipSecondOverflow := 0 }

/-- `timekeeping_forward_now`, at the counter value `now`. -/
def timekeepingForwardNow (now : ℕ) : Timekeeper :=
  let delta := clocksourceDelta now tk.tkrMono.cycleLast tk.tkrMono.mask
  tkNormalizeXtime
    { tk with
      tkrMono :=
        { tk.tkrMono with
          cycleLast := now
          xtimeNsec := u64 (tk.tkrMono.xtimeNsec + delta * tk.tkrMono.mult : ℕ) }
      tkrRaw :=
        { tk.tkrRaw with
          cycleLast := now
          xtimeNsec := u64 (tk.tkrRaw.xtimeNsec + delta * tk.tkrRaw.mult : ℕ) } }

/-- `change_clocksource`: `now` is the counter of the old clock, `newNow` that of the new one, and
`change` says whether the new clock could be enabled. -/
def changeClocksource (core : TkCore) (new : Clocksource) (change : Bool) (now newNow : ℕ) :
    TkCore :=
  let tk := timekeepingForwardNow core.timekeeper now
  let tk := if change then tkSetupInternals tk (some tk.tkrMono.clock) new newNow else tk
  let updated := timekeepingUpdate core.page tk ⟨true, true⟩
  ⟨updated.1, updated.1, updated.2⟩

/-! ### The tick -/

/-- `timekeeping_apply_adjustment`. -/
def timekeepingApplyAdjustment (offset multAdj : ℤ) : Timekeeper :=
  if multAdj = 0 then tk
  else
    let scaled : ℤ → ℤ := fun x =>
      if multAdj = -1 then s64 (-x) else if multAdj ≠ 1 then s64 (x * multAdj) else x
    -- the multiplier would overflow
    if 0 < multAdj ∧ (u32 (tk.tkrMono.mult + multAdj) : ℤ) < multAdj then tk
    else
      { tk with
        tkrMono :=
          { tk.tkrMono with
            mult := u32 (tk.tkrMono.mult + multAdj)
            xtimeNsec := u64 (tk.tkrMono.xtimeNsec - scaled offset) }
        xtimeInterval := u64 (tk.xtimeInterval + scaled (s64 tk.cycleInterval)) }

/-- The seconds borrowed at the end of `timekeeping_adjust`, if the adjustment has made the
nanoseconds negative. -/
def borrowSecond : Timekeeper :=
  if s64 tk.tkrMono.xtimeNsec < 0 then
    { tk with
      tkrMono :=
        { tk.tkrMono with
          xtimeNsec := u64 (tk.tkrMono.xtimeNsec + nsecps tk.tkrMono.shift : ℕ) }
      xtimeSec := u64 ((tk.xtimeSec : ℤ) - 1)
      skipSecondOverflow := 1 }
  else tk

/-- `timekeeping_adjust`, without the warning about a large adjustment. -/
def timekeepingAdjust (offset : ℤ) : Timekeeper :=
  let mult :=
    if tk.ntpTick = ntpTickLength then u32 ((tk.tkrMono.mult : ℤ) - tk.ntpErrMult)
    else
      u32 (u64 ((ntpTickLength >>> tk.ntpErrorShift : ℕ) - tk.xtimeRemainder) /
        tk.cycleInterval : ℕ)
  let errMult := if 0 < tk.ntpError then 1 else 0
  let tk := { tk with ntpTick := ntpTickLength, ntpErrMult := errMult }
  let multAdj := s32 (u32 (mult + errMult : ℕ) - tk.tkrMono.mult)
  borrowSecond (timekeepingApplyAdjustment tk offset multAdj)

/-- A leap of `leap` seconds. -/
def applyLeap (leap : ℤ) : Timekeeper :=
  let tk := { tk with xtimeSec := u64 (tk.xtimeSec + leap) }
  let tk := tkSetWallToMono tk (timespec64Sub tk.wallToMonotonic ⟨leap, 0⟩)
  timekeepingSetTaiOffset tk (tk.taiOffset - leap)

/-- A second moves from the nanoseconds to the seconds. -/
def moveSecond : Timekeeper :=
  { tk with
    tkrMono :=
      { tk.tkrMono with xtimeNsec := tk.tkrMono.xtimeNsec - nsecps tk.tkrMono.shift }
    xtimeSec := u64 (tk.xtimeSec + 1) }

/-- The loop of `accumulate_nsecs_to_secs`, with the flag `TK_CLOCK_WAS_SET`. -/
def accumulateLoop : ℕ → Timekeeper → Bool → Timekeeper × Bool
  | 0, tk, clockSet => (tk, clockSet)
  | fuel + 1, tk, clockSet =>
    if nsecps tk.tkrMono.shift ≤ tk.tkrMono.xtimeNsec then
      let tk := moveSecond tk
      if tk.skipSecondOverflow ≠ 0 then
        accumulateLoop fuel { tk with skipSecondOverflow := 0 } clockSet
      else if secondOverflow tk.xtimeSec ≠ 0 then
        accumulateLoop fuel (applyLeap tk (secondOverflow tk.xtimeSec)) true
      else accumulateLoop fuel tk clockSet
    else (tk, clockSet)

/-- `accumulate_nsecs_to_secs`. -/
def accumulateNsecsToSecs : Timekeeper × Bool :=
  accumulateLoop tk.tkrMono.xtimeNsec tk false

/-- `interval` cycles move from the counter to the nanoseconds, where they count for `nsec`. -/
def moveCycles (interval nsec : ℕ) : Timekeeper :=
  { tk with
    tkrMono :=
      { tk.tkrMono with
        cycleLast := u64 (tk.tkrMono.cycleLast + interval : ℕ)
        xtimeNsec := u64 (tk.tkrMono.xtimeNsec + nsec : ℕ) }
    tkrRaw := { tk.tkrRaw with cycleLast := u64 (tk.tkrRaw.cycleLast + interval : ℕ) } }

/-- The rest of `logarithmic_accumulation`, which follows the raw clock and the error against the
nominal tick. -/
def accumulateRaw (shift : ℕ) : Timekeeper :=
  let nsec := u64 (tk.tkrRaw.xtimeNsec + u64 (tk.rawInterval <<< shift : ℕ) : ℕ)
  let q := carry (nsecps tk.tkrRaw.shift) nsec nsec
  let error := s64 (tk.ntpError + u64 (tk.ntpTick <<< shift : ℕ))
  let error := s64 (error -
    u64 (u64 (tk.xtimeInterval + tk.xtimeRemainder) <<< u32 (tk.ntpErrorShift + shift) : ℕ))
  { tk with
    tkrRaw := { tk.tkrRaw with xtimeNsec := q.2 }
    rawSec := u64 (tk.rawSec + q.1)
    ntpError := error }

/-- `logarithmic_accumulation`: the timekeeper, the offset that is left, and the flag. -/
def logarithmicAccumulation (offset shift : ℕ) (clockSet : Bool) : Timekeeper × ℕ × Bool :=
  let interval := u64 (tk.cycleInterval <<< shift : ℕ)
  if offset < interval then (tk, offset, clockSet)
  else
    let acc := accumulateNsecsToSecs
      (moveCycles tk interval (u64 (tk.xtimeInterval <<< shift : ℕ)))
    (accumulateRaw acc.1 shift, offset - interval, clockSet || acc.2)

/-- The loop of `timekeeping_advance`. Each turn lowers the offset or the shift. At shift 0 the
source goes on to -1, but then the loop has ended. -/
def advanceLoop : ℕ → Timekeeper → ℕ → ℕ → Bool → Timekeeper × ℕ × Bool
  | 0, tk, offset, _, clockSet => (tk, offset, clockSet)
  | fuel + 1, tk, offset, shift, clockSet =>
    if tk.cycleInterval ≤ offset then
      let r := logarithmicAccumulation tk offset shift clockSet
      let shift' := if r.2.1 < u64 (r.1.cycleInterval <<< shift : ℕ) then shift - 1 else shift
      advanceLoop fuel r.1 r.2.1 shift' r.2.2
    else (tk, offset, clockSet)

/-- `enum timekeeping_adv_mode`. -/
inductive AdvMode
  | tick
  | freq
  deriving DecidableEq, Repr

/-- The shift at which `timekeeping_advance` starts. -/
def startShift (offset interval : ℕ) : ℕ :=
  min (Nat.log2 offset - Nat.log2 interval) (64 - (Nat.log2 ntpTickLength + 1) - 1)

/-- `timekeeping_advance`, at the counter value `now`. -/
def timekeepingAdvance (core : TkCore) (mode : AdvMode) (now : ℕ) : TkCore × Bool :=
  let tk := core.shadow
  let offset := clocksourceDelta now tk.tkrMono.cycleLast tk.tkrMono.mask
  if offset < core.timekeeper.cycleInterval ∧ mode = .tick then (core, false)
  else
    let shift := startShift offset tk.cycleInterval
    let r := advanceLoop (offset + shift) tk offset shift false
    let acc := accumulateNsecsToSecs (timekeepingAdjust r.1 (s64 r.2.1))
    let clockSet := r.2.2 || acc.2
    let updated := timekeepingUpdate core.page acc.1 ⟨false, clockSet⟩
    (⟨updated.1, updated.1, updated.2⟩, clockSet)

/-- `update_wall_time`; what it does when the clock was set is left out. -/
def updateWallTime (core : TkCore) (now : ℕ) : TkCore := (timekeepingAdvance core .tick now).1

/-! ### Boot -/

/-- A zeroed `struct timekeeper`; its clock is set before it is read. -/
def zeroTimekeeper : Timekeeper where
  tkrMono := ⟨clock, 0, 0, 0, 0, 0, 0, 0⟩
  tkrRaw := ⟨clock, 0, 0, 0, 0, 0, 0, 0⟩
  xtimeSec := 0
  ktimeSec := 0
  wallToMonotonic := ⟨0, 0⟩
  offsReal := 0
  offsTai := 0
  taiOffset := 0
  clockWasSetSeq := 0
  csWasChangedSeq := 0
  nextLeapKtime := 0
  rawSec := 0
  monotonicToBoot := ⟨0, 0⟩
  cycleInterval := 0
  xtimeInterval := 0
  xtimeRemainder := 0
  rawInterval := 0
  ntpTick := 0
  ntpError := 0
  ntpErrorShift := 0
  ntpErrMult := 0
  skipSecondOverflow := 0

/-- `timespec64_valid_settod`. -/
def timespec64ValidSettod (ts : Timespec64) : Bool :=
  0 ≤ ts.tvSec ∧ u32 ts.tvNsec < nsecPerSec ∧
    ts.tvSec < ktimeMax / nsecPerSec - 30 * 365 * 24 * 3600

/-- `timespec64_to_ns`; `KTIME_SEC_MIN` is the negative of `KTIME_SEC_MAX`. -/
def timespec64ToNs (ts : Timespec64) : ℤ :=
  if ktimeMax / nsecPerSec ≤ ts.tvSec then ktimeMax
  else if ts.tvSec ≤ -(ktimeMax / nsecPerSec) then -ktimeMax - 1
  else s64 (ts.tvSec * nsecPerSec + ts.tvNsec)

/-- `timespec64_compare(lhs, rhs) < 0`. -/
def timespec64Before (lhs rhs : Timespec64) : Bool :=
  lhs.tvSec < rhs.tvSec ∨ lhs.tvSec = rhs.tvSec ∧ s32 (lhs.tvNsec - rhs.tvNsec) < 0

/-- The wall time and the boot offset that `timekeeping_init` starts from, out of what the
persistent clock and the scheduler clock say. -/
def bootTimes (wall boot : Timespec64) : Timespec64 × Timespec64 :=
  let wall :=
    if timespec64ValidSettod wall ∧ 0 < timespec64ToNs wall then wall
    else if timespec64ToNs wall ≠ 0 then ⟨0, 0⟩
    else wall
  (wall, if timespec64Before wall boot then ⟨0, 0⟩ else boot)

/-- `timekeeping_init`, with the counter of the default clock at `now`. -/
def timekeepingInit (wall boot : Timespec64) (now : ℕ) (page : VdsoPage) : TkCore :=
  let times := bootTimes wall boot
  let tk := tkSetupInternals (zeroTimekeeper clock) none clock now
  let tk := tkSetXtime tk times.1
  let tk := { tk with rawSec := 0 }
  let tk := tkSetWallToMono tk (timespec64Sub times.2 times.1)
  let updated := timekeepingUpdate page tk ⟨false, true⟩
  ⟨updated.1, updated.1, updated.2⟩

end MinimalKernel.Time
