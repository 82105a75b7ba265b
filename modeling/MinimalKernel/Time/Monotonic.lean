import MinimalKernel.Lib.Run
import MinimalKernel.Time.Advance

/-!
# The monotonic clock never goes back

The clock together with its hardware counter: the counter goes on by any number of cycles, and in
between the clock is read, ticks, or changes to another clock source. The counter is a number that
never wraps; a reader sees it modulo its width.

A reader can only tell apart counter values within half the width of the counter from `cycle_last`.
A tick leaves up to a `cycle_interval` of cycles behind, so between two ticks the counter may go on
by half its range less that interval. Without that margin the clock can go back.

## Main definitions

* `World`, `ClockStep` — the clock and its counter, and what can happen to them
* `Admissible` — the conditions on a step

## Main results

* `ktimeGet_monotone_of_run` — the values of `ktime_get` never decrease, a tick does not change the
  time, and `xtime_interval` follows the multiplier
* `ktimeGet_goes_back` — half the range of the counter is too much
-/

namespace MinimalKernel.Time

open Lib Nat

/-! ### The clock and its counter -/

/-- The clock, the position of the counter of its clock source and where that stood at the last
update, and the values that `ktime_get` has returned, the latest first. -/
structure World where
  core : TkCore
  cycles : ℕ
  lastUpdate : ℕ
  returned : List ℤ

/-- A counter at position `n` reads as `r`. -/
def Reads (mask n r : ℕ) : Prop := (r : ℤ) ≡ n [ZMOD mask + 1]

/-- What can happen. The reading of the counter is part of the operation. -/
inductive ClockOp
  | elapse (d : ℕ)
  | ktimeGet (r : ℕ)
  | updateWallTime (r : ℕ)
  | changeClocksource (new : Clocksource) (change : Bool) (r n newR : ℕ)

/-- The mask of the present clock source. -/
def World.mask (w : World) : ℕ := w.core.timekeeper.tkrMono.mask

/-- One step of the clock. -/
inductive ClockStep : World → ClockOp → World → Prop
  | elapse {w : World} {d : ℕ} :
      ClockStep w (.elapse d) { w with cycles := w.cycles + d }
  | ktimeGet {w : World} {r : ℕ} (hr : Reads w.mask w.cycles r) :
      ClockStep w (.ktimeGet r) { w with returned := ktimeGet w.core.timekeeper r :: w.returned }
  | updateWallTime {w : World} {r : ℕ} (hr : Reads w.mask w.cycles r) :
      ClockStep w (.updateWallTime r)
        { w with core := updateWallTime w.core r, lastUpdate := w.cycles }
  | changeClocksource {w : World} {new : Clocksource} {change : Bool} {r n newR : ℕ}
      (hr : Reads w.mask w.cycles r) (hn : Reads new.mask n newR) :
      ClockStep w (.changeClocksource new change r n newR)
        { w with
          core := changeClocksource w.core new change r newR
          cycles := if change then n else w.cycles
          lastUpdate := if change then n else w.cycles }

/-- Nothing overflows when the time is computed: neither the shifted nanoseconds nor the result. -/
def NoOverflow (tk : Timekeeper) (r : ℕ) : Prop :=
  let delta := clocksourceDelta r tk.tkrMono.cycleLast tk.tkrMono.mask
  shiftedAt tk delta < 2 ^ 64 ∧ valueAt tk delta < 2 ^ 63

instance (tk : Timekeeper) (r : ℕ) : Decidable (NoOverflow tk r) :=
  inferInstanceAs (Decidable (_ ∧ _))

/-- The conditions on a step: `reach` bounds what the counter has gone on since the last update,
nothing overflows, and a new clock source is a valid one. -/
def Admissible (reach : World → Prop) (w : World) : ClockOp → Prop
  | .elapse _ => True
  | .ktimeGet r => reach w ∧ NoOverflow w.core.timekeeper r
  | .updateWallTime r => reach w ∧ NoOverflow w.core.timekeeper r
  | .changeClocksource new _ r _ _ => reach w ∧ NoOverflow w.core.timekeeper r ∧ new.Valid

/-- Since the last update the counter has gone on by less than half its range. -/
def WithinHalf (w : World) : Prop := 2 * (w.cycles - w.lastUpdate) < w.mask

/-- Since the last update the counter has gone on by at most half its range less an interval. -/
def WithinReach (w : World) : Prop :=
  2 * (w.cycles - w.lastUpdate + w.core.timekeeper.cycleInterval) ≤ w.mask + 1

instance (w : World) : Decidable (WithinHalf w) := decLt _ _

instance (w : World) : Decidable (WithinReach w) := decLe _ _

/-- The clock after boot, with the counter at position `n`. -/
def bootWorld (clock : Clocksource) (wall boot : Timespec64) (n r : ℕ) (page : VdsoPage) : World :=
  ⟨timekeepingInit clock wall boot r page, n, n, []⟩

/-! ### The invariant -/

/-- What has been returned is not later than what would be returned at the position `seen` of the
counter, where `last` is the position that `cycle_last` stands for. -/
structure ClockOk (w : World) : Prop where
  shadow : w.core.shadow = w.core.timekeeper
  ok : TkOk w.core.timekeeper
  base : BaseOk w.core.timekeeper
  sorted : w.returned.Pairwise fun later earlier => earlier ≤ later
  seen : ∃ last seen, Reads w.mask last w.core.timekeeper.tkrMono.cycleLast ∧
    last ≤ w.lastUpdate ∧ w.lastUpdate < last + w.core.timekeeper.cycleInterval ∧
    w.lastUpdate ≤ w.cycles ∧ last ≤ seen ∧ seen ≤ w.cycles ∧
    ∀ v ∈ w.returned, v ≤ valueAt w.core.timekeeper (seen - last)

variable {tk : Timekeeper}

theorem neg_le_valueAt (h : BaseOk tk) (o : ℕ) : -2 ^ 63 ≤ valueAt tk o := by
  have hlow : -2 ^ 63 ≤ tk.tkrMono.base := by
    rw [h]
    unfold s64
    have := Int.le_bmod (x := (tk.xtimeSec + tk.wallToMonotonic.tvSec) * nsecPerSec +
      u32 tk.wallToMonotonic.tvNsec) (m := 2 ^ 64) (by decide)
    omega
  exact hlow.trans (Int.le_add_of_nonneg_right (Int.natCast_nonneg _))

/-- A number that has not wrapped is not above one that it equals modulo the width. -/
theorem le_of_modEq {a b : ℤ} (h : a ≡ b [ZMOD 2 ^ 64]) (ha : -2 ^ 63 ≤ a) (hb : b < 2 ^ 63) :
    b ≤ a := by
  have := h.dvd
  omega

/-- The range of the counter divides that of a `u64`. -/
theorem TkOk.mask_dvd (h : TkOk tk) : (tk.tkrMono.mask + 1 : ℤ) ∣ 2 ^ 64 := by
  obtain ⟨bits, hbits, hmask⟩ := h.valid.mask
  have hrange : tk.tkrMono.mask + 1 = 2 ^ (bits + 1) := by
    rw [h.mask, hmask, clocksourceMask, Nat.sub_add_cancel (Nat.two_pow_pos _)]
  have hcast : (tk.tkrMono.mask + 1 : ℤ) = 2 ^ (bits + 1) := by exact_mod_cast hrange
  rw [hcast]
  exact pow_dvd_pow 2 (by omega)

section Steps

variable {w : World}

/-- In reach, the delta is the distance to `cycle_last`. -/
theorem clocksourceDelta_of_reach {last r : ℕ} (hok : TkOk w.core.timekeeper)
    (hreach : WithinReach w) (hr : Reads w.mask w.cycles r)
    (hlast : Reads w.mask last w.core.timekeeper.tkrMono.cycleLast) (hle : last ≤ w.lastUpdate)
    (hlt : w.lastUpdate < last + w.core.timekeeper.cycleInterval) (hcyc : w.lastUpdate ≤ w.cycles) :
    clocksourceDelta r w.core.timekeeper.tkrMono.cycleLast w.core.timekeeper.tkrMono.mask =
      w.cycles - last ∧ w.cycles - last < 2 ^ 63 := by
  obtain ⟨bits, hbits, hmask⟩ := hok.valid.mask
  rw [← hok.mask] at hmask
  have hrange : w.mask + 1 = 2 * 2 ^ bits := by
    have := Nat.two_pow_pos bits
    rw [World.mask, hmask, clocksourceMask, pow_succ]
    omega
  have hdist : w.cycles - last < 2 ^ bits := by
    have := hreach
    unfold WithinReach at this
    omega
  have h63 : 2 ^ bits ≤ 2 ^ 63 := Nat.pow_le_pow_right two_pos (by omega)
  refine ⟨?_, hdist.trans_le h63⟩
  rw [hmask]
  apply clocksourceDelta_of_lt hbits hdist
  have hrange' : (2 : ℤ) ^ (bits + 1) = w.mask + 1 := by
    have : ((w.mask + 1 : ℕ) : ℤ) = ((2 * 2 ^ bits : ℕ) : ℤ) := congrArg _ hrange
    rw [pow_succ, mul_comm]
    exact_mod_cast this.symm
  rw [hrange']
  refine hr.trans (.symm ((hlast.add_right _).trans ?_))
  rw [← Nat.cast_add, Nat.add_sub_cancel' (hle.trans hcyc)]

section

variable (h : ClockOk w)
include h

theorem ClockOk.elapse (d : ℕ) : ClockOk { w with cycles := w.cycles + d } := by
  obtain ⟨last, seen, hlast, hle, hlt, hcyc, hls, hsc, hall⟩ := h.seen
  exact ⟨h.shadow, h.ok, h.base, h.sorted, last, seen, hlast, hle, hlt,
    hcyc.trans (le_add_right _ _), hls, hsc.trans (le_add_right _ _), hall⟩

section Reading

variable {r : ℕ} (hreach : WithinReach w) (hno : NoOverflow w.core.timekeeper r)
  (hr : Reads w.mask w.cycles r)
include hreach hno hr

/-- In reach, what is read is the time at the position of the counter, and not before anything that
has been returned. -/
theorem ClockOk.read :
    ∃ last, Reads w.mask last w.core.timekeeper.tkrMono.cycleLast ∧
      last ≤ w.lastUpdate ∧ w.lastUpdate < last + w.core.timekeeper.cycleInterval ∧
      w.lastUpdate ≤ w.cycles ∧
      let tk := w.core.timekeeper
      let o := w.cycles - last
      clocksourceDelta r tk.tkrMono.cycleLast tk.tkrMono.mask = o ∧ o < 2 ^ 63 ∧
        ktimeGet tk r = valueAt tk o ∧ shiftedAt tk o < 2 ^ 64 ∧ valueAt tk o < 2 ^ 63 ∧
        ∀ v ∈ w.returned, v ≤ valueAt tk o := by
  obtain ⟨last, seen, hlast, hle, hlt, hcyc, -, hsc, hall⟩ := h.seen
  obtain ⟨hdelta, h63⟩ := clocksourceDelta_of_reach h.ok hreach hr hlast hle hlt hcyc
  obtain ⟨hlt64, hval⟩ := hno
  rw [hdelta] at hlt64 hval
  refine ⟨last, hlast, hle, hlt, hcyc, hdelta, h63, ?_, hlt64, hval, fun v hv => ?_⟩
  · rw [ktimeGet_eq hdelta hlt64, s64_of_range (neg_le_valueAt h.base _) hval]
  · exact (hall v hv).trans (valueAt_mono _ (Nat.sub_le_sub_right hsc last))

theorem ClockOk.ktimeGet :
    ClockOk { w with returned := Time.ktimeGet w.core.timekeeper r :: w.returned } := by
  obtain ⟨last, hlast, hle, hlt, hcyc, -, -, hval, -, -, hall⟩ := h.read hreach hno hr
  rw [hval]
  exact ⟨h.shadow, h.ok, h.base, List.pairwise_cons.2 ⟨hall, h.sorted⟩, last, w.cycles, hlast, hle,
    hlt, hcyc, hle.trans hcyc, le_rfl, List.forall_mem_cons.2 ⟨le_rfl, hall⟩⟩

/-- The timekeeper after a tick in reach: where its `cycle_last` stands, and its time. -/
theorem ClockOk.tick :
    ClockOk { w with core := Time.updateWallTime w.core r, lastUpdate := w.cycles } ∧
      Time.ktimeGet (Time.updateWallTime w.core r).timekeeper r =
        Time.ktimeGet w.core.timekeeper r := by
  obtain ⟨last, hlast, hle, hlt, hcyc, hdelta, h63, -, hshift, hlt63, hall⟩ :=
    h.read hreach hno hr
  obtain ⟨hshadow, hok, hbase, o, ho, hole, hsame, hpos, hno'⟩ :=
    updateWallTime_sameTime h.shadow h.ok h.base hdelta h63 hshift
  set core' := Time.updateWallTime w.core r
  have hmask : core'.timekeeper.tkrMono.mask = w.mask := by
    rw [hok.mask, hsame.clock, World.mask, h.ok.mask]
  have hmodEq := hsame.value_modEq h.ok.shift_le h.base hbase
  have hocyc : o ≤ w.cycles := hole.trans (sub_le _ _)
  have hlast' : Reads w.mask (w.cycles - o) core'.timekeeper.tkrMono.cycleLast := by
    have hsum : (core'.timekeeper.tkrMono.cycleLast + o : ℤ) ≡ w.cycles [ZMOD w.mask + 1] := by
      refine (hpos.of_dvd h.ok.mask_dvd).trans ((hlast.add_right _).trans ?_)
      rw [← Nat.cast_add, Nat.add_sub_cancel' (hle.trans hcyc)]
    have := hsum.sub_right (o : ℤ)
    rwa [add_sub_cancel_right, ← cast_sub hocyc] at this
  have hreach' : WithinReach { w with core := core', lastUpdate := w.cycles } := by
    unfold WithinReach World.mask at *
    dsimp only
    rw [hmask, hsame.interval]
    omega
  obtain ⟨hdelta', -⟩ := clocksourceDelta_of_reach
    (w := { w with core := core', lastUpdate := w.cycles }) hok hreach'
    (by rw [World.mask, hmask]; exact hr) (by rw [World.mask, hmask]; exact hlast')
    (sub_le _ _) (by dsimp only; rw [hsame.interval]; omega) le_rfl
  have hdelta' : clocksourceDelta r core'.timekeeper.tkrMono.cycleLast
      core'.timekeeper.tkrMono.mask = o := hdelta'.trans (Nat.sub_sub_self hocyc)
  refine ⟨⟨hshadow, hok, hbase, h.sorted, w.cycles - o, w.cycles, ?_, sub_le _ _, ?_, le_rfl,
    sub_le _ _, le_rfl, ?_⟩, ?_⟩
  · rw [World.mask, hmask]
    exact hlast'
  · dsimp only
    rw [hsame.interval]
    omega
  · intro v hv
    rw [Nat.sub_sub_self hocyc]
    exact (hall v hv).trans (le_of_modEq hmodEq (neg_le_valueAt hbase o) hlt63)
  · rw [ktimeGet_eq hdelta' hno', ktimeGet_eq hdelta hshift]
    exact s64_congr hmodEq

theorem ClockOk.changeClocksource {new : Clocksource} {change : Bool} {n newR : ℕ}
    (hnew : new.Valid) (hn : Reads new.mask n newR) :
    ClockOk { w with
      core := Time.changeClocksource w.core new change r newR
      cycles := if change then n else w.cycles
      lastUpdate := if change then n else w.cycles } := by
  obtain ⟨last, -, -, -, -, hdelta, -, -, hshift, hlt63, hall⟩ := h.read hreach hno hr
  obtain ⟨hshadow, hok, hbase, hlast, hclock, hmodEq⟩ :=
    changeClocksource_value change newR h.ok h.base hnew hdelta hshift
  refine ⟨hshadow, hok, hbase, h.sorted, _, _, ?_, le_rfl,
    Nat.lt_add_of_pos_right hok.interval_pos, le_rfl, le_rfl, le_rfl, fun v hv => ?_⟩
  · rw [World.mask, hlast, hok.mask, hclock]
    cases change with
    | false => exact h.ok.mask ▸ hr
    | true => exact hn
  · rw [Nat.sub_self]
    exact (hall v hv).trans (le_of_modEq hmodEq (neg_le_valueAt hbase 0) hlt63)

end Reading

end

end Steps

/-- Every step keeps the invariant. -/
theorem ClockOk.step {w w' : World} {o : ClockOp} (h : ClockOk w)
    (hstep : guarded (Admissible WithinReach) ClockStep w o w') : ClockOk w' := by
  obtain ⟨hadm, hstep⟩ := hstep
  cases hstep with
  | elapse => exact h.elapse _
  | ktimeGet hr => exact h.ktimeGet hadm.1 hadm.2 hr
  | updateWallTime hr => exact (h.tick hadm.1 hadm.2 hr).1
  | changeClocksource hr hn => exact h.changeClocksource hadm.1 hadm.2.1 hr hadm.2.2 hn

theorem bootWorld_ok {clock : Clocksource} {n r : ℕ} (wall boot : Timespec64) (page : VdsoPage)
    (hclock : clock.Valid) (hr : Reads clock.mask n r) :
    ClockOk (bootWorld clock wall boot n r page) := by
  have hsetup := tkSetupInternals_ok (zeroTimekeeper clock) none r hclock
  unfold bootWorld timekeepingInit
  dsimp only
  generalize bootTimes wall boot = times
  set tk := tkSetWallToMono { tkSetXtime (tkSetupInternals (zeroTimekeeper clock) none clock r)
    times.1 with rawSec := 0 } (timespec64Sub times.2 times.1)
  have hok : TkOk tk := { hsetup with }
  have hclk : tk.tkrMono.clock = clock := rfl
  have hlast : tk.tkrMono.cycleLast = r := rfl
  clear_value tk
  have hupd := timekeepingUpdate_accrued page tk ⟨false, true⟩
  have hbase := timekeepingUpdate_baseOk page tk ⟨false, true⟩
  obtain ⟨hlast', -, -⟩ := timekeepingUpdate_exact page tk ⟨false, true⟩
  generalize timekeepingUpdate page tk ⟨false, true⟩ = upd at *
  have hok' := hok.of_accrued hupd
  refine ⟨rfl, hok', hbase, List.Pairwise.nil, n, n, ?_, le_rfl,
    Nat.lt_add_of_pos_right hok'.interval_pos, le_rfl, le_rfl, le_rfl, fun v hv => ?_⟩
  · rw [World.mask, hok'.mask, hupd.clock, hclk, hlast', hlast]
    exact hr
  · cases hv

/-- **The monotonic clock.** In every run from boot in which the counter goes on between two
updates by at most half its range less an interval, and in which nothing overflows, the values of
`ktime_get` never decrease; in every state that is reached `xtime_interval` is the interval times
the multiplier, and a tick leaves the time that is read at its counter value as it was. -/
theorem ktimeGet_monotone_of_run {clock : Clocksource} {wall boot : Timespec64} {n r : ℕ}
    {page : VdsoPage} {os : List ClockOp} {w : World} (hclock : clock.Valid)
    (hr : Reads clock.mask n r)
    (hrun : Run (guarded (Admissible WithinReach) ClockStep)
      (bootWorld clock wall boot n r page) os w) :
    (w.returned.Pairwise fun later earlier => earlier ≤ later) ∧
      w.core.timekeeper.xtimeInterval =
        w.core.timekeeper.cycleInterval * w.core.timekeeper.tkrMono.mult ∧
      ∀ now, Reads w.mask w.cycles now → Admissible WithinReach w (.updateWallTime now) →
        ktimeGet (updateWallTime w.core now).timekeeper now = ktimeGet w.core.timekeeper now := by
  have hok : ClockOk w := hrun.invariant (fun _ _ _ h hs => h.step hs)
    (bootWorld_ok wall boot page hclock hr)
  exact ⟨hok.sorted, hok.ok.xtimeInterval, fun now hnow hadm => (hok.tick hadm.1 hadm.2 hnow).2⟩

/-! ### A counter of 24 bits -/

/-- The jiffies clock source. -/
def jiffiesClock : Clocksource := ⟨clocksourceMask 32, tickNsec <<< 8, 8, .none⟩

/-- A counter of 24 bits at 3.58 MHz. -/
def narrowClock : Clocksource := ⟨clocksourceMask 24, 292935555, 20, .none⟩

theorem jiffiesClock_valid : jiffiesClock.Valid :=
  ⟨⟨31, by decide, rfl⟩, by decide, by decide, by decide⟩

theorem narrowClock_valid : narrowClock.Valid :=
  ⟨⟨23, by decide, rfl⟩, by decide, by decide, by decide⟩

/-- A change to the 24-bit counter, a tick that leaves 14000 cycles behind, and a read before and
after the counter has gone on by `d`. -/
def narrowOps (d : ℕ) : List ClockOp :=
  [.changeClocksource narrowClock true 0 0 0, .elapse 28318, .updateWallTime 28318,
    .ktimeGet 28318, .elapse d, .ktimeGet (28318 + d)]

theorem narrow_run : ∃ w, Run (guarded (Admissible WithinReach) ClockStep)
    (bootWorld jiffiesClock ⟨0, 0⟩ ⟨0, 0⟩ 0 0 zeroPage) (narrowOps 1000) w :=
  ⟨_, .cons ⟨⟨by decide +kernel, by decide +kernel, narrowClock_valid⟩,
        .changeClocksource rfl rfl⟩ <|
      .cons ⟨trivial, .elapse⟩ <|
      .cons ⟨⟨by decide +kernel, by decide +kernel⟩, .updateWallTime rfl⟩ <|
      .cons ⟨⟨by decide +kernel, by decide +kernel⟩, .ktimeGet rfl⟩ <|
      .cons ⟨trivial, .elapse⟩ <|
      .cons ⟨⟨by decide +kernel, by decide +kernel⟩, .ktimeGet rfl⟩ .nil⟩

theorem ktimeGet_monotone_narrow : ∃ w,
    Run (guarded (Admissible WithinReach) ClockStep)
      (bootWorld jiffiesClock ⟨0, 0⟩ ⟨0, 0⟩ 0 0 zeroPage) (narrowOps 1000) w ∧
    w.returned.Pairwise fun later earlier => earlier ≤ later :=
  narrow_run.imp fun _ h => ⟨h, (ktimeGet_monotone_of_run jiffiesClock_valid rfl h).1⟩

/-- Less than half the range of the counter between two updates is not enough: with the cycles that
the tick has left, the counter seems to have gone back, and so does the clock. -/
theorem ktimeGet_goes_back : ∃ w,
    Run (guarded (Admissible WithinHalf) ClockStep)
      (bootWorld jiffiesClock ⟨0, 0⟩ ⟨0, 0⟩ 0 0 zeroPage) (narrowOps 8388000) w ∧
    w.returned = [3999949, 7911061] :=
  ⟨_, .cons ⟨⟨by decide +kernel, by decide +kernel, narrowClock_valid⟩,
        .changeClocksource rfl rfl⟩ <|
      .cons ⟨trivial, .elapse⟩ <|
      .cons ⟨⟨by decide +kernel, by decide +kernel⟩, .updateWallTime rfl⟩ <|
      .cons ⟨⟨by decide +kernel, by decide +kernel⟩, .ktimeGet rfl⟩ <|
      .cons ⟨trivial, .elapse⟩ <|
      .cons ⟨⟨by decide +kernel, by decide +kernel⟩, .ktimeGet rfl⟩ .nil,
    by decide +kernel⟩

end MinimalKernel.Time
