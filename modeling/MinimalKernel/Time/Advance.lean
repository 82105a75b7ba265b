import MinimalKernel.Time.Timekeeping

/-!
# A tick does not change the time

What a reader of the clock computes is a sum: seconds, shifted nanoseconds, and the cycles since
`cycle_last` times the multiplier. A tick moves amounts between the three terms. `Accrued` says
that cycles have become nanoseconds and nanoseconds seconds; it is transitive, so that the loops of
the tick need only be looked at one turn at a time. The correction of `mult` takes from the
nanoseconds what the cycles that are left gain, and a change of the clock source first moves all
cycles and then scales the nanoseconds.

## Main definitions

* `Accrued` — a timekeeper after cycles have been moved into the time
* `SameTime` — two timekeepers that show the same time
* `TkOk`, `BaseOk` — the invariant of the timekeeper
* `valueAt` — the time so many cycles after `cycle_last`

## Main results

* `updateWallTime_sameTime` — a tick does not change the time
* `changeClocksource_value` — nor does a change of the clock source
-/

namespace MinimalKernel.Time

open Nat

variable {tk tk' : Timekeeper} {clock : Clocksource} {shift offset cyc sec : ℕ} {now : ℕ}

/-! ### Seconds and intervals -/

section

variable (h : shift ≤ 32)
include h

theorem mul_two_pow_le (n : ℕ) : n * 2 ^ shift ≤ n * 2 ^ 32 :=
  Nat.mul_le_mul_left n (Nat.pow_le_pow_right two_pos h)

theorem nsecps_eq : nsecps shift = nsecPerSec * 2 ^ shift := by
  have hle := mul_two_pow_le h nsecPerSec
  rw [nsecps, shiftLeft_eq, u64_of_lt]
  unfold nsecPerSec at *
  omega

theorem nsecps_pos : 0 < nsecps shift := by
  rw [nsecps_eq h]
  exact Nat.mul_pos (by decide) (Nat.two_pow_pos shift)

theorem nsecps_le : nsecps shift ≤ 2 ^ 62 := by
  rw [nsecps_eq h]
  exact (mul_two_pow_le h _).trans (by decide)

/-- A tick, in the units of a clock. -/
theorem interval_le : ntpIntervalLength * 2 ^ shift ≤ 4000000 * 2 ^ 32 :=
  mul_two_pow_le h 4000000

theorem u64_interval : u64 (ntpIntervalLength <<< shift : ℕ) = ntpIntervalLength * 2 ^ shift := by
  have hle := interval_le h
  rw [shiftLeft_eq, u64_of_lt (by omega)]

end

/-- A clock source that the timekeeping code can work with: a counter of 1 to 64 bits, a multiplier
that is not 0, and a shift of at most `NTP_SCALE_SHIFT`. -/
structure Clocksource.Valid (clock : Clocksource) : Prop where
  mask : ∃ bits < 64, clock.mask = clocksourceMask (bits + 1)
  multPos : 0 < clock.mult
  multLt : clock.mult < 2 ^ 32
  shift : clock.shift ≤ 32

theorem cycleIntervalOf_pos (clock : Clocksource) : 0 < cycleIntervalOf clock := by
  unfold cycleIntervalOf
  dsimp only
  split
  next => exact one_pos
  next h => exact pos_of_ne_zero h

/-- The interval is a tick in units of the clock, up to rounding. -/
theorem Clocksource.Valid.cycleIntervalOf_mul_le (h : clock.Valid) :
    cycleIntervalOf clock * clock.mult ≤ ntpIntervalLength * 2 ^ clock.shift + clock.mult := by
  have hmult := h.multLt
  have hlt := interval_le h.shift
  unfold cycleIntervalOf
  rw [u64_interval h.shift, u64_of_lt (by omega)]
  dsimp only
  split
  · omega
  · have := div_mul_le_self (ntpIntervalLength * 2 ^ clock.shift + clock.mult / 2) clock.mult
    omega

theorem Clocksource.Valid.cycleIntervalOf_le (h : clock.Valid) :
    cycleIntervalOf clock ≤ ntpIntervalLength * 2 ^ clock.shift + 1 := by
  have hle := h.cycleIntervalOf_mul_le
  obtain ⟨m, hm⟩ : ∃ m, clock.mult = m + 1 := ⟨clock.mult - 1, by have := h.multPos; omega⟩
  have hpos := cycleIntervalOf_pos clock
  rw [hm] at hle
  have := mul_le_mul_right m hpos
  rw [mul_succ] at hle
  omega

/-! ### Moving cycles into the time -/

/-- `tk'` is `tk` after `cyc` cycles have been moved from the counter into the time, `sec` whole
seconds of which have gone to `xtime_sec`. -/
structure Accrued (tk tk' : Timekeeper) (cyc sec : ℕ) : Prop where
  clock : tk'.tkrMono.clock = tk.tkrMono.clock
  mask : tk'.tkrMono.mask = tk.tkrMono.mask
  shift : tk'.tkrMono.shift = tk.tkrMono.shift
  mult : tk'.tkrMono.mult = tk.tkrMono.mult
  toMono : tk'.wallToMonotonic = tk.wallToMonotonic
  interval : tk'.cycleInterval = tk.cycleInterval
  xtimeInterval : tk'.xtimeInterval = tk.xtimeInterval
  ntpTick : tk'.ntpTick = tk.ntpTick
  errMult : tk'.ntpErrMult = tk.ntpErrMult
  cycleLast : (tk'.tkrMono.cycleLast : ℤ) ≡ tk.tkrMono.cycleLast + cyc [ZMOD 2 ^ 64]
  xtimeSec : (tk'.xtimeSec : ℤ) ≡ tk.xtimeSec + sec [ZMOD 2 ^ 64]
  xtimeNsec : tk'.tkrMono.xtimeNsec + sec * nsecps tk.tkrMono.shift =
    tk.tkrMono.xtimeNsec + cyc * tk.tkrMono.mult

theorem Accrued.refl (tk : Timekeeper) : Accrued tk tk 0 0 := by
  refine ⟨rfl, rfl, rfl, rfl, rfl, rfl, rfl, rfl, rfl, ?_, ?_, ?_⟩ <;> simp

theorem Accrued.trans {tk₁ tk₂ tk₃ : Timekeeper} {c₁ c₂ s₁ s₂ : ℕ} (h₁ : Accrued tk₁ tk₂ c₁ s₁)
    (h₂ : Accrued tk₂ tk₃ c₂ s₂) : Accrued tk₁ tk₃ (c₁ + c₂) (s₁ + s₂) where
  clock := h₂.clock.trans h₁.clock
  mask := h₂.mask.trans h₁.mask
  shift := h₂.shift.trans h₁.shift
  mult := h₂.mult.trans h₁.mult
  toMono := h₂.toMono.trans h₁.toMono
  interval := h₂.interval.trans h₁.interval
  xtimeInterval := h₂.xtimeInterval.trans h₁.xtimeInterval
  ntpTick := h₂.ntpTick.trans h₁.ntpTick
  errMult := h₂.errMult.trans h₁.errMult
  cycleLast := by
    have := h₂.cycleLast.trans (h₁.cycleLast.add_right c₂)
    rwa [add_assoc, ← cast_add] at this
  xtimeSec := by
    have := h₂.xtimeSec.trans (h₁.xtimeSec.add_right s₂)
    rwa [add_assoc, ← cast_add] at this
  xtimeNsec := by
    have e₁ := h₁.xtimeNsec
    have e₂ := h₂.xtimeNsec
    rw [h₁.shift, h₁.mult] at e₂
    rw [add_mul, add_mul]
    omega

theorem modEq_u64 (z : ℤ) : (u64 z : ℤ) ≡ z [ZMOD 2 ^ 64] := by
  rw [cast_u64]
  exact Int.mod_modEq z _

theorem moveSecond_accrued (h : nsecps tk.tkrMono.shift ≤ tk.tkrMono.xtimeNsec) (skip : ℕ) :
    Accrued tk { moveSecond tk with skipSecondOverflow := skip } 0 1 := by
  refine ⟨rfl, rfl, rfl, rfl, rfl, rfl, rfl, rfl, rfl, ?_, ?_, ?_⟩
  · simp [moveSecond]
  · exact modEq_u64 (tk.xtimeSec + 1)
  · simp only [moveSecond]
    omega

theorem moveCycles_accrued {interval : ℕ}
    (h : tk.tkrMono.xtimeNsec + interval * tk.tkrMono.mult < 2 ^ 64) :
    Accrued tk (moveCycles tk interval (interval * tk.tkrMono.mult)) interval 0 := by
  refine ⟨rfl, rfl, rfl, rfl, rfl, rfl, rfl, rfl, rfl, ?_, ?_, ?_⟩
  · exact_mod_cast modEq_u64 (tk.tkrMono.cycleLast + interval : ℕ)
  · simp [moveCycles]
  · simp only [moveCycles, u64_of_lt h, zero_mul, add_zero]

/-- The loop that carries seconds over moves no cycles, and leaves less than a second. -/
theorem accumulateLoop_accrued : ∀ (fuel : ℕ) (tk : Timekeeper) (b : Bool),
    tk.tkrMono.shift ≤ 32 → tk.tkrMono.xtimeNsec ≤ fuel →
    ∃ sec, Accrued tk (accumulateLoop fuel tk b).1 0 sec ∧
      (accumulateLoop fuel tk b).1.tkrMono.xtimeNsec < nsecps tk.tkrMono.shift
  | 0, tk, b, hs, hx => ⟨0, Accrued.refl tk, by
      have := nsecps_pos hs
      simp only [accumulateLoop]
      omega⟩
  | fuel + 1, tk, b, hs, hx => by
    have hpos := nsecps_pos hs
    rw [accumulateLoop]
    split
    next hle =>
      have hnsec : (moveSecond tk).tkrMono.xtimeNsec ≤ fuel := by
        simp only [moveSecond]
        omega
      dsimp only
      split
      next =>
        obtain ⟨sec, hacc, hlt⟩ :=
          accumulateLoop_accrued fuel { moveSecond tk with skipSecondOverflow := 0 } b hs hnsec
        exact ⟨1 + sec, (moveSecond_accrued hle 0).trans hacc, hlt⟩
      next =>
        rw [if_neg (by simp [secondOverflow])]
        obtain ⟨sec, hacc, hlt⟩ := accumulateLoop_accrued fuel (moveSecond tk) b hs hnsec
        exact ⟨1 + sec, (moveSecond_accrued hle tk.skipSecondOverflow).trans hacc, hlt⟩
    next hlt => exact ⟨0, Accrued.refl tk, not_le.1 hlt⟩

theorem accumulateNsecsToSecs_accrued (tk : Timekeeper) (hs : tk.tkrMono.shift ≤ 32) :
    ∃ sec, Accrued tk (accumulateNsecsToSecs tk).1 0 sec ∧
      (accumulateNsecsToSecs tk).1.tkrMono.xtimeNsec < nsecps tk.tkrMono.shift :=
  accumulateLoop_accrued _ tk false hs le_rfl

theorem accumulateRaw_accrued (tk : Timekeeper) (shift : ℕ) :
    Accrued tk (accumulateRaw tk shift) 0 0 := by
  refine ⟨rfl, rfl, rfl, rfl, rfl, rfl, rfl, rfl, rfl, ?_, ?_, ?_⟩ <;> simp [accumulateRaw]

/-- **One step of the accumulation** moves `cycle_interval << shift` cycles. -/
theorem logarithmicAccumulation_accrued (b : Bool)
    (hs : tk.tkrMono.shift ≤ 32) (hx : tk.xtimeInterval = tk.cycleInterval * tk.tkrMono.mult)
    (hoff : tk.cycleInterval * 2 ^ shift ≤ offset)
    (hlt : offset * tk.tkrMono.mult + tk.tkrMono.xtimeNsec < 2 ^ 64) (h64 : offset < 2 ^ 64) :
    let r := logarithmicAccumulation tk offset shift b
    (∃ sec, Accrued tk r.1 (tk.cycleInterval * 2 ^ shift) sec) ∧
      r.1.tkrMono.xtimeNsec < nsecps tk.tkrMono.shift ∧
      r.2.1 = offset - tk.cycleInterval * 2 ^ shift := by
  have hmul : tk.cycleInterval * tk.tkrMono.mult * 2 ^ shift =
      tk.cycleInterval * 2 ^ shift * tk.tkrMono.mult := by ring
  have hle := mul_le_mul_right tk.tkrMono.mult hoff
  have hcyc : u64 (tk.cycleInterval <<< shift : ℕ) = tk.cycleInterval * 2 ^ shift := by
    rw [shiftLeft_eq, u64_of_lt (hoff.trans_lt h64)]
  have hint : u64 (tk.xtimeInterval <<< shift : ℕ) =
      tk.cycleInterval * 2 ^ shift * tk.tkrMono.mult := by
    rw [shiftLeft_eq, hx, hmul, u64_of_lt (by omega)]
  unfold logarithmicAccumulation
  simp only [hcyc, hint, if_neg (not_lt.2 hoff)]
  obtain ⟨sec, hacc, hsec⟩ := accumulateNsecsToSecs_accrued
    (moveCycles tk (tk.cycleInterval * 2 ^ shift)
      (tk.cycleInterval * 2 ^ shift * tk.tkrMono.mult)) hs
  refine ⟨⟨sec, ?_⟩, hsec, trivial⟩
  simpa using ((moveCycles_accrued (by omega)).trans hacc).trans (accumulateRaw_accrued _ shift)

/-- What the loop of the tick needs of the timekeeper, the offset and the shift. -/
structure Accruable (tk : Timekeeper) (offset : ℕ) : Prop where
  shift : tk.tkrMono.shift ≤ 32
  xtimeInterval : tk.xtimeInterval = tk.cycleInterval * tk.tkrMono.mult
  intervalPos : 0 < tk.cycleInterval
  offsetLt : offset < 2 ^ 64
  nsec : offset * tk.tkrMono.mult + tk.tkrMono.xtimeNsec < 2 ^ 64

theorem Accruable.of_accrued (h : Accruable tk offset)
    (hacc : Accrued tk tk' cyc sec) (hcyc : cyc ≤ offset) : Accruable tk' (offset - cyc) where
  shift := by rw [hacc.shift]; exact h.shift
  xtimeInterval := by rw [hacc.xtimeInterval, hacc.interval, hacc.mult]; exact h.xtimeInterval
  intervalPos := by rw [hacc.interval]; exact h.intervalPos
  offsetLt := (sub_le _ _).trans_lt h.offsetLt
  nsec := by
    have hnsec := hacc.xtimeNsec
    have hle := mul_le_mul_right tk.tkrMono.mult hcyc
    have hlt := h.nsec
    rw [hacc.mult, Nat.sub_mul]
    omega

/-- **The loop of the tick** ends with less than an interval left, and has moved the rest. -/
theorem advanceLoop_accrued : ∀ (fuel : ℕ) {tk : Timekeeper} {offset shift : ℕ} (b : Bool),
    Accruable tk offset → tk.cycleInterval * 2 ^ shift < 2 ^ 64 → offset + shift ≤ fuel →
    let r := advanceLoop fuel tk offset shift b
    (∃ sec, Accrued tk r.1 (offset - r.2.1) sec) ∧ r.2.1 ≤ offset ∧ r.2.1 < tk.cycleInterval ∧
      (tk.cycleInterval ≤ offset ∨ tk.tkrMono.xtimeNsec < nsecps tk.tkrMono.shift →
        r.1.tkrMono.xtimeNsec < nsecps tk.tkrMono.shift)
  | 0, tk, offset, shift, b, h, _, hfuel => by
    have := h.intervalPos
    refine ⟨⟨0, ?_⟩, le_rfl, ?_, ?_⟩
    · simpa [advanceLoop] using Accrued.refl tk
    · simp only [advanceLoop]
      omega
    · simp only [advanceLoop]
      omega
  | fuel + 1, tk, offset, shift, b, h, hpow, hfuel => by
    rw [advanceLoop]
    split
    next hle =>
      have hcyc : u64 (tk.cycleInterval <<< shift : ℕ) = tk.cycleInterval * 2 ^ shift := by
        rw [shiftLeft_eq, u64_of_lt hpow]
      by_cases hbig : tk.cycleInterval * 2 ^ shift ≤ offset
      · obtain ⟨⟨sec, hacc⟩, hnsec, hoff⟩ :=
          logarithmicAccumulation_accrued b h.shift h.xtimeInterval hbig h.nsec h.offsetLt
        dsimp only at hacc hnsec hoff ⊢
        generalize logarithmicAccumulation tk offset shift b = r at hacc hnsec hoff ⊢
        have hpos : 0 < tk.cycleInterval * 2 ^ shift :=
          Nat.mul_pos h.intervalPos (Nat.two_pow_pos shift)
        -- whichever shift comes next, it is not larger
        generalize hs' :
          (if r.2.1 < u64 (r.1.cycleInterval <<< shift : ℕ) then shift - 1 else shift) = shift'
        have hle' : shift' ≤ shift := by split at hs' <;> omega
        have hpow' : r.1.cycleInterval * 2 ^ shift' < 2 ^ 64 := by
          rw [hacc.interval]
          exact (Nat.mul_le_mul_left _ (Nat.pow_le_pow_right two_pos hle')).trans_lt hpow
        have hnext := h.of_accrued hacc hbig
        rw [← hoff] at hnext
        obtain ⟨⟨sec', hacc'⟩, hoff', hlt', hnsec'⟩ :=
          advanceLoop_accrued fuel r.2.2 hnext hpow' (by omega)
        rw [hacc.interval] at hlt'
        rw [hacc.shift] at hnsec'
        refine ⟨⟨sec + sec', ?_⟩, by omega, hlt', fun _ => hnsec' (.inr hnsec)⟩
        have htrans := hacc.trans hacc'
        rwa [show tk.cycleInterval * 2 ^ shift +
          (r.2.1 - (advanceLoop fuel r.1 r.2.1 shift' r.2.2).2.1) =
            offset - (advanceLoop fuel r.1 r.2.1 shift' r.2.2).2.1 by omega] at htrans
      · have hstay : logarithmicAccumulation tk offset shift b = (tk, offset, b) := by
          unfold logarithmicAccumulation
          simp only [hcyc, if_pos (not_le.1 hbig)]
        have hshift : shift ≠ 0 := by
          rintro rfl
          simp at hbig
          omega
        simp only [hstay, hcyc, if_pos (not_le.1 hbig)]
        have hpow' : tk.cycleInterval * 2 ^ (shift - 1) < 2 ^ 64 :=
          (Nat.mul_le_mul_left _ (Nat.pow_le_pow_right two_pos (Nat.sub_le _ _))).trans_lt hpow
        exact advanceLoop_accrued fuel b h hpow' (by omega)
    next hlt =>
      refine ⟨⟨0, ?_⟩, le_rfl, not_le.1 hlt, ?_⟩
      · simpa using Accrued.refl tk
      · rintro (hle | hlt')
        · exact absurd hle hlt
        · exact hlt'

/-! ### The same time -/

/-- `tk'` with `offset'` cycles since its `cycle_last` is at the same time as `tk` with `offset`
cycles: `sec` seconds more stand in `xtime_sec`. -/
structure SameTime (tk tk' : Timekeeper) (offset offset' : ℕ) : Prop where
  clock : tk'.tkrMono.clock = tk.tkrMono.clock
  shift : tk'.tkrMono.shift = tk.tkrMono.shift
  toMono : tk'.wallToMonotonic = tk.wallToMonotonic
  interval : tk'.cycleInterval = tk.cycleInterval
  time : ∃ sec : ℤ, (tk'.xtimeSec : ℤ) ≡ tk.xtimeSec + sec [ZMOD 2 ^ 64] ∧
    (tk'.tkrMono.xtimeNsec + offset' * tk'.tkrMono.mult : ℤ) + sec * nsecps tk.tkrMono.shift =
      tk.tkrMono.xtimeNsec + offset * tk.tkrMono.mult

theorem SameTime.trans {tk₁ tk₂ tk₃ : Timekeeper} {o₁ o₂ o₃ : ℕ} (h₁ : SameTime tk₁ tk₂ o₁ o₂)
    (h₂ : SameTime tk₂ tk₃ o₂ o₃) : SameTime tk₁ tk₃ o₁ o₃ where
  clock := h₂.clock.trans h₁.clock
  shift := h₂.shift.trans h₁.shift
  toMono := h₂.toMono.trans h₁.toMono
  interval := h₂.interval.trans h₁.interval
  time := by
    obtain ⟨s₁, hs₁, e₁⟩ := h₁.time
    obtain ⟨s₂, hs₂, e₂⟩ := h₂.time
    refine ⟨s₁ + s₂, ?_, ?_⟩
    · have := hs₂.trans (hs₁.add_right s₂)
      rwa [add_assoc] at this
    · rw [h₁.shift] at e₂
      rw [add_mul]
      omega

theorem Accrued.sameTime (h : Accrued tk tk' cyc sec)
    (hcyc : cyc ≤ offset) : SameTime tk tk' offset (offset - cyc) where
  __ := h
  time := by
    refine ⟨sec, h.xtimeSec, ?_⟩
    have hnsec : (tk'.tkrMono.xtimeNsec + sec * nsecps tk.tkrMono.shift : ℤ) =
        tk.tkrMono.xtimeNsec + cyc * tk.tkrMono.mult := by exact_mod_cast h.xtimeNsec
    rw [h.mult, cast_sub hcyc, sub_mul]
    omega

/-! ### The invariant and the correction of the multiplier -/

/-- The invariant of a timekeeper, apart from its base. The multiplier is that of the clock, or one
more while `ntp_err_mult` is set; it is one less than that if it could not be raised. -/
structure TkOk (tk : Timekeeper) : Prop where
  valid : tk.tkrMono.clock.Valid
  mask : tk.tkrMono.mask = tk.tkrMono.clock.mask
  shift : tk.tkrMono.shift = tk.tkrMono.clock.shift
  interval : tk.cycleInterval = cycleIntervalOf tk.tkrMono.clock
  errMult : tk.ntpErrMult ≤ 1
  multGt : tk.ntpErrMult < tk.tkrMono.mult
  multLe : tk.tkrMono.mult ≤ tk.tkrMono.clock.mult + tk.ntpErrMult
  multLt : tk.tkrMono.mult < 2 ^ 32
  xtimeInterval : tk.xtimeInterval = tk.cycleInterval * tk.tkrMono.mult
  ntpTick : tk.ntpTick = ntpTickLength

namespace TkOk

section

variable (h : TkOk tk)
include h

theorem shift_le : tk.tkrMono.shift ≤ 32 := h.shift ▸ h.valid.shift

theorem interval_pos : 0 < tk.cycleInterval := h.interval ▸ cycleIntervalOf_pos _

theorem interval_le : tk.cycleInterval ≤ nsecps tk.tkrMono.shift := by
  have hle := h.valid.cycleIntervalOf_le
  have hpos := Nat.two_pow_pos tk.tkrMono.shift
  rw [← h.interval, ← h.shift] at hle
  rw [nsecps_eq h.shift_le]
  have : ntpIntervalLength * 2 ^ tk.tkrMono.shift + 1 ≤
      (ntpIntervalLength + 1) * 2 ^ tk.tkrMono.shift := by
    rw [add_mul, one_mul]
    omega
  exact hle.trans (this.trans (Nat.mul_le_mul_right _ (by decide)))

/-- Less than an interval of cycles is less than two ticks. -/
theorem interval_mul_lt (mult : ℕ) (hmult : mult ≤ tk.tkrMono.clock.mult + 1) :
    tk.cycleInterval * mult < 2 ^ 56 := by
  have hlen := Time.interval_le h.valid.shift
  have hle := h.valid.cycleIntervalOf_mul_le
  have hci := h.valid.cycleIntervalOf_le
  have hlt := h.valid.multLt
  rw [← h.interval] at hle hci
  calc tk.cycleInterval * mult ≤ tk.cycleInterval * (tk.tkrMono.clock.mult + 1) :=
        mul_le_mul_left _ hmult
    _ = tk.cycleInterval * tk.tkrMono.clock.mult + tk.cycleInterval := mul_succ _ _
    _ < 2 ^ 56 := by omega

theorem of_accrued (hacc : Accrued tk tk' cyc sec) : TkOk tk' where
  valid := by rw [hacc.clock]; exact h.valid
  mask := by rw [hacc.clock, hacc.mask]; exact h.mask
  shift := by rw [hacc.clock, hacc.shift]; exact h.shift
  interval := by rw [hacc.clock, hacc.interval]; exact h.interval
  errMult := by rw [hacc.errMult]; exact h.errMult
  multGt := by rw [hacc.errMult, hacc.mult]; exact h.multGt
  multLe := by rw [hacc.errMult, hacc.mult, hacc.clock]; exact h.multLe
  multLt := by rw [hacc.mult]; exact h.multLt
  xtimeInterval := by rw [hacc.xtimeInterval, hacc.interval, hacc.mult]; exact h.xtimeInterval
  ntpTick := by rw [hacc.ntpTick]; exact h.ntpTick

end

end TkOk

section

variable (tk)

/-- A second is borrowed if the nanoseconds are negative. -/
theorem borrowSecond_nsec {z : ℤ} (hs : tk.tkrMono.shift ≤ 32) (hz : tk.tkrMono.xtimeNsec = u64 z)
    (hlow : -(nsecps tk.tkrMono.shift : ℤ) ≤ z) (hup : z < 2 ^ 63) :
    ∃ sec : ℤ, ((borrowSecond tk).xtimeSec : ℤ) ≡ tk.xtimeSec + sec [ZMOD 2 ^ 64] ∧
      ((borrowSecond tk).tkrMono.xtimeNsec : ℤ) + sec * nsecps tk.tkrMono.shift = z := by
  have hle := nsecps_le hs
  have hs64 : s64 tk.tkrMono.xtimeNsec = z := by
    rw [hz, s64_u64, s64_of_range (by omega) hup]
  unfold borrowSecond
  rw [hs64]
  split
  next hneg =>
    refine ⟨-1, modEq_u64 _, ?_⟩
    have hnsec : u64 (tk.tkrMono.xtimeNsec + nsecps tk.tkrMono.shift : ℕ) =
        (z + nsecps tk.tkrMono.shift).toNat := by
      rw [hz]
      unfold u64
      omega
    dsimp only
    rw [hnsec]
    omega
  next hneg =>
    refine ⟨0, by simp, ?_⟩
    rw [hz, zero_mul, add_zero, cast_u64]
    omega

/-- What a correction of the multiplier leaves alone. -/
def setup : Clocksource × ℕ × ℕ × ℕ × Timespec64 × ℕ × ℕ × ℕ :=
  (tk.tkrMono.clock, tk.tkrMono.mask, tk.tkrMono.shift, tk.tkrMono.cycleLast, tk.wallToMonotonic,
    tk.cycleInterval, tk.ntpTick, tk.ntpErrMult)

theorem timekeepingApplyAdjustment_kept (offset a : ℤ) :
    let tk' := timekeepingApplyAdjustment tk offset a
    setup tk' = setup tk ∧ tk'.xtimeSec = tk.xtimeSec := by
  unfold timekeepingApplyAdjustment
  split
  · simp
  · dsimp only
    split <;> simp [setup]

theorem borrowSecond_kept : let tk' := borrowSecond tk
    setup tk' = setup tk ∧ tk'.tkrMono.mult = tk.tkrMono.mult ∧
      tk'.xtimeInterval = tk.xtimeInterval := by
  unfold borrowSecond
  split <;> simp [setup]

/-- The correction by `a`, which is 1, 0 or -1: the multiplier changes by `a` and the nanoseconds
by `a` for each cycle that is left, or nothing changes. -/
theorem timekeepingApplyAdjustment_eq {a : ℤ} (ha : a = 0 ∨ a = 1 ∨ a = -1) (hoff : offset < 2 ^ 63)
    (hci : tk.cycleInterval < 2 ^ 63) (hmult : tk.tkrMono.mult < 2 ^ 32)
    (hpos : 0 < tk.tkrMono.mult) (hx : tk.xtimeInterval = tk.cycleInterval * tk.tkrMono.mult)
    (hlt : tk.cycleInterval * (tk.tkrMono.mult + 1) < 2 ^ 64) (hn : tk.tkrMono.xtimeNsec < 2 ^ 64) :
    let tk' := timekeepingApplyAdjustment tk offset a
    ∃ d : ℤ, (d = a ∨ d = 0 ∧ a = 1 ∧ tk.tkrMono.mult + 1 = 2 ^ 32) ∧
      (tk'.tkrMono.mult : ℤ) = tk.tkrMono.mult + d ∧ tk'.tkrMono.mult < 2 ^ 32 ∧
      tk'.tkrMono.xtimeNsec = u64 (tk.tkrMono.xtimeNsec - offset * d) ∧
      tk'.xtimeInterval = tk.cycleInterval * tk'.tkrMono.mult := by
  have hstay : tk.tkrMono.xtimeNsec = u64 (tk.tkrMono.xtimeNsec - offset * 0) := by
    rw [mul_zero, sub_zero, u64_of_lt hn]
  have hci' : s64 tk.cycleInterval = tk.cycleInterval := s64_of_range (by omega) (by omega)
  rw [mul_succ] at hlt
  unfold timekeepingApplyAdjustment
  rcases ha with rfl | rfl | rfl
  · exact ⟨0, .inl rfl, by simp, by simpa using hmult, by simpa using hstay, by simpa using hx⟩
  · by_cases hover : tk.tkrMono.mult + 1 = 2 ^ 32
    · have hzero : (u32 (tk.tkrMono.mult + 1) : ℤ) < 1 := by
        unfold u32
        omega
      refine ⟨0, .inr ⟨rfl, rfl, hover⟩, ?_⟩
      simpa [hzero] using ⟨hmult, hstay, hx⟩
    · have hnext : u32 (tk.tkrMono.mult + 1) = tk.tkrMono.mult + 1 := by
        unfold u32
        omega
      refine ⟨1, .inl rfl, ?_⟩
      have hint : u64 ((tk.xtimeInterval : ℤ) + tk.cycleInterval) =
          tk.cycleInterval * (tk.tkrMono.mult + 1) := by
        rw [hx, ← cast_add, u64_of_lt (by omega), mul_succ]
      have hok : ¬(u32 (tk.tkrMono.mult + 1) : ℤ) < 1 := by omega
      rw [if_neg one_ne_zero]
      dsimp only
      rw [if_neg fun h => hok h.2]
      simp [hnext, hci', hint]
      omega
  · have hnext : u32 (tk.tkrMono.mult + -1) = tk.tkrMono.mult - 1 := by
      unfold u32
      omega
    have hoff' : s64 (-(offset : ℤ)) = -offset := s64_of_range (by omega) (by omega)
    have hint : s64 (-(tk.cycleInterval : ℤ)) = -tk.cycleInterval :=
      s64_of_range (by omega) (by omega)
    refine ⟨-1, .inl rfl, ?_⟩
    have hle : tk.cycleInterval ≤ tk.cycleInterval * tk.tkrMono.mult :=
      Nat.le_mul_of_pos_right _ hpos
    have hint' : u64 ((tk.xtimeInterval : ℤ) + -tk.cycleInterval) =
        tk.cycleInterval * (tk.tkrMono.mult - 1) := by
      rw [hx, ← sub_eq_add_neg, ← Nat.cast_sub hle, u64_of_lt (by omega), Nat.mul_sub_one]
    simp [hnext, hci', hint, hint', hoff']
    omega

end

/-- With a constant tick length the multiplier moves by the change of the error bit. -/
theorem timekeepingAdjust_eq (h : TkOk tk) (offset : ℤ) :
    ∃ e ≤ 1, timekeepingAdjust tk offset =
      borrowSecond (timekeepingApplyAdjustment { tk with ntpErrMult := e } offset
        ((e : ℤ) - tk.ntpErrMult)) := by
  obtain ⟨e, he, herr⟩ : ∃ e ≤ 1, (if 0 < tk.ntpError then 1 else 0) = e := by
    split
    · exact ⟨1, le_rfl, rfl⟩
    · exact ⟨0, zero_le 1, rfl⟩
  refine ⟨e, he, ?_⟩
  have hold := h.errMult
  have hgt := h.multGt
  have hlt := h.multLt
  have hmult : u32 ((tk.tkrMono.mult : ℤ) - tk.ntpErrMult) = tk.tkrMono.mult - tk.ntpErrMult := by
    unfold u32
    omega
  have hadj : s32 (u32 (tk.tkrMono.mult - tk.ntpErrMult + e : ℕ) - tk.tkrMono.mult) =
      (e : ℤ) - tk.ntpErrMult := by
    unfold s32 u32
    rw [Int.bmod_def]
    split <;> omega
  unfold timekeepingAdjust
  simp only [← h.ntpTick, if_true, herr, hmult, hadj]

/-- **The correction of the multiplier does not change the time** at the counter value of the tick:
what the cycles that are left gain is taken from the nanoseconds. -/
theorem timekeepingAdjust_sameTime (h : TkOk tk)
    (hoff : offset < tk.cycleInterval) (hn : tk.tkrMono.xtimeNsec < nsecps tk.tkrMono.shift) :
    TkOk (timekeepingAdjust tk (s64 offset)) ∧
      (timekeepingAdjust tk (s64 offset)).tkrMono.cycleLast = tk.tkrMono.cycleLast ∧
      SameTime tk (timekeepingAdjust tk (s64 offset)) offset offset := by
  have hle := nsecps_le h.shift_le
  have hci := h.interval_le
  have hold := h.errMult
  have hgt := h.multGt
  have hmle := h.multLe
  have hs64 : s64 offset = offset := s64_of_range (by omega) (by omega)
  have hmul : tk.cycleInterval * (tk.tkrMono.mult + 1) < 2 ^ 64 := by
    have h₁ := h.interval_mul_lt _ le_rfl
    have h₂ : tk.cycleInterval * (tk.tkrMono.mult + 1) ≤
        tk.cycleInterval * (tk.tkrMono.clock.mult + 1) + tk.cycleInterval := by
      rw [← mul_succ]
      exact mul_le_mul_left _ (by omega)
    omega
  obtain ⟨e, he, heq⟩ := timekeepingAdjust_eq h (s64 offset)
  rw [heq, hs64]
  have hadj : (e : ℤ) - tk.ntpErrMult = 0 ∨ (e : ℤ) - tk.ntpErrMult = 1 ∨
      (e : ℤ) - tk.ntpErrMult = -1 := by omega
  set tk₁ : Timekeeper := { tk with ntpErrMult := e } with htk₁
  obtain ⟨d, hd, hmult, hmult', hnsec, hx⟩ := timekeepingApplyAdjustment_eq tk₁ hadj
    (show offset < 2 ^ 63 by omega) (show tk.cycleInterval < 2 ^ 63 by omega) h.multLt
    (show 0 < tk.tkrMono.mult by omega) h.xtimeInterval hmul
    (show tk.tkrMono.xtimeNsec < 2 ^ 64 by omega)
  obtain ⟨hkept, hsec⟩ :=
    timekeepingApplyAdjustment_kept tk₁ offset ((e : ℤ) - tk.ntpErrMult)
  generalize timekeepingApplyAdjustment tk₁ offset ((e : ℤ) - tk.ntpErrMult) = tk₂ at *
  obtain ⟨hkept', hmul', hx'⟩ := borrowSecond_kept tk₂
  have hshift : tk₂.tkrMono.shift = tk.tkrMono.shift := congrArg (·.2.2.1) hkept
  replace hkept := hkept'.trans hkept
  simp only [setup, Prod.mk.injEq] at hkept
  obtain ⟨hclock, hmask, hshift', hlast, hmono, hint, htick, herr⟩ := hkept
  have hdle : offset * d ≤ offset ∧ -offset ≤ offset * d := by
    rcases hd with rfl | ⟨rfl, -, -⟩
    · rcases hadj with h0 | h0 | h0 <;> rw [h0] <;> omega
    · omega
  obtain ⟨sec, hxsec, hxnsec⟩ := borrowSecond_nsec tk₂ (hshift ▸ h.shift_le) hnsec
    (by rw [hshift]; simp only [htk₁]; omega) (by simp only [htk₁]; omega)
  refine ⟨?_, hlast, ?_⟩
  · have hmult : (tk₂.tkrMono.mult : ℤ) = tk.tkrMono.mult + d := hmult
    have hd : d = e - tk.ntpErrMult ∨ d = 0 ∧ (e : ℤ) - tk.ntpErrMult = 1 ∧
      tk.tkrMono.mult + 1 = 2 ^ 32 := hd
    refine ⟨?_, ?_, ?_, ?_, ?_, ?_, ?_, ?_, ?_, ?_⟩
    · rw [hclock]
      exact h.valid
    · rw [hmask, hclock]
      exact h.mask
    · rw [hshift', hclock]
      exact h.shift
    · rw [hint, hclock]
      exact h.interval
    · rw [herr]
      exact he
    · rw [herr, hmul']
      simp only [htk₁]
      omega
    · rw [herr, hmul', hclock]
      simp only [htk₁]
      omega
    · rw [hmul']
      exact hmult'
    · rw [hx', hx, hint, hmul']
    · rw [htick]
      exact h.ntpTick
  · refine ⟨hclock, hshift', hmono, hint, sec, ?_, ?_⟩
    · rw [← hsec]
      exact hxsec
    · rw [hmul', hmult]
      rw [hshift] at hxnsec
      simp only [htk₁] at hxnsec ⊢
      rw [mul_add]
      omega

/-! ### The value of the clock -/

/-- The base is that of the seconds and of the offset to the wall clock. -/
def BaseOk (tk : Timekeeper) : Prop :=
  tk.tkrMono.base = s64 ((tk.xtimeSec + tk.wallToMonotonic.tvSec) * nsecPerSec +
    u32 tk.wallToMonotonic.tvNsec)

/-- The shifted nanoseconds `offset` cycles after `cycle_last`. -/
def shiftedAt (tk : Timekeeper) (offset : ℕ) : ℕ :=
  offset * tk.tkrMono.mult + tk.tkrMono.xtimeNsec

/-- The monotonic time `offset` cycles after `cycle_last`, as an unbounded number. -/
def valueAt (tk : Timekeeper) (offset : ℕ) : ℤ :=
  tk.tkrMono.base + (shiftedAt tk offset / 2 ^ tk.tkrMono.shift : ℕ)

theorem valueAt_mono (tk : Timekeeper) {o o' : ℕ} (h : o ≤ o') : valueAt tk o ≤ valueAt tk o' := by
  have hle : shiftedAt tk o / 2 ^ tk.tkrMono.shift ≤ shiftedAt tk o' / 2 ^ tk.tkrMono.shift :=
    Nat.div_le_div_right (Nat.add_le_add_right (Nat.mul_le_mul_right _ h) _)
  unfold valueAt
  omega

theorem TkOk.shiftedAt_lt (h : TkOk tk) (hoff : offset < tk.cycleInterval)
    (hn : tk.tkrMono.xtimeNsec < nsecps tk.tkrMono.shift) : shiftedAt tk offset < 2 ^ 64 := by
  have hle := nsecps_le h.shift_le
  have hmult := h.multLe
  have herr := h.errMult
  have hlt := h.interval_mul_lt tk.tkrMono.mult (by omega)
  have hmul := mul_le_mul_right tk.tkrMono.mult hoff.le
  unfold shiftedAt
  omega

/-- What `ktime_get` returns, if the shifted nanoseconds do not overflow. -/
theorem ktimeGet_eq (hdelta : clocksourceDelta now tk.tkrMono.cycleLast tk.tkrMono.mask = offset)
    (h : shiftedAt tk offset < 2 ^ 64) : ktimeGet tk now = s64 (valueAt tk offset) := by
  unfold shiftedAt at h
  rw [ktimeGet, timekeepingGetNs, timekeepingGetDelta, hdelta, timekeepingDeltaToNs, u64_of_lt h,
    shiftRight_eq_div_pow]
  rfl

/-- **Timekeepers of the same time have the same value**, modulo the width of `ktime_t`. -/
theorem SameTime.value_modEq {o o' : ℕ} (h : SameTime tk tk' o o') (hs : tk.tkrMono.shift ≤ 32)
    (hb : BaseOk tk) (hb' : BaseOk tk') : valueAt tk' o' ≡ valueAt tk o [ZMOD 2 ^ 64] := by
  obtain ⟨sec, hsec, hnsec⟩ := h.time
  have hpow : (2 : ℤ) ^ tk.tkrMono.shift ≠ 0 := pow_ne_zero _ two_ne_zero
  -- the nanoseconds have lost what the seconds have won
  have hns : ((shiftedAt tk' o' / 2 ^ tk.tkrMono.shift : ℕ) : ℤ) =
      (shiftedAt tk o / 2 ^ tk.tkrMono.shift : ℕ) - sec * nsecPerSec := by
    have hsum : (shiftedAt tk o : ℤ) =
        shiftedAt tk' o' + sec * nsecPerSec * 2 ^ tk.tkrMono.shift := by
      rw [nsecps_eq hs] at hnsec
      push_cast at hnsec
      unfold shiftedAt
      push_cast
      rw [mul_assoc]
      omega
    push_cast
    rw [hsum, Int.add_mul_ediv_right _ _ hpow]
    omega
  have hbase : tk'.tkrMono.base ≡ tk.tkrMono.base + sec * nsecPerSec [ZMOD 2 ^ 64] := by
    have hz : ∀ z, s64 z ≡ z [ZMOD 2 ^ 64] := s64_emod
    rw [hb, hb', h.toMono]
    refine (hz _).trans (.symm (((hz _).add_right _).trans ?_))
    have := ((hsec.add_right tk.wallToMonotonic.tvSec).mul_right (nsecPerSec : ℤ)).add_right
      (u32 tk.wallToMonotonic.tvNsec : ℤ)
    refine .trans ?_ this.symm
    rw [add_right_comm, ← add_mul, add_right_comm (tk.xtimeSec : ℤ)]
  unfold valueAt
  rw [h.shift, hns]
  have hsum := hbase.add_right
    ((shiftedAt tk o / 2 ^ tk.tkrMono.shift : ℕ) - sec * nsecPerSec : ℤ)
  rwa [add_add_sub_cancel] at hsum

theorem timekeepingUpdate_accrued (page : VdsoPage) (tk : Timekeeper) (action : UpdateAction) :
    Accrued tk (timekeepingUpdate page tk action).1 0 0 := by
  obtain ⟨clear, set⟩ := action
  cases clear <;> cases set <;> constructor <;>
    simp [timekeepingUpdate, tkUpdateKtimeData, tkUpdateLeapState]

theorem timekeepingUpdate_exact (page : VdsoPage) (tk : Timekeeper) (action : UpdateAction) :
    let tk' := (timekeepingUpdate page tk action).1
    tk'.tkrMono.cycleLast = tk.tkrMono.cycleLast ∧ tk'.tkrMono.xtimeNsec = tk.tkrMono.xtimeNsec ∧
      tk'.xtimeSec = tk.xtimeSec := by
  obtain ⟨clear, set⟩ := action
  cases clear <;> cases set <;> simp [timekeepingUpdate, tkUpdateKtimeData, tkUpdateLeapState]

theorem timekeepingUpdate_baseOk (page : VdsoPage) (tk : Timekeeper) (action : UpdateAction) :
    BaseOk (timekeepingUpdate page tk action).1 := by
  have hcongr : s64 (u64 (u64 (tk.xtimeSec + tk.wallToMonotonic.tvSec) * nsecPerSec +
      u32 tk.wallToMonotonic.tvNsec : ℕ)) =
      s64 ((tk.xtimeSec + tk.wallToMonotonic.tvSec) * nsecPerSec +
        u32 tk.wallToMonotonic.tvNsec) := by
    rw [s64_u64]
    apply s64_congr
    push_cast
    exact ((modEq_u64 _).mul_right _).add_right _
  obtain ⟨clear, set⟩ := action
  cases clear <;> cases set <;>
    simpa [BaseOk, timekeepingUpdate, tkUpdateKtimeData, tkUpdateLeapState] using hcongr

/-! ### The tick -/

theorem startShift_lt {offset interval : ℕ} (hpos : 0 < interval) (hle : interval ≤ offset)
    (hoff : offset < 2 ^ 63) : interval * 2 ^ startShift offset interval < 2 ^ 64 := by
  have hlog : log2 offset < 63 := (log2_lt (by omega)).2 hoff
  have hself : interval < 2 ^ (log2 interval + 1) := lt_log2_self
  have hlogle : log2 interval ≤ log2 offset := by
    rw [le_log2 (by omega)]
    exact (log2_self_le (by omega)).trans hle
  have hshift : startShift offset interval ≤ log2 offset - log2 interval :=
    min_le_left _ _
  calc interval * 2 ^ startShift offset interval
      < 2 ^ (log2 interval + 1) * 2 ^ startShift offset interval :=
        Nat.mul_lt_mul_of_pos_right hself (Nat.two_pow_pos _)
    _ = 2 ^ (log2 interval + 1 + startShift offset interval) := (pow_add ..).symm
    _ ≤ 2 ^ 64 := Nat.pow_le_pow_right two_pos (by omega)

/-- **A tick** keeps the invariant and the time, and leaves less than an interval of cycles. -/
theorem updateWallTime_sameTime {core : TkCore}
    (hshadow : core.shadow = core.timekeeper) (h : TkOk core.timekeeper)
    (hb : BaseOk core.timekeeper)
    (hdelta : clocksourceDelta now core.timekeeper.tkrMono.cycleLast
      core.timekeeper.tkrMono.mask = offset)
    (hoff : offset < 2 ^ 63) (hno : shiftedAt core.timekeeper offset < 2 ^ 64) :
    let core' := updateWallTime core now
    core'.shadow = core'.timekeeper ∧ TkOk core'.timekeeper ∧ BaseOk core'.timekeeper ∧
      ∃ offset' < core.timekeeper.cycleInterval, offset' ≤ offset ∧
        SameTime core.timekeeper core'.timekeeper offset offset' ∧
          (core'.timekeeper.tkrMono.cycleLast + offset' : ℤ) ≡
            core.timekeeper.tkrMono.cycleLast + offset [ZMOD 2 ^ 64] ∧
          shiftedAt core'.timekeeper offset' < 2 ^ 64 := by
  unfold updateWallTime timekeepingAdvance
  simp only [hshadow, hdelta, and_true]
  split
  next hlt =>
    exact ⟨hshadow, h, hb, offset, hlt, le_rfl,
      by simpa using (Accrued.refl _).sameTime (zero_le offset), .refl _, hno⟩
  next hle =>
    have hle := not_lt.1 hle
    have haccr : Accruable core.timekeeper offset :=
      ⟨h.shift_le, h.xtimeInterval, h.interval_pos, by omega, hno⟩
    obtain ⟨⟨sec, hacc⟩, hoffle, hlt, hnsec⟩ := advanceLoop_accrued
      (offset + startShift offset core.timekeeper.cycleInterval) false haccr
      (startShift_lt h.interval_pos hle hoff) le_rfl
    generalize advanceLoop _ _ _ _ _ = r at hacc hoffle hlt hnsec ⊢
    have hok := h.of_accrued hacc
    rw [← hacc.interval] at hlt
    obtain ⟨hok', hlast, hadj⟩ := timekeepingAdjust_sameTime hok hlt (by
      rw [hacc.shift]
      exact hnsec (.inl hle))
    obtain ⟨sec', hacc', hnsec'⟩ := accumulateNsecsToSecs_accrued _ hok'.shift_le
    rw [← hacc'.shift] at hnsec'
    generalize accumulateNsecsToSecs _ = acc at hacc' hnsec' ⊢
    have hupd := timekeepingUpdate_accrued core.page acc.1 ⟨false, r.2.2 || acc.2⟩
    have hbase := timekeepingUpdate_baseOk core.page acc.1 ⟨false, r.2.2 || acc.2⟩
    generalize timekeepingUpdate _ _ _ = upd at hupd hbase ⊢
    have hok'' := hok'.of_accrued (hacc'.trans hupd)
    have hsame := ((hacc.sameTime (sub_le _ _)).trans
      ((Nat.sub_sub_self hoffle).symm ▸ hadj)).trans
      ((hacc'.trans hupd).sameTime (zero_le r.2.1))
    refine ⟨rfl, hok'', hbase, r.2.1, hacc.interval ▸ hlt, hoffle, hsame, ?_,
      hok''.shiftedAt_lt ?_ ?_⟩
    · have hlast₂ := (hacc'.trans hupd).cycleLast
      rw [hlast] at hlast₂
      have := (hlast₂.trans (by simpa using hacc.cycleLast)).add_right (r.2.1 : ℤ)
      rwa [add_assoc, ← Nat.cast_add (offset - r.2.1), Nat.sub_add_cancel hoffle] at this
    · rw [hsame.interval]
      exact hacc.interval ▸ hlt
    · have hnsec'' := hupd.xtimeNsec
      rw [hupd.shift]
      omega

/-! ### A new clock source -/

theorem ntpTick_eq (h : shift ≤ 32) :
    u64 (u64 (ntpIntervalLength <<< shift : ℕ) <<< u32 (32 - (shift : ℤ)) : ℕ) =
      ntpTickLength := by
  have hrest : u32 (32 - (shift : ℤ)) = 32 - shift := by
    unfold u32
    omega
  have hmul : ntpIntervalLength * 2 ^ shift * 2 ^ (32 - shift) = ntpTickLength := by
    rw [mul_assoc, ← pow_add, Nat.add_sub_cancel' h]
    decide
  rw [u64_interval h, hrest, shiftLeft_eq, hmul]
  decide

theorem tkSetupInternals_ok (tk : Timekeeper) (old : Option Clocksource)
    (now : ℕ) (h : clock.Valid) : TkOk (tkSetupInternals tk old clock now) where
  valid := h
  mask := rfl
  shift := rfl
  interval := rfl
  errMult := zero_le 1
  multGt := h.multPos
  multLe := le_rfl
  multLt := h.multLt
  xtimeInterval := by
    have hle := h.cycleIntervalOf_mul_le
    have hlt := h.multLt
    have hlen := interval_le h.shift
    exact u64_of_lt (by omega)
  ntpTick := ntpTick_eq h.shift

/-- Scaling to another shift keeps the whole nanoseconds. -/
theorem rescale_div {old shift x : ℕ} (hs : shift ≤ 32) (hold : old ≤ 32) (hx : x < nsecps old) :
    rescale old shift x / 2 ^ shift = x / 2 ^ old ∧ rescale old shift x < 2 ^ 64 := by
  unfold rescale
  split
  next hlt =>
    rw [Nat.shiftRight_eq_div_pow, Nat.div_div_eq_div_mul, ← pow_add, Nat.sub_add_cancel hlt.le]
    have := nsecps_le hold
    exact ⟨rfl, (div_le_self _ _).trans_lt (by omega)⟩
  next hle =>
    have hle := not_lt.1 hle
    have hpow : 2 ^ old * 2 ^ (shift - old) = 2 ^ shift := by
      rw [← pow_add, Nat.add_sub_cancel' hle]
    have hlt : x * 2 ^ (shift - old) < 2 ^ 64 := by
      calc x * 2 ^ (shift - old) < nsecps old * 2 ^ (shift - old) :=
            Nat.mul_lt_mul_of_pos_right hx (Nat.two_pow_pos _)
        _ = nsecps shift := by rw [nsecps_eq hold, nsecps_eq hs, mul_assoc, hpow]
        _ ≤ 2 ^ 62 := nsecps_le hs
        _ < 2 ^ 64 := by decide
    rw [shiftLeft_eq, u64_of_lt hlt]
    refine ⟨?_, hlt⟩
    rw [← hpow, Nat.mul_div_mul_right _ _ (Nat.two_pow_pos _)]

/-- The cycles of the old clock are moved into the time. -/
theorem timekeepingForwardNow_sameTime (h : TkOk tk)
    (hdelta : clocksourceDelta now tk.tkrMono.cycleLast tk.tkrMono.mask = offset)
    (hno : shiftedAt tk offset < 2 ^ 64) :
    TkOk (timekeepingForwardNow tk now) ∧ SameTime tk (timekeepingForwardNow tk now) offset 0 ∧
      (timekeepingForwardNow tk now).tkrMono.cycleLast = now ∧
      (timekeepingForwardNow tk now).tkrMono.xtimeNsec < nsecps tk.tkrMono.shift := by
  have hpos := nsecps_pos h.shift_le
  have hnsec : u64 (tk.tkrMono.xtimeNsec + offset * tk.tkrMono.mult : ℕ) = shiftedAt tk offset := by
    rw [add_comm]
    exact u64_of_lt hno
  have hcarry := carry_eq hpos (shiftedAt tk offset) _ le_rfl
  have hxnsec : (timekeepingForwardNow tk now).tkrMono.xtimeNsec =
      shiftedAt tk offset % nsecps tk.tkrMono.shift := by
    simp only [timekeepingForwardNow, tkNormalizeXtime, hdelta, hnsec, hcarry]
  have hxsec : (timekeepingForwardNow tk now).xtimeSec =
      u64 (tk.xtimeSec + (shiftedAt tk offset / nsecps tk.tkrMono.shift : ℕ)) := by
    simp only [timekeepingForwardNow, tkNormalizeXtime, hdelta, hnsec, hcarry]
  refine ⟨{ h with }, ⟨rfl, rfl, rfl, rfl,
    (shiftedAt tk offset / nsecps tk.tkrMono.shift : ℕ), ?_, ?_⟩, rfl, ?_⟩
  · rw [hxsec]
    exact modEq_u64 _
  · have := mod_add_div' (shiftedAt tk offset) (nsecps tk.tkrMono.shift)
    rw [hxnsec]
    unfold shiftedAt at *
    omega
  · rw [hxnsec]
    exact mod_lt _ hpos

/-- **A change of the clock source** keeps the invariant and the time. -/
theorem changeClocksource_value {core : TkCore} {new : Clocksource} (change : Bool) (newNow : ℕ)
    (h : TkOk core.timekeeper) (hb : BaseOk core.timekeeper) (hnew : new.Valid)
    (hdelta : clocksourceDelta now core.timekeeper.tkrMono.cycleLast
      core.timekeeper.tkrMono.mask = offset) (hno : shiftedAt core.timekeeper offset < 2 ^ 64) :
    let core' := changeClocksource core new change now newNow
    core'.shadow = core'.timekeeper ∧ TkOk core'.timekeeper ∧ BaseOk core'.timekeeper ∧
      core'.timekeeper.tkrMono.cycleLast = (if change then newNow else now) ∧
      core'.timekeeper.tkrMono.clock =
        (if change then new else core.timekeeper.tkrMono.clock) ∧
      valueAt core'.timekeeper 0 ≡ valueAt core.timekeeper offset [ZMOD 2 ^ 64] := by
  obtain ⟨hok, hsame, hlast, hnsec⟩ := timekeepingForwardNow_sameTime h hdelta hno
  simp only [changeClocksource]
  generalize timekeepingForwardNow core.timekeeper now = tk at hok hsame hlast hnsec ⊢
  cases change with
  | false =>
    simp only [Bool.false_eq_true, if_false]
    have hupd := timekeepingUpdate_accrued core.page tk ⟨true, true⟩
    have hbase := timekeepingUpdate_baseOk core.page tk ⟨true, true⟩
    obtain ⟨hlast', -, -⟩ := timekeepingUpdate_exact core.page tk ⟨true, true⟩
    exact ⟨trivial, hok.of_accrued hupd, hbase, hlast'.trans hlast, hupd.clock.trans hsame.clock,
      (hsame.trans (hupd.sameTime le_rfl)).value_modEq h.shift_le hb hbase⟩
  | true =>
    simp only [if_true]
    -- the value is compared with that of the old clock, brought up to date
    have hupd₁ := timekeepingUpdate_accrued core.page tk ⟨true, true⟩
    have hbase₁ := timekeepingUpdate_baseOk core.page tk ⟨true, true⟩
    obtain ⟨-, hnsec₁, hsec₁⟩ := timekeepingUpdate_exact core.page tk ⟨true, true⟩
    have hvalue := (hsame.trans (hupd₁.sameTime le_rfl)).value_modEq h.shift_le hb hbase₁
    set tk₂ := tkSetupInternals tk (some tk.tkrMono.clock) new newNow
    have hupd₂ := timekeepingUpdate_accrued core.page tk₂ ⟨true, true⟩
    have hbase₂ := timekeepingUpdate_baseOk core.page tk₂ ⟨true, true⟩
    obtain ⟨hlast₂, hnsec₂, hsec₂⟩ := timekeepingUpdate_exact core.page tk₂ ⟨true, true⟩
    refine ⟨trivial, (tkSetupInternals_ok _ _ _ hnew).of_accrued hupd₂, hbase₂, hlast₂,
      hupd₂.clock, ?_⟩
    have hdiv : tk₂.tkrMono.xtimeNsec / 2 ^ tk₂.tkrMono.shift =
        tk.tkrMono.xtimeNsec / 2 ^ tk.tkrMono.shift := by
      have := (rescale_div hnew.shift hok.shift_le
        (hnsec.trans_eq (congrArg nsecps hsame.shift.symm))).1
      rwa [hok.shift] at this ⊢
    have heq : valueAt (timekeepingUpdate core.page tk₂ ⟨true, true⟩).1 0 =
        valueAt (timekeepingUpdate core.page tk ⟨true, true⟩).1 0 := by
      unfold valueAt shiftedAt
      rw [hbase₁, hbase₂, hupd₁.toMono, hupd₂.toMono, hsec₁, hsec₂, hupd₁.shift, hupd₂.shift,
        hnsec₁, hnsec₂, zero_mul, zero_mul, zero_add, zero_add, hdiv]
      rfl
    rw [heq]
    exact hvalue

end MinimalKernel.Time
