import MinimalKernel.Locking.Rwsem

/-!
# The word of a reader-writer semaphore

`packed r h w x` is the word with `r` readers, the flags `RWSEM_FLAG_HANDOFF` and
`RWSEM_FLAG_WAITERS` as `h` and `w`, and `RWSEM_WRITER_LOCKED` as `x`. The tests of the code read
off its parts, and the sums that the code forms stay within the parts: nothing is carried from one
into another as long as there are fewer than `2 ^ 23` readers.
-/

namespace MinimalKernel.Locking

open Bool

/-- The word with the given parts. -/
def packed (r : ℕ) (h w x : Bool) : ℕ := 256 * r + 4 * h.toNat + 2 * w.toNat + x.toNat

variable {r : ℕ} {h w x : Bool}

/-! ### Reading -/

@[simp] theorem writerLocked_packed : writerLocked (packed r h w x) = x := by
  simp only [writerLocked, packed, Nat.testBit_eq_decide_div_mod_eq]
  cases h <;> cases w <;> cases x <;> simp <;> omega

@[simp] theorem flagWaiters_packed : flagWaiters (packed r h w x) = w := by
  simp only [flagWaiters, packed, Nat.testBit_eq_decide_div_mod_eq]
  cases h <;> cases w <;> cases x <;> simp <;> omega

@[simp] theorem flagHandoff_packed : flagHandoff (packed r h w x) = h := by
  simp only [flagHandoff, packed, Nat.testBit_eq_decide_div_mod_eq]
  cases h <;> cases w <;> cases x <;> simp <;> omega

theorem flagReadFail_packed (hr : r < 2 ^ 23) : flagReadFail (packed r h w x) = false := by
  simp only [flagReadFail, packed, Nat.testBit_eq_decide_div_mod_eq]
  cases h <;> cases w <;> cases x <;> simp <;> omega

@[simp] theorem packed_shiftRight : packed r h w x >>> 8 = r := by
  simp only [packed, Nat.shiftRight_eq_div_pow]
  cases h <;> cases w <;> cases x <;> simp <;> omega

@[simp] theorem readerMask_packed : readerMask (packed r h w x) = decide (r ≠ 0) := by
  simp [readerMask]

@[simp] theorem lockMask_packed : lockMask (packed r h w x) = (x || decide (r ≠ 0)) := by
  simp [lockMask]

theorem packed_eq_zero : packed r h w x = 0 ↔ r = 0 ∧ h = false ∧ w = false ∧ x = false := by
  simp only [packed]
  cases h <;> cases w <;> cases x <;> simp <;> omega

/-! ### Adding -/

theorem addCount_addCount (c : ℕ) (i j : ℤ) : addCount (addCount c i) j = addCount c (i + j) := by
  simp only [addCount]
  omega

/-- A sum that is a word again. -/
theorem addCount_packed {r' : ℕ} {h' w' x' : Bool} {i : ℤ} (hr : r' < 2 ^ 23)
    (hi : (packed r h w x : ℤ) + i = packed r' h' w' x') :
    addCount (packed r h w x) i = packed r' h' w' x' := by
  have hlt : packed r' h' w' x' < 2 ^ 32 := by
    simp only [packed]
    have := h'.toNat_le
    have := w'.toNat_le
    have := x'.toNat_le
    omega
  simp only [addCount, hi]
  omega

theorem addCount_zero (hr : r < 2 ^ 23) : addCount (packed r h w x) 0 = packed r h w x :=
  addCount_packed hr (by omega)

theorem packed_add_flagHandoff : packed r false w x + rwsemFlagHandoff = packed r true w x := by
  simp only [packed, rwsemFlagHandoff, toNat_true, toNat_false]
  omega

theorem packed_add_flagWaiters : packed r h false x + rwsemFlagWaiters = packed r h true x := by
  simp only [packed, rwsemFlagWaiters, toNat_true, toNat_false]
  omega

/-- Clearing the flags of the waiters. -/
theorem packed_sub_flags : packed r h true x - (if h then rwsemFlagHandoff else 0) -
    rwsemFlagWaiters = packed r false false x := by
  cases h <;> simp [packed, rwsemFlagHandoff, rwsemFlagWaiters] <;> omega

/-- A writer takes the semaphore. -/
theorem packed_add_writerLocked (one : Bool) :
    packed 0 h true false + rwsemWriterLocked - (if h then rwsemFlagHandoff else 0) -
      (if one then rwsemFlagWaiters else 0) = packed 0 false (!one) true := by
  cases h <;> cases one <;>
    simp [packed, rwsemFlagHandoff, rwsemFlagWaiters, rwsemWriterLocked]

theorem addCount_flagHandoff (hr : r < 2 ^ 23) :
    addCount (packed r false w x) rwsemFlagHandoff = packed r true w x :=
  addCount_packed hr (by rw [← packed_add_flagHandoff]; omega)

theorem addCount_readerBias (hr : r + 1 < 2 ^ 23) :
    addCount (packed r h w x) rwsemReaderBias = packed (r + 1) h w x :=
  addCount_packed hr (by simp only [packed, rwsemReaderBias]; omega)

theorem writerLocked_addCount_readerBias (c : ℕ) :
    writerLocked (addCount c rwsemReaderBias) = writerLocked c := by
  simp only [writerLocked, addCount, rwsemReaderBias, Nat.testBit_zero]
  exact decide_eq_decide.2 (by omega)

theorem writerLocked_of_readFailedMask {c : ℕ} (h : readFailedMask c = false) :
    writerLocked c = false := by
  simp only [readFailedMask, or_eq_false_iff] at h
  exact h.1.1.1

theorem addCount_neg_readerBias (hr : r < 2 ^ 23) :
    addCount (packed (r + 1) h w x) (-rwsemReaderBias) = packed r h w x :=
  addCount_packed hr (by simp only [packed, rwsemReaderBias]; omega)

theorem addCount_neg_writerLocked (hr : r < 2 ^ 23) :
    addCount (packed r h w true) (-rwsemWriterLocked) = packed r h w false :=
  addCount_packed hr (by
    simp only [packed, rwsemWriterLocked, toNat_true, toNat_false]; omega)

/-- A reader takes back what it has added, and queues itself. -/
theorem addCount_queue (hr : r < 2 ^ 23) : addCount (packed (r + 1) h w x)
    (if w then -rwsemReaderBias else -rwsemReaderBias + rwsemFlagWaiters) = packed r h true x :=
  addCount_packed hr (by
    cases w <;> simp [packed, rwsemReaderBias, rwsemFlagWaiters] <;> omega)

theorem addCount_downgrade (hr : r + 1 < 2 ^ 23) :
    addCount (packed r h w true) (-rwsemWriterLocked + rwsemReaderBias) =
      packed (r + 1) h w false :=
  addCount_packed hr (by simp [packed, rwsemWriterLocked, rwsemReaderBias]; omega)

end MinimalKernel.Locking
