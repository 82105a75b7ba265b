import MinimalKernel.Fs.FdTable
import MinimalKernel.Lib.Run

/-!
# What holds of a descriptor table in every run

The invariant has two parts. The table itself: a word of `full_fds_bits` is as `open_fds` says,
every descriptor with a file is taken, and nothing below `next_fd` is free. The tasks: at most one
of them resizes the table, nobody installs a file in a table that is no longer in use, and a
descriptor that `alloc_fd` has returned stays taken and without a file until its owner installs
one or gives it back. The last is why `fd_install` does not run into its `BUG_ON`, and why `dup2`
answers `EBUSY` for such a descriptor.

## Main definitions

* `TableOk`, `FilesOk` — the invariant of the table
* `Files.Free`, `Files.Held` — a descriptor is not taken; is taken and has no file
* `Extends` — what a larger table shows
* `FdOk` — the invariant of the tasks

## Main results

* `findNextFd_spec`, `isLeast_firstFd` — the search finds the least free descriptor
* `TableOk.copyFdtable`, `extends_copyFdtable` — a larger table
* `SectionOk.enter`, `SectionOk.resume` — the sections of the calls under `file_lock`
* `FdOk.step` — every step keeps the invariant
* `fdtable_run` — what holds in every state of every run
-/

namespace MinimalKernel.Fs

open Bool FdState Function Lib

variable {F : Type*} {call : FdCall} {mem : Option (FdTable F)} {r : Except Errno ℕ} {nr fd : ℕ}
  {fdt : FdTable F} {files' : Files F}

/-! ### The invariant of the table -/

/-- The bitmaps and the pointers belong together. -/
structure TableOk (fdt : FdTable F) : Prop where
  aligned : bitsPerLong ∣ fdt.maxFds
  pos : 0 < fdt.maxFds
  full : ∀ i < fdt.maxFds / bitsPerLong,
    fdt.fullFdsBits i ↔ ∀ j < bitsPerLong, fdt.openFds (i * bitsPerLong + j)
  rest : ∀ i, fdt.maxFds / bitsPerLong ≤ i → i < bitbitSize fdt.maxFds * 8 →
    fdt.fullFdsBits i = false
  isOpen : ∀ n < fdt.maxFds, fdt.fd n ≠ none → fdt.openFds n

/-- The descriptor is not taken. -/
def Files.Free (files : Files F) (n : ℕ) : Prop := ¬ (n < files.fdt.maxFds ∧ files.fdt.openFds n)

/-- The descriptor is taken and has no file. -/
def Files.Held (files : Files F) (n : ℕ) : Prop :=
  n < files.fdt.maxFds ∧ files.fdt.openFds n ∧ files.fdt.fd n = none

/-- The table is right, and the search for a free descriptor may start at `next_fd`. -/
structure FilesOk (files : Files F) : Prop where
  table : TableOk files.fdt
  next : ∀ n < files.nextFd, ¬ files.Free n

theorem TableOk.init : TableOk (initFiles (F := F)).fdt where
  aligned := dvd_rfl
  pos := (by decide : 0 < nrOpenDefault)
  full i hi := by
    simp only [initFiles, false_eq_true, false_iff]
    exact fun h => h 0 (by decide)
  rest _ _ _ := rfl
  isOpen n _ h := absurd rfl h

theorem FilesOk.init : FilesOk (initFiles (F := F)) := ⟨.init, nofun⟩

section Table

variable {fdt : FdTable F} {n : ℕ}

theorem div_bitsPerLong_lt (h : TableOk fdt) (hn : n < fdt.maxFds) :
    n / bitsPerLong < fdt.maxFds / bitsPerLong :=
  Nat.div_lt_div_of_lt_of_dvd h.aligned hn

/-- The bits of a word. -/
theorem mul_add_div {i j : ℕ} (hj : j < bitsPerLong) : (i * bitsPerLong + j) / bitsPerLong = i := by
  simp only [bitsPerLong] at *
  omega

section

variable (h : TableOk fdt)
include h

theorem TableOk.setOpenFd (hn : n < fdt.maxFds) : TableOk (setOpenFd fdt n) := by
  have hword := div_bitsPerLong_lt h hn
  refine { aligned := h.aligned, pos := h.pos, full := fun i hi => ?_, rest := fun i hi hr => ?_,
           isOpen := fun m hm hf => ?_ }
  · simp only [Fs.setOpenFd]
    by_cases e : i = n / bitsPerLong
    · subst e
      split
      · rename_i hall
        simpa using hall
      · rename_i hall
        rw [h.full _ hi]
        refine iff_of_false (fun ho => hall fun j hj => ?_) hall
        by_cases e : n / bitsPerLong * bitsPerLong + j = n
        · simp [e]
        · rw [update_of_ne e]
          exact ho j hj
    · have hne : ∀ j < bitsPerLong, i * bitsPerLong + j ≠ n := fun j hj hn =>
        e (by rw [← hn, mul_add_div hj])
      have hopen : (∀ j < bitsPerLong, update fdt.openFds n true (i * bitsPerLong + j)) ↔
          ∀ j < bitsPerLong, fdt.openFds (i * bitsPerLong + j) :=
        forall₂_congr fun j hj => by rw [update_of_ne (hne j hj)]
      rw [hopen, ← h.full i hi]
      split
      · rw [update_of_ne e]
      · rfl
  · have hne : i ≠ n / bitsPerLong := fun e => absurd hword (by rw [← e]; exact not_lt.2 hi)
    have hold := h.rest i hi hr
    simp only [Fs.setOpenFd]
    split
    · rwa [update_of_ne hne]
    · exact hold
  · simp only [Fs.setOpenFd]
    by_cases e : m = n
    · simp [e]
    · rw [update_of_ne e]
      exact h.isOpen m hm hf

theorem TableOk.clearOpenFd (hf : fdt.fd n = none) : TableOk (clearOpenFd fdt n) := by
  refine { aligned := h.aligned, pos := h.pos, full := fun i hi => ?_, rest := fun i hi hr => ?_,
           isOpen := fun m hm hm' => ?_ }
  · simp only [Fs.clearOpenFd]
    by_cases e : i = n / bitsPerLong
    · subst e
      simp only [update_self, false_eq_true, false_iff]
      intro hall
      have := hall (n % bitsPerLong) (Nat.mod_lt _ (by decide))
      rw [Nat.div_add_mod' n bitsPerLong, update_self] at this
      cases this
    · rw [update_of_ne e, h.full i hi]
      refine forall₂_congr fun j hj => ?_
      rw [update_of_ne fun hn => e (by rw [← hn, mul_add_div hj])]
  · simp only [Fs.clearOpenFd]
    by_cases e : i = n / bitsPerLong
    · rw [e, update_self]
    · rw [update_of_ne e]
      exact h.rest i hi hr
  · have hne : m ≠ n := fun e => hm' (e ▸ hf)
    simp only [Fs.clearOpenFd]
    rw [update_of_ne hne]
    exact h.isOpen m hm hm'

theorem TableOk.setCloseOnExec (b : Bool) : TableOk (setCloseOnExec fdt n b) :=
  { h with }

theorem TableOk.setFd {file : Option F} (hf : file ≠ none → fdt.openFds n) :
    TableOk (setFd fdt n file) := by
  refine { h with isOpen := fun m hm hm' => ?_ }
  simp only [Fs.setFd] at hm' ⊢
  by_cases e : m = n
  · subst e
    exact hf (by simpa using hm')
  · exact h.isOpen m hm (by simpa [e] using hm')

/-- `find_next_fd` skips taken descriptors only. -/
theorem findNextFd_spec (hn : n < fdt.maxFds) :
    n ≤ findNextFd fdt n ∧ findNextFd fdt n ≤ fdt.maxFds ∧
      (∀ m, n ≤ m → m < findNextFd fdt n → fdt.openFds m) ∧
      (findNextFd fdt n < fdt.maxFds → fdt.openFds (findNextFd fdt n) = false) := by
  obtain ⟨k, hk⟩ := h.aligned
  have hword : fdt.maxFds / bitsPerLong = k := by
    rw [hk]
    exact Nat.mul_div_cancel_left k (by decide)
  set w := findNext (fun i => !fdt.fullFdsBits i) k (n / bitsPerLong)
  have hnk : n / bitsPerLong < k := hword ▸ div_bitsPerLong_lt h hn
  have hwk : w ≤ k := findNext_le _ _
  have hbound : w * bitsPerLong ≤ fdt.maxFds := by
    rw [hk, Nat.mul_comm bitsPerLong]
    exact Nat.mul_le_mul_right _ hwk
  -- the words that the first search passes over are full
  have hfull : ∀ m, n ≤ m → m < w * bitsPerLong → fdt.openFds m := by
    intro m hm hlt
    have hmw : m / bitsPerLong < w := (Nat.div_lt_iff_lt_mul (by decide)).2 hlt
    have hbit := not_test_of_lt_findNext (Nat.div_le_div_right (c := bitsPerLong) hm) hmw
    have := (h.full _ (by rw [hword]; exact hmw.trans_le hwk)).1 (by simpa using hbit)
      (m % bitsPerLong) (Nat.mod_lt _ (by decide))
    rwa [Nat.div_add_mod' m bitsPerLong] at this
  have heq : findNextFd fdt n =
      findNext (fun i => !fdt.openFds i) fdt.maxFds (max n (w * bitsPerLong)) := by
    rw [findNextFd, hword, if_neg (not_lt.2 hbound), max_def_lt]
  rw [heq]
  refine ⟨(le_max_left ..).trans (le_findNext (max_le hn.le hbound)), findNext_le _ _,
    fun m hm hlt => ?_, fun hlt => ?_⟩
  · by_cases hmw : m < w * bitsPerLong
    · exact hfull m hm hmw
    · simpa using not_test_of_lt_findNext (max_le hm (not_lt.1 hmw)) hlt
  · simpa using test_findNext hlt

end

end Table

/-! ### A larger table -/

section Copy

theorem copyBits_of_lt {new old : ℕ → Bool} {cpy set i : ℕ} (h : i < cpy * 8) :
    copyBits new old cpy set i = old i := if_pos h

theorem copyBits_of_le {new old : ℕ → Bool} {cpy set i : ℕ} (h : cpy * 8 ≤ i)
    (h' : i < (cpy + set) * 8) : copyBits new old cpy set i = false := by
  rw [copyBits, if_neg (not_lt.2 h), if_pos h']

theorem le_bitbitSize (nr : ℕ) : nr / bitsPerLong ≤ bitbitSize nr * 8 := by
  simp only [bitbitSize, bitsToLongs, bitsPerLong]
  omega

theorem bitbitSize_mono {m n : ℕ} (h : m ≤ n) : bitbitSize m ≤ bitbitSize n := by
  simp only [bitbitSize, bitsToLongs, bitsPerLong]
  omega

/-- What a larger table shows: the old entries and bits, and nothing else. -/
structure Extends (nfdt ofdt : FdTable F) : Prop where
  maxFds : ofdt.maxFds ≤ nfdt.maxFds
  same : ∀ n < ofdt.maxFds, nfdt.fd n = ofdt.fd n ∧ nfdt.openFds n = ofdt.openFds n ∧
    nfdt.closeOnExec n = ofdt.closeOnExec n
  new : ∀ n, ofdt.maxFds ≤ n → n < nfdt.maxFds →
    nfdt.fd n = none ∧ nfdt.openFds n = false ∧ nfdt.closeOnExec n = false
  full : ∀ i < ofdt.maxFds / bitsPerLong, nfdt.fullFdsBits i = ofdt.fullFdsBits i

variable {nfdt ofdt : FdTable F}

section

variable (h : TableOk ofdt) (hle : ofdt.maxFds ≤ nfdt.maxFds)
include h hle

/-- The bits of the words are copied too. -/
theorem fullFdsBits_copyFdtable {i : ℕ} :
    (i < ofdt.maxFds / bitsPerLong →
      (copyFdtable nfdt ofdt).fullFdsBits i = ofdt.fullFdsBits i) ∧
    (ofdt.maxFds / bitsPerLong ≤ i → i < bitbitSize nfdt.maxFds * 8 →
      (copyFdtable nfdt ofdt).fullFdsBits i = false) := by
  refine ⟨fun hi => copyBits_of_lt (hi.trans_le (le_bitbitSize _)), fun hi hlt => ?_⟩
  by_cases hold : i < bitbitSize ofdt.maxFds * 8
  · exact (copyBits_of_lt hold).trans (h.rest i hi hold)
  · refine copyBits_of_le (not_lt.1 hold) ?_
    show i < (bitbitSize ofdt.maxFds + (bitbitSize nfdt.maxFds - bitbitSize ofdt.maxFds)) * 8
    have := bitbitSize_mono hle
    omega

theorem extends_copyFdtable (hnew : bitsPerLong ∣ nfdt.maxFds) :
    Extends (copyFdtable nfdt ofdt) ofdt := by
  obtain ⟨k, hk⟩ := h.aligned
  obtain ⟨l, hl⟩ := hnew
  have hcpy : ofdt.maxFds / 8 * 8 = ofdt.maxFds := by
    rw [hk, bitsPerLong]
    omega
  have hset : (ofdt.maxFds / 8 + (nfdt.maxFds - ofdt.maxFds) / 8) * 8 = nfdt.maxFds := by
    simp only [bitsPerLong] at hk hl
    omega
  refine ⟨hle, fun n hn => ⟨if_pos hn, copyBits_of_lt ?_, copyBits_of_lt ?_⟩, fun n hn hlt =>
    ⟨?_, copyBits_of_le ?_ ?_, copyBits_of_le ?_ ?_⟩,
    fun i hi => (fullFdsBits_copyFdtable h hle).1 hi⟩
  · rwa [hcpy]
  · rwa [hcpy]
  · exact (if_neg (not_lt.2 hn)).trans (if_pos hlt)
  · rwa [hcpy]
  · rwa [hset]
  · rwa [hcpy]
  · rwa [hset]

theorem TableOk.copyFdtable (hnew : bitsPerLong ∣ nfdt.maxFds) :
    TableOk (copyFdtable nfdt ofdt) := by
  have hext := extends_copyFdtable h hle hnew
  have hword : ofdt.maxFds / bitsPerLong * bitsPerLong = ofdt.maxFds :=
    Nat.div_mul_cancel h.aligned
  have hword' : nfdt.maxFds / bitsPerLong * bitsPerLong = nfdt.maxFds := Nat.div_mul_cancel hnew
  refine { aligned := hnew, pos := h.pos.trans_le hle, full := fun i hi => ?_,
           rest := fun i hi hlt => ?_, isOpen := fun n hn hf => ?_ }
  · by_cases hold : i < ofdt.maxFds / bitsPerLong
    · have hlast' : i * bitsPerLong + bitsPerLong ≤ ofdt.maxFds := by
        rw [← hword, ← Nat.succ_mul]
        exact Nat.mul_le_mul_right _ hold
      rw [(fullFdsBits_copyFdtable h hle).1 hold, h.full i hold]
      exact forall₂_congr fun j hj => by rw [(hext.same _ (by omega)).2.1]
    · have hfirst : ofdt.maxFds ≤ i * bitsPerLong := by
        rw [← hword]
        exact Nat.mul_le_mul_right _ (not_lt.1 hold)
      rw [(fullFdsBits_copyFdtable h hle).2 (not_lt.1 hold) (hi.trans_le (le_bitbitSize _))]
      refine iff_of_false nofun fun hall => ?_
      have := hall 0 (by decide)
      rw [(hext.new _ (by omega) (by simp only [bitsPerLong] at *; omega)).2.1] at this
      cases this
  · exact (fullFdsBits_copyFdtable h hle).2 ((Nat.div_le_div_right hle).trans hi) hlt
  · by_cases hold : n < ofdt.maxFds
    · rw [(hext.same n hold).2.1]
      refine h.isOpen n hold ?_
      rwa [← (hext.same n hold).1]
    · rw [(hext.new n (not_lt.1 hold) hn).1] at hf
      exact absurd rfl hf

end

theorem le_roundupPowOfTwo (n : ℕ) : n + 1 ≤ roundupPowOfTwo (n + 1) := Nat.lt_size_self n

/-- A table for descriptor `nr` has room for it. -/
theorem fdtableSize_spec (h : nr < sysctlNrOpen) :
    nr < fdtableSize nr ∧ bitsPerLong ∣ fdtableSize nr := by
  have hround := le_roundupPowOfTwo (nr / 256)
  simp only [fdtableSize]
  generalize roundupPowOfTwo (nr / 256 + 1) = r at *
  split
  · refine ⟨h.trans_le ?_, Nat.dvd_mul_left _ _⟩
    decide
  · refine ⟨?_, Nat.dvd_mul_left _ _⟩
    simp only [bitsPerLong]
    omega

end Copy

/-! ### Calls on the table -/

section Calls

variable {files : Files F} {start stop flags n : ℕ}

/-- What a section under `file_lock` keeps: the table, and the descriptors that are taken without
having a file. -/
structure Keeps (files files' : Files F) : Prop where
  ok : FilesOk files'
  held : ∀ n, files.Held n → files'.Held n
  maxFds : files'.fdt.maxFds = files.fdt.maxFds
  flag : files'.resizeInProgress = files.resizeInProgress

theorem FilesOk.keeps (h : FilesOk files) : Keeps files files := ⟨h, fun _ hn => hn, rfl, rfl⟩

theorem Files.Held.not_free (h : files.Held n) : ¬ files.Free n := fun hf => hf ⟨h.1, h.2.1⟩

/-- `alloc_fd` tries the least descriptor that is free. -/
theorem isLeast_firstFd (h : FilesOk files) (start : ℕ) :
    IsLeast {n | start ≤ n ∧ files.Free n} (firstFd files start) := by
  have hstart : start ≤ max start files.nextFd := le_max_left ..
  -- nothing below `next_fd` is free
  have hlow : ∀ m, start ≤ m → files.Free m → max start files.nextFd ≤ m := fun m hm hfree =>
    max_le hm (not_lt.1 fun hlt => h.next m hlt hfree)
  rw [firstFd, ← max_def_lt]
  split
  · rename_i hlt
    obtain ⟨hle, hmax, hopen, hfree⟩ := findNextFd_spec h.table hlt
    refine ⟨⟨hstart.trans hle, fun hn => ?_⟩, fun m hm => not_lt.1 fun hmlt => ?_⟩
    · rw [hfree hn.1] at hn
      cases hn.2
    · exact hm.2 ⟨hmlt.trans_le hmax, hopen m (hlow m hm.1 hm.2) hmlt⟩
  · rename_i hge
    exact ⟨⟨hstart, fun hn => hge hn.1⟩, fun m hm => hlow m hm.1 hm.2⟩

/-- Taking the descriptor that `alloc_fd` tries. -/
theorem Keeps.takeFd (h : FilesOk files) (flags : ℕ) (hn : firstFd files start < files.fdt.maxFds) :
    Keeps files (takeFd files start (firstFd files start) flags) ∧
      (takeFd files start (firstFd files start) flags).Held (firstFd files start) := by
  obtain ⟨⟨hstart, hfree⟩, hleast⟩ := isLeast_firstFd h start
  set n := firstFd files start
  refine ⟨⟨⟨((h.table.setOpenFd hn).setCloseOnExec _).setFd nofun, fun m hm hf => ?_⟩,
    fun m hm => ?_, rfl, rfl⟩, hn, ?_, ?_⟩
  · by_cases e : m = n
    · subst e
      exact hf ⟨hn, by simp [Fs.takeFd, setFd, setCloseOnExec, setOpenFd]⟩
    · have hmfree : files.Free m := fun ho => hf ⟨ho.1, by
        simpa [Fs.takeFd, setFd, setCloseOnExec, setOpenFd, e] using ho.2⟩
      simp only [Fs.takeFd] at hm
      split at hm
      · -- `next_fd` moves past the descriptor only if the search started there
        rename_i hle
        by_cases hms : start ≤ m
        · exact e (le_antisymm (by omega) (hleast ⟨hms, hmfree⟩))
        · exact h.next m (by omega) hmfree
      · exact h.next m hm hmfree
  · have e : m ≠ n := fun e => hm.not_free (e ▸ hfree)
    refine ⟨hm.1, ?_, ?_⟩
    · simpa [Fs.takeFd, setFd, setCloseOnExec, setOpenFd, e] using hm.2.1
    · simpa [Fs.takeFd, setFd, setCloseOnExec, setOpenFd, e] using hm.2.2
  · simp [Fs.takeFd, setFd, setCloseOnExec, setOpenFd]
  · simp [Fs.takeFd, setFd]

/-- How a pass of the loop of `alloc_fd` ends. -/
theorem allocFd_cases (files : Files F) (start stop flags : ℕ) (hfd : fd = firstFd files start) :
    ((stop ≤ fd ∨ sysctlNrOpen ≤ fd) ∧
      allocFd files start stop flags = (files, .returns (.error .EMFILE))) ∨
    (fd < stop ∧ files.fdt.maxFds ≤ fd ∧ fd < sysctlNrOpen ∧
      allocFd files start stop flags = (files, .waits fd)) ∨
    (fd < stop ∧ files.fdt.maxFds ≤ fd ∧ fd < sysctlNrOpen ∧ files.resizeInProgress = false ∧
      allocFd files start stop flags =
        ({ files with resizeInProgress := true }, .resizes fd)) ∨
    (fd < stop ∧ fd < files.fdt.maxFds ∧ allocFd files start stop flags =
      (takeFd files start fd flags, .returns (.ok fd))) := by
  subst hfd
  simp only [allocFd, expandFiles]
  by_cases hstop : stop ≤ firstFd files start
  · exact .inl ⟨.inl hstop, if_pos hstop⟩
  · rw [if_neg hstop]
    by_cases hmax : firstFd files start < files.fdt.maxFds
    · exact .inr (.inr (.inr ⟨not_le.1 hstop, hmax, by simp only [if_pos hmax]⟩))
    · simp only [if_neg hmax]
      by_cases hopen : sysctlNrOpen ≤ firstFd files start
      · exact .inl ⟨.inr hopen, by simp only [if_pos hopen]⟩
      · simp only [if_neg hopen]
        cases hr : files.resizeInProgress with
        | true => exact .inr (.inl ⟨not_le.1 hstop, not_lt.1 hmax, not_le.1 hopen, rfl⟩)
        | false =>
          exact .inr (.inr (.inl ⟨not_le.1 hstop, not_lt.1 hmax, not_le.1 hopen, rfl, rfl⟩))

/-- Giving a descriptor back. -/
theorem FilesOk.putUnusedFd (h : FilesOk files) (hf : files.fdt.fd n = none) :
    FilesOk (putUnusedFd files n) := by
  refine ⟨h.table.clearOpenFd hf, fun m hm hfree => ?_⟩
  obtain ⟨hnext, hne⟩ : m < files.nextFd ∧ m ≠ n := by
    simp only [Fs.putUnusedFd] at hm
    split at hm <;> omega
  refine h.next m hnext fun ho => hfree ⟨ho.1, ?_⟩
  simpa [Fs.putUnusedFd, clearOpenFd, hne] using ho.2

theorem Files.Held.putUnusedFd {m : ℕ} (h : files.Held m) (hne : m ≠ n) :
    (putUnusedFd files n).Held m :=
  ⟨h.1, by simpa [Fs.putUnusedFd, clearOpenFd, hne] using h.2.1, h.2.2⟩

/-- A file is taken out of the table and its descriptor given back. -/
theorem Keeps.close (h : FilesOk files) {file : F} (hf : files.fdt.fd n = some file) :
    Keeps files (putUnusedFd { files with fdt := setFd files.fdt n none } n) := by
  have hcleared : FilesOk { files with fdt := setFd files.fdt n none } :=
    ⟨h.table.setFd nofun, h.next⟩
  refine ⟨hcleared.putUnusedFd (by simp [setFd]), fun m hm => ?_, rfl, rfl⟩
  have hne : m ≠ n := fun e => by
    rw [e, Files.Held, hf] at hm
    cases hm.2.2
  refine Files.Held.putUnusedFd ⟨hm.1, hm.2.1, ?_⟩ hne
  simpa [setFd, hne] using hm.2.2

theorem Keeps.trans {files'' : Files F} (h : Keeps files files') (h' : Keeps files' files'') :
    Keeps files files'' :=
  ⟨h'.ok, fun n hn => h'.held n (h.held n hn), h'.maxFds.trans h.maxFds, h'.flag.trans h.flag⟩

theorem Keeps.pickFile (h : FilesOk files) : Keeps files (pickFile files n).1 := by
  simp only [Fs.pickFile]
  split
  · exact h.keeps
  · split
    · exact h.keeps
    · exact Keeps.close h ‹_›

theorem Keeps.closeBits (set : List Bool) : ∀ {files : Files F} {n : ℕ}, FilesOk files →
    Keeps files (closeBits files n set) := by
  induction set with
  | nil => exact fun h => h.keeps
  | cons b set ih =>
    intro files n h
    have hfirst : Keeps files (Fs.closeBits files n [b]) := by
      simp only [Fs.closeBits]
      split
      · split
        · exact h.keeps
        · exact Keeps.close h ‹_›
      · exact h.keeps
    exact hfirst.trans (ih hfirst.ok)

theorem Keeps.closeWords (k : ℕ) : ∀ {files : Files F} {i : ℕ}, FilesOk files →
    Keeps files (closeWords files i k) := by
  induction k with
  | zero => exact fun h => h.keeps
  | succ k ih =>
    intro files i h
    have hcleared : Keeps files { files with
        fdt := { files.fdt with
          closeOnExec := fun k => if k / bitsPerLong = i then false
            else files.fdt.closeOnExec k } } :=
      ⟨⟨{ h.table with }, h.next⟩, fun _ hn => hn, rfl, rfl⟩
    exact hcleared.trans ((Keeps.closeBits _ hcleared.ok).trans
      (ih (Keeps.closeBits _ hcleared.ok).ok))

/-- `dup2` onto a descriptor of the table. -/
theorem Keeps.doDup2 (h : FilesOk files) (hn : n < files.fdt.maxFds) (file : F) :
    Keeps files (doDup2 files file n flags).1 := by
  simp only [Fs.doDup2]
  split
  · exact h.keeps
  · rename_i hbusy
    refine ⟨⟨?_, fun m hm hfree => h.next m hm fun ho => hfree ⟨ho.1, ?_⟩⟩, fun m hm => ?_,
      rfl, rfl⟩
    · -- the pointer and the bits are written independently
      show TableOk (setCloseOnExec (setFd (setOpenFd files.fdt n) n (some file)) n _)
      exact ((h.table.setOpenFd hn).setFd fun _ => by simp [setOpenFd]).setCloseOnExec _
    · by_cases e : m = n
      · simp [e, setCloseOnExec, setOpenFd]
      · simpa [setCloseOnExec, setOpenFd, setFd, e] using ho.2
    · have e : m ≠ n := fun e => hbusy (e ▸ ⟨hm.2.2, hm.2.1⟩)
      refine ⟨hm.1, ?_, ?_⟩
      · simpa [setCloseOnExec, setOpenFd, setFd, e] using hm.2.1
      · simpa [setCloseOnExec, setOpenFd, setFd, e] using hm.2.2

theorem Keeps.dupExpanded (h : FilesOk files) (oldfd flags : ℕ) (err : Except Errno Unit)
    (hn : err = .ok () → n < files.fdt.maxFds) :
    Keeps files (dupExpanded files oldfd n flags err).1 := by
  simp only [Fs.dupExpanded]
  split
  · exact h.keeps
  · split
    · exact h.keeps
    · exact h.keeps
    · exact Keeps.doDup2 h (hn rfl) _

/-- The new table is as good as the old one, and has room for the descriptor. -/
theorem expandFdtable_spec (h : FilesOk files) (hmax : files.fdt.maxFds ≤ nr)
    (hopen : nr < sysctlNrOpen) (mem : Option (FdTable F)) :
    (mem = none ∧ expandFdtable files nr mem =
      .ok ({ files with resizeInProgress := false }, .error .ENOMEM)) ∨
    ∃ fdt, expandFdtable files nr mem = .ok ({ files with
        fdt := fdt, resizeInProgress := false }, .ok ()) ∧
      nr < fdt.maxFds ∧ TableOk fdt ∧ Extends fdt files.fdt := by
  cases mem with
  | none => exact .inl ⟨rfl, rfl⟩
  | some mem =>
    obtain ⟨hroom, haligned⟩ := fdtableSize_spec hopen
    have hle : files.fdt.maxFds ≤ (allocFdtable nr mem).maxFds := hmax.trans hroom.le
    refine .inr ⟨copyFdtable (allocFdtable nr mem) files.fdt, ?_, hroom,
      h.table.copyFdtable hle haligned, extends_copyFdtable h.table hle haligned⟩
    have hroom' : nr < (allocFdtable nr mem).maxFds := hroom
    simp only [expandFdtable]
    rw [if_neg (not_le.2 hroom'), if_neg (by rintro (hn | hn) <;> omega)]

theorem Extends.free_iff (h : Extends fdt files.fdt) :
    ({ files with fdt := fdt, resizeInProgress := false } : Files F).Free n ↔ files.Free n := by
  refine not_congr ⟨fun ⟨hn, ho⟩ => ?_, fun ⟨hn, ho⟩ => ⟨hn.trans_le h.maxFds, ?_⟩⟩
  · by_cases hold : n < files.fdt.maxFds
    · exact ⟨hold, by rwa [← (h.same n hold).2.1]⟩
    · rw [(h.new n (not_lt.1 hold) hn).2.1] at ho
      cases ho
  · rwa [(h.same n hn).2.1]

theorem Extends.filesOk (h : FilesOk files) (hfdt : TableOk fdt) (hext : Extends fdt files.fdt) :
    FilesOk { files with fdt := fdt, resizeInProgress := false } :=
  ⟨hfdt, fun n hn => hext.free_iff.not.2 (h.next n hn)⟩

theorem Extends.held (hext : Extends fdt files.fdt) (hn : files.Held n) :
    ({ files with fdt := fdt, resizeInProgress := false } : Files F).Held n := by
  obtain ⟨hfd, hopen, -⟩ := hext.same n hn.1
  exact ⟨hn.1.trans_le hext.maxFds, by rw [hopen]; exact hn.2.1, by rw [hfd]; exact hn.2.2⟩

end Calls

/-! ### Sections of the calls -/

section Sections

variable {files : Files F}

/-- What `alloc_fd` returns, by the state of the table when it does. -/
def AllocResult (files : Files F) (start stop : ℕ) : Except Errno ℕ → Prop
  | .ok n => IsLeast {n | start ≤ n ∧ files.Free n} n ∧ n < stop
  | .error e => e = .EMFILE ∧ ∀ n, start ≤ n → files.Free n → stop ≤ n ∨ sysctlNrOpen ≤ n

/-- The descriptor for which a call may enlarge the table. -/
def FdCall.Wants (nr : ℕ) : FdCall → Prop
  | .allocFd start stop _ => start ≤ nr ∧ nr < stop
  | .dup3 _ newfd _ => nr = newfd

/-- How a section of a call under `file_lock` may end. -/
structure SectionOk (files : Files F) (call : FdCall) (done : Files F × Ending) : Prop where
  ok : FilesOk done.1
  held : ∀ n, files.Held n → done.1.Held n
  maxFds : done.1.fdt.maxFds = files.fdt.maxFds
  flag : done.1.resizeInProgress = (files.resizeInProgress || done.2 matches .resizes _)
  wants : ∀ nr, done.2 = .waits nr ∨ done.2 = .resizes nr → call.Wants nr ∧ nr < sysctlNrOpen
  resizes : ∀ nr, done.2 = .resizes nr → files.resizeInProgress = false ∧ files.fdt.maxFds ≤ nr
  taken : ∀ start stop flags, call = .allocFd start stop flags → ∀ n, done.2 = .returns (.ok n) →
    done.1.Held n ∧ ¬ files.Held n

/-- A section at whose end the call returns. -/
theorem SectionOk.returned (h : Keeps files files')
    (htaken : ∀ start stop flags, call = .allocFd start stop flags → ∀ n, r = .ok n →
      files'.Held n ∧ ¬ files.Held n) : SectionOk files call (files', .returns r) where
  __ := h
  flag := h.flag.trans (Bool.or_false _).symm
  wants := nofun
  resizes := nofun
  taken start stop flags hc n hn := by
    cases hn
    exact htaken start stop flags hc n rfl

section

variable (h : FilesOk files)
include h

/-- A section that changes nothing and comes to no result. -/
theorem SectionOk.unchanged (hw : call.Wants nr) (hopen : nr < sysctlNrOpen) :
    SectionOk files call (files, .waits nr) where
  ok := h
  held _ hn := hn
  maxFds := rfl
  flag := (Bool.or_false _).symm
  wants m hm := by
    rcases hm with hm | hm
    · cases hm
      exact ⟨hw, hopen⟩
    · cases hm
  resizes := nofun
  taken := nofun

theorem SectionOk.resize (hw : call.Wants nr) (hflag : files.resizeInProgress = false)
    (hmax : files.fdt.maxFds ≤ nr) (hopen : nr < sysctlNrOpen) :
    SectionOk files call ({ files with resizeInProgress := true }, .resizes nr) where
  ok := ⟨h.table, h.next⟩
  held _ hn := hn
  maxFds := rfl
  flag := (Bool.or_true _).symm
  wants m hm := by
    rcases hm with hm | hm
    · cases hm
    · cases hm
      exact ⟨hw, hopen⟩
  resizes m hm := by
    cases hm
    exact ⟨hflag, hmax⟩
  taken := nofun

theorem SectionOk.allocFd (start stop flags : ℕ) :
    SectionOk files (.allocFd start stop flags) (allocFd files start stop flags) := by
  have hleast := isLeast_firstFd h start
  rcases allocFd_cases files start stop flags rfl with
    ⟨-, heq⟩ | ⟨hstop, -, hopen, heq⟩ | ⟨hstop, hmax, hopen, hflag, heq⟩ | ⟨-, hmax, heq⟩
  · rw [heq]
    exact SectionOk.returned h.keeps nofun
  · rw [heq]
    exact SectionOk.unchanged h ⟨hleast.1.1, hstop⟩ hopen
  · rw [heq]
    exact SectionOk.resize h ⟨hleast.1.1, hstop⟩ hflag hmax hopen
  · rw [heq]
    obtain ⟨hkeeps, hheld⟩ := Keeps.takeFd h flags hmax
    refine SectionOk.returned hkeeps ?_
    rintro _ _ _ ⟨⟩ _ ⟨⟩
    exact ⟨hheld, fun hn => hn.not_free hleast.1.2⟩

/-- **`alloc_fd` returns the least descriptor that is free.** -/
theorem allocFd_result {start stop flags : ℕ}
    (hr : (allocFd files start stop flags).2 = .returns r) : AllocResult files start stop r := by
  have hleast := isLeast_firstFd h start
  rcases allocFd_cases files start stop flags rfl with
    ⟨hnone, heq⟩ | ⟨-, -, -, heq⟩ | ⟨-, -, -, -, heq⟩ | ⟨hstop, -, heq⟩
  · rw [heq] at hr
    cases hr
    exact ⟨rfl, fun n hn hfree => hnone.imp (·.trans (hleast.2 ⟨hn, hfree⟩))
      (·.trans (hleast.2 ⟨hn, hfree⟩))⟩
  · rw [heq] at hr
    cases hr
  · rw [heq] at hr
    cases hr
  · rw [heq] at hr
    cases hr
    exact ⟨hleast, hstop⟩

theorem SectionOk.enter (call : FdCall) : SectionOk files call (call.enter files) := by
  cases call with
  | allocFd start stop flags => exact SectionOk.allocFd h start stop flags
  | dup3 oldfd newfd flags =>
    simp only [FdCall.enter, expandFiles]
    by_cases hmax : newfd < files.fdt.maxFds
    · simp only [if_pos hmax]
      exact SectionOk.returned (Keeps.dupExpanded h oldfd flags _ fun _ => hmax) nofun
    · simp only [if_neg hmax]
      by_cases hopen : sysctlNrOpen ≤ newfd
      · simp only [if_pos hopen]
        exact SectionOk.returned (Keeps.dupExpanded h oldfd flags (.error .EMFILE) nofun)
          nofun
      · simp only [if_neg hopen]
        cases hflag : files.resizeInProgress with
        | true => exact SectionOk.unchanged h rfl (not_le.1 hopen)
        | false => exact SectionOk.resize h rfl hflag (not_lt.1 hmax) (not_le.1 hopen)

/-- A call that goes on with a table that is large enough. -/
theorem SectionOk.resume (hw : call.Wants nr) (hnr : nr < files.fdt.maxFds) :
    SectionOk files call (call.resume files (.ok ())) := by
  cases call with
  | allocFd start stop flags => exact SectionOk.allocFd h start stop flags
  | dup3 oldfd newfd flags =>
    obtain rfl : nr = newfd := hw
    exact SectionOk.returned (Keeps.dupExpanded h oldfd flags _ fun _ => hnr) nofun

/-- A call that has failed to get a larger table. -/
theorem SectionOk.failed (call : FdCall) (e : Errno) :
    SectionOk files call (call.resume files (.error e)) := by
  cases call with
  | allocFd => exact SectionOk.returned h.keeps nofun
  | dup3 oldfd newfd flags =>
    exact SectionOk.returned (Keeps.dupExpanded h oldfd flags (.error e) nofun) nofun

/-- A call returns once the table has been enlarged for it. -/
theorem resume_returns (hw : call.Wants nr) (hnr : nr < files.fdt.maxFds) (hfree : files.Free nr) :
    ∃ r, (call.resume files (.ok ())).2 = .returns r := by
  cases call with
  | allocFd start stop flags =>
    have hle : firstFd files start ≤ nr := (isLeast_firstFd h start).2 ⟨hw.1, hfree⟩
    rcases allocFd_cases files start stop flags rfl with
      ⟨-, heq⟩ | ⟨-, hmax, -⟩ | ⟨-, hmax, -⟩ | ⟨-, -, heq⟩
    · exact ⟨_, congrArg Prod.snd heq⟩
    · exact absurd hmax (by omega)
    · exact absurd hmax (by omega)
    · exact ⟨_, congrArg Prod.snd heq⟩
  | dup3 oldfd newfd flags => exact ⟨_, rfl⟩

end

end Sections

/-! ### Tasks -/

/-- The descriptor in which the task is installing a file. -/
def FdPc.pending : FdPc F → Option ℕ
  | .install fd _ | .installRcu fd _ | .installStore _ fd _ | .installLocked fd _ => some fd
  | _ => none

variable {T : Type*} {s s' : FdState T F} {t : T} {p q : FdPc F}

/-- The descriptor is taken and waits for a file, or to be given back. -/
def FdState.Owned (s : FdState T F) (n : ℕ) : Prop :=
  s.reserved n ∨ ∃ t, (s.pc t).pending = some n

/-- The invariant of the tasks that share a table. -/
structure FdOk (s : FdState T F) : Prop where
  files : FilesOk s.files
  flag : s.files.resizeInProgress ↔ ∃ t, (s.pc t).isResizing
  unique : ∀ t u, (s.pc t).isResizing → (s.pc u).isResizing → t = u
  room : ∀ t nr call, s.pc t = .resizing nr call →
    s.files.fdt.maxFds ≤ nr ∧ nr < sysctlNrOpen ∧ call.Wants nr
  wants : ∀ t nr call, s.pc t = .waiting nr call → call.Wants nr ∧ nr < sysctlNrOpen
  store : ∀ t table fd file, s.pc t = .installStore table fd file → table = s.table
  reserved : ∀ n, s.reserved n → s.files.Held n
  pending : ∀ t n, (s.pc t).pending = some n → s.files.Held n ∧ s.reserved n = false
  distinct : ∀ t u n, (s.pc t).pending = some n → (s.pc u).pending = some n → t = u
  noBug : ∀ t, (s.pc t) ≠ .bug

namespace FdOk

theorem init : FdOk (fdInit : FdState T F) where
  files := .init
  flag := iff_of_false nofun fun ⟨_, h⟩ => by cases h
  unique := nofun
  room := nofun
  wants := nofun
  store := nofun
  reserved := nofun
  pending := nofun
  distinct := nofun
  noBug := nofun

/-- When `t` alone moves, and comes to have what at most one task may have only if no other task
has it, at most one task still has it. -/
theorem eq_of_moved {P Q : T → Prop} (hP : ∀ u v, P u → P v → u = v)
    (hother : ∀ u, u ≠ t → Q u → P u) (hself : ∀ u, u ≠ t → P u → ¬ Q t) (u v : T) (hu : Q u)
    (hv : Q v) : u = v := by
  by_cases eu : u = t <;> by_cases ev : v = t
  · rw [eu, ev]
  · exact absurd (eu ▸ hu) (hself v ev (hother v ev hv))
  · exact absurd (ev ▸ hv) (hself u eu (hother u eu hu))
  · exact hP u v (hother u eu hu) (hother v ev hv)

/-- A step of `t`. -/
theorem of_step (h : FdOk s) (hpc : ∀ u, u ≠ t → s'.pc u = s.pc u) (hself : s'.pc t = q)
    (hfiles : FilesOk s'.files) (hheld : ∀ n, s'.Owned n → s.files.Held n → s'.files.Held n)
    (hmax : s'.files.fdt.maxFds = s.files.fdt.maxFds ∨ (s.pc t).isResizing)
    (htable : s'.table = s.table ∨ ∀ u, (s.pc u).inRcu = false)
    (hflag : s'.files.resizeInProgress =
      (q.isResizing || (s.files.resizeInProgress && !(s.pc t).isResizing)))
    (hstart : q.isResizing → (s.pc t).isResizing ∨ s.files.resizeInProgress = false)
    (hroom : ∀ nr call, q = .resizing nr call →
      s'.files.fdt.maxFds ≤ nr ∧ nr < sysctlNrOpen ∧ call.Wants nr)
    (hwants : ∀ nr call, q = .waiting nr call → call.Wants nr ∧ nr < sysctlNrOpen)
    (hstore : ∀ table fd file, q = .installStore table fd file → table = s'.table)
    (hreserved : ∀ n, s'.reserved n → s.reserved n ∨ s'.files.Held n ∧ ¬ s.files.Held n)
    (hpending : ∀ n, q.pending = some n →
      ((s.pc t).pending = some n ∨ s.reserved n) ∧ s'.reserved n = false)
    (hbug : q ≠ .bug) : FdOk s' := by
  subst hself
  have hold : ∀ u, u ≠ t → (s.pc u).isResizing → (s.pc t).isResizing = false ∧
      s.files.resizeInProgress = true := fun u hu hr =>
    ⟨eq_false_iff.2 fun ht => hu (h.unique u t hr ht), h.flag.2 ⟨u, hr⟩⟩
  constructor
  case files => exact hfiles
  case flag =>
    rw [hflag, or_eq_true, and_eq_true, not_eq_true']
    constructor
    · rintro (ht | ⟨hr, ht⟩)
      · exact ⟨t, ht⟩
      · obtain ⟨u, hu⟩ := h.flag.1 hr
        exact ⟨u, by rwa [hpc u (by rintro rfl; rw [hu] at ht; cases ht)]⟩
    · rintro ⟨u, hu⟩
      by_cases e : u = t
      · exact .inl (e ▸ hu)
      · rw [hpc u e] at hu
        exact .inr ⟨(hold u e hu).2, (hold u e hu).1⟩
  case unique =>
    refine eq_of_moved h.unique (fun u e hu => hpc u e ▸ hu) fun u e hu ht => ?_
    rcases hstart ht with hs | hs
    · rw [(hold u e hu).1] at hs
      cases hs
    · rw [(hold u e hu).2] at hs
      cases hs
  case room =>
    intro u nr call hu
    by_cases e : u = t
    · exact hroom nr call (e ▸ hu)
    · rw [hpc u e] at hu
      rw [hmax.resolve_right fun ht => e (h.unique u t (by rw [hu]; rfl) ht)]
      exact h.room u nr call hu
  case wants =>
    intro u nr call hu
    by_cases e : u = t
    · exact hwants nr call (e ▸ hu)
    · rw [hpc u e] at hu
      exact h.wants u nr call hu
  case store =>
    intro u table fd file hu
    by_cases e : u = t
    · exact hstore table fd file (e ▸ hu)
    · rw [hpc u e] at hu
      rw [htable.resolve_right fun hn => absurd (hn u) (by rw [hu]; nofun)]
      exact h.store u table fd file hu
  case reserved =>
    intro n hn
    rcases hreserved n hn with ho | ho
    · exact hheld n (.inl hn) (h.reserved n ho)
    · exact ho.1
  case pending =>
    intro u n hu
    by_cases e : u = t
    · subst e
      obtain ⟨ho, hr⟩ := hpending n hu
      refine ⟨hheld n (.inr ⟨u, hu⟩) ?_, hr⟩
      rcases ho with ho | ho
      · exact (h.pending u n ho).1
      · exact h.reserved n ho
    · have hu' := hu
      rw [hpc u e] at hu'
      obtain ⟨ho, hr⟩ := h.pending u n hu'
      refine ⟨hheld n (.inr ⟨u, hu⟩) ho, eq_false_iff.2 fun hn => ?_⟩
      rcases hreserved n hn with hn | hn
      · rw [hr] at hn
        cases hn
      · exact hn.2 ho
  case distinct =>
    intro u v n
    refine eq_of_moved (fun u v => h.distinct u v n) (fun u e hu => hpc u e ▸ hu)
      (fun u e hu ht => ?_) u v
    rcases (hpending n ht).1 with ho | ho
    · exact e (h.distinct u t n hu ho)
    · rw [(h.pending u n hu).2] at ho
      cases ho
  case noBug =>
    intro u
    by_cases e : u = t
    · exact e ▸ hbug
    · rw [hpc u e]
      exact h.noBug u

/-- The structure changes and no task moves. -/
theorem of_files (h : FdOk s) {reserved' : ℕ → Bool} (hfiles : FilesOk files')
    (hheld : ∀ n, FdState.Owned { s with files := files', reserved := reserved' } n →
      s.files.Held n → files'.Held n) (hmax : files'.fdt.maxFds = s.files.fdt.maxFds)
    (hflag : files'.resizeInProgress = s.files.resizeInProgress)
    (hreserved : ∀ n, reserved' n → s.reserved n) :
    FdOk { s with files := files', reserved := reserved' } where
  __ := h
  files := hfiles
  flag := hflag ▸ h.flag
  room u nr call hu := hmax ▸ h.room u nr call hu
  reserved n hn := hheld n (.inl hn) (h.reserved n (hreserved n hn))
  pending u n hu := by
    obtain ⟨ho, hr⟩ := h.pending u n hu
    exact ⟨hheld n (.inr ⟨u, hu⟩) ho, eq_false_iff.2 fun hn => by
      rw [hreserved n hn] at hr
      cases hr⟩

theorem putUnusedFd (h : FdOk s) (hfd : s.reserved fd) :
    FdOk { s with
      files := Fs.putUnusedFd s.files fd, reserved := update s.reserved fd false } := by
  refine h.of_files (h.files.putUnusedFd (h.reserved fd hfd).2.2) (fun n hn hheld => ?_) rfl rfl
    fun n hn => ?_
  · refine hheld.putUnusedFd ?_
    rintro rfl
    rcases hn with hn | ⟨u, hu⟩
    · simp at hn
    · rw [(h.pending u n hu).2] at hfd
      cases hfd
  · by_cases e : n = fd
    · rwa [e]
    · simpa [e] using hn

theorem of_keeps (h : FdOk s) (hk : Keeps s.files files') : FdOk { s with files := files' } :=
  h.of_files hk.ok (fun n _ hn => hk.held n hn) hk.maxFds hk.flag fun _ hn => hn

theorem isResizing_of_outside (hp : p.outside) : p.isResizing = false := by
  cases p <;> first | rfl | cases hp

variable [DecidableEq T]

theorem goto_self (p : FdPc F) : (s.goto t p).pc t = p := by simp [goto]

theorem goto_of_ne {u : T} (hu : u ≠ t) : (s.goto t p).pc u = s.pc u := by
  simp [goto, hu]

section

variable (h : FdOk s)
include h

/-- The end of a section. -/
theorem finish {done : Files F × Ending} (hdone : SectionOk s.files call done)
    (hp : s.pc t = p) (hr : p.isResizing = false) : FdOk (s.finish t call done) := by
  obtain ⟨files', e⟩ := done
  refine h.of_step (fun u hu => goto_of_ne hu) (goto_self (e.pc call)) hdone.ok
    (fun n _ hn => hdone.held n hn) (.inl hdone.maxFds) (.inl rfl) ?_ ?_ ?_ ?_ ?_ ?_ ?_ ?_
  · rw [hp, hr]
    show files'.resizeInProgress = _
    rw [hdone.flag]
    cases e <;> simp [Ending.pc, FdPc.isResizing]
  · intro hres
    cases e with
    | resizes nr => exact .inr (hdone.resizes nr rfl).1
    | returns | waits => cases hres
  · intro nr call' hres
    cases e with
    | resizes n =>
      cases hres
      obtain ⟨hw, hopen⟩ := hdone.wants nr (.inr rfl)
      exact ⟨hdone.maxFds ▸ (hdone.resizes nr rfl).2, hopen, hw⟩
    | returns | waits => cases hres
  · intro nr call' hwait
    cases e with
    | waits n =>
      cases hwait
      exact hdone.wants nr (.inl rfl)
    | returns | resizes => cases hwait
  · intro table fd file hstore
    cases e <;> cases hstore
  · intro n hn
    change reserve s.reserved call e n at hn
    cases call with
    | dup3 => exact .inl hn
    | allocFd start stop flags =>
      cases e with
      | waits | resizes => exact .inl hn
      | returns r =>
        cases r with
        | error => exact .inl hn
        | ok m =>
          by_cases e : n = m
          · subst e
            exact .inr (hdone.taken start stop flags rfl n rfl)
          · exact .inl (by simpa [reserve, e] using hn)
  · intro n hn
    cases e <;> cases hn
  · cases e <;> nofun

/-- A task moves to a place that has nothing to do with the table. -/
theorem goto (hp : s.pc t = p) (hr : p.isResizing = false)
    (hq : q.isResizing = false) (hpending : ∀ n, q.pending = some n → p.pending = some n)
    (hwants : ∀ nr call, q ≠ .waiting nr call)
    (hstore : ∀ table fd file, q = .installStore table fd file → table = s.table)
    (hbug : q ≠ .bug) : FdOk (s.goto t q) := by
  subst hp
  refine h.of_step (fun u hu => goto_of_ne hu) (goto_self q) h.files (fun n _ hn => hn) (.inl rfl)
    (.inl rfl) ?_ ?_ ?_ (fun nr call e => absurd e (hwants nr call)) hstore (fun n hn => .inl hn)
    (fun n hn => ⟨.inl (hpending n hn), (h.pending t n (hpending n hn)).2⟩) hbug
  · rw [hr, hq]
    simp [FdState.goto]
  · rw [hq]
    nofun
  · rintro nr call rfl
    cases hq

/-- The file is written. -/
theorem install (file : F) (hp : s.pc t = p) (hfd : p.pending = some fd)
    (hr : p.isResizing = false) : FdOk (s.install t s.table fd file) := by
  subst hp
  obtain ⟨hheld, hres⟩ := h.pending t fd hfd
  rw [FdState.install, if_neg (not_not.2 rfl)]
  simp only [hheld.2.2]
  set s₁ := { s with files := { s.files with fdt := setFd s.files.fdt fd (some file) } }.goto t
    .idle with hs₁
  have hself : s₁.pc t = .idle := goto_self _
  refine h.of_step (fun u hu => goto_of_ne hu) hself ⟨h.files.table.setFd fun _ => hheld.2.1,
    h.files.next⟩ (fun n hn hn' => ?_) (.inl rfl) (.inl rfl) ?_ nofun nofun nofun nofun
    (fun n hn => .inl hn) nofun nofun
  · -- what anybody still has is another descriptor
    have hne : n ≠ fd := by
      rintro rfl
      rcases hn with hn | ⟨u, hu⟩
      · rw [show s₁.reserved n = s.reserved n from rfl, hres] at hn
        cases hn
      · by_cases e : u = t
        · rw [e, hself] at hu
          cases hu
        · rw [show s₁.pc u = s.pc u from goto_of_ne e] at hu
          exact e (h.distinct u t n hu hfd)
    exact ⟨hn'.1, hn'.2.1, (update_of_ne hne _ _).trans hn'.2.2⟩
  · rw [hr]
    simp [hs₁, FdState.goto, FdPc.isResizing]

/-- A task has waited for another one to resize the table. -/
theorem waiting (hp : s.pc t = .waiting nr call) (hs : s.step t mem = some s') : FdOk s' := by
  obtain ⟨hw, hopen⟩ := h.wants t nr call hp
  simp only [step, hp] at hs
  split at hs
  · cases hs
  · rename_i hflag
    have hflag : s.files.resizeInProgress = false := by simpa using hflag
    simp only [expandFiles, hflag, false_eq_true, if_false] at hs
    by_cases hmax : nr < s.files.fdt.maxFds
    · simp only [if_pos hmax, Option.some.injEq] at hs
      subst hs
      exact h.finish (SectionOk.resume h.files hw hmax) hp rfl
    · simp only [if_neg hmax, if_neg (not_le.2 hopen), Option.some.injEq] at hs
      subst hs
      have hok := h.finish (SectionOk.resize h.files hw hflag (not_lt.1 hmax) hopen) hp rfl
      cases call <;> exact hok

/-- The table has been resized: the task is as if it entered again. -/
theorem resized (hp : s.pc t = .resizing nr call) (files' : Files F) (table' : ℕ)
    (hfiles : FilesOk files') (hheld : ∀ n, s.files.Held n → files'.Held n)
    (hflag : files'.resizeInProgress = false)
    (htable : table' = s.table ∨ ∀ u, (s.pc u).inRcu = false) :
    FdOk ({ s with files := files', table := table' }.goto t (.enter call)) := by
  have hr : (s.pc t).isResizing := by
    rw [hp]
    rfl
  refine h.of_step (fun u hu => goto_of_ne hu) (goto_self _) hfiles (fun n _ hn => hheld n hn)
    (.inr hr) htable ?_ nofun nofun nofun nofun (fun n hn => .inl hn) nofun nofun
  rw [hr]
  simpa [FdState.goto, FdPc.isResizing] using hflag

end

theorem finish_goto (s : FdState T F) (p : FdPc F) (call : FdCall) (done : Files F × Ending) :
    (s.goto t p).finish t call done = s.finish t call done := by
  simp [FdState.finish, FdState.goto]

/-- What a task does that has allocated a table, or has failed to. -/
theorem step_resizing (h : FdOk s) (hp : s.pc t = .resizing nr call) (hs : s.step t mem = some s') :
    (mem = none ∧ s' = s.finish t call
      (call.resume { s.files with resizeInProgress := false } (.error .ENOMEM))) ∨
    ∃ fdt, s' = { s with table := s.table + 1 }.finish t call
        (call.resume { s.files with fdt := fdt, resizeInProgress := false } (.ok ())) ∧
      nr < fdt.maxFds ∧ TableOk fdt ∧ Extends fdt s.files.fdt := by
  obtain ⟨hmax, hopen, -⟩ := h.room t nr call hp
  simp only [step, hp] at hs
  rcases expandFdtable_spec h.files hmax hopen mem with ⟨rfl, heq⟩ | ⟨fdt, heq, hroom, hfdt, hext⟩
  · rw [heq] at hs
    cases hs
    exact .inl ⟨rfl, rfl⟩
  · rw [heq] at hs
    cases hs
    exact .inr ⟨fdt, rfl, hroom, hfdt, hext⟩

theorem resizing (h : FdOk s) (hp : s.pc t = .resizing nr call) (hrcu : ∀ u, (s.pc u).inRcu = false)
    (hs : s.step t mem = some s') : FdOk s' := by
  obtain ⟨hmax, hopen, hw⟩ := h.room t nr call hp
  rcases h.step_resizing hp hs with ⟨-, rfl⟩ | ⟨fdt, rfl, hroom, hfdt, hext⟩
  · have hok := h.resized hp { s.files with resizeInProgress := false } s.table
      ⟨h.files.table, h.files.next⟩ (fun n hn => hn) rfl (.inl rfl)
    have hfail := hok.finish (SectionOk.failed hok.files call .ENOMEM) (goto_self _) rfl
    rwa [finish_goto] at hfail
  · have hok := h.resized hp _ (s.table + 1) (hext.filesOk h.files hfdt)
      (fun n hn => hext.held hn) rfl (.inr hrcu)
    have hdone := hok.finish (SectionOk.resume hok.files hw hroom) (goto_self _) rfl
    rwa [finish_goto] at hdone

/-- **Every step keeps the invariant.** -/
theorem step (h : FdOk s) (hrcu : (s.pc t).isResizing → ∀ u, (s.pc u).inRcu = false)
    (hs : s.step t mem = some s') : FdOk s' := by
  have hstep := hs
  rw [FdState.step] at hs
  generalize hp : s.pc t = p at hs
  cases p <;> dsimp only at hs
  case idle | returned | bug => cases hs
  case enter call =>
    cases hs
    exact h.finish (SectionOk.enter h.files call) hp rfl
  case waiting nr call => exact h.waiting hp hstep
  case resizing nr call => exact h.resizing hp (hrcu (by rw [hp]; rfl)) hstep
  case install fd file =>
    cases hs
    split <;> exact h.goto hp rfl rfl (fun n hn => hn) nofun nofun nofun
  case installRcu fd file =>
    cases hs
    refine h.goto hp rfl rfl (fun n hn => hn) nofun ?_ nofun
    rintro _ _ _ ⟨⟩
    rfl
  case installStore table fd file =>
    cases hs
    rw [h.store t table fd file hp]
    exact h.install file hp rfl rfl
  case installLocked fd file =>
    cases hs
    exact h.install file hp rfl rfl

theorem fdInstall (h : FdOk s) (file : F) (ht : (s.pc t).outside) (hfd : s.reserved fd) :
    FdOk ({ s with reserved := update s.reserved fd false }.goto t
      (.install fd file)) := by
  set s₁ := { s with reserved := update s.reserved fd false }.goto t (.install fd file)
  refine h.of_step (fun u hu => goto_of_ne hu) (goto_self _) h.files (fun n _ hn => hn) (.inl rfl)
    (.inl rfl) ?_ nofun nofun nofun nofun (fun n hn => .inl ?_) ?_ nofun
  · rw [isResizing_of_outside ht]
    simp [s₁, FdState.goto, FdPc.isResizing]
  · by_cases e : n = fd
    · rwa [e]
    · simpa [s₁, FdState.goto, e] using hn
  · rintro n ⟨⟩
    exact ⟨.inr hfd, by simp [s₁, FdState.goto]⟩

end FdOk

variable [DecidableEq T]

theorem fdOk_of_fdStep {op : FdOp T F} (hs : FdStep s op s') (h : FdOk s) : FdOk s' := by
  cases hs with
  | allocFd ht =>
    exact h.goto rfl (FdOk.isResizing_of_outside ht) rfl nofun nofun nofun nofun
  | dup3 ht =>
    have hr := FdOk.isResizing_of_outside ht
    simp only [ksysDup3]
    split_ifs <;> exact h.goto rfl hr rfl nofun nofun nofun nofun
  | dup2 ht =>
    have hr := FdOk.isResizing_of_outside ht
    simp only [Fs.dup2, ksysDup3]
    split_ifs <;> exact h.goto rfl hr rfl nofun nofun nofun nofun
  | fdInstall ht hfd => exact h.fdInstall _ ht hfd
  | putUnusedFd _ hfd => exact h.putUnusedFd hfd
  | closeFd => exact h.of_keeps (Keeps.pickFile h.files)
  | doCloseOnExec => exact h.of_keeps (Keeps.closeWords _ h.files)
  | step hrcu hs => exact h.step hrcu hs

theorem finish_returned {call' : FdCall} {done : Files F × Ending}
    (h : (s.finish t call done).pc t = .returned call' r) : call' = call ∧ done.2 = .returns r := by
  rw [show (s.finish t call done).pc t = done.2.pc call from FdOk.goto_self _] at h
  cases hend : done.2 <;> rw [hend] at h <;> cases h
  exact ⟨rfl, rfl⟩

theorem AllocResult.of_extends {files : Files F} (h : Extends fdt files.fdt) {start stop : ℕ}
    (hr : AllocResult { files with fdt := fdt, resizeInProgress := false } start stop r) :
    AllocResult files start stop r := by
  cases r with
  | ok n | error e => simpa only [AllocResult, h.free_iff] using hr

/-- What `alloc_fd` has found when it returns. -/
theorem FdOk.allocResult (h : FdOk s) {start stop flags : ℕ} (hs : s.step t mem = some s')
    (hr : s'.pc t = .returned (.allocFd start stop flags) r) :
    AllocResult s.files start stop r ∨ r = .error .ENOMEM ∧ mem = none ∧
      ∃ nr, s.pc t = .resizing nr (.allocFd start stop flags) := by
  have hstep := hs
  rw [FdState.step] at hs
  generalize hp : s.pc t = p at hs
  cases p <;> dsimp only at hs
  case idle | returned | bug => cases hs
  case install | installRcu =>
    cases hs
    rw [FdOk.goto_self] at hr
    repeat' split at hr
    all_goals cases hr
  case installStore | installLocked =>
    cases hs
    rw [FdState.install] at hr
    split at hr
    · rw [FdOk.goto_self] at hr
      cases hr
    · split at hr <;> rw [FdOk.goto_self] at hr <;> cases hr
  case enter call =>
    cases hs
    obtain ⟨rfl, hr⟩ := finish_returned hr
    exact .inl (allocFd_result h.files hr)
  case waiting nr call =>
    obtain ⟨-, hopen⟩ := h.wants t nr call hp
    split at hs
    · cases hs
    · split at hs
      · cases hs
        obtain ⟨rfl, hr⟩ := finish_returned hr
        exact .inl (allocFd_result h.files hr)
      · -- the limit has been checked before the task waited
        rename_i hfail
        simp only [expandFiles, if_neg (not_le.2 hopen)] at hfail
        split at hfail <;> cases hfail
      all_goals
        cases hs
        rw [FdOk.goto_self] at hr
        cases hr
  case resizing nr call =>
    rcases h.step_resizing hp hstep with ⟨rfl, rfl⟩ | ⟨fdt, rfl, -, hfdt, hext⟩
    · obtain ⟨rfl, hr⟩ := finish_returned hr
      cases hr
      exact .inr ⟨rfl, rfl, nr, rfl⟩
    · obtain ⟨rfl, hr⟩ := finish_returned hr
      exact .inl ((allocFd_result (hext.filesOk h.files hfdt) hr).of_extends hext)

section Runs

variable {ops : List (FdOp T F)}

/-- **The descriptor table in every run.** In every state that is reached a bit of `full_fds_bits`
is set exactly when its word of `open_fds` is full, every descriptor with a file is taken, no
descriptor below `next_fd` is free and no task has run into a `BUG_ON`. A larger table has room for
the descriptor that was asked for and shows the old entries and bits. When `alloc_fd` returns, it
returns the least free descriptor from `start` on, or `EMFILE` if there is none below the limits;
or there was no memory for a larger table. A task that has got its larger table returns. -/
theorem fdtable_run (h : Run FdStep (fdInit : FdState T F) ops s) :
    (∀ i < s.files.fdt.maxFds / bitsPerLong, s.files.fdt.fullFdsBits i ↔
      ∀ j < bitsPerLong, s.files.fdt.openFds (i * bitsPerLong + j)) ∧
    (∀ n < s.files.fdt.maxFds, s.files.fdt.fd n ≠ none → s.files.fdt.openFds n) ∧
    (∀ n, s.files.Free n → s.files.nextFd ≤ n) ∧
    (∀ t, s.pc t ≠ .bug) ∧
    (∀ nr mem, s.files.fdt.maxFds ≤ nr → nr < sysctlNrOpen →
      ∃ fdt, expandFdtable s.files nr (some mem) =
          .ok ({ s.files with fdt := fdt, resizeInProgress := false }, .ok ()) ∧
        nr < fdt.maxFds ∧ Extends fdt s.files.fdt) ∧
    (∀ t mem s' start stop flags r, FdStep s (.step t mem) s' →
      s'.pc t = .returned (.allocFd start stop flags) r →
      AllocResult s.files start stop r ∨ r = .error .ENOMEM ∧ mem = none ∧
        ∃ nr, s.pc t = .resizing nr (.allocFd start stop flags)) ∧
    (∀ t nr call mem s', s.pc t = .resizing nr call → FdStep s (.step t (some mem)) s' →
      ∃ r, s'.pc t = .returned call r) := by
  have hok := h.invariant (fun _ _ _ hi hs => fdOk_of_fdStep hs hi) FdOk.init
  refine ⟨hok.files.table.full, hok.files.table.isOpen,
    fun n hn => not_lt.1 fun hlt => hok.files.next n hlt hn, hok.noBug,
    fun nr mem hmax hopen => ?_, fun t mem s' start stop flags r hs hr => ?_,
    fun t nr call mem s' hp hs => ?_⟩
  · rcases expandFdtable_spec hok.files hmax hopen (some mem) with
      ⟨hn, -⟩ | ⟨fdt, heq, hroom, -, hext⟩
    · cases hn
    · exact ⟨fdt, heq, hroom, hext⟩
  · cases hs with
    | step _ hs => exact hok.allocResult hs hr
  · cases hs with
    | step _ hs =>
      obtain ⟨hmax, -, hw⟩ := hok.room t nr call hp
      rcases hok.step_resizing hp hs with ⟨hn, -⟩ | ⟨fdt, rfl, hroom, hfdt, hext⟩
      · cases hn
      · have hfree : s.files.Free nr := fun hn => absurd hn.1 (not_lt.2 hmax)
        obtain ⟨r, hr⟩ := resume_returns (hext.filesOk hok.files hfdt) hw hroom
          (hext.free_iff.2 hfree)
        refine ⟨r, ?_⟩
        rw [show (finish _ t call _).pc t = Ending.pc call _ from FdOk.goto_self _, hr]
        rfl

end Runs

/-- Without memory for a larger table `alloc_fd` fails although there is a free descriptor below
the limits. -/
theorem allocFd_noMemory :
    ∃ s s' : FdState Bool Unit, Run FdStep fdInit [.allocFd false 32 1024 0, .step false none] s ∧
      FdStep s (.step false none) s' ∧ s.files.Free 32 ∧
      s'.pc false = .returned (.allocFd 32 1024 0) (.error .ENOMEM) :=
  ⟨_, _, .cons (.allocFd rfl) (.cons (.step nofun rfl) .nil),
    .step (fun _ u => by cases u <;> rfl) rfl, fun h => absurd h.1 (by decide), rfl⟩

/-- Asking for a descriptor beyond the first table. -/
theorem fdtable_run_resizing :
    ∃ s : FdState Bool Unit, Run FdStep fdInit [.allocFd false 32 1024 0, .step false none] s ∧
      s.pc false = .resizing 32 (.allocFd 32 1024 0) ∧
      ∀ mem s', FdStep s (.step false (some mem)) s' →
        ∃ r, s'.pc false = .returned (.allocFd 32 1024 0) r := by
  have hrun : ∃ s : FdState Bool Unit,
      Run FdStep fdInit [.allocFd false 32 1024 0, .step false none] s ∧
      s.pc false = .resizing 32 (.allocFd 32 1024 0) :=
    ⟨_, .cons (.allocFd rfl) (.cons (.step nofun rfl) .nil), rfl⟩
  obtain ⟨s, hrun, hp⟩ := hrun
  exact ⟨s, hrun, hp, fun mem s' hs => (fdtable_run hrun).2.2.2.2.2.2 false 32 _ mem s' hp hs⟩

end MinimalKernel.Fs
