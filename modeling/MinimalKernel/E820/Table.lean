import Mathlib.Data.List.Basic
import MinimalKernel.Basic

/-!
# The e820 memory map

The firmware's memory map is an array of 64-bit ranges, each with a type. Their ends are computed as
`u64`, so that an entry which reaches the end of the address space ends at a small number, and page
frames are cut to an `unsigned long`; nothing in the functions below notices either. What a table
means is said with ends that do not wrap (`Entry.past`), and the results say for which tables the
functions compute that.

## Main definitions

* `endPfn` — `e820_end_pfn`

## Main results

* `endPfn_eq_described_iff` — when the end of memory that is found is the one the table describes
-/

namespace MinimalKernel.E820

/-- The number of values of a `u64`. -/
def u64 : ℕ := 2 ^ 64

/-- `struct e820_entry`; the type is any number that the firmware reports. -/
structure Entry where
  addr : ℕ
  size : ℕ
  type : ℕ
deriving DecidableEq, Repr

/-- `E820_MAX_ENTRIES`, with one memory node. -/
def maxEntries : ℕ := 128 + 3

/-- `MAX_ARCH_PFN`, the frame at 4 GiB. -/
def maxArchPfn : ℕ := 2 ^ (32 - 12)

namespace Entry

variable (e : Entry)

/-- The address past an entry, as a number. -/
def past : ℕ := e.addr + e.size

/-- `addr + size`. -/
def stop : ℕ := e.past % u64

/-- `addr >> PAGE_SHIFT`, as an `unsigned long`. -/
def startPfn : ℕ := e.addr / pageSize % wordSize

/-- `(addr + size) >> PAGE_SHIFT`, as an `unsigned long`. -/
def endPfn : ℕ := e.stop / pageSize % wordSize

variable {e}

/-- Below 16 TiB the frames are the ones that the numbers give. -/
theorem pfn_eq (h : e.past < wordSize * pageSize) :
    e.startPfn = e.addr / pageSize ∧ e.endPfn = e.past / pageSize := by
  simp only [startPfn, endPfn, stop, past, wordSize, pageSize, u64] at h ⊢
  omega

end Entry

/-! ### The end of memory -/

/-- The loop of `e820_end_pfn`. -/
def endPfnLoop (limit type : ℕ) : List Entry → ℕ → ℕ
  | [], last => last
  | e :: rest, last =>
    if e.type ≠ type then endPfnLoop limit type rest last
    else if limit ≤ e.startPfn then endPfnLoop limit type rest last
    else if limit < e.endPfn then limit
    else if last < e.endPfn then endPfnLoop limit type rest e.endPfn
    else endPfnLoop limit type rest last

variable (t : List Entry) (limit type : ℕ)

/-- `e820_end_pfn`. -/
def endPfn : ℕ :=
  let last := endPfnLoop limit type t 0
  if maxArchPfn < last then maxArchPfn else last

/-- The end of memory that a table describes: the last page frame at which an entry of the type
ends, among those that begin below the limit; none is 0. -/
def described : ℕ :=
  let ends := (t.filter fun e => e.type = type ∧ e.addr / pageSize < limit).map
    fun e => e.past / pageSize
  min (min limit maxArchPfn) (ends.foldr max 0)

/-- The entries whose frames are cut do no harm. One that begins below the limit reaches it, so some
entry has to reach it with its frames as they are cut; one that begins above it must not be taken
for memory that no entry describes. -/
def CutHarmless : Prop :=
  ∀ e ∈ t, e.type = type → wordSize * pageSize ≤ e.past →
    if e.addr / pageSize < limit then
      ∃ e' ∈ t, e'.type = type ∧ e'.startPfn < limit ∧ min limit maxArchPfn ≤ e'.endPfn
    else e.startPfn < limit → e.endPfn ≠ 0 →
      ∃ e' ∈ t, e'.type = type ∧ e'.addr / pageSize < limit ∧
        min (min limit maxArchPfn) e.endPfn ≤ e'.past / pageSize

theorem le_endPfnLoop_iff (limit type n : ℕ) (t : List Entry) {last : ℕ} (hlast : last ≤ limit) :
    n ≤ endPfnLoop limit type t last ↔ n ≤ last ∨ n ≤ limit ∧
      ∃ e ∈ t, e.type = type ∧ e.startPfn < limit ∧ n ≤ e.endPfn := by
  induction t generalizing last with
  | nil => simp [endPfnLoop]
  | cons e rest ih =>
    simp only [endPfnLoop, List.exists_mem_cons_iff, ne_eq, ite_not]
    split_ifs with htype hstart hend hmore
    · grind
    · -- the early exit: no entry counts for more than the limit
      refine ⟨fun h => .inr ⟨h, .inl ⟨htype, by omega, by omega⟩⟩, ?_⟩
      rintro (h | h) <;> omega
    · rw [ih (by omega)]
      grind
    · grind
    · grind

theorem le_endPfn_iff {n : ℕ} (hn : n ≠ 0) : n ≤ endPfn t limit type ↔ n ≤ min limit maxArchPfn ∧
      ∃ e ∈ t, e.type = type ∧ e.startPfn < limit ∧ n ≤ e.endPfn := by
  have hmin : endPfn t limit type = min maxArchPfn (endPfnLoop limit type t 0) := by
    simp only [endPfn]
    split_ifs <;> omega
  rw [hmin, le_min_iff, le_endPfnLoop_iff limit type n t (Nat.zero_le _)]
  grind

theorem le_described_iff {n : ℕ} (hn : n ≠ 0) :
    n ≤ described t limit type ↔ n ≤ min limit maxArchPfn ∧
      ∃ e ∈ t, e.type = type ∧ e.addr / pageSize < limit ∧ n ≤ e.past / pageSize := by
  have hsup : ∀ l : List ℕ, n ≤ l.foldr max 0 ↔ ∃ x ∈ l, n ≤ x := by
    intro l
    induction l with
    | nil => simp [hn]
    | cons x l ih => simp [ih]
  simp only [described, le_min_iff, hsup, List.mem_map, List.mem_filter, decide_eq_true_eq]
  grind

/-- **The end of memory.** `e820_end_pfn` finds the end that the table describes just when the
frames that are cut to 32 bits do no harm; a table that ends below 16 TiB has none. -/
theorem endPfn_eq_described_iff {limit : ℕ} (hlimit : limit < wordSize)
    (type : ℕ) : endPfn t limit type = described t limit type ↔ CutHarmless t limit type := by
  have hpage {e : Entry} (h : wordSize * pageSize ≤ e.past) : limit < e.past / pageSize :=
    hlimit.trans_le ((Nat.le_div_iff_mul_le (by decide)).2 h)
  have hmax : maxArchPfn ≠ 0 := by decide
  constructor
  · intro heq e he htype hpast
    split_ifs with hbelow
    · -- the entry reaches the limit, so the limit is described
      have hne : min limit maxArchPfn ≠ 0 := by have := Nat.zero_lt_of_lt hbelow; omega
      have h := (le_described_iff t limit type hne).2
        ⟨le_rfl, e, he, htype, hbelow, by have := hpage hpast; omega⟩
      exact ((le_endPfn_iff t limit type hne).1 (heq ▸ h)).2
    · intro hstart hend
      have hne : min (min limit maxArchPfn) e.endPfn ≠ 0 := by omega
      have h := (le_endPfn_iff t limit type hne).2 ⟨min_le_left _ _, e, he, htype, hstart, by omega⟩
      exact ((le_described_iff t limit type hne).1 (heq ▸ h)).2
  · intro h
    refine eq_of_forall_le_iff fun n => ?_
    rcases eq_or_ne n 0 with rfl | hn
    · simp
    rw [le_endPfn_iff t limit type hn, le_described_iff t limit type hn]
    refine and_congr_right fun hnlimit => ⟨?_, ?_⟩
    · rintro ⟨e, he, htype, hstart, hend⟩
      by_cases hpast : e.past < wordSize * pageSize
      · rw [(Entry.pfn_eq hpast).1] at hstart
        exact ⟨e, he, htype, hstart, (Entry.pfn_eq hpast).2 ▸ hend⟩
      have hcut := h e he htype (not_lt.1 hpast)
      split_ifs at hcut with hbelow
      · exact ⟨e, he, htype, hbelow, by have := hpage (not_lt.1 hpast); omega⟩
      · obtain ⟨e', he', htype', hbelow', hend'⟩ := hcut hstart (by omega)
        exact ⟨e', he', htype', hbelow', by omega⟩
    · rintro ⟨e, he, htype, hbelow, hend⟩
      by_cases hpast : e.past < wordSize * pageSize
      · exact ⟨e, he, htype, (Entry.pfn_eq hpast).1 ▸ hbelow, (Entry.pfn_eq hpast).2 ▸ hend⟩
      have hcut := h e he htype (not_lt.1 hpast)
      rw [if_pos hbelow] at hcut
      obtain ⟨e', he', htype', hstart', hend'⟩ := hcut
      exact ⟨e', he', htype', hstart', by omega⟩

theorem endPfn_low_memory : 0x100000 < wordSize ∧
    (endPfn [⟨0, 0x9f000, 1⟩] 0x100000 1 = described [⟨0, 0x9f000, 1⟩] 0x100000 1 ↔
      CutHarmless [⟨0, 0x9f000, 1⟩] 0x100000 1) :=
  ⟨by decide, endPfn_eq_described_iff _ (by decide) 1⟩

/-- A megabyte of memory at 16 TiB is reported as the first megabyte. -/
theorem endPfn_high_entry : let t : List Entry := [⟨2 ^ 44, 0x100000, 1⟩]
    endPfn t maxArchPfn 1 = 256 ∧ described t maxArchPfn 1 = 0 := by
  decide

end MinimalKernel.E820
