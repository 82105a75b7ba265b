import Mathlib.Order.CompletePartialOrder
import Mathlib.Data.Set.BooleanAlgebra
import MinimalKernel.Mm.MemblockFree

/-!
# Allocating from the free ranges

`memblock_alloc_range_nid` looks for an aligned address in a free range, from below or from above,
and reserves what it has found. Both searches find an address if there is one: a range is inside one
region of the memory that is not skipped, since neighbouring regions with different flags are not
put together.

From below, `round_up` of the beginning of a range can wrap to 0, and the search then gives up at
once. That is right, because the ranges ascend: behind the last multiple of `align` there is no
aligned address in any of them.

## Main definitions

* `Suitable` — an address that an allocation may return
* `allocRangeNid` — `memblock_alloc_range_nid`

## Main results

* `findInRange_spec` — the search finds a suitable address, if there is one
* `allocRangeNid_spec` — so does the allocation, which reserves the range
-/

namespace MinimalKernel.Mm

open Lib List MemRegion Option

namespace Memblock

variable {s s' : Memblock} {start stop size align k : ℕ} {n : ℕ}

/-! ### One free range -/

/-- The aligned range at `addr` lies in `[start, stop)` and in the free range `p`. -/
structure FitsAt (start stop size align : ℕ) (p : ℕ × ℕ) (addr : ℕ) : Prop where
  aligned : align ∣ addr
  range : start ≤ addr ∧ addr + size ≤ stop
  free : p.1 ≤ addr ∧ addr + size ≤ p.2

/-- The candidate of `__memblock_find_range_bottom_up` in a free range. -/
def candidateUp (start stop size align : ℕ) (p : ℕ × ℕ) : Option ℕ :=
  let lo := min (max p.1 start) stop
  let hi := min (max p.2 start) stop
  let cand := roundUp lo align
  if cand < hi ∧ size ≤ hi - cand then some cand else none

/-- The candidate of `__memblock_find_range_top_down` in a free range. -/
def candidateDown (start stop size align : ℕ) (p : ℕ × ℕ) : Option ℕ :=
  let lo := min (max p.1 start) stop
  let hi := min (max p.2 start) stop
  if hi < size then none
  else
    let cand := roundDown (hi - size) align
    if lo ≤ cand then some cand else none

theorem findRangeBottomUp_of_some {c c' : Cursor} {p : ℕ × ℕ}
    (h : s.nextMemRange (s.memory.cnt - c.a.toNat) c = some (c', p)) :
    s.findRangeBottomUp start stop size align (n + 1) c =
      (candidateUp start stop size align p).getD
        (s.findRangeBottomUp start stop size align n c') := by
  obtain ⟨lo, hi⟩ := p
  rw [findRangeBottomUp, h, candidateUp]
  dsimp only
  split_ifs with hfits
  · exact (getD_some ..).symm
  · exact (getD_none ..).symm

theorem findRangeTopDown_of_some {c c' : Cursor} {p : ℕ × ℕ}
    (h : s.nextMemRangeRev (c.a + 1).toNat c = some (c', p)) :
    s.findRangeTopDown start stop size align (n + 1) c =
      (candidateDown start stop size align p).getD
        (s.findRangeTopDown start stop size align n c') := by
  obtain ⟨lo, hi⟩ := p
  rw [findRangeTopDown, h, candidateDown]
  dsimp only
  split_ifs with hsmall hfits
  · exact (getD_none ..).symm
  · exact (getD_some ..).symm
  · exact (getD_none ..).symm

theorem getD_findSome?_cons (f : ℕ × ℕ → Option ℕ) (p : ℕ × ℕ) (l : List (ℕ × ℕ)) :
    ((p :: l).findSome? f).getD 0 = (f p).getD ((l.findSome? f).getD 0) := by
  rw [findSome?_cons]
  cases f p <;> rfl

/-- The search from below takes the first candidate. -/
theorem findRangeBottomUp_eq {a b : ℕ} (ha : a ≤ s.memory.cnt) (hb : b ≤ s.reserved.cnt + 1)
    {l : List (MemRegion × ℕ × ℕ)}
    (hrun : (upward shouldSkip).run n (s.memory.regions.drop a) (s.gaps.drop b) =
      some l) :
    s.findRangeBottomUp start stop size align n ⟨a, b⟩ =
      ((l.map meet).findSome? (candidateUp start stop size align)).getD 0 := by
  induction n generalizing a b l with
  | zero => cases hrun
  | succ n ih =>
    rw [Sweep.run] at hrun
    rcases nextRange_eq shouldSkip ha hb rfl with ⟨hnone, hnext⟩ |
      ⟨p, a', b', ha', hb', hsome, hnext⟩
    · rw [hnext] at hrun
      cases hrun
      rw [nextRange_shouldSkip] at hnone
      rw [findRangeBottomUp, Int.toNat_natCast, hnone]
      rfl
    · rw [hnext] at hrun
      obtain ⟨l', hl', rfl⟩ := map_eq_some_iff.1 hrun
      rw [nextRange_shouldSkip] at hsome
      rw [findRangeBottomUp_of_some hsome, map_cons, getD_findSome?_cons, ih ha' hb' hl']

/-- The search from above takes the first candidate as well, with the ranges in reverse. -/
theorem findRangeTopDown_eq (start stop size align : ℕ) {i j : ℕ}
    (hi : i ≤ s.memory.cnt) (hj : j ≤ s.reserved.cnt + 1) {l : List (MemRegion × ℕ × ℕ)}
    (hrun : (downward shouldSkip).run n (s.memory.regions.take i).reverse
      (s.gaps.take j).reverse = some l) :
    s.findRangeTopDown start stop size align n ⟨i - 1, j - 1⟩ =
      ((l.map meet).findSome? (candidateDown start stop size align)).getD 0 := by
  induction n generalizing i j l with
  | zero => cases hrun
  | succ n ih =>
    have hfuel : ((i : ℤ) - 1 + 1).toNat = i := by omega
    rw [Sweep.run] at hrun
    rcases nextRangeRev_eq shouldSkip hi hj with ⟨hnone, hnext⟩ |
      ⟨p, i', j', hi', -, hj', hsome, hnext⟩
    · rw [hnext] at hrun
      cases hrun
      rw [nextRangeRev_shouldSkip] at hnone
      rw [findRangeTopDown, hfuel, hnone]
      rfl
    · rw [hnext] at hrun
      obtain ⟨l', hl', rfl⟩ := map_eq_some_iff.1 hrun
      rw [nextRangeRev_shouldSkip] at hsome
      rw [findRangeTopDown_of_some (by dsimp only; rw [hfuel]; exact hsome), map_cons,
        getD_findSome?_cons, ih hi' hj' hl']

/-! ### A candidate fits -/

section Candidate

variable (hk : k < 32) (hle : start ≤ stop) (hstop : stop < wordSize) (hsize : 0 < size)

include hk hle hstop hsize

/-- From above, a candidate is an address in the range, and there is one if anything fits. -/
theorem candidateDown_spec (p : ℕ × ℕ) :
    (∀ c, candidateDown start stop size (2 ^ k) p = some c → FitsAt start stop size (2 ^ k) p c) ∧
      (candidateDown start stop size (2 ^ k) p = none →
        ∀ c, ¬ FitsAt start stop size (2 ^ k) p c) := by
  have hword : min (max p.2 start) stop - size < wordSize := by omega
  constructor
  · intro c hc
    simp only [candidateDown] at hc
    split_ifs at hc with hsmall hcand
    cases hc
    have := roundDown_le (min (max p.2 start) stop - size) (2 ^ k)
    exact ⟨dvd_roundDown hword hk, by omega, by omega⟩
  · intro hc c h
    obtain ⟨hdvd, hrange, hfree⟩ := h
    simp only [candidateDown] at hc
    have := le_roundDown hword hk hdvd (by omega)
    split_ifs at hc with hsmall hcand
    · omega
    · omega

/-- From below, a candidate is an address in the range, unless it has wrapped to 0. -/
theorem candidateUp_spec (hstart : 0 < start) (p : ℕ × ℕ) :
    (∀ c ≠ 0, candidateUp start stop size (2 ^ k) p = some c →
      FitsAt start stop size (2 ^ k) p c) ∧
    (candidateUp start stop size (2 ^ k) p = some 0 → wordSize - 2 ^ k < max p.1 start) ∧
      (candidateUp start stop size (2 ^ k) p = none →
        ∀ c, ¬ FitsAt start stop size (2 ^ k) p c) := by
  have hword : min (max p.1 start) stop < wordSize := by omega
  refine ⟨?_, ?_, ?_⟩
  · intro c hne hc
    simp only [candidateUp] at hc
    split_ifs at hc with hcand
    cases hc
    have hlast : min (max p.1 start) stop ≤ wordSize - 2 ^ k := by
      by_contra hgt
      exact hne (roundUp_of_lt hword hk (not_le.1 hgt))
    have := le_roundUp hk hlast
    exact ⟨dvd_roundUp hword hk, by omega, by omega⟩
  · intro hc
    simp only [candidateUp] at hc
    split_ifs at hc with hcand
    have hzero := Option.some.inj hc
    by_contra hge
    have := le_roundUp (x := min (max p.1 start) stop) hk (by omega)
    omega
  · intro hc c h
    obtain ⟨hdvd, hrange, hfree⟩ := h
    simp only [candidateUp] at hc
    have := roundUp_le hword hk hdvd (by omega)
    split_ifs at hc with hcand
    omega

end Candidate

/-! ### All free ranges -/

section

variable (hk : k < 32) (hle : start ≤ stop) (hstop : stop < wordSize) (hsize : 0 < size)
  (hstart : 0 < start)
include hk hle hstop hsize hstart

/-- The first candidate from above. -/
theorem findSome_candidateDown (l : List (ℕ × ℕ)) :
    let c := (l.findSome? (candidateDown start stop size (2 ^ k))).getD 0
    (c ≠ 0 → ∃ p ∈ l, FitsAt start stop size (2 ^ k) p c) ∧
      (c = 0 → ∀ p ∈ l, ∀ c, ¬ FitsAt start stop size (2 ^ k) p c) := by
  induction l with
  | nil => simp
  | cons p l ih =>
    obtain ⟨hfits, hnone⟩ := candidateDown_spec hk hle hstop hsize p
    cases hcand : candidateDown start stop size (2 ^ k) p with
    | some c =>
      rw [findSome?_cons, hcand]
      have hc := hfits c hcand
      refine ⟨fun _ => ⟨p, mem_cons_self, hc⟩, fun hzero => ?_⟩
      have : c = 0 := hzero
      have := hc.range.1
      omega
    | none =>
      rw [findSome?_cons, hcand]
      refine ⟨fun hne => ?_, fun hzero q hq => ?_⟩
      · obtain ⟨q, hq, hfit⟩ := ih.1 hne
        exact ⟨q, mem_cons_of_mem _ hq, hfit⟩
      · rcases mem_cons.1 hq with rfl | hq
        · exact hnone hcand
        · exact ih.2 hzero q hq

/-- The first candidate from below, in ranges that ascend. -/
theorem findSome_candidateUp {l : List (ℕ × ℕ)} (hl : l.Pairwise fun p q => p.1 ≤ q.1) :
    let c := (l.findSome? (candidateUp start stop size (2 ^ k))).getD 0
    (c ≠ 0 → ∃ p ∈ l, FitsAt start stop size (2 ^ k) p c) ∧
      (c = 0 → ∀ p ∈ l, ∀ c, ¬ FitsAt start stop size (2 ^ k) p c) := by
  induction l with
  | nil => simp
  | cons p l ih =>
    obtain ⟨hbehind, hrest⟩ := pairwise_cons.1 hl
    obtain ⟨hfits, hwrap, hnone⟩ := candidateUp_spec hk hle hstop hsize hstart p
    cases hcand : candidateUp start stop size (2 ^ k) p with
    | some c =>
      rw [findSome?_cons, hcand]
      refine ⟨fun hne => ⟨p, mem_cons_self, hfits c hne hcand⟩, fun hzero q hq c' hfit => ?_⟩
      -- there is no multiple behind the beginning of `p`, so there is none in `q`
      obtain rfl : c = 0 := hzero
      have hlast := hwrap hcand
      have hpq : p.1 ≤ q.1 := by
        rcases mem_cons.1 hq with rfl | hq
        · exact le_rfl
        · exact hbehind q hq
      have hdvd : 2 ^ k ∣ wordSize - c' :=
        Nat.dvd_sub (Nat.pow_dvd_pow 2 hk.le) hfit.aligned
      have hpos := Nat.le_of_dvd (by have := hfit.range.2; omega) hdvd
      have := hfit.range
      have := hfit.free
      omega
    | none =>
      rw [findSome?_cons, hcand]
      refine ⟨fun hne => ?_, fun hzero q hq => ?_⟩
      · obtain ⟨q, hq, hfit⟩ := (ih hrest).1 hne
        exact ⟨q, mem_cons_of_mem _ hq, hfit⟩
      · rcases mem_cons.1 hq with rfl | hq
        · exact hnone hcand
        · exact (ih hrest).2 hzero q hq

end

/-! ### The search -/

/-- The end of the addresses that an allocation may use. -/
def limitOf (s : Memblock) (stop : ℕ) : ℕ := if stop = 0 ∨ stop = 1 then s.currentLimit else stop

/-- An address that an allocation may return: an aligned range in the limits, in one region of the
memory that is not skipped, and free. -/
structure Suitable (s : Memblock) (start stop size align addr : ℕ) : Prop where
  aligned : align ∣ addr
  range : max start pageSize ≤ addr ∧ addr + size ≤ s.limitOf stop
  memory : ∃ m ∈ s.memory.regions, ¬ m.shouldSkip ∧ m.base ≤ addr ∧ addr + size ≤ m.stop
  free : Disjoint (Set.Ico addr (addr + size)) s.reserved.covered

/-- A gap ends where a region begins. -/
theorem snd_of_mem_gapsFrom {lo : ℕ} {l : List MemRegion} {gap : ℕ × ℕ} (h : gap ∈ gapsFrom lo l) :
    gap.2 = physAddrMax ∨ ∃ r ∈ l, gap.2 = r.base := by
  induction l generalizing lo with
  | nil =>
    obtain rfl := mem_singleton.1 h
    exact .inl rfl
  | cons r rest ih =>
    rcases mem_cons.1 h with rfl | h
    · exact .inr ⟨r, mem_cons_self, rfl⟩
    · refine (ih h).imp id ?_
      rintro ⟨r', hr', heq⟩
      exact ⟨r', mem_cons_of_mem _ hr', heq⟩

section

variable (hm : Along 0 s.memory.regions)
include hm

/-- What fits into a free range is suitable, and the other way round. -/
theorem exists_fitsAt_iff (hr : s.reserved.Ok) (hsize : 0 < size) (addr : ℕ) :
    (∃ p ∈ s.freeRanges shouldSkip,
      FitsAt (max start pageSize) (s.limitOf stop) size align p addr) ↔
      Suitable s start stop size align addr := by
  have har := along_of_ok hr
  constructor
  · rintro ⟨p, hp, hfit⟩
    obtain ⟨hdvd, hrange, hfree⟩ := hfit
    obtain ⟨m, hmem, hskip, gap, hg, -, rfl⟩ := mem_freeRanges.1 hp
    have hmax := hm.le_max m hmem
    simp only [meet, rend_eq_stop hmax] at hfree
    refine ⟨hdvd, hrange, ⟨m, hmem, hskip, by omega⟩, ?_⟩
    rw [Set.disjoint_left]
    intro x hx
    rw [MemblockType.notMem_covered, ← har.exists_gap (Nat.zero_le x) (by have := hx.2; omega),
      ← gaps_eq har]
    exact ⟨gap, hg, by have := hx.1; omega, by have := hx.2; omega⟩
  · rintro ⟨hdvd, hrange, ⟨m, hmem, hskip, hin⟩, hdisj⟩
    have hmax := hm.le_max m hmem
    have hout : ∀ x, addr ≤ x → x < addr + size →
        ∀ r ∈ s.reserved.regions, ¬ (r.base ≤ x ∧ x < r.stop) := fun x hlo hhi =>
      MemblockType.notMem_covered.1 (Set.disjoint_left.1 hdisj ⟨hlo, hhi⟩)
    -- the gap at `addr` does not end before the range
    have hgap := hout addr le_rfl (by omega)
    rw [← har.exists_gap (Nat.zero_le addr) (by omega)] at hgap
    obtain ⟨gap, hg, hlo, hhi⟩ := hgap
    have hend : addr + size ≤ gap.2 := by
      rcases snd_of_mem_gapsFrom hg with hlast | ⟨r, hr', hbase⟩
      · omega
      · by_contra hlt
        refine hout gap.2 hhi.le (by omega) r hr' ⟨hbase.ge, ?_⟩
        rw [hbase, MemRegion.stop]
        rcases hr.nonempty with hp | hne
        · rw [hp] at hr'
          obtain rfl := mem_singleton.1 hr'
          exact absurd (hbase ▸ hhi) (Nat.not_lt_zero _)
        · have := hne r hr'
          omega
    rw [← gaps_eq har] at hg
    refine ⟨meet (m, gap), mem_freeRanges.2 ⟨m, hmem, hskip, gap, hg, ?_, rfl⟩, hdvd, hrange, ?_⟩
    · rw [rend_eq_stop hmax]
      omega
    · simp only [meet, rend_eq_stop hmax]
      omega

theorem freeRanges_ascend {skip : MemRegion → Bool} (hr : Along 0 s.reserved.regions) :
    (s.freeRanges skip).Pairwise fun p q => p.1 ≤ q.1 := by
  refine (freeRanges_pairwise hm hr).imp_of_mem fun {p q} hp _ hpq => ?_
  obtain ⟨m, hmem, -, gap, hg, hmeet, rfl⟩ := mem_freeRanges.1 hp
  have hgap := (hr.le_fst (Nat.zero_le _) (gaps_eq hr ▸ hg)).2
  have : m.base ≤ m.stop := Nat.le_add_right _ _
  simp only [meet, rend_eq_stop (hm.le_max m hmem)] at hpq hmeet ⊢
  omega

/-- Both searches take the first candidate, each in its order. -/
theorem findInRange_eq (hr : Along 0 s.reserved.regions) :
    s.findInRange start stop size align =
      let lo := max start pageSize
      let hi := max lo (s.limitOf stop)
      if s.bottomUp then
        ((s.freeRanges shouldSkip).findSome? (candidateUp lo hi size align)).getD 0
      else
        ((s.freeRanges shouldSkip).reverse.findSome?
          (candidateDown lo hi size align)).getD 0 := by
  have hlen : s.memory.regions.length + s.gaps.length ≤ s.memory.cnt + s.reserved.cnt + 1 := by
    rw [length_gaps]
    exact le_rfl
  have hdef : s.findInRange start stop size align =
      if s.bottomUp then
        s.findRangeBottomUp (max start pageSize) (max (max start pageSize) (s.limitOf stop)) size
          align (s.memory.cnt + s.reserved.cnt + 1) ⟨0, 0⟩
      else
        s.findRangeTopDown (max start pageSize) (max (max start pageSize) (s.limitOf stop)) size
          align (s.memory.cnt + s.reserved.cnt + 1) ⟨s.memory.cnt - 1, s.reserved.cnt⟩ := rfl
  rw [hdef]
  dsimp only
  split
  · have hrun := Sweep.run_eq (upward_sorted shouldSkip hm hr) hlen
      (by omega)
    exact findRangeBottomUp_eq (a := 0) (b := 0) (Nat.zero_le _) (Nat.zero_le _) hrun
  · have hrun := Sweep.run_eq (downward_sorted shouldSkip hm hr)
      (n := s.memory.cnt + s.reserved.cnt + 1) (by simpa using hlen) (by omega)
    rw [Sweep.pairs_reverse _ downward_meets] at hrun
    have hfind := findRangeTopDown_eq (max start pageSize)
      (max (max start pageSize) (s.limitOf stop)) size align
      (i := s.memory.cnt) (j := s.reserved.cnt + 1) le_rfl le_rfl (by
        rw [take_of_length_le (show s.memory.regions.length ≤ s.memory.cnt from le_rfl),
          take_of_length_le length_gaps.le]
        exact hrun)
    rw [map_reverse] at hfind
    rw [← freeRanges] at hfind
    rw [← hfind]
    congr 2
    omega

end

/-- **The search.** It finds a suitable address, from below or from above, if there is one. -/
theorem findInRange_spec (hm : s.memory.Ok) (hr : s.reserved.Ok) (hk : k < 32) (hsize : 0 < size)
    (hstart : start < wordSize) (hstop : stop < wordSize) (hlimit : s.currentLimit < wordSize) :
    let addr := s.findInRange start stop size (2 ^ k)
    (addr ≠ 0 → Suitable s start stop size (2 ^ k) addr) ∧
      (addr = 0 → ∀ a, ¬ Suitable s start stop size (2 ^ k) a) := by
  have ham := along_of_ok hm
  have har := along_of_ok hr
  have hpage : 0 < pageSize ∧ pageSize < wordSize := by decide
  have hend : s.limitOf stop < wordSize := by
    rw [limitOf]
    split_ifs
    · exact hlimit
    · exact hstop
  -- a limit in front of `start` leaves no room, as before it is raised
  have hiff : ∀ p a, FitsAt (max start pageSize) (max (max start pageSize) (s.limitOf stop)) size
      (2 ^ k) p a ↔ FitsAt (max start pageSize) (s.limitOf stop) size (2 ^ k) p a := by
    intro p a
    constructor
    · rintro ⟨hdvd, hrange, hfree⟩
      exact ⟨hdvd, by omega, hfree⟩
    · rintro ⟨hdvd, hrange, hfree⟩
      exact ⟨hdvd, by omega, hfree⟩
  have hcand : ∀ c, ((c ≠ 0 → ∃ p ∈ s.freeRanges shouldSkip,
        FitsAt (max start pageSize) (max (max start pageSize) (s.limitOf stop)) size (2 ^ k) p c) ∧
      (c = 0 → ∀ p ∈ s.freeRanges shouldSkip, ∀ a, ¬ FitsAt (max start pageSize)
        (max (max start pageSize) (s.limitOf stop)) size (2 ^ k) p a)) →
      (c ≠ 0 → Suitable s start stop size (2 ^ k) c) ∧
        (c = 0 → ∀ a, ¬ Suitable s start stop size (2 ^ k) a) := by
    rintro c ⟨hfits, hnone⟩
    constructor
    · intro hne
      obtain ⟨p, hp, hfit⟩ := hfits hne
      exact (exists_fitsAt_iff ham hr hsize c).1 ⟨p, hp, (hiff p c).1 hfit⟩
    · intro hzero a hsuit
      obtain ⟨p, hp, hfit⟩ := (exists_fitsAt_iff ham hr hsize a).2 hsuit
      exact hnone hzero p hp a ((hiff p a).2 hfit)
  rw [findInRange_eq ham har]
  dsimp only
  apply hcand
  split
  · exact findSome_candidateUp hk (by omega) (by omega) hsize (by omega) (freeRanges_ascend ham har)
  · have := findSome_candidateDown hk (show max start pageSize ≤ max (max start pageSize)
      (s.limitOf stop) by omega) (by omega) hsize (by omega)
      (s.freeRanges shouldSkip).reverse
    simpa only [mem_reverse] using this

/-! ### The allocation -/

/-- `SMP_CACHE_BYTES`. -/
def smpCacheBytes : ℕ := 32

/-- `memblock_find_in_range_node`. All memory is of node 0, so that a search for another node passes
over all of it. -/
def findInRangeNode (s : Memblock) (nid : ℤ) (start stop size align : ℕ) : ℕ :=
  if nid = -1 ∨ nid = 0 then s.findInRange start stop size align else 0

/-- A search and the reservation of what it has found; 0 if one of them fails. -/
def tryAlloc (n : ℕ) (nid : ℤ) (size align start stop : ℕ) (s : Memblock) :
    Except Oops (ℕ × Memblock) :=
  let found := s.findInRangeNode nid start stop size align
  if found = 0 then .ok (0, s)
  else do
    match ← addRange (calls n) n .reserved found size 0 s with
    | (none, s) => .ok (found, s)
    | (some _, s) => .ok (0, s)

/-- `memblock_alloc_range_nid`. There is no mirrored memory. -/
def allocRangeNid (n size align start stop : ℕ) (nid : ℤ) (exactNid : Bool) (s : Memblock) :
    Except Oops (ℕ × Memblock) := do
  let nid := if nid = 1 then -1 else nid
  let align := if align = 0 then smpCacheBytes else align
  let first ← tryAlloc n nid size align start stop s
  if first.1 = 0 ∧ nid ≠ -1 ∧ !exactNid then tryAlloc n (-1) size align start stop first.2
  else .ok first

/-- The first pass counts at most one region, if the range is free. -/
theorem nrNew_le_one {t : MemblockType} {base stop flags : ℕ} {v : AddScan} (h : Laid t.regions)
    (hdisj : Disjoint (Set.Ico base stop) t.covered) (hlt : base < stop)
    (hv : addRangePass false base stop flags t = .ok v) : v.nrNew ≤ 1 := by
  have hapart : ∀ r ∈ t.regions, stop ≤ r.base ∨ r.stop ≤ base := by
    intro r hr
    by_contra hmeet
    have hnot := MemblockType.notMem_covered.1 (Set.disjoint_left.1 hdisj
      (show max base r.base ∈ Set.Ico base stop from ⟨by omega, by omega⟩)) r hr
    have := h.base_lt hr
    omega
  have hloop : ∀ (l : List MemRegion) (w : AddScan), l ⊆ t.regions → w.base = base →
      ∃ i, addRangeLoop false stop flags l w = .ok { w with idx := i } := by
    intro l
    induction l with
    | nil => exact fun w _ _ => ⟨w.idx, rfl⟩
    | cons r l ih =>
      intro w hl hw
      have hr := hl mem_cons_self
      rw [addRangeLoop]
      split_ifs with hbehind hbefore
      · exact ⟨w.idx, rfl⟩
      · exact ih { w with idx := w.idx + 1 } (fun x hx => hl (mem_cons_of_mem _ hx)) hw
      · have := hapart r hr
        rw [h.rend hr, hw] at hbefore
        omega
  obtain ⟨i, hi⟩ := hloop t.regions ⟨0, base, 0, t⟩ (List.Subset.refl _) rfl
  rw [addRangePass, hi] at hv
  change AddScan.fill _ false stop flags = .ok v at hv
  rw [AddScan.fill, if_pos hlt] at hv
  exact Except.ok.inj hv ▸ le_rfl

/-- The list of reserved ranges has room for one more. -/
def HasRoom (s : Memblock) : Prop :=
  s.reserved.regions = [.placeholder] ∨ s.reserved.cnt < s.reserved.max

section Try

variable (nid : ℤ) {n addr : ℕ} (h : s.Kept) (hk : k < 32) (hsize : 0 < size)
  (hstart : start < wordSize) (hstop : stop < wordSize)

include h hk hsize hstart hstop

theorem findInRangeNode_spec :
    (s.findInRangeNode nid start stop size (2 ^ k) ≠ 0 →
      Suitable s start stop size (2 ^ k) (s.findInRangeNode nid start stop size (2 ^ k))) ∧
    (s.findInRangeNode nid start stop size (2 ^ k) = 0 → nid = -1 ∨ nid = 0 →
      ∀ a, ¬ Suitable s start stop size (2 ^ k) a) := by
  have hlimit : s.currentLimit < wordSize := lt_of_le_of_lt h.limit (by decide)
  have hspec := findInRange_spec (h.types .memory).ok (h.types .reserved).ok hk hsize hstart hstop
    hlimit
  rw [findInRangeNode]
  split_ifs with hnid
  · exact ⟨hspec.1, fun hzero _ => hspec.2 hzero⟩
  · exact ⟨fun hne => absurd rfl hne, fun _ hn => absurd hn hnid⟩

/-- What has been allocated is reserved. -/
theorem tryAlloc_spec (heq : tryAlloc n nid size (2 ^ k) start stop s = .ok (addr, s')) :
    (addr ≠ 0 → Suitable s start stop size (2 ^ k) addr ∧
      Set.Ico addr (addr + size) ⊆ s'.reserved.covered) ∧
    (addr = 0 → s'.Kept ∧
      (s' = s ∨ ∃ a, addRange (calls n) n .reserved a size 0 s = .ok (some .ENOMEM, s'))) := by
  obtain ⟨hsuit, -⟩ := findInRangeNode_spec nid h hk hsize hstart hstop
  simp only [tryAlloc] at heq
  split_ifs at heq with hfound
  · cases heq
    exact ⟨fun hne => absurd rfl hne, fun _ => ⟨h, .inl rfl⟩⟩
  · have haddr := hsuit hfound
    generalize s.findInRangeNode nid start stop size (2 ^ k) = found at *
    obtain ⟨m, hmem, -, -, hmax⟩ := haddr.memory
    have hle : found + size ≤ physAddrMax := hmax.trans ((h.types .memory).ok.no_wrap m hmem)
    obtain ⟨⟨r, s₁⟩, hreserve, hrest⟩ := ok_of_bind heq
    have hkept := (addRange_spec (calls_sound n) h hreserve).1
    rcases addRange_added (calls_sound n) h (show size = min size (physAddrMax - found) by omega)
      (by omega) hreserve with ⟨rfl, -⟩ | ⟨rfl, t, hadded, -⟩
    · cases hrest
      exact ⟨fun hne => absurd rfl hne, fun _ => ⟨hkept, .inr ⟨found, hreserve⟩⟩⟩
    · obtain ⟨rfl, rfl⟩ := Prod.mk.inj (Except.ok.inj hrest)
      refine ⟨fun _ => ⟨haddr, ?_⟩, fun hzero => absurd hzero hfound⟩
      rw [show s₁.reserved.covered = _ from hadded.covered_eq]
      exact Set.subset_union_right

/-- With room for one more region, what has been found is allocated. -/
theorem tryAlloc_returns (hroom : s.HasRoom) (hn : 0 < n) :
    ∃ s', tryAlloc n nid size (2 ^ k) start stop s =
      .ok (s.findInRangeNode nid start stop size (2 ^ k), s') ∧
      (s.findInRangeNode nid start stop size (2 ^ k) = 0 → s' = s) := by
  obtain ⟨hsuit, -⟩ := findInRangeNode_spec nid h hk hsize hstart hstop
  simp only [tryAlloc]
  split_ifs with hfound
  · exact ⟨s, by rw [hfound], fun _ => rfl⟩
  · have haddr := hsuit hfound
    generalize s.findInRangeNode nid start stop size (2 ^ k) = found at *
    obtain ⟨m, hmem, -, -, hmax⟩ := haddr.memory
    have hle : found + size ≤ physAddrMax := hmax.trans ((h.types .memory).ok.no_wrap m hmem)
    have hfits : AddFits (s.type .reserved) found size 0 := by
      rcases h.types .reserved with ⟨hp, -⟩ | hfilled
      · exact .inl (by rw [hp]; rfl)
      · refine .inr fun v hv => .inr ?_
        rw [wadd_of_lt (lt_of_le_of_lt hle (by decide))] at hv
        have hone := nrNew_le_one hfilled.laid haddr.free (by omega) hv
        have hlt : s.reserved.cnt < s.reserved.max := hroom.resolve_left fun hp => by
          have := hfilled.laid.base_lt (r := .placeholder) (by
            show _ ∈ s.reserved.regions
            simp [hp])
          exact absurd this (lt_irrefl 0)
        show s.reserved.cnt + v.nrNew ≤ s.reserved.max
        omega
    obtain ⟨s₁, hs₁, -⟩ := addRange_of_fits (calls_sound n) h
      (show size = min size (physAddrMax - found) by omega) (by omega) hfits hn
    refine ⟨s₁, ?_, fun hzero => absurd hzero hfound⟩
    rw [hs₁]
    rfl

end Try

/-- The memory may be used for the node. -/
def UsesNode (nid : ℤ) (exactNid : Bool) : Prop :=
  nid = -1 ∨ nid = 0 ∨ nid = 1 ∨ exactNid = false

/-- The allocation, for the node that is searched for. -/
theorem allocRangeNid_eq {nid nid' : ℤ} (hnid : nid' = if nid = 1 then -1 else nid) (n : ℕ)
    (exactNid : Bool) :
    allocRangeNid n size (2 ^ k) start stop nid exactNid s =
      tryAlloc n nid' size (2 ^ k) start stop s >>= fun first =>
        if first.1 = 0 ∧ nid' ≠ -1 ∧ !exactNid then
          tryAlloc n (-1) size (2 ^ k) start stop first.2
        else .ok first := by
  rw [allocRangeNid, if_neg (Nat.two_pow_pos k).ne', ← hnid]

/-- With room for one more region, the allocation returns, and 0 only if nothing is suitable. -/
theorem allocRangeNid_returns (h : s.Kept) (hk : k < 32) (hsize : 0 < size)
    (hstart : start < wordSize) (hstop : stop < wordSize) (hroom : s.HasRoom) (hn : 0 < n) (nid : ℤ)
    (exactNid : Bool) :
    ∃ addr s', allocRangeNid n size (2 ^ k) start stop nid exactNid s = .ok (addr, s') ∧
      (addr ≠ 0 → UsesNode nid exactNid ∧ Suitable s start stop size (2 ^ k) addr) ∧
      (addr = 0 → UsesNode nid exactNid → ∀ a, ¬ Suitable s start stop size (2 ^ k) a) := by
  have hspec := fun nid => findInRangeNode_spec nid h hk hsize hstart hstop
  obtain ⟨nid', hnid⟩ : ∃ nid' : ℤ, nid' = if nid = 1 then -1 else nid := ⟨_, rfl⟩
  have hnode : nid' = -1 ∨ nid' = 0 ↔ nid = -1 ∨ nid = 0 ∨ nid = 1 := by
    rw [hnid]
    split_ifs with hone
    · simp [hone]
    · simp [hone]
  obtain ⟨s₁, hs₁, hsame⟩ := tryAlloc_returns nid' h hk hsize hstart hstop hroom hn
  rw [allocRangeNid_eq hnid, hs₁]
  by_cases hagain : s.findInRangeNode nid' start stop size (2 ^ k) = 0 ∧ nid' ≠ -1 ∧ !exactNid
  · obtain rfl := hsame hagain.1
    obtain ⟨s₂, hs₂, -⟩ := tryAlloc_returns (-1) h hk hsize hstart hstop hroom hn
    have hexact : exactNid = false := by simpa using hagain.2.2
    exact ⟨_, s₂, (if_pos hagain).trans hs₂,
      fun hne => ⟨.inr (.inr (.inr hexact)), (hspec (-1)).1 hne⟩,
      fun hzero _ => (hspec (-1)).2 hzero (.inl rfl)⟩
  · refine ⟨_, s₁, if_neg hagain, fun hne => ⟨?_, (hspec nid').1 hne⟩, fun hzero huse => ?_⟩
    · by_contra hnot
      have hforeign : ¬ (nid' = -1 ∨ nid' = 0) := fun h =>
        hnot ((hnode.1 h).imp id fun h => h.imp id .inl)
      exact hne (if_neg hforeign)
    · refine (hspec nid').2 hzero ?_
      -- a node without memory is left only if it was asked for exactly
      by_contra hforeign
      have hexact : exactNid = false := by
        rcases huse with h | h | h | h
        · exact absurd (hnode.2 (.inl h)) hforeign
        · exact absurd (hnode.2 (.inr (.inl h))) hforeign
        · exact absurd (hnode.2 (.inr (.inr h))) hforeign
        · exact h
      exact hagain ⟨hzero, fun h => hforeign (.inl h), by simp [hexact]⟩

theorem Suitable.setBottomUp {addr : ℕ} (b : Bool) :
    Suitable { s with bottomUp := b } start stop size align addr ↔
      Suitable s start stop size align addr := by
  constructor
  · intro h
    exact { h with }
  · intro h
    exact { h with }

theorem holedMemblock_kept : holedMemblock.Kept where
  types := fun k => .inr <| by
    cases k with
    | memory | reserved => exact ⟨nofun, ⟨by decide, by decide⟩, by decide⟩
  max_pos := fun k => by cases k <;> decide
  limit := le_rfl
  slab := nofun

example : (allocRangeNid 1 0x1000 0x1000 0 0 (-1) false holedMemblock).map Prod.fst =
    .ok 0x9000 := by
  decide +kernel

/-- Two pages of memory next to each other, with different flags. -/
def twoFlags : Memblock :=
  { bootMemblock with
    memory := ⟨128, 0x2000, [⟨0x100000, 0x1000, 0⟩, ⟨0x101000, 0x1000, 1⟩], none⟩ }

end Memblock

end MinimalKernel.Mm
