import MinimalKernel.Lib.Sweep
import MinimalKernel.Mm.MemblockSets

/-!
# The free ranges

`__next_mem_range` walks over the memory and the gaps between the reserved regions together, and
yields their intersections one by one; where the next search has to start is kept in a number with
both indices. `__next_mem_range_rev` does so from the ends of the lists. Both are sweeps over two
sorted lists.

## Main definitions

* `shouldSkipRegion` — the memory that a search with given flags passes over
* `nextMemRangeAt`, `nextMemRangeRevAt` — a search, by its number
* `forEachRange` — the loop around the searches
* `MemblockType.WellFormed` — a list of regions as the calls leave it

## Main results

* `forEachRange_free` — both loops end, and yield the memory that is not reserved
-/

namespace MinimalKernel.Mm

open Lib List MemRegion

/-! ### The searches -/

/-- `should_skip_region` for the list of memory. All memory is of node 0, and `movable_node` is not
enabled. -/
def shouldSkipRegion (nid : ℤ) (flags : ℕ) (m : MemRegion) : Bool :=
  (nid ≠ -1 && nid ≠ 0) || (flags.testBit 1 && !m.flags.testBit 1) ||
    (!flags.testBit 2 && m.flags.testBit 2) || (!flags.testBit 3 && m.flags.testBit 3)

/-- The memory that a search passes over: `MAX_NUMNODES`, which is 1, stands for any node as
well. -/
def skipped (nid : ℤ) (flags : ℕ) : MemRegion → Bool :=
  shouldSkipRegion (if nid = 1 then -1 else nid) flags

namespace Memblock

variable (skip : MemRegion → Bool) (s : Memblock) {c : Cursor} {j : ℕ}

/-- `__next_mem_range` over the memory that is not reserved, with `n` memory regions to go. -/
def nextRange : ℕ → Cursor → Option (Cursor × ℕ × ℕ)
  | 0, _ => none
  | n + 1, c =>
    let m := s.memory.regions.getD c.a.toNat .placeholder
    if skip m then nextRange n ⟨c.a + 1, c.b⟩
    else
      match s.nextMemRangeInner m c.a (s.reserved.cnt + 1 - c.b.toNat) c.b with
      | .inl found => some found
      | .inr b => nextRange n ⟨c.a + 1, b⟩

/-- `__next_mem_range_rev`, with `n` memory regions to go. -/
def nextRangeRev : ℕ → Cursor → Option (Cursor × ℕ × ℕ)
  | 0, _ => none
  | n + 1, c =>
    let m := s.memory.regions.getD c.a.toNat .placeholder
    if skip m then nextRangeRev n ⟨c.a - 1, c.b⟩
    else
      match s.nextMemRangeRevInner m c.a (c.b + 1).toNat c.b with
      | .inl found => some found
      | .inr b => nextRangeRev n ⟨c.a - 1, b⟩

/-- The searches of the allocator have no flags and no node. -/
theorem nextRange_shouldSkip (n : ℕ) (c : Cursor) :
    s.nextRange shouldSkip n c = s.nextMemRange n c := by
  induction n generalizing c with
  | zero => rfl
  | succ n ih =>
    simp only [nextRange, nextMemRange, ih] <;> rfl

theorem nextRangeRev_shouldSkip (n : ℕ) (c : Cursor) :
    s.nextRangeRev shouldSkip n c = s.nextMemRangeRev n c := by
  induction n generalizing c with
  | zero => rfl
  | succ n ih =>
    simp only [nextRangeRev, nextMemRangeRev, ih] <;> rfl

/-! ### The sweep -/

/-- The gaps between the reserved regions. -/
def gaps : List (ℕ × ℕ) := (range (s.reserved.cnt + 1)).map s.gapBefore

/-- The range in which a memory region and a gap meet. -/
def meet (p : MemRegion × ℕ × ℕ) : ℕ × ℕ := (max p.1.base p.2.1, min p.1.rend p.2.2)

/-- The comparisons of `__next_mem_range`. -/
def upward : Sweep MemRegion (ℕ × ℕ) where
  skip := skip
  past := fun m gap => m.rend ≤ gap.1
  before := fun m gap => ¬ m.base < gap.2
  ends := fun m gap => m.rend ≤ gap.2

/-- The comparisons of `__next_mem_range_rev`. -/
def downward : Sweep MemRegion (ℕ × ℕ) where
  skip := skip
  past := fun m gap => gap.2 ≤ m.base
  before := fun m gap => ¬ gap.1 < m.rend
  ends := fun m gap => gap.1 ≤ m.base

variable {skip s} {m : MemRegion} {gap : ℕ × ℕ}

@[simp] theorem upward_past : (upward skip).past m gap ↔ m.rend ≤ gap.1 := decide_eq_true_iff

@[simp] theorem upward_before : (upward skip).before m gap ↔ ¬ m.base < gap.2 := decide_eq_true_iff

@[simp] theorem upward_ends : (upward skip).ends m gap ↔ m.rend ≤ gap.2 := decide_eq_true_iff

@[simp] theorem downward_past : (downward skip).past m gap ↔ gap.2 ≤ m.base := decide_eq_true_iff

@[simp] theorem downward_before : (downward skip).before m gap ↔ ¬ gap.1 < m.rend :=
  decide_eq_true_iff

@[simp] theorem downward_ends : (downward skip).ends m gap ↔ gap.1 ≤ m.base := decide_eq_true_iff

@[simp] theorem length_gaps : s.gaps.length = s.reserved.cnt + 1 := by simp [gaps]

theorem drop_gaps {b : ℕ} (h : b ≤ s.reserved.cnt) :
    s.gaps.drop b = s.gapBefore b :: s.gaps.drop (b + 1) := by
  rw [drop_eq_getElem_cons (by rw [length_gaps]; omega)]
  simp [gaps]

/-- The inner loop drops the gaps in front of a region. -/
theorem nextMemRangeInner_eq (skip : MemRegion → Bool) (m : MemRegion) (a : ℤ) {n b : ℕ}
    (hb : b ≤ s.reserved.cnt + 1) (hn : n = s.reserved.cnt + 1 - b) :
    ∃ b' : ℕ, b' ≤ s.reserved.cnt + 1 ∧
      s.gaps.drop b' = (s.gaps.drop b).dropWhile ((upward skip).drops m) ∧
      s.nextMemRangeInner m a n b = match s.gaps.drop b' with
        | [] => .inr (b' : ℤ)
        | gap :: _ =>
          if (upward skip).past m gap then .inr (b' : ℤ)
          else .inl (if (upward skip).ends m gap then ⟨a + 1, b'⟩ else ⟨a, b' + 1⟩,
            meet (m, gap)) := by
  induction n generalizing b with
  | zero =>
    have hdrop : s.gaps.drop b = [] := drop_eq_nil_of_le (by rw [length_gaps]; omega)
    exact ⟨b, hb, by rw [hdrop]; rfl, by rw [hdrop]; rfl⟩
  | succ n ih =>
    rw [drop_gaps (by omega), dropWhile_cons, nextMemRangeInner]
    by_cases hdrop : (upward skip).drops m (s.gapBefore b)
    · obtain ⟨b', hb', hds, hinner⟩ := ih (b := b + 1) (by omega) (by omega)
      refine ⟨b', hb', by rw [if_pos hdrop]; exact hds, ?_⟩
      rw [Sweep.drops_iff, upward_past, upward_before] at hdrop
      rw [← hinner]
      exact (if_neg hdrop.1).trans (if_neg hdrop.2)
    · refine ⟨b, hb, by rw [if_neg hdrop, drop_gaps (by omega)], ?_⟩
      rw [drop_gaps (by omega)]
      rw [Sweep.drops_iff, upward_past, upward_before, not_and, not_not] at hdrop
      by_cases hpast : m.rend ≤ (s.gapBefore b).1
      · exact (if_pos hpast).trans (if_pos (upward_past.2 hpast)).symm
      · refine (if_neg hpast).trans ((if_pos (hdrop hpast)).trans ?_)
        simp [hpast, meet]

/-- A search of `__next_mem_range` is a search of the sweep. -/
theorem nextRange_eq (skip : MemRegion → Bool) {n a b : ℕ} (ha : a ≤ s.memory.cnt)
    (hb : b ≤ s.reserved.cnt + 1) (hn : n = s.memory.cnt - a) :
    (s.nextRange skip n ⟨a, b⟩ = none ∧
      (upward skip).next (s.memory.regions.drop a) (s.gaps.drop b) = none) ∨
    ∃ (p : MemRegion × ℕ × ℕ) (a' b' : ℕ), a' ≤ s.memory.cnt ∧ b' ≤ s.reserved.cnt + 1 ∧
      s.nextRange skip n ⟨a, b⟩ = some (⟨a', b'⟩, meet p) ∧
      (upward skip).next (s.memory.regions.drop a) (s.gaps.drop b) =
        some (p, s.memory.regions.drop a', s.gaps.drop b') := by
  induction n generalizing a b with
  | zero =>
    have hdrop : s.memory.regions.drop a = [] :=
      drop_eq_nil_of_le (show s.memory.cnt ≤ a by omega)
    exact .inl ⟨rfl, by rw [hdrop]; rfl⟩
  | succ n ih =>
    have hlt : a < s.memory.regions.length := show a < s.memory.cnt by omega
    have hnext : ∀ b : ℕ, b ≤ s.reserved.cnt + 1 → _ := fun b hb =>
      ih (a := a + 1) (b := b) (by omega) hb (by omega)
    rw [nextRange, drop_eq_getElem_cons hlt, Sweep.next]
    have hm : s.memory.regions.getD a .placeholder = s.memory.regions[a] :=
      getD_eq_getElem _ _ hlt
    simp only [Int.toNat_natCast, hm, show (upward skip).skip = skip from rfl]
    split
    · exact hnext b hb
    · obtain ⟨b', hb', hds, hinner⟩ :=
        nextMemRangeInner_eq (s := s) skip s.memory.regions[a] a hb rfl
      rw [hinner, ← hds]
      cases hdrop : s.gaps.drop b' with
      | nil =>
        have := hnext b' hb'
        rw [hdrop] at this
        exact this
      | cons gap rest =>
        have hlt' : b' < s.gaps.length := by
          rw [← Nat.sub_pos_iff_lt, ← length_drop, hdrop]
          exact Nat.succ_pos _
        rw [length_gaps] at hlt'
        have hrest : rest = s.gaps.drop (b' + 1) := by
          rw [drop_gaps (by omega)] at hdrop
          exact (cons.inj hdrop).2.symm
        dsimp only
        split_ifs with hpast hends
        · rw [← hdrop]
          exact hnext b' hb'
        · exact .inr ⟨(_, gap), a + 1, b', by omega, hb', rfl, by rw [hdrop]⟩
        · exact .inr ⟨(_, gap), a, b' + 1, ha, by omega, rfl,
            by rw [drop_eq_getElem_cons hlt, hrest]⟩

/-! ### From the ends -/

theorem reverse_take_gaps (h : j ≤ s.reserved.cnt) :
    (s.gaps.take (j + 1)).reverse = s.gapBefore j :: (s.gaps.take j).reverse := by
  rw [take_succ_eq_append_getElem (by rw [length_gaps]; omega), reverse_append]
  simp [gaps]

/-- The inner loop drops the gaps behind a region. Here `j` gaps are left, so that the index of the
next one is `j - 1`. -/
theorem nextMemRangeRevInner_eq (skip : MemRegion → Bool) (m : MemRegion) (a : ℤ)
    (hj : j ≤ s.reserved.cnt + 1) :
    ∃ j' ≤ s.reserved.cnt + 1,
      (s.gaps.take j').reverse = (s.gaps.take j).reverse.dropWhile ((downward skip).drops m) ∧
      s.nextMemRangeRevInner m a j (j - 1) = match (s.gaps.take j').reverse with
        | [] => .inr (j' - 1 : ℤ)
        | gap :: _ =>
          if (downward skip).past m gap then .inr (j' - 1 : ℤ)
          else .inl (if (downward skip).ends m gap then ⟨a - 1, j' - 1⟩ else ⟨a, j' - 1 - 1⟩,
            meet (m, gap)) := by
  induction j with
  | zero => exact ⟨0, hj, rfl, rfl⟩
  | succ j ih =>
    have hidx : ((j + 1 : ℕ) : ℤ) - 1 = j := by omega
    rw [reverse_take_gaps (by omega), dropWhile_cons, hidx, nextMemRangeRevInner, Int.toNat_natCast]
    by_cases hdrop : (downward skip).drops m (s.gapBefore j)
    · obtain ⟨j', hj', hds, hinner⟩ := ih (by omega)
      refine ⟨j', hj', by rw [if_pos hdrop]; exact hds, ?_⟩
      rw [Sweep.drops_iff, downward_past, downward_before] at hdrop
      rw [← hinner]
      exact (if_neg hdrop.1).trans (if_neg hdrop.2)
    · refine ⟨j + 1, hj, by rw [if_neg hdrop, reverse_take_gaps (by omega)], ?_⟩
      rw [reverse_take_gaps (by omega), hidx]
      rw [Sweep.drops_iff, downward_past, downward_before, not_and, not_not] at hdrop
      by_cases hpast : (s.gapBefore j).2 ≤ m.base
      · exact (if_pos hpast).trans (if_pos (downward_past.2 hpast)).symm
      · refine (if_neg hpast).trans ((if_pos (hdrop hpast)).trans ?_)
        simp [hpast, meet]

/-- A search of `__next_mem_range_rev` is a search of the sweep from the ends. The index of the gap
never becomes negative when a range is found. -/
theorem nextRangeRev_eq (skip : MemRegion → Bool) {i : ℕ} (hi : i ≤ s.memory.cnt)
    (hj : j ≤ s.reserved.cnt + 1) :
    (s.nextRangeRev skip i ⟨i - 1, j - 1⟩ = none ∧
      (downward skip).next (s.memory.regions.take i).reverse (s.gaps.take j).reverse = none) ∨
    ∃ (p : MemRegion × ℕ × ℕ) (i' j' : ℕ), i' ≤ s.memory.cnt ∧ 0 < j' ∧
      j' ≤ s.reserved.cnt + 1 ∧
      s.nextRangeRev skip i ⟨i - 1, j - 1⟩ = some (⟨i' - 1, j' - 1⟩, meet p) ∧
      (downward skip).next (s.memory.regions.take i).reverse (s.gaps.take j).reverse =
        some (p, (s.memory.regions.take i').reverse, (s.gaps.take j').reverse) := by
  induction i generalizing j with
  | zero => exact .inl ⟨rfl, rfl⟩
  | succ i ih =>
    have hlt : i < s.memory.regions.length := show i < s.memory.cnt by omega
    have hidx : ((i + 1 : ℕ) : ℤ) - 1 = i := by omega
    have hnext : ∀ j : ℕ, j ≤ s.reserved.cnt + 1 → _ := fun j hj => ih (j := j) (by omega) hj
    rw [hidx, nextRangeRev, take_succ_eq_append_getElem hlt, reverse_append,
      reverse_singleton, singleton_append, Sweep.next]
    have hm : s.memory.regions.getD i .placeholder = s.memory.regions[i] :=
      getD_eq_getElem _ _ hlt
    have hfuel : ((j : ℤ) - 1 + 1).toNat = j := by omega
    simp only [Int.toNat_natCast, hm, hfuel, show (downward skip).skip = skip from rfl]
    split
    · exact hnext j hj
    · obtain ⟨j', hj', hds, hinner⟩ :=
        nextMemRangeRevInner_eq (s := s) skip s.memory.regions[i] i hj
      rw [hinner, ← hds]
      cases hdrop : (s.gaps.take j').reverse with
      | nil =>
        have := hnext j' hj'
        rw [hdrop] at this
        exact this
      | cons gap rest =>
        obtain ⟨k, rfl⟩ : ∃ k, j' = k + 1 := by
          cases j' with
          | zero => cases hdrop
          | succ k => exact ⟨k, rfl⟩
        rw [reverse_take_gaps (by omega)] at hdrop
        obtain ⟨rfl, rfl⟩ := cons.inj hdrop
        dsimp only
        split_ifs with hpast hends
        · rw [← reverse_take_gaps (by omega)]
          exact hnext (k + 1) hj'
        · exact .inr ⟨(_, s.gapBefore k), i, k + 1, by omega, by omega, hj', rfl,
            by rw [reverse_take_gaps (by omega)]⟩
        · -- the first gap begins at 0, so it is not this one
          have hk : 0 < k := by
            rw [downward_ends] at hends
            refine Nat.pos_of_ne_zero fun h => hends ?_
            simp [gapBefore, h]
          refine .inr ⟨(s.memory.regions[i], s.gapBefore k), i + 1, k, hi, hk, by omega, ?_, ?_⟩
          · rw [hidx, show ((k + 1 : ℕ) : ℤ) - 1 = k by omega]
          · rw [take_succ_eq_append_getElem hlt, reverse_append]
            rfl

/-! ### The number of a search -/

/-- `ULLONG_MAX`. -/
def ullongMax : ℕ := 2 ^ 64 - 1

/-- The value of an `unsigned int` as an `int`. -/
def toInt (x : ℕ) : ℤ := if x < 2 ^ 31 then x else x - 2 ^ 32

/-- `(u32)idx_a | (u64)idx_b << 32`. -/
def packIndex (c : Cursor) : ℕ := (c.a % 2 ^ 32).toNat ||| (c.b % 2 ^ 32).toNat <<< 32

/-- Both indices of a number. -/
def unpackIndex (idx : ℕ) : Cursor := ⟨toInt (idx % 2 ^ 32), toInt (idx / 2 ^ 32 % 2 ^ 32)⟩

theorem packIndex_eq : packIndex c = 2 ^ 32 * (c.b % 2 ^ 32).toNat + (c.a % 2 ^ 32).toNat := by
  have ha : (c.a % 2 ^ 32).toNat < 2 ^ 32 := by omega
  rw [packIndex, Nat.two_pow_add_eq_or_of_lt ha, Nat.shiftLeft_eq, Nat.or_comm, Nat.mul_comm]

/-- An index that fits comes back. -/
theorem unpackIndex_packIndex (ha : -1 ≤ c.a ∧ c.a < 2 ^ 31) (hb : 0 ≤ c.b ∧ c.b < 2 ^ 31) :
    unpackIndex (packIndex c) = c := by
  obtain ⟨a, b⟩ := c
  rw [packIndex_eq, unpackIndex, toInt, toInt]
  dsimp only at *
  congr 1 <;> split <;> omega

/-- The number with which a loop ends does not stand for indices. -/
theorem packIndex_ne (hb : 0 ≤ c.b ∧ c.b < 2 ^ 31) : packIndex c ≠ ullongMax := by
  rw [packIndex_eq, ullongMax]
  omega

variable (skip s)

/-- `__next_mem_range`: the number of the next search and the range that has been found. A negative
index is not less than `cnt`, which is unsigned. -/
def nextMemRangeAt (idx : ℕ) : ℕ × ℕ × ℕ :=
  let c := unpackIndex idx
  match s.nextRange skip (if c.a < 0 then 0 else s.memory.cnt - c.a.toNat) c with
  | none => (ullongMax, 0, 0)
  | some (c, found) => (packIndex c, found)

/-- `__next_mem_range_rev`. -/
def nextMemRangeRevAt (idx : ℕ) : ℕ × ℕ × ℕ :=
  let c : Cursor := if idx = ullongMax then ⟨s.memory.cnt - 1, s.reserved.cnt⟩ else unpackIndex idx
  match s.nextRangeRev skip (c.a + 1).toNat c with
  | none => (ullongMax, 0, 0)
  | some (c, found) => (packIndex c, found)

/-- The loops `__for_each_mem_range` and `__for_each_mem_range_rev`, with at most `n` searches: the
ranges for which their body is executed. -/
def forEachRange (next : ℕ → ℕ × ℕ × ℕ) : ℕ → ℕ → Option (List (ℕ × ℕ))
  | 0, _ => none
  | n + 1, idx =>
    let found := next idx
    if found.1 = ullongMax then some [] else (forEachRange next n found.1).map (found.2 :: ·)

variable {skip s}

/-- A loop in which each search takes a step of a sweep is a run of the sweep. -/
theorem forEachRange_succ {next : ℕ → ℕ × ℕ × ℕ} {n idx : ℕ} {S : Sweep MemRegion (ℕ × ℕ)}
    {as : List MemRegion} {bs : List (ℕ × ℕ)}
    (h : (next idx = (ullongMax, 0, 0) ∧ S.next as bs = none) ∨
      ∃ c p as' bs', packIndex c ≠ ullongMax ∧ next idx = (packIndex c, meet p) ∧
        S.next as bs = some (p, as', bs') ∧
        forEachRange next n (packIndex c) = (S.run n as' bs').map (·.map meet)) :
    forEachRange next (n + 1) idx = (S.run (n + 1) as bs).map (·.map meet) := by
  rw [forEachRange, Sweep.run]
  rcases h with ⟨hidx, hnext⟩ | ⟨c, p, as', bs', hne, hidx, hnext, hrest⟩
  · simp [hidx, hnext]
  · simp only [hidx, hnext, if_neg hne, hrest, Option.map_map]
    rfl

/-- The loop over the ranges is a run of the sweep. -/
theorem forEachRange_upward (skip : MemRegion → Bool) (hmem : s.memory.cnt < 2 ^ 31)
    (hres : s.reserved.cnt + 1 < 2 ^ 31) {n a b : ℕ}
    (ha : a ≤ s.memory.cnt) (hb : b ≤ s.reserved.cnt + 1) :
    forEachRange (s.nextMemRangeAt skip) n (packIndex ⟨a, b⟩) =
      ((upward skip).run n (s.memory.regions.drop a) (s.gaps.drop b)).map (·.map meet) := by
  induction n generalizing a b with
  | zero => rfl
  | succ n ih =>
    apply forEachRange_succ
    have hc : unpackIndex (packIndex ⟨a, b⟩) = ⟨a, b⟩ :=
      unpackIndex_packIndex (by dsimp only; omega) (by dsimp only; omega)
    have hneg : ¬ (a : ℤ) < 0 := by omega
    rcases nextRange_eq skip ha hb rfl with ⟨hnone, hnext⟩ |
      ⟨p, a', b', ha', hb', hsome, hnext⟩
    · refine .inl ⟨?_, hnext⟩
      simp only [nextMemRangeAt, hc, if_neg hneg, Int.toNat_natCast, hnone]
    · refine .inr ⟨⟨a', b'⟩, p, _, _, packIndex_ne (by dsimp only; omega), ?_, hnext, ih ha' hb'⟩
      simp only [nextMemRangeAt, hc, if_neg hneg, Int.toNat_natCast, hsome]

/-- The loop from the ends is a run of the sweep from the ends. -/
theorem forEachRange_downward (skip : MemRegion → Bool) (idx : ℕ) (hmem : s.memory.cnt < 2 ^ 31)
    (hres : s.reserved.cnt + 1 < 2 ^ 31) {n i : ℕ}
    (hi : i ≤ s.memory.cnt) (hj : j ≤ s.reserved.cnt + 1)
    (hidx : (if idx = ullongMax then ⟨s.memory.cnt - 1, s.reserved.cnt⟩ else unpackIndex idx) =
      (⟨i - 1, j - 1⟩ : Cursor)) :
    forEachRange (s.nextMemRangeRevAt skip) n idx =
      ((downward skip).run n (s.memory.regions.take i).reverse (s.gaps.take j).reverse).map
        (·.map meet) := by
  induction n generalizing idx i j with
  | zero => rfl
  | succ n ih =>
    apply forEachRange_succ
    have hfuel : ((i : ℤ) - 1 + 1).toNat = i := by omega
    rcases nextRangeRev_eq skip hi hj with ⟨hnone, hnext⟩ |
      ⟨p, i', j', hi', hpos, hj', hsome, hnext⟩
    · refine .inl ⟨?_, hnext⟩
      simp only [nextMemRangeRevAt, hidx, hfuel, hnone]
    · have hne : packIndex ⟨(i' : ℤ) - 1, (j' : ℤ) - 1⟩ ≠ ullongMax :=
        packIndex_ne (by dsimp only; omega)
      refine .inr ⟨_, p, _, _, hne, ?_, hnext, ih _ hi' hj' ?_⟩
      · simp only [nextMemRangeRevAt, hidx, hfuel, hsome]
      · rw [if_neg hne, unpackIndex_packIndex (by dsimp only; omega) (by dsimp only; omega)]

/-! ### The gaps -/

/-- The gaps behind `lo`, between the regions of a list. -/
def gapsFrom (lo : ℕ) : List MemRegion → List (ℕ × ℕ)
  | [] => [(lo, physAddrMax)]
  | r :: rest => (lo, r.base) :: gapsFrom r.stop rest

/-- Regions one behind the other, from `lo` on. -/
structure Along (lo : ℕ) (l : List MemRegion) : Prop where
  le_base : ∀ r ∈ l, lo ≤ r.base
  apart : l.Pairwise fun a b => a.stop ≤ b.base
  le_max : ∀ r ∈ l, r.stop ≤ physAddrMax

theorem Along.tail {lo : ℕ} {r : MemRegion} {rest : List MemRegion} (h : Along lo (r :: rest)) :
    Along r.stop rest :=
  ⟨(pairwise_cons.1 h.apart).1, (pairwise_cons.1 h.apart).2,
    fun x hx => h.le_max x (mem_cons_of_mem _ hx)⟩

theorem along_of_ok {t : MemblockType} (h : t.Ok) : Along 0 t.regions :=
  ⟨fun _ _ => Nat.zero_le _, h.disjoint, h.no_wrap⟩

variable {lo x : ℕ} {l : List MemRegion}

section

variable (h : Along lo l)
include h

theorem Along.le_fst (hlo : lo ≤ physAddrMax) (hg : gap ∈ gapsFrom lo l) :
    lo ≤ gap.1 ∧ gap.1 ≤ gap.2 := by
  induction l generalizing lo with
  | nil =>
    obtain rfl := mem_singleton.1 hg
    exact ⟨le_rfl, hlo⟩
  | cons r rest ih =>
    have hbase := h.le_base r mem_cons_self
    rcases mem_cons.1 hg with rfl | hg
    · exact ⟨le_rfl, hbase⟩
    · obtain ⟨hle, hgap⟩ := ih h.tail (h.le_max r mem_cons_self) hg
      have : r.base ≤ r.stop := Nat.le_add_right _ _
      exact ⟨by omega, hgap⟩

/-- The gaps are one behind the other. -/
theorem Along.pairwise_gaps : (gapsFrom lo l).Pairwise fun gap gap' => gap.2 ≤ gap'.1 := by
  induction l generalizing lo with
  | nil => exact pairwise_singleton _ _
  | cons r rest ih =>
    refine pairwise_cons.2 ⟨fun gap' hg => ?_, ih h.tail⟩
    have hle := (h.tail.le_fst (h.le_max r mem_cons_self) hg).1
    have : r.base ≤ r.stop := Nat.le_add_right _ _
    exact this.trans hle

/-- An address is in a gap if it is in no region. -/
theorem Along.exists_gap (hlo : lo ≤ x) (hx : x < physAddrMax) :
    (∃ gap ∈ gapsFrom lo l, gap.1 ≤ x ∧ x < gap.2) ↔ ∀ r ∈ l, ¬ (r.base ≤ x ∧ x < r.stop) := by
  induction l generalizing lo with
  | nil => simp [gapsFrom, hlo, hx]
  | cons r rest ih =>
    have hstop : r.base ≤ r.stop := Nat.le_add_right _ _
    have hmax := h.le_max r mem_cons_self
    simp only [gapsFrom, mem_cons, exists_eq_or_imp, forall_eq_or_imp]
    by_cases hrx : x < r.stop
    · -- no later gap and no later region begins before `r` ends
      have hgaps : ¬ ∃ gap ∈ gapsFrom r.stop rest, gap.1 ≤ x ∧ x < gap.2 := by
        rintro ⟨gap, hg, hle, -⟩
        have := (h.tail.le_fst hmax hg).1
        omega
      have hrest : ∀ r' ∈ rest, ¬ (r'.base ≤ x ∧ x < r'.stop) := by
        intro r' hr' hin
        have := h.tail.le_base r' hr'
        omega
      rw [or_iff_left hgaps, and_iff_left hrest]
      have := h.le_base r mem_cons_self
      omega
    · rw [ih h.tail (not_lt.1 hrx)]
      constructor
      · rintro (hin | hrest)
        · omega
        · exact ⟨by omega, hrest⟩
      · exact fun hin => .inr hin.2

/-- If no two regions touch, no gap is empty, unless it lies at the end of the addresses. -/
theorem Along.gap_nonempty (hfirst : ∀ r ∈ l, lo < r.base)
    (hapart : l.Pairwise fun a b => a.stop < b.base) (hg : gap ∈ gapsFrom lo l) :
    gap.1 < gap.2 ∨ physAddrMax ≤ gap.1 := by
  induction l generalizing lo with
  | nil =>
    obtain rfl := mem_singleton.1 hg
    exact lt_or_ge _ _
  | cons r rest ih =>
    rcases mem_cons.1 hg with rfl | hg
    · exact .inl (hfirst r mem_cons_self)
    · exact ih h.tail (pairwise_cons.1 hapart).1 (pairwise_cons.1 hapart).2 hg

end

theorem rend_eq_stop {r : MemRegion} (h : r.stop ≤ physAddrMax) : r.rend = r.stop :=
  wadd_of_le_max h

/-- The gaps by their indices. -/
theorem map_range_eq_gapsFrom (hmax : ∀ r ∈ l, r.stop ≤ physAddrMax) (lo : ℕ) :
    ((range (l.length + 1)).map fun i =>
      (if i = 0 then lo else (l.getD (i - 1) .placeholder).rend,
        if i < l.length then (l.getD i .placeholder).base else physAddrMax)) = gapsFrom lo l := by
  induction l generalizing lo with
  | nil => rfl
  | cons r rest ih =>
    have hr := rend_eq_stop (hmax r mem_cons_self)
    rw [length_cons, range_succ_eq_map, map_cons, map_map, gapsFrom,
      ← ih (fun x hx => hmax x (mem_cons_of_mem _ hx)) r.stop]
    refine congrArg₂ cons (by simp) (map_congr_left fun i _ => ?_)
    cases i with
    | zero => cases rest <;> simp [hr]
    | succ i => simp

section

variable (h : Along 0 s.reserved.regions)
include h

/-- The gaps that the searches compute. -/
theorem gaps_eq : s.gaps = gapsFrom 0 s.reserved.regions :=
  map_range_eq_gapsFrom h.le_max 0

theorem gap_le (hg : gap ∈ s.gaps) : gap.1 ≤ gap.2 :=
  (h.le_fst (Nat.zero_le _) (gaps_eq h ▸ hg)).2

theorem gaps_pairwise : s.gaps.Pairwise fun gap gap' => gap.2 ≤ gap'.1 :=
  gaps_eq h ▸ h.pairwise_gaps

end

/-! ### The order of the sweeps -/

theorem Along.pairwise_rend (h : Along lo l) :
    l.Pairwise fun m m' => m.base ≤ m.rend ∧ m.rend ≤ m'.base ∧ m'.base ≤ m'.rend :=
  h.apart.imp_of_mem fun {m m'} hm hm' hle => by
    have : m.base ≤ m.stop := Nat.le_add_right _ _
    have : m'.base ≤ m'.stop := Nat.le_add_right _ _
    rw [rend_eq_stop (h.le_max m hm), rend_eq_stop (h.le_max m' hm')]
    omega

section

variable (skip) (hm : Along 0 s.memory.regions) (hr : Along 0 s.reserved.regions)
include hm hr

theorem upward_sorted : (upward skip).Sorted s.memory.regions s.gaps := by
  have hgaps := gaps_pairwise hr
  have hmem := hm.pairwise_rend
  constructor
  · refine hgaps.imp_of_mem fun {gap gap'} hg hg' hle m hm => ?_
    have := gap_le hr hg
    simp only [upward_past]
    omega
  · refine hgaps.imp fun {gap gap'} hle m hm => ?_
    simp only [upward_past, upward_ends]
    omega
  · refine hmem.imp fun {m m'} hle gap hg => ?_
    simp only [upward_before]
    omega
  · refine hmem.imp fun {m m'} hle gap hg => ?_
    simp only [upward_before, upward_ends]
    omega

theorem downward_sorted : (downward skip).Sorted s.memory.regions.reverse s.gaps.reverse := by
  have hgaps := gaps_pairwise hr
  have hmem := hm.pairwise_rend
  constructor <;> rw [pairwise_reverse]
  · refine hgaps.imp_of_mem fun {gap gap'} hg hg' hle m hm => ?_
    have := gap_le hr hg'
    simp only [downward_past]
    omega
  · refine hgaps.imp fun {gap gap'} hle m hm => ?_
    simp only [downward_past, downward_ends]
    omega
  · refine hmem.imp fun {m m'} hle gap hg => ?_
    simp only [downward_before]
    omega
  · refine hmem.imp fun {m m'} hle gap hg => ?_
    simp only [downward_before, downward_ends]
    omega

end

variable (skip s) in
/-- The free ranges: the memory that is not skipped, cut at the reserved regions. -/
def freeRanges : List (ℕ × ℕ) := ((upward skip).pairs s.memory.regions s.gaps).map meet

theorem upward_meets : (upward skip).meets m gap ↔
    ¬ skip m ∧ gap.1 < m.rend ∧ m.base < gap.2 := by
  simp [Sweep.meets, upward, and_assoc]

theorem downward_meets (m : MemRegion) (gap : ℕ × ℕ) :
    (downward skip).meets m gap = (upward skip).meets m gap := by
  rw [Bool.eq_iff_iff, upward_meets]
  simp [Sweep.meets, downward, and_assoc, and_comm]

/-- **Both loops.** -/
theorem forEachRange_eq (hm : Along 0 s.memory.regions) (hr : Along 0 s.reserved.regions)
    (hmem : s.memory.cnt < 2 ^ 31) (hres : s.reserved.cnt + 1 < 2 ^ 31) {n : ℕ}
    (hn : s.memory.cnt + s.reserved.cnt + 1 ≤ n) :
    forEachRange (s.nextMemRangeAt skip) n 0 = some (s.freeRanges skip) ∧
      forEachRange (s.nextMemRangeRevAt skip) n ullongMax = some (s.freeRanges skip).reverse := by
  have hlen : s.memory.regions.length + s.gaps.length ≤ n := by
    rw [length_gaps]
    exact hn
  constructor
  · have hrun := Sweep.run_eq (upward_sorted skip hm hr) hlen (by omega)
    have hloop := forEachRange_upward skip (n := n) hmem hres (Nat.zero_le _)
      (Nat.zero_le (s.reserved.cnt + 1))
    rw [drop_zero, drop_zero, hrun] at hloop
    exact hloop
  · have hrun := Sweep.run_eq (downward_sorted skip hm hr) (n := n)
      (by simpa using hlen) (by omega)
    rw [Sweep.pairs_reverse _ downward_meets] at hrun
    have hloop := forEachRange_downward skip ullongMax (n := n) hmem hres le_rfl
      (le_refl (s.reserved.cnt + 1)) (by rw [if_pos rfl]; congr 1; omega)
    rw [take_of_length_le (show s.memory.regions.length ≤ s.memory.cnt from le_rfl),
      take_of_length_le length_gaps.le, hrun] at hloop
    rw [hloop, Option.map_some, map_reverse]
    rfl

/-! ### What the ranges are -/

/-- The ranges are one behind the other. -/
theorem freeRanges_pairwise (hm : Along 0 s.memory.regions) (hr : Along 0 s.reserved.regions) :
    (s.freeRanges skip).Pairwise fun p q => p.2 ≤ q.1 := by
  rw [freeRanges, pairwise_map, Sweep.pairs, pairwise_flatMap]
  constructor
  · intro m hmem
    rw [pairwise_map]
    refine ((gaps_pairwise hr).sublist filter_sublist).imp fun {gap gap'} hle => ?_
    simp only [meet]
    omega
  · refine hm.pairwise_rend.imp fun {m m'} hle p hp q hq => ?_
    obtain ⟨gap, -, rfl⟩ := mem_map.1 hp
    obtain ⟨gap', -, rfl⟩ := mem_map.1 hq
    simp only [meet]
    omega

theorem mem_freeRanges {p : ℕ × ℕ} : p ∈ s.freeRanges skip ↔
    ∃ m ∈ s.memory.regions, ¬ skip m ∧ ∃ gap ∈ s.gaps, (gap.1 < m.rend ∧ m.base < gap.2) ∧
      p = meet (m, gap) := by
  simp only [freeRanges, Sweep.pairs, mem_map, mem_flatMap, mem_filter, upward_meets]
  constructor
  · rintro ⟨-, ⟨m, hm, gap, ⟨hg, hskip, hmeet⟩, rfl⟩, rfl⟩
    exact ⟨m, hm, hskip, gap, hg, hmeet, rfl⟩
  · rintro ⟨m, hm, hskip, gap, hg, hmeet, rfl⟩
    exact ⟨_, ⟨m, hm, gap, ⟨hg, hskip, hmeet⟩, rfl⟩, rfl⟩

/-- The ranges make up the memory that is neither skipped nor reserved. -/
theorem exists_freeRange (hm : Along 0 s.memory.regions) (hr : Along 0 s.reserved.regions) :
    (∃ p ∈ s.freeRanges skip, p.1 ≤ x ∧ x < p.2) ↔
      (∃ m ∈ s.memory.regions, ¬ skip m ∧ m.base ≤ x ∧ x < m.stop) ∧
        ∀ r ∈ s.reserved.regions, ¬ (r.base ≤ x ∧ x < r.stop) := by
  constructor
  · rintro ⟨p, hp, hx⟩
    obtain ⟨m, hmem, hskip, gap, hg, -, rfl⟩ := mem_freeRanges.1 hp
    have hmax := hm.le_max m hmem
    simp only [meet, rend_eq_stop hmax] at hx
    rw [← hr.exists_gap (Nat.zero_le x) (by omega), ← gaps_eq hr]
    exact ⟨⟨m, hmem, hskip, by omega⟩, gap, hg, by omega⟩
  · rintro ⟨⟨m, hmem, hskip, hx⟩, hout⟩
    have hmax := hm.le_max m hmem
    rw [← hr.exists_gap (Nat.zero_le x) (by omega), ← gaps_eq hr] at hout
    obtain ⟨gap, hg, hgx⟩ := hout
    rw [← rend_eq_stop hmax] at hx
    refine ⟨_, mem_freeRanges.2 ⟨m, hmem, hskip, gap, hg, by omega, rfl⟩, ?_⟩
    simp only [meet]
    omega

/-- No range is empty, if no two reserved regions touch. -/
theorem freeRanges_nonempty (hm : Along 0 s.memory.regions) (hr : Along 0 s.reserved.regions)
    (hne : s.memory.regions = [.placeholder] ∨ ∀ m ∈ s.memory.regions, 0 < m.size)
    (hapart : s.reserved.regions.Pairwise fun a b => a.stop < b.base) :
    ∀ p ∈ s.freeRanges skip, p.1 < p.2 := by
  intro p hp
  obtain ⟨m, hmem, -, gap, hg, hmeet, rfl⟩ := mem_freeRanges.1 hp
  have hmax := hm.le_max m hmem
  rw [rend_eq_stop hmax] at hmeet
  have hsize : m.base < m.stop := by
    rcases hne with hp | hne
    · rw [hp] at hmem
      obtain rfl := mem_singleton.1 hmem
      exact absurd hmeet.1 (Nat.not_lt_zero _)
    · have := hne m hmem
      rw [stop]
      omega
  have hgap : gap.1 < gap.2 := by
    rw [gaps_eq hr] at hg
    cases hregions : s.reserved.regions with
    | nil =>
      rw [hregions] at hg
      obtain rfl := mem_singleton.1 hg
      dsimp only at hmeet ⊢
      omega
    | cons r rest =>
      rw [hregions] at hg hr hapart
      rcases mem_cons.1 hg with rfl | hg
      · dsimp only at hmeet ⊢
        omega
      · obtain ⟨hfirst, hrest⟩ := pairwise_cons.1 hapart
        rcases hr.tail.gap_nonempty hfirst hrest hg with hlt | hend
        · exact hlt
        · omega
  simp only [meet, rend_eq_stop hmax]
  omega

end Memblock

/-- A list of regions as the calls leave it: regions that touch have different flags, since they are
merged otherwise, and the array lies in the address space. -/
structure MemblockType.WellFormed (t : MemblockType) : Prop extends t.Ok where
  merged : t.regions.Pairwise fun a b => a.stop = b.base → a.flags ≠ b.flags
  array_fits : t.cnt * Memblock.regionBytes ≤ wordSize

namespace Memblock

variable {s : Memblock}

/-- **The free ranges.** Both loops end. The one yields the memory that is neither skipped nor
reserved, in ascending order, as ranges that are disjoint and not empty; the other yields the same
ranges in reverse. -/
theorem forEachRange_free (hm : s.memory.WellFormed) (hr : s.reserved.WellFormed)
    (hflags : ∀ r ∈ s.reserved.regions, r.flags = 0) (nid : ℤ) (flags : ℕ) :
    ∃ l : List (ℕ × ℕ),
      (∀ n ≥ s.memory.cnt + s.reserved.cnt + 1,
        forEachRange (s.nextMemRangeAt (skipped nid flags)) n 0 = some l ∧
        forEachRange (s.nextMemRangeRevAt (skipped nid flags)) n ullongMax =
          some l.reverse) ∧
      (l.Pairwise fun p q => p.2 ≤ q.1) ∧ (∀ p ∈ l, p.1 < p.2) ∧
      ∀ x, (∃ p ∈ l, p.1 ≤ x ∧ x < p.2) ↔
        (∃ m ∈ s.memory.regions, ¬ skipped nid flags m ∧ m.base ≤ x ∧ x < m.stop) ∧
          x ∉ s.reserved.covered := by
  have ham := along_of_ok hm.toOk
  have har := along_of_ok hr.toOk
  have hsmall : ∀ t : MemblockType, t.WellFormed → t.cnt + 1 < 2 ^ 31 := fun t ht => by
    have := ht.array_fits
    unfold regionBytes wordSize at this
    omega
  have hmem := hsmall _ hm
  have hres := hsmall _ hr
  have hapart : s.reserved.regions.Pairwise fun a b => a.stop < b.base := by
    refine (hr.disjoint.and hr.merged).imp_of_mem fun {a b} ha hb h => ?_
    have hne : a.stop ≠ b.base := fun heq => h.2 heq ((hflags a ha).trans (hflags b hb).symm)
    have hle : a.stop ≤ b.base := h.1
    omega
  refine ⟨s.freeRanges (skipped nid flags),
    fun n hn => forEachRange_eq ham har (by omega) hres hn, freeRanges_pairwise ham har,
    freeRanges_nonempty ham har hm.nonempty hapart, fun x => ?_⟩
  rw [exists_freeRange ham har, MemblockType.notMem_covered]

/-- Memory of which a part may not be mapped, with a hole in front and a reserved page. -/
def holedMemblock : Memblock :=
  { bootMemblock with
    memory := ⟨128, 0x9000, [⟨0x1000, 0x7000, 0⟩, ⟨0x8000, 0x1000, 4⟩, ⟨0x9000, 0x1000, 0⟩], none⟩
    reserved := ⟨128, 0x1000, [⟨0x2000, 0x1000, 0⟩], none⟩ }

theorem forEachRange_holed :
    ∃ l : List (ℕ × ℕ),
      forEachRange (holedMemblock.nextMemRangeAt (skipped (-1) 0)) 5 0 = some l ∧
      forEachRange (holedMemblock.nextMemRangeRevAt (skipped (-1) 0)) 5 ullongMax =
        some l.reverse ∧
      ∀ x, (∃ p ∈ l, p.1 ≤ x ∧ x < p.2) ↔
        (∃ m ∈ holedMemblock.memory.regions, ¬ skipped (-1) 0 m ∧ m.base ≤ x ∧ x < m.stop) ∧
          x ∉ holedMemblock.reserved.covered := by
  obtain ⟨l, hloops, -, -, hx⟩ := forEachRange_free (s := holedMemblock)
    ⟨⟨by decide, by decide, by decide, by decide, by decide, rfl⟩, by decide, by decide⟩
    ⟨⟨by decide, by decide, by decide, by decide, by decide, rfl⟩, by decide, by decide⟩
    (by decide) (-1) 0
  exact ⟨l, (hloops 5 (by decide)).1, (hloops 5 (by decide)).2, hx⟩

example : forEachRange (holedMemblock.nextMemRangeAt (skipped (-1) 0)) 5 0 =
    some [(0x1000, 0x2000), (0x3000, 0x8000), (0x9000, 0xa000)] := by
  decide +kernel

end Memblock

end MinimalKernel.Mm
