import MinimalKernel.Mm.MemblockRuns

/-!
# Trimming the memory to pages

`memblock_trim_memory` cuts each region of the memory down to the multiples of `align` inside it,
and removes a region without any. It looks at one region at a time, so its effect on the list is
`trimRegion` on each region.

`round_up` wraps to 0 for a base behind the last multiple of `align`, and then the region becomes
the whole address space up to that multiple. This goes unnoticed only when some region covered all
of that before.

## Main definitions

* `trimRegion` — what is left of a region
* `Trimmed` — what trimming is for: regions only shrink, to multiples, and no aligned block is lost

## Main results

* `mem_trimMemory` — the list afterwards, region by region
* `trimMemory_trimmed_iff` — when the regions are trimmed as they should be
-/

namespace MinimalKernel.Mm

open List MemRegion

namespace Memblock

open MemblockType

/-- What `memblock_trim_memory` leaves of a region. -/
def trimRegion (align : ℕ) (r : MemRegion) : Option MemRegion :=
  let start := roundUp r.base align
  let stop := roundDown r.rend align
  if start = r.base ∧ stop = r.rend then some r
  else if start < stop then some { r with base := start, size := stop - start }
  else none

/-- The regions of `l'` are what is left of those of `l`: they only shrink, to multiples of `align`,
and they still cover each aligned block. The region of size 0 stands for an empty list. -/
structure Trimmed (align : ℕ) (l l' : List MemRegion) : Prop where
  shrunk : ∀ r' ∈ l', 0 < r'.size → ∃ r ∈ l, r.base ≤ r'.base ∧ r'.stop ≤ r.stop
  aligned : ∀ r' ∈ l', align ∣ r'.base ∧ align ∣ r'.stop
  covered : ∀ r ∈ l, ∀ x, align ∣ x → r.base ≤ x → x + align ≤ r.stop →
    ∃ r' ∈ l', r'.base ≤ x ∧ x + align ≤ r'.stop

/-! ### The loop -/

variable {align : ℕ} {t : MemblockType} {r r' : MemRegion}

theorem trimLoop_of_some {n i : ℕ}
    (h : trimRegion align (t.regions.getD i .placeholder) = some r) (hi : i < t.regions.length) :
    trimLoop align (n + 1) i t =
      trimLoop align n (i + 1) { t with regions := t.regions.set i r } := by
  rw [trimLoop]
  simp only [trimRegion] at h ⊢
  split_ifs at h with halready hpart
  · cases h
    rw [if_pos halready, getD_eq_getElem _ _ hi, set_getElem_self]
  · cases h
    rw [if_neg halready, if_pos hpart]

theorem trimLoop_of_none {n i : ℕ} (h : trimRegion align (t.regions.getD i .placeholder) = none) :
    trimLoop align (n + 1) i t = trimLoop align n i (t.removeRegion i) := by
  rw [trimLoop]
  simp only [trimRegion] at h ⊢
  split_ifs at h with halready hpart
  rw [if_neg halready, if_neg hpart]

/-- The loop applies `trimRegion` to the regions behind `front`. -/
theorem regions_trimLoop (front rest : List MemRegion)
    (ht : t.regions = orPlaceholder (front ++ rest)) :
    (trimLoop align rest.length front.length t).regions =
      orPlaceholder (front ++ rest.filterMap (trimRegion align)) := by
  induction rest generalizing front t with
  | nil => exact ht
  | cons x rest ih =>
    rw [orPlaceholder_of_ne_nil (by simp)] at ht
    have hx : t.regions.getD front.length .placeholder = x := by
      rw [ht, getD_append_right _ _ _ _ le_rfl, Nat.sub_self]
      rfl
    have hi : front.length < t.regions.length := by
      rw [ht, length_append, length_cons]
      omega
    cases htrim : trimRegion align x with
    | some r =>
      have hset : t.regions.set front.length r = front ++ [r] ++ rest := by
        rw [ht, set_append_right _ _ le_rfl, Nat.sub_self, append_assoc]
        rfl
      have := ih (t := { t with regions := t.regions.set front.length r }) (front ++ [r])
        (by rw [orPlaceholder_of_ne_nil (by simp)]; exact hset)
      rw [length_append] at this
      rw [length_cons, trimLoop_of_some (by rw [hx]; exact htrim) hi,
        filterMap_cons_some htrim, append_cons]
      exact this
    | none =>
      have herase : t.regions.eraseIdx front.length = front ++ rest := by
        rw [ht, eraseIdx_append_of_length_le le_rfl, Nat.sub_self]
        rfl
      rw [length_cons, trimLoop_of_none (by rw [hx]; exact htrim), filterMap_cons_none htrim]
      apply ih
      rw [regions_removeRegion, herase]

/-- **Trimming, region by region.** -/
theorem mem_trimMemory (align : ℕ) (s : Memblock) :
    (∀ r ∈ s.memory.regions, ∀ r', trimRegion align r = some r' →
      r' ∈ (s.trimMemory align).memory.regions) ∧
    ∀ r' ∈ (s.trimMemory align).memory.regions, r' = .placeholder ∨
      ∃ r ∈ s.memory.regions, trimRegion align r = some r' := by
  have hloop : (s.trimMemory align).memory.regions =
      (trimLoop align s.memory.regions.length 0 s.memory).regions := rfl
  by_cases hnil : s.memory.regions = []
  · rw [hloop, hnil, length_nil, trimLoop, hnil]
    simp
  · have hregions : (s.trimMemory align).memory.regions =
        orPlaceholder (s.memory.regions.filterMap (trimRegion align)) :=
      regions_trimLoop [] s.memory.regions (orPlaceholder_of_ne_nil hnil).symm
    rw [hregions]
    constructor
    · intro r hr r' hr'
      have hmem := mem_filterMap.2 ⟨r, hr, hr'⟩
      rwa [orPlaceholder_of_ne_nil (ne_nil_of_mem hmem)]
    · intro r' hr'
      rcases mem_orPlaceholder hr' with hmem | rfl
      · exact .inr (mem_filterMap.1 hmem)
      · exact .inl rfl

/-! ### One region -/

section Region

variable {k : ℕ} (hk : k < 32) (hmax : r.stop ≤ physAddrMax)

include hk hmax

/-- A region with a multiple behind its base shrinks to multiples. -/
theorem trimRegion_shrinks (hbase : r.base ≤ wordSize - 2 ^ k)
    (h : trimRegion (2 ^ k) r = some r') :
    (r.base ≤ r'.base ∧ r'.stop ≤ r.stop) ∧ 2 ^ k ∣ r'.base ∧ 2 ^ k ∣ r'.stop := by
  have hstop := lt_wordSize_of_le hmax
  have hrend : r.rend = r.stop := wadd_of_lt hstop
  have hlt : r.base < wordSize := lt_of_le_of_lt (Nat.le_add_right _ r.size) hstop
  have hup := le_roundUp hk hbase
  have hdown := roundDown_le r.stop (2 ^ k)
  have hdvd := dvd_roundUp hlt hk
  have hdvd' := dvd_roundDown hstop hk
  simp only [trimRegion, hrend] at h
  split_ifs at h with halready hpart
  · cases h
    rw [halready.1] at hdvd
    rw [halready.2] at hdvd'
    exact ⟨⟨le_rfl, le_rfl⟩, hdvd, hdvd'⟩
  · cases h
    have hend : roundUp r.base (2 ^ k) + (roundDown r.stop (2 ^ k) - roundUp r.base (2 ^ k)) =
        roundDown r.stop (2 ^ k) := Nat.add_sub_cancel' hpart.le
    exact ⟨⟨hup, hend.trans_le hdown⟩, hdvd, by rw [stop, hend]; exact hdvd'⟩

/-- What is left covers the blocks of the region. -/
theorem trimRegion_covers {x : ℕ} (hdvd : 2 ^ k ∣ x) (hlo : r.base ≤ x) (hhi : x + 2 ^ k ≤ r.stop) :
    ∃ r', trimRegion (2 ^ k) r = some r' ∧ r'.base ≤ x ∧ x + 2 ^ k ≤ r'.stop := by
  have hstop := lt_wordSize_of_le hmax
  have hrend : r.rend = r.stop := wadd_of_lt hstop
  have hlt : r.base < wordSize := lt_of_le_of_lt (Nat.le_add_right _ r.size) hstop
  have hup := roundUp_le hlt hk hdvd hlo
  have hdown := le_roundDown hstop hk (Nat.dvd_add hdvd dvd_rfl) hhi
  simp only [trimRegion, hrend]
  split_ifs with halready hpart
  · exact ⟨r, rfl, hlo, hhi⟩
  · refine ⟨_, rfl, hup, ?_⟩
    show x + 2 ^ k ≤ roundUp r.base (2 ^ k) + (roundDown r.stop (2 ^ k) - roundUp r.base (2 ^ k))
    omega
  · omega

/-- A region behind the last multiple becomes everything before it. -/
theorem trimRegion_wraps (hbase : wordSize - 2 ^ k < r.base) :
    trimRegion (2 ^ k) r = some ⟨0, wordSize - 2 ^ k, r.flags⟩ := by
  have hstop := lt_wordSize_of_le hmax
  have hrend : r.rend = r.stop := wadd_of_lt hstop
  have hle : r.base ≤ r.stop := Nat.le_add_right _ r.size
  have hword : 2 ^ k < wordSize := Nat.pow_lt_pow_right one_lt_two hk
  have hdvd : 2 ^ k ∣ wordSize := Nat.pow_dvd_pow 2 hk.le
  have hup := roundUp_of_lt (hle.trans_lt hstop) hk hbase
  have hdown : roundDown r.stop (2 ^ k) = wordSize - 2 ^ k := by
    apply le_antisymm
    · -- a larger multiple would be the end of the address space
      by_contra hgt
      have := (Nat.dvd_sub hdvd (dvd_roundDown hstop hk))
      have := Nat.le_of_dvd (by have := roundDown_le r.stop (2 ^ k); omega) this
      have := roundDown_le r.stop (2 ^ k)
      omega
    · exact le_roundDown hstop hk (Nat.dvd_sub hdvd dvd_rfl) (by omega)
  simp only [trimRegion, hrend, hup, hdown]
  rw [if_neg (by omega), if_pos (by omega), Nat.sub_zero]

end Region

/-! ### The list -/

/-- **When trimming trims.** The regions shrink to multiples of `align` and no aligned block is
lost, if and only if no region begins behind the last multiple of `align`, or some region covered
everything before that multiple already. -/
theorem trimMemory_trimmed_iff {s : Memblock} (hpow : isPowerOf2 align) (halign : align < wordSize)
    (hmax : ∀ r ∈ s.memory.regions, r.stop ≤ physAddrMax) :
    Trimmed align s.memory.regions (s.trimMemory align).memory.regions ↔
      (∀ r ∈ s.memory.regions, r.base ≤ wordSize - align) ∨
        ∃ r ∈ s.memory.regions, r.base = 0 ∧ wordSize - align ≤ r.stop := by
  obtain ⟨k, hk, rfl⟩ := exists_of_isPowerOf2 hpow halign
  obtain ⟨hin, hout⟩ := mem_trimMemory (2 ^ k) s
  have hdvd : 2 ^ k ∣ wordSize - 2 ^ k := Nat.dvd_sub (Nat.pow_dvd_pow 2 hk.le) dvd_rfl
  constructor
  · intro h
    by_contra hne
    simp only [not_or, not_forall, not_exists, not_and, not_le] at hne
    obtain ⟨⟨r, hr, hbase⟩, hcover⟩ := hne
    obtain ⟨r₀, hr₀, hzero, hstop⟩ :=
      h.shrunk _ (hin r hr _ (trimRegion_wraps hk (hmax r hr) hbase)) (by
        dsimp only
        omega)
    have hlt := hcover r₀ hr₀ (Nat.le_zero.1 hzero)
    simp only [stop, Nat.zero_add] at hstop hlt
    omega
  · intro h
    -- the one region that the wrap yields is aligned, and inside an old region by `h`
    have hwrapped : ∀ r ∈ s.memory.regions, wordSize - 2 ^ k < r.base →
        ∃ r ∈ s.memory.regions, r.base = 0 ∧ wordSize - 2 ^ k ≤ r.stop := by
      intro r hr hbase
      exact h.resolve_left fun hall => absurd (hall r hr) (not_le.2 hbase)
    refine ⟨?_, ?_, ?_⟩
    · intro r' hr' hsize
      rcases hout r' hr' with rfl | ⟨r, hr, htrim⟩
      · exact absurd hsize (lt_irrefl 0)
      · by_cases hbase : r.base ≤ wordSize - 2 ^ k
        · exact ⟨r, hr, (trimRegion_shrinks hk (hmax r hr) hbase htrim).1⟩
        · obtain ⟨r₀, hr₀, hzero, hstop⟩ := hwrapped r hr (not_le.1 hbase)
          rw [trimRegion_wraps hk (hmax r hr) (not_le.1 hbase)] at htrim
          cases htrim
          exact ⟨r₀, hr₀, hzero.le, (Nat.zero_add _).trans_le hstop⟩
    · intro r' hr'
      rcases hout r' hr' with rfl | ⟨r, hr, htrim⟩
      · exact ⟨dvd_zero _, dvd_zero _⟩
      · by_cases hbase : r.base ≤ wordSize - 2 ^ k
        · exact (trimRegion_shrinks hk (hmax r hr) hbase htrim).2
        · rw [trimRegion_wraps hk (hmax r hr) (not_le.1 hbase)] at htrim
          cases htrim
          exact ⟨dvd_zero _, by rwa [stop, Nat.zero_add]⟩
    · intro r hr x hx hlo hhi
      obtain ⟨r', htrim, hcov⟩ := trimRegion_covers hk (hmax r hr) hx hlo hhi
      exact ⟨r', hin r hr r' htrim, hcov⟩

/-- Pages at both ends of a region are cut off. -/
theorem trimMemory_trimmed_pages :
    Trimmed 0x1000 [⟨0x800, 0x2c00, 0⟩]
      (trimMemory 0x1000
        { bootMemblock with memory := ⟨128, 0x2c00, [⟨0x800, 0x2c00, 0⟩], none⟩ }).memory.regions :=
  (trimMemory_trimmed_iff
    (s := { bootMemblock with memory := ⟨128, 0x2c00, [⟨0x800, 0x2c00, 0⟩], none⟩ })
    (by decide) (by decide) (by decide)).2 (.inl (by decide))

/-- A kilobyte in the last page of the address space becomes all the memory before that page. -/
theorem trimMemory_last_page :
    (trimMemory 0x1000 { bootMemblock with
        memory := ⟨128, 0x400, [⟨0xfffff800, 0x400, 0⟩], none⟩ }).memory.regions =
      [⟨0, 0xfffff000, 0⟩] ∧
    ¬ Trimmed 0x1000 [⟨0xfffff800, 0x400, 0⟩] [⟨0, 0xfffff000, 0⟩] := by
  refine ⟨by decide +kernel, fun h => ?_⟩
  obtain ⟨r, hr, hbase, -⟩ := h.shrunk _ mem_cons_self (by decide)
  obtain rfl := mem_singleton.1 hr
  exact absurd hbase (by decide)

end Memblock

end MinimalKernel.Mm
