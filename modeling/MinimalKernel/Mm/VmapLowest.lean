import Mathlib.Order.Bounds.Basic
import MinimalKernel.Mm.VmapRuns

/-!
# The lowest address for an allocation

`__alloc_vmap_area` should return the lowest address from which on the range lies in a free area and
in the window of the request. The search goes by the numbers of the subtrees, which say nothing on
where the areas lie, so it may have to climb back. For alignments up to the page size it still
passes no area that has room (`FreeOk.allocFromFree_eq`).

The address is a multiple of the alignment that was asked for, which may be less than a page; and
where the range lies in the middle of a free area, a second area is needed for what remains. The
call fails without memory for it.

## Main results

* `VmapState.allocFromFree_lowest` — the address, and when there is none
-/

namespace MinimalKernel.Mm

open Lib List

namespace VmapState

variable {s : VmapState} {size align vstart vend addr va : ℕ}

/-- A range may be allocated at `x`. -/
def RoomAt (s : VmapState) (size align vstart vend x : ℕ) : Prop :=
  align ∣ x ∧ vstart ≤ x ∧ x + size ≤ vend ∧ ∃ a ∈ s.freeList, s.lo a ≤ x ∧ x + size ≤ s.hi a

theorem FreeOk.adjust_eq_none (h : s.FreeOk) (hva : va ∈ s.freeList)
    (hroom : addr + size ≤ s.hi va) (memory : Option ℕ) :
    s.adjustVaToFitType va addr size (classifyVaFitType (s.area va) addr size) memory = none ↔
      addr < s.lo va ∨ s.lo va < addr ∧ addr + size < s.hi va ∧ s.preload = none ∧
        memory = none := by
  have hsplit : s.takeSplitArea memory = none ↔ s.preload = none ∧ memory = none := by
    rw [takeSplitArea]
    cases s.preload <;> simp
  rw [h.classifyVaFitType_eq hva hroom]
  split_ifs with hlt hleft hright hright
  · exact iff_of_true rfl (.inl hlt)
  · exact iff_of_false nofun (by omega)
  · exact iff_of_false nofun (by omega)
  · exact iff_of_false nofun (by omega)
  · rw [adjustVaToFitType, Option.map_eq_none_iff, hsplit]
    exact ⟨fun hnone => .inr ⟨by omega, by omega, hnone⟩, fun hnone => (hnone.resolve_left hlt).2.2⟩

/-- Where the free areas and the window begin with a page, the lowest address does. -/
theorem page_dvd_of_isLeast {k r : ℕ} (hk : 2 ^ k ≤ pageSize)
    (h : IsLeast {x | s.RoomAt size (2 ^ k) vstart vend x} r)
    (hlo : ∀ a ∈ s.freeList, pageSize ∣ s.lo a) (hv : pageSize ∣ vstart) : pageSize ∣ r := by
  obtain ⟨⟨-, hr, hend, a, ha, har, hra⟩, hleast⟩ := h
  have hdvd : 2 ^ k ∣ pageSize :=
    pow_dvd_pow 2 ((Nat.pow_le_pow_iff_right one_lt_two).1 (show 2 ^ k ≤ 2 ^ 12 from hk))
  have hmax : pageSize ∣ max (s.lo a) vstart := by
    rcases max_choice (s.lo a) vstart with e | e <;> rw [e]
    · exact hlo a ha
    · exact hv
  have hle : r ≤ max (s.lo a) vstart :=
    hleast ⟨hdvd.trans hmax, by omega, by omega, a, ha, by omega, by omega⟩
  rwa [show r = max (s.lo a) vstart by omega]

/-- **The lowest address.** -/
theorem allocFromFree_lowest {k : ℕ} (h : s.FreeOk) (hk : 2 ^ k ≤ pageSize) (hsize : 0 < size)
    (hsize' : size < wordSize) (vstart vend : ℕ) (memory : Option ℕ) :
    ∃ r t, s.allocFromFree size (2 ^ k) vstart vend memory = .ok (r, t) ∧
      (r ≠ vend → IsLeast {x | s.RoomAt size (2 ^ k) vstart vend x} r ∧
        ((∀ a ∈ s.freeList, pageSize ∣ s.lo a) → pageSize ∣ vstart → pageSize ∣ r)) ∧
      (r = vend ↔ (∀ x, ¬ s.RoomAt size (2 ^ k) vstart vend x) ∨
        s.preload = none ∧ memory = none ∧
          ∃ x, IsLeast {x | s.RoomAt size (2 ^ k) vstart vend x} x ∧
            ∃ a ∈ s.freeList, s.lo a < x ∧ x + size < s.hi a) := by
  have hk' : k < 32 := (Nat.pow_lt_pow_iff_right one_lt_two).1 (hk.trans_lt (by decide))
  rcases h.allocFromFree_eq hk' hsize hsize' vstart vend memory with
    ⟨heq, hno⟩ | ⟨va, l₁, l₂, hlist, hno, hroom, hle, heq⟩
  · refine ⟨vend, s, heq, fun hne => absurd rfl hne, iff_of_true rfl (.inl ?_)⟩
    rintro x ⟨hx, hv, -, a, ha, hlo, hhi⟩
    exact hno hk a ha ⟨x, hx, hv, hlo, hhi⟩
  have hva : va ∈ s.freeList := by simp [hlist]
  set addr := nvaStartAddr (s.area va) (2 ^ k) vstart with haddr
  -- every other address lies behind the one in the first area with room
  have hlowest : ∀ x, s.RoomAt size (2 ^ k) vstart vend x → addr ≤ x ∧ s.lo va ≤ addr := by
    rintro x ⟨hx, hv, -, a, ha, hlo, hhi⟩
    have hb := h.bound a ha
    obtain ⟨-, habove, hlt, -⟩ := h.neighbours hlist
    have hvax : s.lo va ≤ x := by
      rw [hlist] at ha
      rcases mem_append.1 ha with hl | hr
      · exact absurd ⟨x, hx, hv, hlo, hhi⟩ (hno hk a hl)
      · rcases mem_cons.1 hr with rfl | hr
        · exact hlo
        · have := (habove a hr).2
          omega
    obtain ⟨hle, -, hge⟩ := nvaStartAddr_le hk' hx (by omega) hv hvax
    exact ⟨hle, hge⟩
  have hleast (hlo : s.lo va ≤ addr) (hend : ¬ vend < addr + size) :
      IsLeast {x | s.RoomAt size (2 ^ k) vstart vend x} addr := by
    refine ⟨⟨?_, hle hlo, not_lt.1 hend, va, hva, hlo, hroom⟩, fun x hx => (hlowest x hx).1⟩
    rw [haddr, nvaStartAddr]
    split <;> exact dvd_alignUp hk'
  rw [heq]
  split_ifs with hend
  · refine ⟨vend, s, rfl, fun hne => absurd rfl hne, iff_of_true rfl (.inl fun x hx => ?_)⟩
    have := (hlowest x hx).1
    have := hx.2.2.1
    omega
  cases ht : s.adjustVaToFitType va addr size (classifyVaFitType (s.area va) addr size) memory with
  | none =>
    refine ⟨vend, s, rfl, fun hne => absurd rfl hne, iff_of_true rfl ?_⟩
    rcases (h.adjust_eq_none hva hroom memory).1 ht with hlt | ⟨hlo, hhi, hpre, hmem⟩
    · exact .inl fun x hx => hlt.not_ge (hlowest x hx).2
    · exact .inr ⟨hpre, hmem, addr, hleast hlo.le hend, va, hva, hlo, hhi⟩
  | some t =>
    have hnone := (h.adjust_eq_none hva hroom memory).not.1 (by simp [ht])
    have hlo : s.lo va ≤ addr := not_lt.1 fun hlt => hnone (.inl hlt)
    refine ⟨addr, t, rfl, fun _ => ⟨hleast hlo hend, page_dvd_of_isLeast hk (hleast hlo hend)⟩,
      iff_of_false (by omega) ?_⟩
    rintro (hall | ⟨hpre, hmem, x, hx, a, ha, hax, hxa⟩)
    · exact hall addr (hleast hlo hend).1
    · obtain rfl := hx.unique (hleast hlo hend)
      obtain rfl := h.ordered.eq_of_mem ha hva ⟨hax.le, by omega⟩ ⟨hlo, by omega⟩
      exact hnone (.inr ⟨hax, hxa, hpre, hmem⟩)

/-- One page from the second free area, because the first one ends below the window. -/
theorem allocFromFree_lowest_second : let s := VmapState.init [(0x1000, 0x3000), (0x4000, 0x9000)]
    ∃ r t, s.allocFromFree 0x1000 0x1000 0x3000 0xF000 none = .ok (r, t) ∧
      (r ≠ 0xF000 → IsLeast {x | s.RoomAt 0x1000 0x1000 0x3000 0xF000 x} r) := by
  intro s
  have hok : VmapOk [(0x1000, 0x3000), (0x4000, 0x9000)] s := vmapOk_init ⟨by decide, by decide⟩
  obtain ⟨r, t, heq, hleast, -⟩ := allocFromFree_lowest (k := 12) hok.free (by decide)
    (show 0 < 0x1000 by decide) (by decide) 0x3000 0xF000 none
  exact ⟨r, t, heq, fun hne => (hleast hne).1⟩

/-- With a smaller alignment the address need not be that of a page, and without memory for a second
area there is none although there is room. -/
theorem allocFromFree_unaligned :
    ((VmapState.init [(1, 0x9000)]).allocFromFree 0x1000 1 0 0xF000 none).map Prod.fst = .ok 1 ∧
      let s := VmapState.init [(0x1000, 0x9000)]
      (s.allocFromFree 0x1000 0x1000 0x3000 0xF000 none).map Prod.fst = .ok 0xF000 ∧
        s.RoomAt 0x1000 0x1000 0x3000 0xF000 0x3000 :=
  ⟨by decide +kernel, by decide +kernel, by decide, le_rfl, by decide, 0, by decide +kernel,
    by decide +kernel, by decide +kernel⟩

end VmapState

end MinimalKernel.Mm
