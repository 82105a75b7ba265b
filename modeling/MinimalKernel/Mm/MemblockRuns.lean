import Mathlib.Algebra.BigOperators.Group.List.Basic
import MinimalKernel.Lib.Except
import MinimalKernel.Lib.Interval
import MinimalKernel.Lib.Run
import MinimalKernel.Mm.Memblock

/-!
# The lists of the boot memory allocator

Adding and removing ranges keeps the regions of both lists in ascending order and apart from each
other, and `total_size` is the sum of their sizes. `memblock_trim_memory` does not: it shortens a
region without a change of `total_size`, and its `round_up` can wrap to 0, so that a region at the
end of the address space becomes one that begins at 0.

## Main definitions

* `MemblockType.Ok` — what holds of a list of regions
* `TrimSafe` — the rounding leaves a region as it is, or leaves nothing of it

## Main results

* `memblock_ok_of_run` — both lists are as they should be in every run with such roundings only
* `memblock_trim_breaks` — a region that is shortened, and one that wraps
-/

namespace MinimalKernel.Mm

open Except Lib List MemRegion

/-! ### Ranges and sums -/

theorem wadd_mod (a b : ℕ) : wadd (a % wordSize) b = (a + b) % wordSize := Nat.mod_add_mod ..

theorem wsub_mod {a b : ℕ} (h : b ≤ a) (hb : b ≤ wordSize) :
    wsub (a % wordSize) b = (a - b) % wordSize := by
  unfold wsub
  rw [Nat.mod_add_mod, show a + (wordSize - b) = a - b + wordSize by omega, Nat.add_mod_right]

/-- The first address behind a region. -/
def MemRegion.stop (r : MemRegion) : ℕ := r.base + r.size

def sizeSum (l : List MemRegion) : ℕ := (l.map size).sum

@[simp] theorem sizeSum_nil : sizeSum [] = 0 := rfl

@[simp] theorem sizeSum_cons (r : MemRegion) (l : List MemRegion) :
    sizeSum (r :: l) = r.size + sizeSum l := by
  simp [sizeSum]

@[simp] theorem sizeSum_append (l l' : List MemRegion) :
    sizeSum (l ++ l') = sizeSum l + sizeSum l' := by
  simp [sizeSum]

variable {x : ℕ}

theorem lt_wordSize_of_le (h : x ≤ physAddrMax) : x < wordSize :=
  lt_of_le_of_lt h (by decide)

theorem wadd_of_le_max {a b : ℕ} (h : a + b ≤ physAddrMax) : wadd a b = a + b :=
  wadd_of_lt (lt_wordSize_of_le h)

/-- Regions in ascending order that end before the last address. -/
structure Laid (l : List MemRegion) : Prop where
  ordered : Ordered base stop l
  le_max : ∀ r ∈ l, r.stop ≤ physAddrMax

namespace Laid

variable {l front rest : List MemRegion} {r : MemRegion}

theorem rend (h : Laid l) (hr : r ∈ l) : r.rend = r.stop := wadd_of_le_max (h.le_max r hr)

theorem sublist (h : Laid l) {l' : List MemRegion} (hl : l'.Sublist l) : Laid l' :=
  ⟨h.ordered.sublist hl, fun r hr => h.le_max r (hl.subset hr)⟩

theorem before (h : Laid (front ++ r :: rest)) : ∀ x ∈ front, x.stop ≤ r.base := fun x hx =>
  (Ordered.append_iff.1 h.ordered).2.2 x hx r mem_cons_self

theorem after (front : List MemRegion) (h : Laid (front ++ r :: rest)) :
    ∀ x ∈ rest, r.stop ≤ x.base :=
  (Ordered.cons_iff.1 (Ordered.append_iff.1 h.ordered).2.1).2.2

theorem base_lt (h : Laid l) (hr : r ∈ l) : r.base < r.stop := h.ordered.lt r hr

theorem base_le (front : List MemRegion) (h : Laid (front ++ r :: rest)) :
    ∀ x ∈ r :: rest, r.base ≤ x.base :=
  forall_mem_cons.2 ⟨le_rfl, fun x hx => (h.base_lt (by simp)).le.trans (h.after front x hx)⟩

/-- A region fits between others. -/
theorem insert (front : List MemRegion) (h : Laid (front ++ rest))
    (hfront : ∀ x ∈ front, x.stop ≤ r.base) (hrest : ∀ x ∈ rest, r.stop ≤ x.base)
    (hr : r.base < r.stop) (hmax : r.stop ≤ physAddrMax) : Laid (front ++ r :: rest) := by
  obtain ⟨h₁, h₂, h₁₂⟩ := Ordered.append_iff.1 h.ordered
  obtain ⟨hmax₁, hmax₂⟩ := forall_mem_append.1 h.le_max
  exact ⟨Ordered.append_iff.2 ⟨h₁, Ordered.cons_iff.2 ⟨hr, h₂, hrest⟩,
      fun a ha => forall_mem_cons.2 ⟨hfront a ha, h₁₂ a ha⟩⟩,
    forall_mem_append.2 ⟨hmax₁, forall_mem_cons.2 ⟨hmax, hmax₂⟩⟩⟩

/-- A region is cut in two. -/
theorem split (h : Laid (front ++ r :: rest)) (hlo : r.base < x) (hhi : x < r.stop) :
    Laid (front ++ ⟨r.base, x - r.base, r.flags⟩ :: ⟨x, r.stop - x, r.flags⟩ :: rest) := by
  have hmax := h.le_max r (by simp)
  have hrest : Laid (front ++ rest) := h.sublist (by simp)
  have hlower : (⟨r.base, x - r.base, r.flags⟩ : MemRegion).stop = x := Nat.add_sub_of_le hlo.le
  have hstop : (⟨x, r.stop - x, r.flags⟩ : MemRegion).stop = r.stop := Nat.add_sub_of_le hhi.le
  have hupper : Laid (front ++ ⟨x, r.stop - x, r.flags⟩ :: rest) := by
    refine hrest.insert front (fun y hy => (h.before y hy).trans hlo.le) ?_ ?_ ?_ <;> rw [hstop]
    · exact h.after front
    · exact hhi
    · exact hmax
  refine hupper.insert front h.before ?_ ?_ ?_ <;> rw [hlower]
  · exact forall_mem_cons.2 ⟨le_rfl, fun y hy => hhi.le.trans (h.after front y hy)⟩
  · exact hlo
  · omega

/-- Two regions that touch can be made one. -/
theorem merge {this next : MemRegion} (h : Laid (this :: next :: rest))
    (htouch : this.stop = next.base) :
    wadd this.size next.size = this.size + next.size ∧
      Laid (⟨this.base, this.size + next.size, this.flags⟩ :: rest) := by
  have hmax := h.le_max next (by simp)
  have hnext := h.base_lt (r := next) (by simp)
  have hstop : (⟨this.base, this.size + next.size, this.flags⟩ : MemRegion).stop = next.stop := by
    simp only [stop] at htouch ⊢
    omega
  constructor
  · apply wadd_of_lt
    unfold stop physAddrMax wordSize at *
    omega
  · refine Laid.insert [] (h.sublist ?_) (fun _ hx => nomatch hx) ?_ ?_ ?_
    · exact (sublist_cons_self _ _).trans (sublist_cons_self _ _)
    · rw [hstop]
      exact after [this] h
    · rw [hstop]
      unfold stop at htouch
      dsimp only
      omega
    · exact hstop ▸ hmax

/-- The regions do not take more room than there is. -/
theorem sizeSum_le (h : Laid l) : sizeSum l ≤ physAddrMax := by
  suffices h' : ∀ b, (∀ x ∈ l, b ≤ x.base) → b ≤ physAddrMax → sizeSum l + b ≤ physAddrMax by
    exact (Nat.le_add_right _ _).trans (h' 0 (fun _ _ => Nat.zero_le _) (Nat.zero_le _))
  induction l with
  | nil => simp
  | cons r l ih =>
    intro b hb hmax
    have hr := h.le_max r mem_cons_self
    have hbr := hb r mem_cons_self
    have hl := ih (h.sublist (sublist_cons_self r l)) r.stop (after [] h) hr
    rw [sizeSum_cons]
    unfold stop at hl
    omega

end Laid

/-! ### The invariant -/

variable {base : ℕ} {l : List MemRegion}

namespace MemblockType

/-- **What holds of a list.** -/
structure Ok (t : MemblockType) : Prop where
  cnt_pos : 1 ≤ t.cnt
  sorted : t.regions.Pairwise fun a b => a.base < b.base
  disjoint : t.regions.Pairwise fun a b => a.base + a.size ≤ b.base
  no_wrap : ∀ r ∈ t.regions, r.base + r.size ≤ physAddrMax
  nonempty : t.regions = [.placeholder] ∨ ∀ r ∈ t.regions, 0 < r.size
  total : t.totalSize = (t.regions.map size).sum

/-- A list with regions, in the form in which the calls keep it. -/
structure Filled (t : MemblockType) : Prop where
  ne : t.regions ≠ []
  laid : Laid t.regions
  total : t.totalSize = sizeSum t.regions % wordSize

/-- A list with regions, or without. -/
def Kept (t : MemblockType) : Prop :=
  t.regions = [.placeholder] ∧ t.totalSize = 0 ∨ t.Filled

variable {t t' : MemblockType} {front rest : List MemRegion}

theorem Kept.ok (h : t.Kept) : t.Ok := by
  rcases h with ⟨hp, ht⟩ | ⟨hne, hl, ht⟩
  · exact {
      cnt_pos := by rw [cnt, hp]; exact le_rfl
      sorted := by simp [hp]
      disjoint := by simp [hp]
      no_wrap := by simp [hp, placeholder]
      nonempty := .inl hp
      total := by rw [ht, hp]; rfl }
  · have hsum := hl.sizeSum_le
    exact {
      cnt_pos := length_pos_iff.2 hne
      sorted := (List.Pairwise.and_mem.1 hl.ordered.pairwise).imp fun ⟨ha, _, hab⟩ =>
        (hl.base_lt ha).trans_le hab
      disjoint := hl.ordered.pairwise
      no_wrap := hl.le_max
      nonempty := .inr fun r hr => by
        have := hl.base_lt hr
        unfold stop at this
        omega
      total := ht.trans (Nat.mod_eq_of_lt (by unfold physAddrMax wordSize at *; omega)) }

/-- Both lists are in the same array. -/
def SameArray (t t' : MemblockType) : Prop := t'.max = t.max ∧ t'.array = t.array

theorem SameArray.trans {t₁ t₂ t₃ : MemblockType} (h : SameArray t₁ t₂) (h' : SameArray t₂ t₃) :
    SameArray t₁ t₃ :=
  ⟨h'.1.trans h.1, h'.2.trans h.2⟩

/-- The same regions in another array. -/
theorem Filled.moved (h : t.Filled) (a : Option ℕ) (n : ℕ) :
    Filled { t with array := a, max := n } :=
  { h with }

theorem Kept.moved (h : t.Kept) (a : Option ℕ) (n : ℕ) : Kept { t with array := a, max := n } :=
  h.imp id fun h => h.moved a n

theorem sizeSum_eraseIdx (l : List MemRegion) (i : ℕ) :
    sizeSum (l.eraseIdx i) + (l.getD i .placeholder).size = sizeSum l := by
  induction l generalizing i with
  | nil => rfl
  | cons r l ih =>
    cases i with
    | zero => simp [Nat.add_comm]
    | succ i =>
      have := ih i
      simp only [eraseIdx_cons_succ, sizeSum_cons, getD_cons_succ]
      omega

/-- An array has at least one region. -/
def orPlaceholder (l : List MemRegion) : List MemRegion := if l.isEmpty then [.placeholder] else l

theorem orPlaceholder_of_ne_nil (h : l ≠ []) : orPlaceholder l = l :=
  if_neg (by simpa using h)

theorem mem_orPlaceholder {r : MemRegion} (h : r ∈ orPlaceholder l) : r ∈ l ∨ r = .placeholder := by
  rw [orPlaceholder] at h
  split_ifs at h
  · exact .inr (mem_singleton.1 h)
  · exact .inl h

theorem regions_removeRegion (t : MemblockType) (i : ℕ) :
    (t.removeRegion i).regions = orPlaceholder (t.regions.eraseIdx i) := rfl

/-- A region that is removed leaves the others as they are. -/
theorem Kept.removeRegion (h : t.Kept) (i : ℕ) : (t.removeRegion i).Kept := by
  unfold MemblockType.removeRegion
  rcases h with ⟨hp, ht⟩ | ⟨-, hl, ht⟩
  · refine .inl ?_
    rw [hp, ht]
    cases i <;> simp [placeholder, wsub]
  · have hsum := sizeSum_eraseIdx t.regions i
    have hmax := hl.sizeSum_le
    have htotal : wsub t.totalSize (t.regions.getD i .placeholder).size
        = sizeSum (t.regions.eraseIdx i) % wordSize := by
      rw [ht, wsub_mod (by omega) (by unfold physAddrMax at hmax; omega)]
      congr 1
      omega
    by_cases he : t.regions.eraseIdx i = []
    · refine .inl ⟨by simp [he], ?_⟩
      simp only [htotal, he]
      rfl
    · refine .inr ?_
      simp only [he, List.isEmpty_iff, if_false]
      exact ⟨he, hl.sublist (List.eraseIdx_sublist ..), htotal⟩

/-! ### Adding a range -/

theorem insertIdx_length_append (r : MemRegion) :
    (front ++ rest).insertIdx front.length r = front ++ r :: rest := by
  induction front with
  | nil => rfl
  | cons x front ih => simp [ih]

theorem insertRegion_eq {idx size flags : ℕ} (hr : t.regions = front ++ rest)
    (hi : idx = front.length) (h : t.insertRegion idx base size flags = .ok t') :
    t' = { t with
      regions := front ++ ⟨base, size, flags⟩ :: rest
      totalSize := wadd t.totalSize size } := by
  unfold insertRegion at h
  split at h
  · cases h
  · rw [hr, hi, insertIdx_length_append] at h
    exact (ok.inj h).symm

end MemblockType

namespace Memblock

open MemblockType

variable {s s' : Memblock} {t : MemblockType} {v v' : AddScan} {front rest : List MemRegion}
  {stop flags : ℕ} {rgn : MemRegion} {k : MemKind} {r : Option Errno} {align n : ℕ} {grown : Bool}

/-- The state of the second pass of `memblock_add_range`, in front of the regions `rest`. -/
structure Scanning (t : MemblockType) (stop : ℕ) (front rest : List MemRegion) (v : AddScan) :
    Prop where
  array : t.SameArray v.type
  regions : v.type.regions = front ++ rest
  idx : v.idx = front.length
  ne : front ++ rest ≠ []
  laid : Laid (front ++ rest)
  total : v.type.totalSize = sizeSum (front ++ rest) % wordSize
  base_le : v.base ≤ stop
  /-- What is left of the range lies behind the regions that have been passed. -/
  clear : v.base < stop → ∀ r ∈ front, r.stop ≤ v.base

/-- The part of the range in front of `rest` is inserted. -/
theorem Scanning.fill (h : Scanning t stop front rest v) (hle : x ≤ stop)
    (hmax : stop ≤ physAddrMax) (hrest : ∀ r ∈ rest, x ≤ r.base)
    (heq : v.fill true x flags = .ok v') :
    ∃ front', t.SameArray v'.type ∧ v'.type.regions = front' ++ rest ∧ v'.idx = front'.length ∧
      front' ++ rest ≠ [] ∧ Laid (front' ++ rest) ∧
      v'.type.totalSize = sizeSum (front' ++ rest) % wordSize := by
  unfold AddScan.fill at heq
  split_ifs at heq with hx
  · have hsub : wsub x v.base = x - v.base :=
      wsub_of_le hx.le (by unfold physAddrMax wordSize at *; omega)
    obtain ⟨t', ht, hv⟩ := ok_of_bind heq
    cases hv
    obtain rfl := insertRegion_eq h.regions h.idx ht
    rw [hsub]
    have hstop : (⟨v.base, x - v.base, flags⟩ : MemRegion).stop = x := by
      simp only [MemRegion.stop]
      omega
    have hlaid : Laid (front ++ ⟨v.base, x - v.base, flags⟩ :: rest) := by
      refine h.laid.insert front (h.clear (by omega)) ?_ ?_ ?_ <;> rw [hstop]
      · exact hrest
      · exact hx
      · exact hle.trans hmax
    refine ⟨front ++ [⟨v.base, x - v.base, flags⟩], h.array, by simp, by simp [h.idx], by simp,
      by simpa using hlaid, ?_⟩
    rw [h.total, wadd_mod]
    simp only [sizeSum_append, sizeSum_cons, sizeSum_nil]
    congr 1
    ring
  · cases heq
    exact ⟨front, h.array, h.regions, h.idx, h.ne, h.laid, h.total⟩

/-- A region in front of the range is passed. -/
theorem Scanning.skip (h : Scanning t stop front (rgn :: rest) v) (hbefore : rgn.rend ≤ v.base) :
    Scanning t stop (front ++ [rgn]) rest { v with idx := v.idx + 1 } where
  __ := h
  regions := by simpa using h.regions
  idx := by simp [h.idx]
  ne := by simp
  laid := by simpa using h.laid
  total := by simpa using h.total
  clear := fun hlt => forall_mem_append.2
    ⟨h.clear hlt, forall_mem_singleton.2 (h.laid.rend (r := rgn) (by simp) ▸ hbefore)⟩

/-- A region that meets the range is passed, behind a new one that ends where it begins. -/
theorem Scanning.pass (hmax : stop ≤ physAddrMax) (h : Scanning t stop front (rgn :: rest) v)
    (hbehind : rgn.base < stop) (heq : v.fill true rgn.base flags = .ok v') :
    ∃ front', Scanning t stop (front' ++ [rgn]) rest
      { v' with idx := v'.idx + 1, base := min rgn.rend stop } := by
  have hmem : rgn ∈ front ++ rgn :: rest := by simp
  have hrend := h.laid.rend hmem
  have hlt := h.laid.base_lt hmem
  obtain ⟨front', harray, hregions, hidx, -, hlaid, htotal⟩ :=
    h.fill (by omega) hmax (h.laid.base_le front) heq
  exact ⟨front', {
    array := harray
    regions := by simpa using hregions
    idx := by simp [hidx]
    ne := by simp
    laid := by simpa using hlaid
    total := by simpa using htotal
    base_le := min_le_right _ _
    clear := fun hlt' => by
      simp only [min_lt_iff, lt_irrefl, or_false, hrend] at hlt'
      simp only [hrend, min_eq_left hlt'.le]
      exact forall_mem_append.2
        ⟨fun r hr => (hlaid.before r hr).trans hlt.le, forall_mem_singleton.2 le_rfl⟩ }⟩

/-- Behind a region behind the range, all regions are. -/
theorem Scanning.behind (h : Scanning t stop front (rgn :: rest) v) (hbehind : stop ≤ rgn.base) :
    ∀ r ∈ rgn :: rest, stop ≤ r.base := fun r hr => hbehind.trans (h.laid.base_le front r hr)

/-- The second pass up to the end of the loop. -/
theorem Scanning.loop (hmax : stop ≤ physAddrMax) (h : Scanning t stop front rest v)
    (heq : addRangeLoop true stop flags rest v = .ok v') :
    ∃ front' rest', Scanning t stop front' rest' v' ∧ ∀ r ∈ rest', stop ≤ r.base := by
  induction rest generalizing front v with
  | nil => exact ⟨front, [], ok.inj heq ▸ h, fun _ hr => nomatch hr⟩
  | cons rgn rest ih =>
    rw [addRangeLoop] at heq
    split_ifs at heq with hbehind hbefore
    · exact ⟨front, rgn :: rest, ok.inj heq ▸ h, h.behind hbehind⟩
    · exact ih (h.skip hbefore) heq
    · obtain ⟨v₁, hv₁, hloop⟩ := ok_of_bind heq
      obtain ⟨front₁, h₁⟩ := h.pass hmax (not_le.1 hbehind) hv₁
      exact ih h₁ hloop

theorem Scanning.start (h : t.Filled) (hle : base ≤ stop) :
    Scanning t stop [] t.regions ⟨0, base, 0, t⟩ :=
  ⟨⟨rfl, rfl⟩, rfl, rfl, h.ne, h.laid, h.total, hle, fun _ _ hr => nomatch hr⟩

/-- What `memblock_add_range` inserts. -/
theorem addRangePass_filled (h : t.Filled) (hle : base ≤ stop) (hmax : stop ≤ physAddrMax)
    (heq : addRangePass true base stop flags t = .ok v) : v.type.Filled ∧ t.SameArray v.type := by
  obtain ⟨v₁, hloop, hlast⟩ := ok_of_bind heq
  obtain ⟨front, rest, h₁, hrest⟩ := (Scanning.start h hle).loop hmax hloop
  obtain ⟨front', harray, hregions, -, hne, hlaid, htotal⟩ := h₁.fill le_rfl hmax hrest hlast
  rw [← hregions] at hne hlaid htotal
  exact ⟨⟨hne, hlaid, htotal⟩, harray⟩

/-- Merged regions cover what the regions have covered. -/
theorem mergeLoop_laid {this : MemRegion} (h : Laid (this :: rest))
    (heq : mergeLoop this rest = .ok l) :
    Laid l ∧ l ≠ [] ∧ sizeSum l = sizeSum (this :: rest) ∧ ∀ r ∈ l, this.base ≤ r.base := by
  induction rest generalizing this l with
  | nil =>
    cases heq
    exact ⟨h, by simp, rfl, by simp⟩
  | cons next rest ih =>
    have hthis := h.rend mem_cons_self
    have hafter : ∀ x ∈ next :: rest, this.stop ≤ x.base := Laid.after [] h
    rw [mergeLoop] at heq
    split_ifs at heq with hapart hbug
    · obtain ⟨l', hl', rfl⟩ := ok_of_map heq
      obtain ⟨hlaid, -, hsum, hbase⟩ := ih (h.sublist (sublist_cons_self _ _)) hl'
      have hfirst := hafter next mem_cons_self
      have hlt := h.base_lt (r := this) mem_cons_self
      have hmerged := Laid.insert [] hlaid nofun (fun x hx => hfirst.trans (hbase x hx)) hlt
        (h.le_max _ mem_cons_self)
      exact ⟨hmerged, by simp, by simp [hsum], hmerged.base_le []⟩
    · simp only [not_or, not_not, hthis] at hapart
      obtain ⟨hsize, hmerged⟩ := h.merge hapart.1
      rw [hsize] at heq
      obtain ⟨hlaid, hne, hsum, hbase⟩ := ih hmerged heq
      refine ⟨hlaid, hne, hsum.trans ?_, hbase⟩
      simp only [sizeSum_cons]
      omega

theorem mergeRegions_filled {t' : MemblockType} (h : t.Filled) (heq : t.mergeRegions = .ok t') :
    t'.Filled ∧ t.SameArray t' := by
  obtain ⟨hne, hlaid, htotal⟩ := h
  unfold MemblockType.mergeRegions at heq
  split at heq
  · next hnil => exact absurd hnil hne
  · next this rest hcons =>
    obtain ⟨l, hl, rfl⟩ := ok_of_map heq
    rw [hcons] at hlaid htotal
    obtain ⟨hlaid', hne', hsum, -⟩ := mergeLoop_laid hlaid hl
    exact ⟨⟨hne', hlaid', by rw [htotal, hsum]⟩, rfl, rfl⟩

/-! ### Removing a range -/

/-- The state of `memblock_isolate_range` in front of the regions `rest`. -/
structure Isolating (t : MemblockType) (front rest : List MemRegion) (v : Isolated) : Prop where
  array : t.SameArray v.type
  regions : v.type.regions = front ++ rest
  idx : v.idx = front.length
  ne : front ++ rest ≠ []
  laid : Laid (front ++ rest)
  total : v.type.totalSize = sizeSum (front ++ rest) % wordSize

/-- A region is cut in two at `x`. -/
theorem Isolating.split {t' : MemblockType} {w : Isolated} (h : Isolating t front (rgn :: rest) w)
    (hlo : rgn.base < x) (hhi : x < rgn.stop) (heq : w.split rgn x = .ok t') :
    t.SameArray t' ∧ t'.regions = front ++ { rgn with size := wsub x rgn.base } ::
        { rgn with base := x, size := wsub rgn.size (wsub x rgn.base) } :: rest ∧
      Laid t'.regions ∧ t'.totalSize = sizeSum t'.regions % wordSize := by
  have hword := lt_wordSize_of_le (h.laid.le_max rgn (by simp))
  have hlow : wsub x rgn.base = x - rgn.base := wsub_of_le hlo.le (by omega)
  have hupper : wsub rgn.size (x - rgn.base) = rgn.stop - x := by
    unfold stop at *
    rw [wsub_of_le (by omega) (by omega)]
    omega
  obtain rfl := insertRegion_eq (show _ = front ++
    { rgn with base := x, size := wsub rgn.size (wsub x rgn.base) } :: rest from
    by simp [h.regions, h.idx]) h.idx heq
  refine ⟨h.array, rfl, ?_, ?_⟩
  · simp only [hlow, hupper]
    exact h.laid.split hlo hhi
  · dsimp only
    rw [hlow, hupper, h.total]
    simp only [sizeSum_append, sizeSum_cons]
    unfold stop at *
    rw [wsub_mod (by omega) (by omega), wadd_mod]
    congr 1
    omega

theorem Isolating.loop {w w' : Isolated} (h : Isolating t front rest w)
    (heq : isolateLoop base stop n rest w = .ok w') : w'.type.Filled ∧ t.SameArray w'.type := by
  induction n generalizing front rest w with
  | zero => cases heq
  | succ n ih =>
    have hdone : w.type.Filled ∧ t.SameArray w.type :=
      ⟨⟨h.regions ▸ h.ne, h.regions ▸ h.laid, h.regions ▸ h.total⟩, h.array⟩
    cases rest with
    | nil => exact ok.inj heq ▸ hdone
    | cons rgn rest =>
      have hrend := h.laid.rend (r := rgn) (by simp)
      -- the next region comes, with nothing changed
      have hnext : ∀ a b, Isolating t (front ++ [rgn]) rest ⟨w.idx + 1, a, b, w.type⟩ := fun a b =>
        ⟨h.array, by simpa using h.regions, by simp [h.idx], by simp, by simpa using h.laid,
          by simpa using h.total⟩
      rw [isolateLoop] at heq
      split_ifs at heq with hbehind hbefore hlo hhi hfirst
      · exact ok.inj heq ▸ hdone
      · exact ih (hnext _ _) heq
      · obtain ⟨t', ht, hloop⟩ := ok_of_bind heq
        obtain ⟨ha, hr, hl, hsum⟩ := h.split hlo (by omega) ht
        refine ih (?_ : Isolating t (front ++ [{ rgn with size := wsub base rgn.base }]) _ _) hloop
        exact ⟨ha, by simpa using hr, by simp [h.idx], by simp, by simpa [hr] using hl,
          by simpa [hr] using hsum⟩
      · obtain ⟨t', ht, hloop⟩ := ok_of_bind heq
        obtain ⟨ha, hr, hl, hsum⟩ := h.split (by omega) (by omega) ht
        exact ih (w := { w with type := t' }) ⟨ha, hr, h.idx, by simp, hr ▸ hl, hr ▸ hsum⟩ hloop
      · exact ih (hnext _ _) heq
      · exact ih (hnext _ _) heq

theorem removeLoop_kept (h : t.Kept) (start n : ℕ) :
    (removeLoop start n t).Kept ∧ t.SameArray (removeLoop start n t) := by
  induction n generalizing t with
  | zero => exact ⟨h, rfl, rfl⟩
  | succ n ih => exact ih (h.removeRegion _)

/-! ### The calls -/

/-- Both lists are as they should be. -/
structure Lists (s : Memblock) : Prop where
  types : ∀ k, (s.type k).Kept
  max_pos : ∀ k, 0 < (s.type k).max
  limit : s.currentLimit ≤ physAddrMax

/-- While there is a slab allocator, the arrays are from it. -/
structure Kept (s : Memblock) : Prop extends Lists s where
  slab : s.slab = true → ∀ k, s.inSlab k = true ∨ (s.type k).array = none

/-- What a call on the list `k` leaves as it is. -/
structure Frame (k : MemKind) (s s' : Memblock) : Prop where
  type : ∀ k' ≠ k, s'.type k' = s.type k'
  inSlab : ∀ k' ≠ k, s'.inSlab k' = s.inSlab k'
  slab : s'.slab = s.slab
  limit : s'.currentLimit = s.currentLimit

theorem Frame.refl (k : MemKind) (s : Memblock) : Frame k s s :=
  ⟨fun _ _ => rfl, fun _ _ => rfl, rfl, rfl⟩

/-- The calls from `memblock_double_array` keep the lists, and a range that has been reserved is in
its list. -/
structure Calls.Sound (c : Calls) : Prop where
  physFree : ∀ {base size s r s'}, Memblock.Kept s → c.physFree base size s = .ok (r, s') →
    s'.Kept ∧ Frame .reserved s s'
  reserve : ∀ {base size s r s'}, Memblock.Kept s → c.reserve base size s = .ok (r, s') →
    s'.Kept ∧ Frame .reserved s s' ∧
      (r = none → 0 < size → base < physAddrMax → s'.reserved.Filled)

section SetType

variable (s) (k k' : MemKind) (t)

@[simp] theorem type_setType_self : (s.setType k t).type k = t := by cases k <;> rfl

variable {k k'} in
theorem type_setType_of_ne (h : k' ≠ k) : (s.setType k t).type k' = s.type k' := by
  cases k <;> cases k' <;> first | rfl | exact absurd rfl h

@[simp] theorem setType_slab : (s.setType k t).slab = s.slab := by cases k <;> rfl

@[simp] theorem setType_currentLimit : (s.setType k t).currentLimit = s.currentLimit := by
  cases k <;> rfl

@[simp] theorem setType_inSlab : (s.setType k t).inSlab k' = s.inSlab k' := by cases k <;> rfl

variable (b : Bool)

@[simp] theorem type_setInSlab : (s.setInSlab k b).type k' = s.type k' := by cases k <;> rfl

@[simp] theorem inSlab_setInSlab_self : (s.setInSlab k b).inSlab k = b := by cases k <;> rfl

variable {k k'} in
theorem inSlab_setInSlab_of_ne (h : k' ≠ k) : (s.setInSlab k b).inSlab k' = s.inSlab k' := by
  cases k <;> cases k' <;> first | rfl | exact absurd rfl h

@[simp] theorem setInSlab_slab : (s.setInSlab k b).slab = s.slab := by cases k <;> rfl

@[simp] theorem setInSlab_currentLimit : (s.setInSlab k b).currentLimit = s.currentLimit := by
  cases k <;> rfl

end SetType

theorem Frame.setType (k : MemKind) (s : Memblock) (t : MemblockType) : Frame k s (s.setType k t) :=
  ⟨fun _ h => type_setType_of_ne s t h, by simp, by simp, by simp⟩

theorem Frame.setInSlab (k : MemKind) (s : Memblock) (b : Bool) : Frame k s (s.setInSlab k b) :=
  ⟨by simp, fun _ h => inSlab_setInSlab_of_ne s b h, by simp, by simp⟩

theorem Frame.trans {s₁ s₂ s₃ : Memblock} (h : Frame k s₁ s₂) (h' : Frame k s₂ s₃) :
    Frame k s₁ s₃ :=
  ⟨fun k' hk => (h'.type k' hk).trans (h.type k' hk),
    fun k' hk => (h'.inSlab k' hk).trans (h.inSlab k' hk), h'.slab.trans h.slab,
    h'.limit.trans h.limit⟩

theorem Lists.setType (h : s.Lists) (ht : t.Kept) (hmax : 0 < t.max) : (s.setType k t).Lists where
  types := fun k' => by
    by_cases hk : k' = k
    · subst hk
      rwa [type_setType_self]
    · rw [type_setType_of_ne s t hk]
      exact h.types k'
  max_pos := fun k' => by
    by_cases hk : k' = k
    · subst hk
      rwa [type_setType_self]
    · rw [type_setType_of_ne s t hk]
      exact h.max_pos k'
  limit := by simpa using h.limit

/-- A list is replaced by another one in the same array. -/
theorem Kept.setType (h : s.Kept) (ht : t.Kept) (ha : (s.type k).SameArray t) :
    (s.setType k t).Kept where
  toLists := h.toLists.setType ht (ha.1 ▸ h.max_pos k)
  slab := fun hs k' => by
    rw [setType_slab] at hs
    rw [setType_inSlab]
    by_cases hk : k' = k
    · subst hk
      rw [type_setType_self, ha.2]
      exact h.slab hs k'
    · rw [type_setType_of_ne s t hk]
      exact h.slab hs k'

/-- At the end of `memblock_double_array` the array of the list `k` is accounted for. -/
theorem Lists.setInSlab (h : s.Lists)
    (slab : s.slab = true → ∀ k' ≠ k, s.inSlab k' = true ∨ (s.type k').array = none) :
    (s.setInSlab k s.slab).Kept where
  types := by simpa using h.types
  max_pos := by simpa using h.max_pos
  limit := by simpa using h.limit
  slab := fun hs k' => by
    rw [setInSlab_slab] at hs
    by_cases hk : k' = k
    · subst hk
      exact .inl (by rw [inSlab_setInSlab_self, hs])
    · rw [inSlab_setInSlab_of_ne s s.slab hk, type_setInSlab]
      exact slab hs k' hk

/-! ### The search for a free range -/

theorem roundDown_le (x align : ℕ) : roundDown x align ≤ x := Nat.and_le_left

theorem findRangeBottomUp_lt (start size align n : ℕ) (c : Cursor)
    (h : s.findRangeBottomUp start stop size align n c ≠ 0) :
    s.findRangeBottomUp start stop size align n c < stop := by
  induction n generalizing c with
  | zero => exact absurd rfl h
  | succ n ih =>
    rw [findRangeBottomUp] at h ⊢
    cases hnext : s.nextMemRange (s.memory.cnt - c.a.toNat) c with
    | none => simp [hnext] at h
    | some found =>
      obtain ⟨c', lo, hi⟩ := found
      simp only [hnext] at h ⊢
      split_ifs at h ⊢ with hfound
      · omega
      · exact ih _ h

theorem findRangeTopDown_lt (start align n : ℕ) {size : ℕ} (hsize : 0 < size) (c : Cursor)
    (h : s.findRangeTopDown start stop size align n c ≠ 0) :
    s.findRangeTopDown start stop size align n c < stop := by
  induction n generalizing c with
  | zero => exact absurd rfl h
  | succ n ih =>
    rw [findRangeTopDown] at h ⊢
    cases hnext : s.nextMemRangeRev (c.a + 1).toNat c with
    | none => simp [hnext] at h
    | some found =>
      obtain ⟨c', lo, hi⟩ := found
      simp only [hnext] at h ⊢
      split_ifs at h ⊢ with hsmall hfound
      · exact ih _ h
      · have := roundDown_le (min (max hi start) stop - size) align
        omega
      · exact ih _ h

theorem findInRange_lt {start size : ℕ} (hlimit : s.currentLimit ≤ physAddrMax)
    (hstart : start ≤ physAddrMax) (hstop : stop ≤ physAddrMax) (hsize : 0 < size)
    (h : s.findInRange start stop size align ≠ 0) :
    s.findInRange start stop size align < physAddrMax := by
  have hmax : max (max start pageSize) (if stop = 0 ∨ stop = 1 then s.currentLimit else stop)
      ≤ physAddrMax := by
    refine max_le (max_le hstart (by decide)) ?_
    split
    · exact hlimit
    · exact hstop
  unfold findInRange at h ⊢
  dsimp only at h ⊢
  split at h
  · next hb =>
    rw [if_pos hb]
    exact (findRangeBottomUp_lt _ _ _ _ _ h).trans_le hmax
  · next hb =>
    rw [if_neg hb]
    exact (findRangeTopDown_lt _ _ _ hsize _ h).trans_le hmax

/-! ### Larger arrays -/

variable {c : Calls} {k : MemKind}

/-- The list `k` in another array, after `kmalloc` has been asked. -/
def movedTo (s : Memblock) (k : MemKind) (l : List (Option ℕ)) (addr m : ℕ) : Memblock :=
  setType { s with kmalloc := l } k { s.type k with array := some addr, max := m }

theorem Kept.takeKmalloc (h : s.Kept) (l : List (Option ℕ)) : Kept { s with kmalloc := l } :=
  ⟨{ h with }, h.slab⟩

/-- The search for a new array changes at most what `kmalloc` returns next. -/
theorem newArray_state (k : MemKind) (a b bytes : ℕ) :
    ∃ l, (s.newArray k a b bytes).2 = { s with kmalloc := l } := by
  unfold newArray
  split
  · exact ⟨_, rfl⟩
  · exact ⟨s.kmalloc, rfl⟩

theorem findArray_lt (h : s.Kept) {a b bytes : ℕ} (hbytes : 0 < bytes)
    (hne : s.findArray a b bytes ≠ 0) : s.findArray a b bytes < physAddrMax := by
  have halloc : 0 < allocSize bytes := by
    unfold allocSize pageSize
    omega
  have hwadd : wadd a b ≤ physAddrMax := Nat.le_pred_of_lt (Nat.mod_lt _ (by decide))
  unfold findArray at hne ⊢
  dsimp only at hne ⊢
  split at hne
  · next hfirst =>
    rw [if_pos hfirst]
    exact findInRange_lt h.limit (Nat.zero_le _) ((min_le_right _ _).trans h.limit) halloc hne
  · next hfirst =>
    rw [if_neg hfirst]
    exact findInRange_lt h.limit hwadd h.limit halloc hne

theorem newArray_lt (h : s.Kept) (hs : s.slab = false) {a b bytes : ℕ} (hbytes : 0 < bytes)
    (hne : (s.newArray k a b bytes).1 ≠ 0) : (s.newArray k a b bytes).1 < physAddrMax := by
  unfold newArray at hne ⊢
  rw [if_neg (by simp [hs])] at hne ⊢
  cases k with
  | memory | reserved => exact findArray_lt h hbytes hne

theorem freeOldArray_spec (hc : c.Sound) (h : s.Kept) {old : Option ℕ}
    (heq : freeOldArray c k old n s = .ok s') : s'.Kept ∧ Frame .reserved s s' := by
  unfold freeOldArray at heq
  split at heq
  · obtain ⟨⟨r, s₁⟩, hfree, rfl⟩ := ok_of_map heq
    exact hc.physFree h hfree
  · cases heq
    exact ⟨h, .refl _ _⟩

theorem freeOldArray_of_slab {old : Option ℕ} (n : ℕ) (h : s.inSlab k = true ∨ old = none) :
    freeOldArray c k old n s = .ok s := by
  unfold freeOldArray
  split
  · next hslab => simp [hslab] at h
  · rfl

theorem reserveArray_spec (hc : c.Sound) (h : s.Kept) (hslab : s.slab = false) {addr : ℕ}
    (hn : 0 < n) (haddr : addr < physAddrMax) (heq : reserveArray c addr n s = .ok s') :
    s'.Kept ∧ Frame .reserved s s' ∧ s'.reserved.Filled := by
  have halloc : 0 < allocSize n := by
    unfold allocSize pageSize
    omega
  unfold reserveArray at heq
  rw [if_neg (by simp [hslab])] at heq
  obtain ⟨⟨r, s₁⟩, hreserve, hrest⟩ := ok_of_bind heq
  obtain ⟨h₁, hframe, hfilled⟩ := hc.reserve h hreserve
  cases r with
  | some e => cases hrest
  | none =>
    cases hrest
    exact ⟨h₁, hframe, hfilled rfl halloc haddr⟩

/-- What `memblock_double_array` does: nothing but to ask for memory, or the list `k` has a new
array, the old one is given back and the new one reserved. -/
theorem doubleArray_cases {a b : ℕ} (heq : s.doubleArray c k a b = .ok (grown, s')) :
    (grown = false ∧ ∃ l, s' = { s with kmalloc := l }) ∨
    grown = true ∧ ∃ l addr s₁ s₂,
      addr = (s.newArray k a b ((s.type k).max * regionBytes * 2)).1 ∧ addr ≠ 0 ∧
      freeOldArray c k (s.type k).array ((s.type k).max * regionBytes)
        (s.movedTo k l addr ((s.type k).max * 2)) = .ok s₁ ∧
      reserveArray c addr ((s.type k).max * regionBytes * 2) s₁ = .ok s₂ ∧
      s' = s₂.setInSlab k s₂.slab := by
  obtain ⟨l, hl⟩ := newArray_state (s := s) k a b ((s.type k).max * regionBytes * 2)
  unfold doubleArray at heq
  dsimp only at heq
  rw [hl] at heq
  split_ifs at heq with hresize haddr
  · cases heq
    exact .inl ⟨rfl, s.kmalloc, rfl⟩
  · cases heq
    exact .inl ⟨rfl, l, rfl⟩
  · obtain ⟨s₁, hfree, hrest⟩ := ok_of_bind heq
    obtain ⟨s₂, hreserve, hlast⟩ := ok_of_bind hrest
    cases hlast
    exact .inr ⟨rfl, l, _, s₁, s₂, rfl, haddr, hfree, hreserve, rfl⟩

section NewArray

variable {l : List (Option ℕ)} {addr m n' : ℕ} {s₁ s₂ : Memblock} (h : s.Kept)
  (hfree : freeOldArray c k (s.type k).array n (s.movedTo k l addr m) = .ok s₁)
  (hreserve : reserveArray c addr n' s₁ = .ok s₂)
include h hfree hreserve

/-- With a slab allocator, neither the old array nor the new one is a range of the lists. -/
theorem newArray_of_slab (hslab : s.slab = true) : s₂ = s.movedTo k l addr m := by
  have hin : ({ s with kmalloc := l } : Memblock).inSlab k = s.inSlab k := by cases k <;> rfl
  rw [movedTo, freeOldArray_of_slab _ (by rw [setType_inSlab, hin]; exact h.slab hslab k)] at hfree
  cases hfree
  rw [reserveArray, if_pos (by rw [setType_slab]; exact hslab)] at hreserve
  exact (ok.inj hreserve).symm

/-- Without one, they are reserved ranges. -/
theorem newArray_of_noSlab (hc : c.Sound) (hslab : s.slab = false) (hm : 0 < m) (hn : 0 < n')
    (haddr : addr < physAddrMax) :
    s₂.Kept ∧ s₂.slab = false ∧ s₂.reserved.Filled ∧ Frame .reserved (s.movedTo k l addr m) s₂ := by
  have hs : (s.movedTo k l addr m).slab = false := by
    rw [movedTo, setType_slab]
    exact hslab
  have hkept : Kept (s.movedTo k l addr m) :=
    ⟨(h.takeKmalloc l).toLists.setType ((h.types k).moved _ _) hm, fun h => by
      rw [hs] at h
      cases h⟩
  obtain ⟨h₁, hf₁⟩ := freeOldArray_spec hc hkept hfree
  have hs₁ : s₁.slab = false := hf₁.slab.trans hs
  obtain ⟨h₂, hf₂, hfilled⟩ := reserveArray_spec hc h₁ hs₁ hn haddr hreserve
  exact ⟨h₂, hf₂.slab.trans hs₁, hfilled, hf₁.trans hf₂⟩

end NewArray

section

variable (hc : c.Sound)
include hc

/-- A list in a larger array. -/
theorem doubleArray_spec (h : s.Kept) {a b : ℕ} (heq : s.doubleArray c k a b = .ok (grown, s')) :
    s'.Kept ∧ (k = .reserved → Frame k s s') ∧
      (grown = true → (s.type k).Filled → (s'.type k).Filled) := by
  have hmax : 0 < (s.type k).max * 2 := Nat.mul_pos (h.max_pos k) (by decide)
  have hbytes : 0 < (s.type k).max * regionBytes * 2 := by
    unfold regionBytes
    omega
  rcases doubleArray_cases heq with ⟨rfl, l, rfl⟩ |
    ⟨rfl, l, addr, s₁, s₂, haddr, hne, hfree, hreserve, rfl⟩
  · exact ⟨h.takeKmalloc l, fun _ => ⟨fun _ _ => rfl, fun _ _ => rfl, rfl, rfl⟩, nofun⟩
  · have hf₀ : Frame k s { s with kmalloc := l } := ⟨fun _ _ => rfl, fun _ _ => rfl, rfl, rfl⟩
    have hf := hf₀.trans (.setType k _
      { s.type k with array := some addr, max := (s.type k).max * 2 })
    cases hslab : s.slab with
    | true =>
      obtain rfl := newArray_of_slab h hfree hreserve hslab
      have hlists := (h.takeKmalloc l).toLists.setType (k := k)
        ((h.types k).moved (some addr) ((s.type k).max * 2)) hmax
      refine ⟨hlists.setInSlab fun hs k' hk => ?_, fun _ => hf.trans (.setInSlab _ _ _), ?_⟩
      · rw [setType_inSlab, type_setType_of_ne _ _ hk]
        exact (h.takeKmalloc l).slab (by simpa using hs) k'
      · intro _ hk
        rw [type_setInSlab, movedTo, type_setType_self]
        exact hk.moved _ _
    | false =>
      have hlt : addr < physAddrMax := haddr ▸ newArray_lt h hslab hbytes (haddr ▸ hne)
      obtain ⟨h₂, hs₂, hfilled, hf₂⟩ := newArray_of_noSlab h hfree hreserve hc hslab hmax hbytes hlt
      refine ⟨h₂.toLists.setInSlab (by simp [hs₂]), ?_, ?_⟩
      · rintro rfl
        exact (hf.trans hf₂).trans (.setInSlab _ _ _)
      · intro _ hk
        rw [type_setInSlab]
        cases k with
        | reserved => exact hfilled
        | memory =>
          rw [hf₂.type .memory nofun, movedTo, type_setType_self]
          exact hk.moved _ _

/-- A list for which room has been made. -/
theorem growLoop_spec {need a b : ℕ} (h : s.Kept)
    (heq : growLoop c k need a b n s = .ok (grown, s')) :
    s'.Kept ∧ (k = .reserved → Frame k s s') ∧
      (grown = true → (s.type k).Filled → (s'.type k).Filled) := by
  induction n generalizing s with
  | zero => cases heq
  | succ n ih =>
    rw [Memblock.growLoop] at heq
    split_ifs at heq with hfull
    · obtain ⟨⟨b, s₁⟩, hd, hrest⟩ := ok_of_bind heq
      obtain ⟨h₁, hf₁, hfilled₁⟩ := doubleArray_spec hc h hd
      cases b with
      | false =>
        cases hrest
        exact ⟨h₁, hf₁, nofun⟩
      | true =>
        obtain ⟨h₂, hf₂, hfilled₂⟩ := ih h₁ hrest
        exact ⟨h₂, fun hk => (hf₁ hk).trans (hf₂ hk), fun hg hs => hfilled₂ hg (hfilled₁ rfl hs)⟩
    · cases heq
      exact ⟨h, fun _ => .refl _ _, fun _ => id⟩

/-! ### The calls -/

/-- The second part of `memblock_add_range`. -/
theorem addRangeInsert_spec {size nrNew : ℕ} (h : s.Kept) (hk : (s.type k).Filled)
    (hle : base + size ≤ physAddrMax)
    (heq : addRangeInsert c n k base size flags nrNew s = .ok (r, s')) :
    s'.Kept ∧ (k = .reserved → Frame k s s') ∧ (r = none → (s'.type k).Filled) := by
  have hstop := wadd_of_le_max hle
  obtain ⟨⟨grown, s₁⟩, hgrow, hrest⟩ := ok_of_bind heq
  obtain ⟨h₁, hf₁, hfilled₁⟩ := growLoop_spec hc h hgrow
  cases grown with
  | false =>
    cases hrest
    exact ⟨h₁, hf₁, nofun⟩
  | true =>
    obtain ⟨v, hpass, hlast⟩ := ok_of_bind hrest
    rw [hstop] at hpass
    obtain ⟨hv, hva⟩ := addRangePass_filled (hfilled₁ rfl hk) (by omega) hle hpass
    -- what is set in the end is a list with regions
    have hset : ∀ t, t.Filled → (s₁.type k).SameArray t → (s₁.setType k t).Kept ∧
        (k = .reserved → Frame k s (s₁.setType k t)) ∧ ((s₁.setType k t).type k).Filled :=
      fun t ht ha => ⟨h₁.setType (.inr ht) ha, fun hk => (hf₁ hk).trans (.setType k s₁ t),
        by rwa [type_setType_self]⟩
    split_ifs at hlast with hnone
    · cases hlast
      obtain ⟨hkept, hf, hfilled⟩ := hset _ hv hva
      exact ⟨hkept, hf, fun _ => hfilled⟩
    · obtain ⟨t, hmerge, hok⟩ := ok_of_bind hlast
      cases hok
      obtain ⟨ht, hta⟩ := mergeRegions_filled hv hmerge
      obtain ⟨hkept, hf, hfilled⟩ := hset _ ht (hva.trans hta)
      exact ⟨hkept, hf, fun _ => hfilled⟩

/-- `memblock_add_range` leaves a list with the range in it. -/
theorem addRange_spec {size flags : ℕ} (h : s.Kept)
    (heq : addRange c n k base size flags s = .ok (r, s')) :
    s'.Kept ∧ (k = .reserved → Frame k s s') ∧
      (r = none → 0 < size → base < physAddrMax → (s'.type k).Filled) := by
  unfold Memblock.addRange at heq
  dsimp only at heq
  split_ifs at heq with hzero hempty
  · cases heq
    exact ⟨h, fun _ => .refl _ _, fun _ hsize hbase => by omega⟩
  · cases heq
    have hfirst : Filled { s.type k with
        regions := ⟨base, min size (physAddrMax - base), flags⟩ :: (s.type k).regions.tail
        totalSize := min size (physAddrMax - base) } := by
      rcases h.types k with hp | ⟨hne, hl, -⟩
      · rw [hp.1]
        refine ⟨by simp, ⟨.singleton ?_, ?_⟩, ?_⟩
        · simp only [stop]
          omega
        · simp only [tail_cons, mem_singleton, forall_eq, stop]
          omega
        · have : min size (physAddrMax - base) < wordSize := by
            unfold physAddrMax wordSize
            omega
          simp [Nat.mod_eq_of_lt this]
      · obtain ⟨r, rest, hr⟩ := exists_cons_of_ne_nil hne
        have := hl.base_lt (r := r) (by simp [hr])
        simp only [hr, headD_cons, stop] at hempty this
        omega
    refine ⟨h.setType (.inr hfirst) ⟨rfl, rfl⟩, fun _ => .setType k s _, fun _ _ _ => ?_⟩
    rwa [type_setType_self]
  · have hk : (s.type k).Filled := by
      refine (h.types k).resolve_left fun hp => hempty ?_
      rw [hp.1]
      rfl
    obtain ⟨v, hcount, hrest⟩ := ok_of_bind heq
    split_ifs at hrest with hnone
    · cases hrest
      exact ⟨h, fun _ => .refl _ _, fun _ _ _ => hk⟩
    · obtain ⟨h', hf, hfilled⟩ := addRangeInsert_spec hc h hk (by omega) hrest
      exact ⟨h', hf, fun hr _ _ => hfilled hr⟩

end

/-- The list without regions has nothing to isolate. -/
theorem isolateLoop_placeholder {w w' : Isolated}
    (heq : isolateLoop base stop n [.placeholder] w = .ok w') :
    w'.type = w.type ∧ w'.startRgn = w.startRgn ∧ w'.endRgn = w.endRgn := by
  cases n with
  | zero => cases heq
  | succ n =>
    have hrend : placeholder.rend ≤ base := Nat.zero_le base
    rw [isolateLoop, if_pos hrend] at heq
    split at heq
    · exact ok.inj heq ▸ ⟨rfl, rfl, rfl⟩
    · cases n with
      | zero => cases heq
      | succ n => exact ok.inj heq ▸ ⟨rfl, rfl, rfl⟩

theorem isolateRange_spec (hc : c.Sound) {size : ℕ} {r : Option Isolated} (h : s.Kept)
    (heq : isolateRange c n k base size s = .ok (r, s')) :
    s'.Kept ∧ (k = .reserved → Frame k s s') := by
  unfold Memblock.isolateRange at heq
  dsimp only at heq
  split_ifs at heq with hzero
  · cases heq
    exact ⟨h, fun _ => .refl _ _⟩
  · obtain ⟨⟨grown, s₁⟩, hgrow, hrest⟩ := ok_of_bind heq
    obtain ⟨h₁, hf₁, -⟩ := growLoop_spec hc h hgrow
    cases grown with
    | false =>
      cases hrest
      exact ⟨h₁, hf₁⟩
    | true =>
      obtain ⟨v, hloop, hlast⟩ := ok_of_bind hrest
      cases hlast
      have hv : v.type.Kept ∧ (s₁.type k).SameArray v.type := by
        rcases h₁.types k with hp | hfilled
        · rw [hp.1] at hloop
          rw [(isolateLoop_placeholder hloop).1]
          exact ⟨.inl hp, rfl, rfl⟩
        · have hstart : Isolating (s₁.type k) [] (s₁.type k).regions ⟨0, 0, 0, s₁.type k⟩ :=
            ⟨⟨rfl, rfl⟩, rfl, rfl, hfilled.ne, hfilled.laid, hfilled.total⟩
          obtain ⟨hv, ha⟩ := hstart.loop hloop
          exact ⟨.inr hv, ha⟩
      exact ⟨h₁.setType hv.1 hv.2, fun hk => (hf₁ hk).trans (.setType k s₁ _)⟩

theorem removeRange_spec (hc : c.Sound) {size : ℕ} (h : s.Kept)
    (heq : removeRange c n k base size s = .ok (r, s')) :
    s'.Kept ∧ (k = .reserved → Frame k s s') := by
  obtain ⟨⟨v, s₁⟩, hisolate, hrest⟩ := ok_of_bind heq
  obtain ⟨h₁, hf₁⟩ := isolateRange_spec hc h hisolate
  cases v with
  | none =>
    cases hrest
    exact ⟨h₁, hf₁⟩
  | some v =>
    cases hrest
    obtain ⟨hr, ha⟩ := removeLoop_kept (h₁.types k) v.startRgn (v.endRgn - v.startRgn)
    exact ⟨h₁.setType hr ha, fun hk => (hf₁ hk).trans (.setType k s₁ _)⟩

theorem calls_sound (n : ℕ) : (calls n).Sound := by
  induction n with
  | zero => exact ⟨fun _ h => (nomatch h), fun _ h => (nomatch h)⟩
  | succ n ih =>
    refine ⟨fun h heq => ?_, fun h heq => ?_⟩
    · obtain ⟨h', hf⟩ := removeRange_spec ih h heq
      exact ⟨h', hf rfl⟩
    · obtain ⟨h', hf, hfilled⟩ := addRange_spec ih h heq
      exact ⟨h', hf rfl, hfilled⟩

/-! ### Trimming -/

/-- The rounding to `align` leaves the regions of the list as they are, or leaves nothing of
them. -/
def TrimSafe (align : ℕ) (t : MemblockType) : Prop :=
  ∀ r ∈ t.regions, roundUp r.base align = r.base ∧ roundDown r.rend align = r.rend ∨
    roundDown r.rend align ≤ roundUp r.base align

instance (align : ℕ) (t : MemblockType) : Decidable (TrimSafe align t) :=
  inferInstanceAs (Decidable (∀ r ∈ t.regions, _ ∧ _ ∨ _))

theorem placeholder_safe (align : ℕ) :
    roundDown placeholder.rend align ≤ roundUp placeholder.base align := by
  have : roundDown placeholder.rend align = 0 := Nat.zero_and _
  omega

theorem TrimSafe.getD (h : TrimSafe align t) (i : ℕ) : let r := t.regions.getD i .placeholder
    roundUp r.base align = r.base ∧ roundDown r.rend align = r.rend ∨
      roundDown r.rend align ≤ roundUp r.base align := by
  by_cases hi : i < t.regions.length
  · rw [getD_eq_getElem _ _ hi]
    exact h _ (getElem_mem hi)
  · rw [getD_eq_default _ _ (not_lt.1 hi)]
    exact .inr (placeholder_safe align)

theorem TrimSafe.removeRegion (h : TrimSafe align t) (i : ℕ) :
    TrimSafe align (t.removeRegion i) := fun r hr => by
  unfold MemblockType.removeRegion at hr
  dsimp only at hr
  split at hr
  · obtain rfl := mem_singleton.1 hr
    exact .inr (placeholder_safe align)
  · exact h r (mem_of_mem_eraseIdx hr)

theorem trimLoop_kept (n i : ℕ) (h : t.Kept) (hs : TrimSafe align t) :
    (trimLoop align n i t).Kept ∧ t.SameArray (trimLoop align n i t) := by
  induction n generalizing i t with
  | zero => exact ⟨h, rfl, rfl⟩
  | succ n ih =>
    have hr := hs.getD i
    rw [trimLoop]
    split_ifs with halready hpart
    · exact ih (i + 1) h hs
    · exact absurd (hr.resolve_left halready) (not_le.2 hpart)
    · exact ih i (h.removeRegion i) (hs.removeRegion i)

end Memblock

/-- The condition: the rounding of `memblock_trim_memory` leaves each region of the memory as it is,
or leaves nothing of it. -/
def MemblockSafe (s : Memblock) : MemblockOp → Prop
  | .trim align => Memblock.TrimSafe align s.memory
  | _ => True

instance (s : Memblock) : DecidablePred (MemblockSafe s)
  | .trim align => inferInstanceAs (Decidable (Memblock.TrimSafe align s.memory))
  | .add .. | .reserve .. | .remove .. | .physFree .. => inferInstanceAs (Decidable True)

/-- A call that comes back. -/
def MemblockStep (s : Memblock) (op : MemblockOp) (s' : Memblock) : Prop :=
  ∃ n r, op.run n s = .ok (r, s')

/-- The state at boot. The arrays are those of the kernel image, and both lists are empty. -/
structure MemblockBoot (s : Memblock) : Prop where
  memory : s.memory = ⟨128, 0, [.placeholder], none⟩
  reserved : s.reserved = ⟨128, 0, [.placeholder], none⟩
  limit : s.currentLimit ≤ physAddrMax

theorem MemblockBoot.kept {s : Memblock} (h : MemblockBoot s) : s.Kept := by
  have htype : ∀ k, s.type k = ⟨128, 0, [.placeholder], none⟩ := fun k => by
    cases k
    · exact h.memory
    · exact h.reserved
  refine ⟨⟨fun k => ?_, fun k => ?_, h.limit⟩, fun _ k => ?_⟩ <;> rw [htype]
  · exact .inl ⟨rfl, rfl⟩
  · decide
  · exact .inr rfl

theorem Memblock.Kept.step {s s' : Memblock} {op : MemblockOp} (h : s.Kept)
    (hstep : guarded MemblockSafe MemblockStep s op s') : s'.Kept := by
  obtain ⟨hsafe, n, r, hrun⟩ := hstep
  have hc := Memblock.calls_sound n
  cases op with
  | add base size | reserve base size => exact (Memblock.addRange_spec hc h hrun).1
  | remove base size | physFree base size => exact (Memblock.removeRange_spec hc h hrun).1
  | trim align =>
    cases hrun
    obtain ⟨ht, ha⟩ := Memblock.trimLoop_kept s.memory.cnt 0 (h.types .memory) hsafe
    exact h.setType (k := .memory) ht ha

/-- **The lists of the boot memory allocator.** In every run in which trimming leaves regions alone
or removes them, the regions of both lists are in order, disjoint and not empty, and `total_size` is
the sum of their sizes. -/
theorem memblock_ok_of_run {s₀ s : Memblock} {ops : List MemblockOp} (h : MemblockBoot s₀)
    (hrun : Run (guarded MemblockSafe MemblockStep) s₀ ops s) : s.memory.Ok ∧ s.reserved.Ok := by
  have hkept : s.Kept := hrun.invariant (fun _ _ _ h hstep => h.step hstep) h.kept
  exact ⟨(hkept.types .memory).ok, (hkept.types .reserved).ok⟩

/-- The state at boot, before arrays can be enlarged. -/
def bootMemblock : Memblock where
  bottomUp := false
  currentLimit := physAddrMax
  memory := ⟨128, 0, [.placeholder], none⟩
  reserved := ⟨128, 0, [.placeholder], none⟩
  canResize := false
  memoryInSlab := false
  reservedInSlab := false
  slab := false
  kmalloc := []

/-- Two ranges of memory, the second one too small for a page; a reserved range of which a part is
given back; and a trim to pages. -/
theorem memblock_ok_pages :
    ∃ s, Run (guarded MemblockSafe MemblockStep) bootMemblock
      [.add 0x1000 0x8000, .add 0x9800 0x100, .reserve 0x2000 0x3000, .physFree 0x3000 0x1000,
        .trim 0x1000] s ∧ s.memory.Ok ∧ s.reserved.Ok := by
  have hrun : Run (guarded MemblockSafe MemblockStep) bootMemblock
      [.add 0x1000 0x8000, .add 0x9800 0x100, .reserve 0x2000 0x3000, .physFree 0x3000 0x1000,
        .trim 0x1000] _ :=
    .cons ⟨trivial, 1, _, rfl⟩ (.cons ⟨trivial, 1, _, rfl⟩ (.cons ⟨trivial, 1, _, rfl⟩
      (.cons ⟨trivial, 1, _, rfl⟩ (.cons ⟨by decide +kernel, 1, _, rfl⟩ .nil))))
  exact ⟨_, hrun, memblock_ok_of_run ⟨rfl, rfl, le_rfl⟩ hrun⟩

/-- A region that is shortened to pages, and a region at the end of the address space that wraps. -/
theorem memblock_trim_breaks :
    (∃ s, Run MemblockStep bootMemblock [.add 0x800 0x2800, .trim 0x1000] s ∧
      s.memory.regions = [⟨0x1000, 0x2000, 0⟩] ∧ s.memory.totalSize = 0x2800) ∧
    ∃ s, Run MemblockStep bootMemblock
        [.add 0x1000 0x1000, .add 0xfffff800 0x400, .trim 0x1000] s ∧
      s.memory.regions = [⟨0x1000, 0x1000, 0⟩, ⟨0, 0xfffff000, 0⟩] :=
  ⟨⟨_, .cons ⟨1, _, rfl⟩ (.cons ⟨1, _, rfl⟩ .nil), rfl, rfl⟩,
    ⟨_, .cons ⟨1, _, rfl⟩ (.cons ⟨1, _, rfl⟩ (.cons ⟨1, _, rfl⟩ .nil)), rfl⟩⟩

end MinimalKernel.Mm
