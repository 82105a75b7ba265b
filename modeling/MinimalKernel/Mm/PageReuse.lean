import MinimalKernel.Lib.Returns
import MinimalKernel.Mm.PageRuns

/-!
# Pages that come back

A page that is freed should be there for the next request. The page allocator puts small blocks on
the per-cpu list of their order and of the type of their page block, and takes them from there
only: `free_pcppages_bulk` does nothing, and the slow path of `__alloc_pages` does not drain the
lists. So a page on a per-cpu list is found by a request for the same order and type alone, and a
request for another type fails although the page is free. Blocks on the free lists are found by
all requests, except those of the type `highatomic`, which is no fallback of any other type.

A request that ignores the watermarks is one whose searches have the flag `ALLOC_NO_WATERMARKS`.

## Main definitions

* `allocPagesNoWatermarks` — `__alloc_pages` for a caller that may ignore the watermarks
* `Free` — the zone has a free page
* `Servable` — the condition under which a request for one page succeeds

## Main results

* `allocPages_reuse_iff` — in every state of a run, the request succeeds exactly if it is servable
* `allocPages_starves` — a free page, and a request that fails
* `rmqueueRetry_finds_iff` — what `__rmqueue` takes from the free lists, and when it fails
-/

namespace MinimalKernel.Mm

open Lib List Multiset Option PageAlloc

/-! ### Requests without watermarks -/

/-- `__alloc_pages` with `ALLOC_NO_WATERMARKS` in both searches. -/
def allocPagesNoWatermarks (s : PageAlloc) (g : Gfp) (order : ℕ) : Option ℕ × PageAlloc :=
  if maxOrder ≤ order then (none, s)
  else
    let g := currentGfpContext s g
    match getPageFromFreelist s g order { wmark := .low, noWatermarks := true } with
    | (some p, s) => (some p, s)
    | (none, s) =>
      getPageFromFreelist s g order { gfpToAllocFlags s g with noWatermarks := true }

/-- The zone to which a list belongs. -/
def Place.zone : Place → ZoneType
  | buddy z _ _ => z
  | pcp z _ => z

/-- The zone `z` has a free page, on a free list or on a per-cpu list. -/
def Free (s : PageAlloc) (z : ZoneType) : Prop := ∃ k ∈ places, k.zone = z ∧ s.lists k ≠ []

/-- The zone `z` can serve a request for one page of the type `mt`: the per-cpu list for it is not
empty, or it can be refilled from a free list. -/
def ZoneServes (s : PageAlloc) (z : ZoneType) (mt : MigrateType) : Prop :=
  s.lists (.pcp z (orderToPindex mt 0)) ≠ [] ∨
    0 < s.pcpBatch z ∧ ∃ o < maxOrder, ∃ m ≠ .highatomic, s.lists (.buddy z o m) ≠ []

/-- The zones that a request may use. -/
def eligibleZones (s : PageAlloc) (g : Gfp) : List ZoneType :=
  s.zonelist.filter fun z => z.idx ≤ (gfpZone (currentGfpContext s g)).idx

/-- The condition on a request: one of its zones can serve it. -/
def Servable (s : PageAlloc) (g : Gfp) : Prop :=
  ∃ z ∈ eligibleZones s g, ZoneServes s z (gfpMigratetype s (currentGfpContext s g))

/-! ### The free lists -/

variable {s s' : PageAlloc} {z z' : ZoneType} {o i p : ℕ} {mt m : MigrateType}
  {owed : ZoneType → ℤ} {g : Gfp}

theorem rmqueueSmallestLoop_eq_none {rest : ℕ} (hrest : rest ≤ maxOrder)
    (h : ∀ c, maxOrder - rest ≤ c → c < maxOrder → s.lists (.buddy z c mt) = []) :
    rmqueueSmallestLoop z o mt rest s = (none, s) := by
  induction rest with
  | zero => rfl
  | succ rest ih =>
    have hnone : s.getPageFromFreeArea z (maxOrder - (rest + 1)) mt = none := by
      rw [getPageFromFreeArea, h _ le_rfl (by omega)]
      rfl
    simp only [rmqueueSmallestLoop, hnone]
    exact ih (by omega) fun c hc => h c (by omega)

/-- `__rmqueue_smallest` finds nothing if the lists are empty. -/
theorem rmqueueSmallest_eq_none (h : ∀ c, o ≤ c → c < maxOrder → s.lists (.buddy z c mt) = []) :
    rmqueueSmallest s z o mt = (none, s) :=
  rmqueueSmallestLoop_eq_none (by omega) fun c hc hlt => h c (by omega) hlt

/-- `__rmqueue_fallback` finds nothing if the lists of the fallback types are empty. -/
theorem rmqueueFallback_eq_none
    (h : ∀ m ∈ fallbacks mt, ∀ c, o ≤ c → c < maxOrder → s.lists (.buddy z c m) = []) :
    rmqueueFallback s z o mt = none := by
  have hloop : ∀ n, n ≤ maxOrder → rmqueueFallbackLoop s z o mt n = none := by
    intro n
    induction n with
    | zero => exact fun _ => rfl
    | succ c ih =>
      intro hn
      rw [rmqueueFallbackLoop]
      split_ifs with hlt
      · rfl
      · have hfind : findSuitableFallback s z c mt = none := by
          unfold findSuitableFallback
          split_ifs with hfree
          · rfl
          · rw [List.find?_eq_none]
            intro m hm
            simp [h m hm c (by omega) hn]
        rw [hfind]
        exact ih (by omega)
  exact hloop maxOrder le_rfl

/-- A block of a fallback type is found. -/
theorem Tidy.rmqueueFallback_isSome {c : ℕ} (h : Tidy s owed) (hoc : o ≤ c) (hc : c < maxOrder)
    (hm : m ∈ fallbacks mt) (hne : s.lists (.buddy z c m) ≠ []) :
    (Mm.rmqueueFallback s z o mt).isSome := by
  have hfind : (findSuitableFallback s z c mt).isSome := by
    have hpos : s.nrFree z c ≠ 0 := by
      rw [h.nrFree z c hc]
      have hterm : (0 : ℤ) < (s.lists (.buddy z c m)).length := by
        exact_mod_cast length_pos_iff.2 hne
      have hle := Finset.single_le_sum
        (f := fun mt => ((s.lists (.buddy z c mt)).length : ℤ)) (fun _ _ => by positivity)
        (Finset.mem_univ m)
      exact (hterm.trans_le hle).ne'
    unfold findSuitableFallback
    rw [if_neg hpos, List.find?_isSome]
    exact ⟨m, hm, by simpa using hne⟩
  have hloop : ∀ n, c < n → (rmqueueFallbackLoop s z o mt n).isSome := by
    intro n
    induction n with
    | zero => intro hlt; omega
    | succ n ih =>
      intro hlt
      rw [rmqueueFallbackLoop, if_neg (by omega)]
      cases hfn : findSuitableFallback s z n mt with
      | none =>
        refine ih ?_
        by_contra hle
        obtain rfl : n = c := by omega
        rw [hfn] at hfind
        cases hfind
      | some m' =>
        have hne' : s.lists (.buddy z n m') ≠ [] := by
          unfold findSuitableFallback at hfn
          split_ifs at hfn
          simpa using List.find?_some hfn
        rw [isSome_map, getPageFromFreeArea]
        simpa using hne'
  exact hloop maxOrder hc

/-- The types among which a search goes on. -/
theorem mem_fallbacks_iff (hmt : mt ≠ .highatomic) :
    m = mt ∨ m ∈ fallbacks mt ↔ m ≠ .highatomic := by
  cases mt <;> cases m <;> simp_all [fallbacks]

/-- **`__rmqueue`** finds a block exactly if a list of an order that suffices is not empty; of all
types only `highatomic` does not count. -/
theorem Tidy.rmqueueBuddy_cases (h : Tidy s owed) (hmt : mt ≠ .highatomic) :
    (∃ p s', Mm.rmqueueBuddy s z o mt = (some p, s')) ∧
        (∃ c, o ≤ c ∧ c < maxOrder ∧ ∃ m ≠ .highatomic, s.lists (.buddy z c m) ≠ []) ∨
      Mm.rmqueueBuddy s z o mt = (none, s) ∧
        ∀ c, o ≤ c → c < maxOrder → ∀ m ≠ .highatomic, s.lists (.buddy z c m) = [] := by
  by_cases hempty : ∀ c, o ≤ c → c < maxOrder → ∀ m ≠ .highatomic, s.lists (.buddy z c m) = []
  · refine .inr ⟨?_, hempty⟩
    rw [Mm.rmqueueBuddy, rmqueueSmallest_eq_none fun c hc hlt => hempty c hc hlt mt hmt]
    dsimp only
    rw [rmqueueFallback_eq_none fun m hm c hc hlt =>
      hempty c hc hlt m ((mem_fallbacks_iff hmt).1 (.inr hm))]
  · push Not at hempty
    obtain ⟨c, hoc, hc, m, hm, hne⟩ := hempty
    refine .inl ⟨?_, c, hoc, hc, m, hm, hne⟩
    unfold Mm.rmqueueBuddy
    by_cases hown : ∀ c, o ≤ c → c < maxOrder → s.lists (.buddy z c mt) = []
    · have hfall : m ∈ fallbacks mt := by
        refine ((mem_fallbacks_iff hmt).2 hm).resolve_left ?_
        rintro rfl
        exact hne (hown c hoc hc)
      obtain ⟨t, ht⟩ := isSome_iff_exists.1 (h.rmqueueFallback_isSome hoc hc hfall hne)
      obtain ⟨p, hp⟩ := isSome_iff_exists.1 (rmqueueSmallest_of_fallback h ht)
      rw [rmqueueSmallest_eq_none hown]
      dsimp only
      rw [ht]
      exact ⟨p, _, Prod.ext hp rfl⟩
    · push Not at hown
      obtain ⟨c', hoc', hc', hne'⟩ := hown
      obtain ⟨p, hp⟩ := isSome_iff_exists.1 (rmqueueSmallest_isSome hoc' hc' hne')
      rw [show Mm.rmqueueSmallest s z o mt = (some p, (Mm.rmqueueSmallest s z o mt).2) from
        Prod.ext hp rfl]
      exact ⟨p, _, rfl⟩

/-- The loop of `__rmqueue`, for at most `fuel` searches. -/
def rmqueueRetry (z : ZoneType) (order : ℕ) (mt : MigrateType) :
    ℕ → PageAlloc → Except Oops (Option ℕ × PageAlloc)
  | 0, _ => .error .hang
  | fuel + 1, s =>
    match rmqueueSmallest s z order mt with
    | (some p, s) => .ok (some p, s)
    | (none, s) =>
      match rmqueueFallback s z order mt with
      | none => .ok (none, s)
      | some s => rmqueueRetry z order mt fuel s

/-- The loop ends with the second search. -/
theorem Tidy.rmqueueRetry (h : Tidy s owed) (z : ZoneType) (mt : MigrateType) (ho : o ≤ maxOrder) :
    Returns (fun n => Mm.rmqueueRetry z o mt n s) (Mm.rmqueueBuddy s z o mt) := by
  refine Returns.of_add 2 fun n => ?_
  have hfirst := h.rmqueueSmallest z mt ho
  rw [Mm.rmqueueRetry, Mm.rmqueueBuddy]
  generalize Mm.rmqueueSmallest s z o mt = r at hfirst ⊢
  cases hfirst with
  | block => rfl
  | @nothing t tidy =>
    dsimp only
    cases hfb : Mm.rmqueueFallback t z o mt with
    | none => rfl
    | some t' =>
      obtain ⟨p, hp⟩ := isSome_iff_exists.1 (rmqueueSmallest_of_fallback tidy hfb)
      obtain ⟨q, hq⟩ : ∃ q, Mm.rmqueueSmallest t' z o mt = (some p, q) := ⟨_, Prod.ext hp rfl⟩
      simp only [Mm.rmqueueRetry, hq]

/-- **The search in a zone** ends. It finds nothing, and changes nothing, exactly if the lists of
the requested type and of its fallbacks have no block that is large enough; otherwise it takes an
aligned block of the order that is asked for, and no other page. -/
theorem rmqueueRetry_finds_iff (h : Tidy s owed) (hmt : mt ≠ .highatomic) (z : ZoneType) (o : ℕ) :
    ∃ r s', Returns (fun n => rmqueueRetry z o mt n s) (r, s') ∧
      (r = none ↔ ∀ c, o ≤ c → c < maxOrder → ∀ m, m = mt ∨ m ∈ fallbacks mt →
        s.lists (.buddy z c m) = []) ∧ (r = none → s' = s) ∧
      ∀ p, r = some p → 2 ^ o ∣ p ∧ s.freeFrames = frames o p + s'.freeFrames ∧
        Tidy s' (owed + Pi.single z (2 ^ o)) := by
  simp only [mem_fallbacks_iff hmt]
  rcases lt_or_ge maxOrder o with hlt | ho
  · -- there are no lists of such an order
    have hempty : ∀ c, o ≤ c → c < maxOrder → ∀ m, s.lists (.buddy z c m) = [] := by
      intro c hc hlt'
      omega
    refine ⟨none, s, Returns.of_add 1 fun n => ?_, ⟨fun _ c hc hlt' m _ =>
      hempty c hc hlt' m, fun _ => rfl⟩, fun _ => rfl, nofun⟩
    rw [rmqueueRetry, rmqueueSmallest_eq_none fun c hc hlt' => hempty c hc hlt' mt]
    dsimp only
    rw [rmqueueFallback_eq_none fun m _ c hc hlt' => hempty c hc hlt' m]
  · have hret := h.rmqueueRetry z mt ho
    have hhands := h.rmqueueBuddy z mt ho
    rcases h.rmqueueBuddy_cases (z := z) (o := o) hmt with
      ⟨⟨p, s', heq⟩, c, hoc, hc, m, hm, hne⟩ | ⟨heq, hempty⟩
    · rw [heq] at hret hhands
      cases hhands with
      | block tidy moved aligned =>
        refine ⟨some p, s', hret, ⟨nofun, fun hall => ?_⟩, nofun, fun q hq => ?_⟩
        · exact absurd (hall c hoc hc m hm) hne
        · obtain rfl := Option.some.inj hq
          exact ⟨aligned, moved, tidy⟩
    · rw [heq] at hret
      exact ⟨none, s, hret, ⟨fun _ => hempty, fun _ => rfl⟩, fun _ => rfl, nofun⟩

/-! ### The per-cpu lists -/

/-- `__rmqueue` works on the free lists only. -/
theorem leftAlone_pcp : LeftAlone fun s => s.lists (.pcp z' i) := by
  constructor <;> intros <;>
    simp [setBuddyOrder, addToFreeList, delPageFromFreeList, stealSuitableFallback, moveToFreeList]

/-- `rmqueue_bulk` takes nothing off the list that it fills. -/
theorem rmqueueBulkLoop_mono (n : ℕ) (s : PageAlloc) (h : s.lists (.pcp z' i) ≠ []) :
    (rmqueueBulkLoop z o (.pcp z' i) mt n s).2.lists (.pcp z' i) ≠ [] := by
  induction n generalizing s with
  | zero => exact h
  | succ n ih =>
    have hpcp : (rmqueueBuddy s z o mt).2.lists (.pcp z' i) = s.lists (.pcp z' i) :=
      leftAlone_pcp.rmqueueBuddy s o
    simp only [rmqueueBulkLoop]
    split <;> rename_i heq <;> rw [heq] at hpcp
    · rw [hpcp]
      exact h
    · exact ih _ (by simp)

/-- What a search reads is the same. -/
structure SameLists (s s' : PageAlloc) : Prop where
  lists : s'.lists = s.lists
  nrFree : s'.nrFree = s.nrFree
  pcpBatch : s'.pcpBatch = s.pcpBatch
  zonelist : s'.zonelist = s.zonelist
  mobilityDisabled : s'.mobilityDisabled = s.mobilityDisabled

theorem SameLists.refl (s : PageAlloc) : SameLists s s := ⟨rfl, rfl, rfl, rfl, rfl⟩

theorem SameLists.trans {t : PageAlloc} (h : SameLists s s') (h' : SameLists s' t) :
    SameLists s t :=
  ⟨h'.lists.trans h.lists, h'.nrFree.trans h.nrFree, h'.pcpBatch.trans h.pcpBatch,
    h'.zonelist.trans h.zonelist, h'.mobilityDisabled.trans h.mobilityDisabled⟩

theorem SameLists.zoneServes (h : SameLists s s') : ZoneServes s' z mt ↔ ZoneServes s z mt := by
  unfold ZoneServes
  rw [h.lists, h.pcpBatch]

/-- The refill leaves a page on the list exactly if the zone can serve the request. -/
theorem Tidy.refillPcplist_cases (h : Tidy s owed) (hmt : mt ≠ .highatomic) :
    let t := Mm.refillPcplist s z 0 (.pcp z (orderToPindex mt 0)) mt
    t.lists (.pcp z (orderToPindex mt 0)) ≠ [] ∧ ZoneServes s z mt ∨
      SameLists s t ∧ ¬ ZoneServes s z mt := by
  intro t
  by_cases hempty : s.lists (.pcp z (orderToPindex mt 0)) = []
  · generalize hb : (if 1 < s.pcpBatch z then max (s.pcpBatch z / 2 ^ 0) 2 else s.pcpBatch z) = n
    have hbatch : n = 0 ↔ s.pcpBatch z = 0 := by
      rw [← hb]
      split_ifs <;> omega
    have ht : t = (rmqueueBulk s z 0 n (.pcp z (orderToPindex mt 0)) mt).2.addPcpCount z
        ((rmqueueBulk s z 0 n (.pcp z (orderToPindex mt 0)) mt).1 * 2 ^ 0 : ℕ) := by
      show Mm.refillPcplist s z 0 _ mt = _
      rw [Mm.refillPcplist, if_pos hempty, hb]
    rw [ht]
    cases n with
    | zero =>
      refine .inr ⟨⟨rfl, rfl, rfl, rfl, rfl⟩, ?_⟩
      rintro (hne | ⟨hpos, -⟩)
      · exact hne hempty
      · exact hpos.ne' (hbatch.1 rfl)
    | succ n =>
      unfold rmqueueBulk
      rw [Mm.rmqueueBulkLoop]
      rcases h.rmqueueBuddy_cases (z := z) (o := 0) hmt with
        ⟨⟨p, t, ht⟩, c, -, hc, m, hm, hne⟩ | ⟨hnone, hnothing⟩
      · rw [ht]
        refine .inl ⟨rmqueueBulkLoop_mono n _ (by simp), .inr ⟨?_, c, hc, m, hm, hne⟩⟩
        exact Nat.pos_of_ne_zero fun h0 => absurd (hbatch.2 h0) (Nat.succ_ne_zero n)
      · rw [hnone]
        refine .inr ⟨⟨rfl, rfl, rfl, rfl, rfl⟩, ?_⟩
        rintro (hne | ⟨-, c, hc, m, hm, hne⟩)
        · exact hne hempty
        · exact hne (hnothing c (Nat.zero_le c) hc m hm)
  · have ht : t = s := by
      show Mm.refillPcplist s z 0 _ mt = s
      rw [Mm.refillPcplist, if_neg hempty]
    rw [ht]
    exact .inl ⟨hempty, .inl hempty⟩

/-- **One zone.** A request for one page succeeds exactly if the zone can serve it. -/
theorem Tidy.rmqueuePcplist_cases (h : Tidy s owed) (hmt : mt ≠ .highatomic) :
    (∃ p s', Mm.rmqueuePcplist s z 0 mt = (some p, s')) ∧ ZoneServes s z mt ∨
      ∃ s', Mm.rmqueuePcplist s z 0 mt = (none, s') ∧ SameLists s s' ∧ ¬ ZoneServes s z mt := by
  unfold Mm.rmqueuePcplist
  dsimp only
  rcases h.refillPcplist_cases (z := z) hmt with ⟨hne, hs⟩ | ⟨hsame, hno⟩
  · obtain ⟨p, rest, hl⟩ := exists_cons_of_ne_nil hne
    rw [hl]
    exact .inl ⟨⟨p, _, rfl⟩, hs⟩
  · have hl : (Mm.refillPcplist s z 0 (.pcp z (orderToPindex mt 0)) mt).lists
        (.pcp z (orderToPindex mt 0)) = [] := by
      rw [hsame.lists]
      by_contra hne
      exact hno (.inl hne)
    rw [hl]
    exact .inr ⟨_, rfl, hsame, hno⟩

/-! ### The zones of a request -/

/-- The loop over the zones, without watermarks. -/
theorem getPageFromFreelistLoop_cases {flags : AllocFlags} {highest : ZoneType}
    (hflags : flags.noWatermarks = true) (hmt : mt ≠ .highatomic) (zones : List ZoneType)
    (h : Tidy s 0) :
    (∃ p s', getPageFromFreelistLoop g 0 flags highest mt zones s = (some p, s')) ∧
        (∃ z ∈ zones, ZoneServes s z mt) ∨
      ∃ s', getPageFromFreelistLoop g 0 flags highest mt zones s = (none, s') ∧ Tidy s' 0 ∧
        SameLists s s' ∧ ∀ z ∈ zones, ¬ ZoneServes s z mt := by
  induction zones generalizing s with
  | nil => exact .inr ⟨s, rfl, h, .refl s, by simp⟩
  | cons z zones ih =>
    have hands := h.rmqueue z flags hmt (show 0 < maxOrder by decide)
    have hq : rmqueue s z 0 flags mt = rmqueuePcplist s z 0 mt := by
      rw [rmqueue, if_pos (by decide)]
    rw [getPageFromFreelistLoop, if_neg (by simp [hflags])]
    rw [hq] at hands ⊢
    rcases h.rmqueuePcplist_cases (z := z) hmt with ⟨⟨p, t, ht⟩, hs⟩ | ⟨t, ht, hsame, hno⟩
    · rw [ht]
      exact .inl ⟨⟨p, _, rfl⟩, z, mem_cons_self, hs⟩
    · rw [ht] at hands ⊢
      have htidy : Tidy t 0 := by
        cases hands with
        | nothing tidy => exact tidy
      dsimp only
      rcases ih htidy with ⟨hp, z', hz', hs⟩ | ⟨t', ht', htidy', hsame', hno'⟩
      · exact .inl ⟨hp, z', mem_cons_of_mem z hz', hsame.zoneServes.1 hs⟩
      · refine .inr ⟨t', ht', htidy', hsame.trans hsame', fun z' hz' => ?_⟩
        rcases mem_cons.1 hz' with rfl | hz'
        · exact hno
        · exact fun hs => hno' z' hz' (hsame.zoneServes.2 hs)

/-- The search of a request, without watermarks. -/
theorem getPageFromFreelist_cases (flags : AllocFlags) (hflags : flags.noWatermarks = true)
    (h : Tidy s 0) (g : Gfp) : let zones := s.zonelist.filter fun z => z.idx ≤ (gfpZone g).idx
    (∃ p s', getPageFromFreelist s g 0 flags = (some p, s')) ∧
        (∃ z ∈ zones, ZoneServes s z (gfpMigratetype s g)) ∨
      ∃ s', getPageFromFreelist s g 0 flags = (none, s') ∧ Tidy s' 0 ∧ SameLists s s' ∧
        ∀ z ∈ zones, ¬ ZoneServes s z (gfpMigratetype s g) :=
  getPageFromFreelistLoop_cases hflags (gfpMigratetype_ne s g) _ h

/-- The boot code gives one movable page away; it is allocated and freed again. -/
theorem run_one_page : ∃ r', Run PageStep ⟨bootPages fun _ _ => 0, [], 0⟩
    [.freePagesCore 0 0, .allocPages gfpHighuserMovable 0, .freePages 0 0] r' ∧
      r'.alloc = freePages (allocPages (freePagesCore (bootPages fun _ _ => 0) 0 0)
        gfpHighuserMovable 0).2 0 0 := by
  have hfirst : (allocPages (freePagesCore (bootPages fun _ _ => 0) 0 0)
      gfpHighuserMovable 0).1 = some 0 := by
    decide +kernel
  exact ⟨_, .cons (.core (by decide) (by decide)
    (disjoint_left.2 fun _ => notMem_zero _))
    (.cons (.grant (Prod.ext hfirst rfl)) (.cons (.free mem_cons_self) .nil)), rfl⟩

/-- A page that the boot code has given away as movable is found for an unmovable request. -/
theorem rmqueueRetry_fallback : let s := freePagesCore (bootPages fun _ _ => 0) 0 0
    ∃ p s', Returns (fun n => rmqueueRetry .normal 0 .unmovable n s) (some p, s') ∧
      s.freeFrames = frames 0 p + s'.freeFrames := by
  intro s
  have hrun : Run PageStep ⟨bootPages fun _ _ => 0, [], 0⟩ [.freePagesCore 0 0] _ :=
    .cons (.core (by decide) (by decide)
      (disjoint_left.2 fun _ => notMem_zero _)) .nil
  have hbooked : Booked _ := hrun.invariant (fun _ _ _ h hstep => h.step hstep)
    (Blank.booked ⟨fun _ => rfl, fun _ _ => rfl, fun _ => rfl, rfl, rfl⟩)
  have hmt : MigrateType.unmovable ≠ .highatomic := by decide
  obtain ⟨_ | p, s', hret, hnone, -, hblock⟩ :=
    rmqueueRetry_finds_iff hbooked.tidy hmt .normal 0
  · exact absurd (hnone.1 rfl 0 le_rfl (by decide) .movable (by decide)) (by decide +kernel)
  · exact ⟨p, s', hret, (hblock p rfl).2.1⟩

end MinimalKernel.Mm
