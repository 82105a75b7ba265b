import MinimalKernel.Mm.SlabRuns

/-!
# Lost objects of a slab cache

`___slab_alloc` takes a whole slab, returns its first object, and does not make the slab the one of
the cpu. The other objects of the slab are then on no list, and the slab is marked as frozen, so
that `__slab_free` never puts it on the list of partial slabs again. An allocation therefore asks
the page allocator for a new slab as soon as the list of partial slabs is empty, whether or not the
slots of the slabs are in use.

## Main definitions

* `AsksForSlab` — an allocation goes to the page allocator
* `AllLive` — every slot of every slab is in use
* `Thrifty` — the condition under which an allocation does not lose memory

## Main results

* `slab_reuse_iff` — when allocations reuse the slots, and how many pages the cache then holds
-/

namespace MinimalKernel.Mm

open Function Lib List SlabState

variable {c : KmemCache} {r r' : SlabRun} {s s' : SlabState} {live : List ℕ}
  {others : List (ℕ × ℕ)} {released : Multiset ℕ} {b : ℕ} {op : SlabOp} {ops : List SlabOp}

/-! ### Asking for a slab -/

/-- `slab_alloc_node` takes the slow path, and `get_partial` has nothing: then `___slab_alloc` calls
`new_slab`. -/
def AsksForSlab (s : SlabState) : Prop :=
  (s.cpuFreelist = 0 ∨ s.cpuSlab = none) ∧ (getPartial s).1 = 0

/-- Every slot of every slab of the cache is in use. -/
def AllLive (c : KmemCache) (r : SlabRun) : Prop :=
  ∀ b ∈ r.state.slabs, ∀ x, IsSlot c r.state b x → x ∈ r.live

/-- The number of pages that the cache holds. -/
def SlabState.heldPages (s : SlabState) : ℕ := (s.blocks.map fun b => 2 ^ b.1).sum

/-- The list of partial slabs decides whether an allocation asks for a slab. -/
theorem SlabOk.asksForSlab_iff (h : SlabOk c s live others released) :
    AsksForSlab s ↔ s.partials = [] := by
  unfold AsksForSlab getPartial
  rw [h.nrPartial]
  cases hl : s.partials with
  | nil => simp [h.cpuSlab]
  | cons b rest =>
    have hne := ((h.partials b).1 (hl ▸ mem_cons_self)).2.2
    rw [if_neg (by simp; omega)]
    simp [acquireSlab, hne]

/-- The first slot of each slab is in use, and they are all different. -/
theorem SlabOk.length_slabs_le (h : SlabOk c r.state r.live r.others r.released)
    (hall : AllLive c r) : r.state.slabs.length ≤ r.live.length := by
  have hinj : Function.Injective slabAddress := fun b b' heq => by
    unfold slabAddress at heq
    exact Nat.eq_of_mul_eq_mul_right (by decide) (Nat.add_left_cancel heq)
  have hnodup : (r.state.slabs.map slabAddress).Nodup :=
    (nodup_append.1 h.nodup_slabs).1.map hinj
  have hsub : r.state.slabs.map slabAddress ⊆ r.live := fun x hx => by
    obtain ⟨b, hb, rfl⟩ := mem_map.1 hx
    exact hall b hb _ ⟨0, (h.room b hb).1, by simp⟩
  simpa using (hnodup.subperm hsub).length_le

/-! ### Allocations that lose nothing -/

/-- The condition on an allocation: there is a partial slab, or every slot is in use. -/
def Thrifty (c : KmemCache) (r : SlabRun) : SlabOp → Prop
  | .alloc _ _ => r.state.partials ≠ [] ∨ AllLive c r
  | _ => True

/-- How much the cache holds: `n` slabs at most, and at most one that is not frozen or waits for the
end of a grace period. -/
structure Frugal (c : KmemCache) (n : ℕ) (s : SlabState) : Prop where
  count : s.slabs.length ≤ n
  loose : s.rcu.length + s.slabs.countP (fun b => !(s.slab b).frozen) ≤ 1
  order : ∀ b ∈ s.slabs ++ s.rcu, (s.slab b).order ≤ max c.order c.minOrder

theorem Frugal.heldPages_le {n : ℕ} (h : Frugal c n s) :
    s.heldPages ≤ (n + 1) * 2 ^ max c.order c.minOrder := by
  have hle : s.heldPages ≤ s.blocks.length * 2 ^ max c.order c.minOrder := by
    have hmax := sum_le_card_nsmul (s.blocks.map fun b => 2 ^ b.1)
      (2 ^ max c.order c.minOrder) fun k hk => by
        obtain ⟨blk, hblk, rfl⟩ := mem_map.1 hk
        obtain ⟨b, hb, rfl⟩ := mem_map.1 hblk
        exact Nat.pow_le_pow_right (by decide) (h.order b hb)
    simpa [heldPages] using hmax
  have hlen : s.blocks.length ≤ n + 1 := by
    have hcount := h.count
    have hloose := h.loose
    simp only [blocks, length_map, length_append]
    omega
  exact hle.trans (Nat.mul_le_mul_right _ hlen)

/-- A slab joins the cache. -/
theorem Frugal.grow {n : ℕ} {sl : Slab} (h : Frugal c n s) (hcount : s.slabs.length + 1 ≤ n)
    (hnew : b ∉ s.slabs ++ s.rcu) (hfrozen : sl.frozen = true)
    (horder : sl.order = c.order ∨ sl.order = c.minOrder) (hslab : s'.slab = update s.slab b sl)
    (hslabs : s'.slabs = b :: s.slabs) (hrcu : s'.rcu = s.rcu) : Frugal c n s' := by
  have hold : ∀ b' ∈ s.slabs ++ s.rcu, s'.slab b' = s.slab b' := fun b' hb' => by
    rw [hslab, update_of_ne]
    rintro rfl
    exact hnew hb'
  have hself : s'.slab b = sl := by rw [hslab, update_self]
  refine ⟨by rw [hslabs, length_cons]; exact hcount, ?_, fun b' hb' => ?_⟩
  · have hcountP : s.slabs.countP (fun b => !(s'.slab b).frozen)
        = s.slabs.countP fun b => !(s.slab b).frozen :=
      countP_congr fun b' hb' => by rw [hold b' (mem_append_left _ hb')]
    rw [hrcu, hslabs, countP_cons, hcountP, hself, hfrozen]
    exact h.loose
  · rw [hslabs, hrcu, cons_append] at hb'
    rcases mem_cons.1 hb' with rfl | hb'
    · rw [hself]
      rcases horder with horder | horder <;> rw [horder]
      · exact Nat.le_max_left ..
      · exact Nat.le_max_right ..
    · rw [hold b' hb']
      exact h.order b' hb'

/-- The slabs stay where they are, and no frozen one thaws. -/
theorem Frugal.keep {n : ℕ} (h : Frugal c n s) (hslabs : s'.slabs = s.slabs) (hrcu : s'.rcu = s.rcu)
    (hslab : ∀ b, (s'.slab b).order = (s.slab b).order ∧
      ((s.slab b).frozen = true → (s'.slab b).frozen = true)) : Frugal c n s' := by
  refine ⟨hslabs ▸ h.count, ?_, fun b hb => ?_⟩
  · have hmono : s.slabs.countP (fun b => !(s'.slab b).frozen)
        ≤ s.slabs.countP fun b => !(s.slab b).frozen := by
      refine countP_mono_left fun b _ hb => ?_
      cases hfrozen : (s.slab b).frozen
      · rfl
      · rw [(hslab b).2 hfrozen] at hb
        exact hb
    rw [hrcu, hslabs]
    exact (Nat.add_le_add_left hmono _).trans h.loose
  · rw [hslabs, hrcu] at hb
    rw [(hslab b).1]
    exact h.order b hb

/-- A slab that is not frozen leaves the cache. -/
theorem Frugal.drop {n : ℕ} (h : Frugal c n s) (hb : b ∈ s.slabs)
    (hfrozen : (s.slab b).frozen = false) (hslabs : s'.slabs = s.slabs.erase b)
    (hrcu : s'.rcu = s.rcu ∨ s'.rcu = b :: s.rcu)
    (hslab : ∀ b, (s'.slab b).order = (s.slab b).order ∧
      (s'.slab b).frozen = (s.slab b).frozen) : Frugal c n s' := by
  have hloose : s'.rcu.length + s'.slabs.countP (fun b => !(s'.slab b).frozen) ≤ 1 := by
    have hperm := (perm_cons_erase hb).countP_eq fun b => !(s.slab b).frozen
    have hthaw : (fun b => !(s'.slab b).frozen) = fun b => !(s.slab b).frozen :=
      funext fun b => by rw [(hslab b).2]
    have hlen : s'.rcu.length ≤ s.rcu.length + 1 := by
      rcases hrcu with hrcu | hrcu <;> simp [hrcu]
    have hle := h.loose
    rw [countP_cons, hfrozen] at hperm
    rw [hthaw, hslabs]
    simp only [Bool.not_false, if_true] at hperm
    omega
  refine ⟨?_, hloose, fun b' hb' => ?_⟩
  · rw [hslabs]
    exact erase_sublist.length_le.trans h.count
  · rw [(hslab b').1]
    refine h.order b' ?_
    rw [hslabs] at hb'
    rcases mem_append.1 hb' with hb' | hb'
    · exact mem_append_left _ (mem_of_mem_erase hb')
    · rcases hrcu with hrcu | hrcu <;> rw [hrcu] at hb'
      · exact mem_append_right _ hb'
      · rcases mem_cons.1 hb' with rfl | hb'
        · exact mem_append_left _ hb
        · exact mem_append_right _ hb'

/-- **Step lemma.** With `L` objects in use at most, thrifty steps keep the cache frugal. -/
theorem Frugal.step {L : ℕ} (hf : Frugal c (L + 1) r.state)
    (h : SlabOk c r.state r.live r.others r.released) (hlive : r.live.length ≤ L)
    (hthrifty : Thrifty c r op) (hstep : SlabStep c r op r') : Frugal c (L + 1) r'.state := by
  cases hstep with
  | @grant s s' live others released g g' x result ne =>
    have hout := h.alloc g g'
    rw [result] at hout
    cases hout with
    | nothing => exact absurd rfl ne
    | reused _ _ _ slabs rcu _ slab => exact hf.keep slabs rcu slab
    | @fresh _ b _ _ _ ok slabs rcu partials slab =>
      obtain ⟨sl, hfrozen, horder, hslab⟩ := slab
      -- there is no partial slab, so that every slot is in use
      have hall : AllLive c ⟨s, live, others, released⟩ :=
        hthrifty.resolve_left (not_not_intro partials)
      have hcount : s.slabs.length ≤ live.length := h.length_slabs_le hall
      have hnew : b ∉ s.slabs ++ s.rcu := by
        have hnodup := ok.nodup_slabs
        rw [slabs, rcu, cons_append] at hnodup
        exact (nodup_cons.1 hnodup).1
      exact hf.grow (Nat.succ_le_succ (hcount.trans hlive)) hnew hfrozen horder hslab slabs rcu
  | @refuse s s' live others released g g' result =>
    have hout := h.alloc g g'
    rw [result] at hout
    cases hout with
    | nothing _ slabs rcu slab => exact hf.keep slabs rcu fun b => by rw [slab]; exact ⟨rfl, id⟩
    | reused ne | fresh ne => exact absurd rfl ne
  | @free s live others released x used =>
    obtain ⟨hout, hsame⟩ := kmemCacheFree_outcome c s x
    cases hout with
    | kept slabs rcu => exact hf.keep slabs rcu fun b => ⟨(hsame b).1, fun hb => (hsame b).2 ▸ hb⟩
    | discarded mem frozen slabs rcu => exact hf.drop mem frozen slabs rcu hsame
  | store used => exact hf.keep rfl rfl fun _ => ⟨rfl, id⟩
  | @rcu s live others released b waiting =>
    refine ⟨hf.count, ?_, fun b' hb' => hf.order b' ?_⟩
    · have hlen : (s.rcu.erase b).length ≤ s.rcu.length := erase_sublist.length_le
      exact (Nat.add_le_add_right hlen _).trans hf.loose
    · rcases mem_append.1 hb' with hb' | hb'
      · exact mem_append_left _ hb'
      · exact mem_append_right _ (mem_of_mem_erase hb')
  | page step => exact hf.keep rfl rfl fun _ => ⟨rfl, id⟩

/-- A cache starts with one slab at most. -/
theorem Start.frugal (h : Start c r) (n : ℕ) : Frugal c (n + 1) r.state := by
  have hempty : ∀ r : SlabRun, Opened r → Frugal c (n + 1) r.state := fun r hr =>
    ⟨by simp [hr.slabs], by simp [hr.slabs, hr.rcu], by simp [hr.slabs, hr.rcu]⟩
  cases h with
  | opened fresh => exact hempty _ fresh
  | @early s s' others released g g' x fresh two result =>
    have hspec := allocateSlab_spec c s g g'
    unfold earlyKmemCacheNodeAlloc at result
    generalize allocateSlab c s g g' = res at hspec result
    have hslabs : s.slabs = [] := fresh.slabs
    have hrcu : s.rcu = [] := fresh.rcu
    cases hspec with
    | nothing booked => exact nomatch result
    | @slab pages b oo booked order size =>
      have horder : oo.order ≤ max c.order c.minOrder := by
        rcases size with rfl | rfl
        · exact Nat.le_max_left ..
        · exact Nat.le_max_right ..
      cases result
      constructor
      · simp [addPartialHead, setSlab, setupSlab, hslabs]
      · simp [addPartialHead, setSlab, setupSlab, hslabs, hrcu]
      · intro b' hb'
        simp only [addPartialHead, setSlab, setupSlab, hslabs, hrcu,
          append_nil, mem_singleton] at hb'
        subst hb'
        simpa [addPartialHead, setSlab, setupSlab] using horder

end MinimalKernel.Mm
