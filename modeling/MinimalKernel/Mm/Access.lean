import MinimalKernel.Mm.CopyOnWrite
import MinimalKernel.Lib.Run

/-!
# Loads and stores of processes

A process reads and writes single bytes of its mappings; where the page table entry does not allow
the access, the kernel handles the fault first. The VMAs of all processes stay as they are.

As long as the allocator hands out pages of zeros, a load returns the byte that is visible at the
address, no fault changes what any process sees, a store to a private mapping is seen at no other
page, and a store to a shared mapping is seen wherever the same page is mapped shared.

## Main definitions

* `MemState.load`, `MemState.store` — accesses with the faults they cause
* `Layout R` — the VMAs `R` in use lie apart on page boundaries
* `SystemOk R s` — the invariant of the runs of accesses
* `Ready s a x` — the allocator has pages of zeros, and the handler delivers the page

## Main results

* `handleMmFault_keeps` — a fault keeps the invariant and changes nothing that is visible
* `load_eq` — a load returns the visible byte
* `store_cases`, `writeByte_private`, `writeByte_shared` — who sees a store
-/

namespace MinimalKernel.Mm

open Bool Lib MemState Option VmArea

/-! ### The model -/

/-- The address lies in the VMA. -/
def VmArea.Holds (a : VmArea) (x : ℕ) : Prop := a.vmStart ≤ x ∧ x < a.vmEnd

namespace MemState

variable (s : MemState)

/-- The byte that the processor reads at the address `x`, if the page is present. -/
def readByte (a : VmArea) (x : ℕ) : Option (BitVec 8) :=
  (s.pte a.vmMm (pageOf x)).pfn.map fun p => (s.frame p).data (offsetInPage x)

/-- The processor writes the byte `b`, if the page is present and writable. -/
def writeByte (a : VmArea) (x : ℕ) (b : BitVec 8) : Option MemState :=
  match s.pte a.vmMm (pageOf x) with
  | .present p true _ _ =>
    some (s.setFrame p
      { s.frame p with data := Function.update (s.frame p).data (offsetInPage x) b })
  | _ => none

/-- A load of a process; no byte is returned if the process gets a signal instead. -/
def load (a : VmArea) (x : ℕ) (flags : FaultFlags) : Except Oops (Option (BitVec 8) × MemState) :=
  match s.readByte a x with
  | some b => .ok (some b, s)
  | none =>
    match handleMmFault s a x { flags with write := false } with
    | .error e => .error e
    | .ok (ret, s') =>
      if hasFlag ret vmFaultError then .ok (none, s') else .ok (s'.readByte a x, s')

/-- A store of a process; `false` if the process gets a signal instead. -/
def store (a : VmArea) (x : ℕ) (b : BitVec 8) (flags : FaultFlags) :
    Except Oops (Bool × MemState) :=
  match s.writeByte a x b with
  | some s' => .ok (true, s')
  | none =>
    match handleMmFault s a x { flags with write := true } with
    | .error e => .error e
    | .ok (ret, s') =>
      if hasFlag ret vmFaultError then .ok (false, s')
      else
        match s'.writeByte a x b with
        | some s'' => .ok (true, s'')
        | none => .ok (false, s')

end MemState

/-! ### The invariant -/

/-- The VMAs in use lie in user space, begin on page boundaries, and no two of them in the same
address space hold addresses of one page. -/
structure Layout (R : VmArea → Prop) : Prop where
  bounded : ∀ a, R a → a.vmEnd ≤ taskSize
  aligned : ∀ a, R a → pageSize ∣ a.vmStart
  apart : ∀ a b x y, R a → R b → a.vmMm = b.vmMm → a.Holds x → b.Holds y →
    pageOf x = pageOf y → a = b

/-- An entry maps a page of this process alone into a private mapping, or the page that the mapping
shows, which is writable in a shared mapping only. -/
structure EntryOk (s : MemState) (a : VmArea) (x : ℕ) : Prop where
  not_swap : s.pte a.vmMm (pageOf x) ≠ .swap
  page : ∀ p w d acc, s.pte a.vmMm (pageOf x) = .present p w d acc →
    (s.frame p).exclusive = true ∧ hasFlag a.vmFlags vmShared = false ∨
    (s.frame p).exclusive = false ∧ s.backing a (a.pageIndex x) = some p ∧
      (w = true → hasFlag a.vmFlags vmShared = true)

/-- The invariant of the accesses to the mappings `R`. -/
structure SystemOk (R : VmArea → Prop) (s : MemState) : Prop where
  mem : MemOk s
  unspecial : ∀ p, (s.frame p).exclusive = true → ∀ i, s.special i ≠ some p
  inexclusive : ∀ p ∈ s.free, (s.frame p).exclusive = false
  entries : ∀ a, R a → ∀ x, a.Holds x → EntryOk s a x

/-- The accesses to the address `x` find pages of zeros in the allocator, and a handler that
delivers. -/
structure Ready (s : MemState) (a : VmArea) (x : ℕ) : Prop where
  frames : 3 ≤ s.free.length
  zero : ∀ p ∈ s.free, ZeroPage (s.frame p).data
  delivers : a.isAnonymous = true ∨ Delivers s a (a.pageIndex x)

/-- No mapping shows another byte in `s'` than in `s`. -/
def SameView (R : VmArea → Prop) (s s' : MemState) : Prop :=
  ∀ a, R a → ∀ x, a.Holds x → ∀ j < pageSize, s'.visible a x j = s.visible a x j

variable {R : VmArea → Prop} {s s' : MemState} {a b : VmArea} {x y i j k p q t n : ℕ} {m : MmId}
  {flags : FaultFlags} {tbl : Option ℕ} {own : Bool} {content : ℕ → BitVec 8} {v : Vmf}
  {ret : VmFault} {Q : Prop} {c : BitVec 8}

theorem Layout.lt_taskSize (hL : Layout R) (ha : R a) (hx : a.Holds x) : x < taskSize :=
  hx.2.trans_le (hL.bounded a ha)

theorem pageIndex_eq (hdvd : pageSize ∣ a.vmStart) (hx : a.Holds x) (hy : a.Holds y)
    (h : pageOf x = pageOf y) : a.pageIndex x = a.pageIndex y := by
  obtain ⟨r, hr⟩ := hdvd
  have hdiv : ∀ z, a.Holds z → pageOf (z - a.vmStart) = pageOf z - r := fun z hz => by
    unfold pageOf
    rw [hr]
    exact Nat.sub_mul_div z pageSize r
  rw [pageIndex, pageIndex, hdiv x hx, hdiv y hy, h]

/-! ### Faults on an empty entry -/

theorem mem_free_of_newTable (ht : t ∈ s.newTable m k n) : t ∈ s.free := by
  unfold newTable at ht
  split_ifs at ht
  · exact List.mem_of_getElem? ht
  · cases ht

/-- With pages of zeros the fault has its effect, and no other entry changes. -/
theorem Outcome.effect_of_zero {n : ℕ} (hzero : ∀ p ∈ s.free, ZeroPage (s.frame p).data)
    (hout : Outcome s v (s.newTable v.vma.vmMm v.vpn n) own content s') :
    ∃ p, Effect s v True own content p s' := by
  have hempty : ∀ t ∈ s.newTable v.vma.vmMm v.vpn n, EmptyTable s t := fun t ht j hj =>
    (hzero t (mem_free_of_newTable ht)).tableOf hj
  have hclean := cleanTable_iff.1 fun t ht =>
    (⟨fun j hj => by rw [hempty t ht j hj]; rfl, hempty t ht _ (Nat.mod_lt _ (by decide))⟩ :
      CleanTable s v.vpn t)
  obtain ⟨p, heff⟩ := hout.effect hclean.1 hclean.2
  have hg := heff.grown
  exact ⟨p, ⟨hg.pte, fun _ => hg.quiet hempty, hg.dirs, hg.special, hg.data, hg.exclusive,
    hg.cache_mono, hg.cache_new, hg.free, hg.ready⟩, heff.pte, heff.not_free, heff.own_page,
    heff.shown⟩

/-- What a fault on an empty entry comes to when the accesses are ready. -/
inductive EmptyFault (s : MemState) (a : VmArea) (x : ℕ) (flags : FaultFlags) :
    Except Oops (VmFault × MemState) → Prop
  /-- Shared anonymous memory does not exist. -/
  | sigbus (anon : a.isAnonymous = true) (shared : hasFlag a.vmFlags vmShared = true) :
      EmptyFault s a x flags (.ok (vmFaultSigbus, s))
  /-- A shared write to a special mapping without a file. -/
  | oops (write : flags.write = true) : EmptyFault s a x flags (.error .nullDeref)
  /-- A page is mapped. -/
  | mapped {ret : VmFault} {s' : MemState} {own : Bool} {content : ℕ → BitVec 8} {p : ℕ}
      (noError : hasFlag ret vmFaultError = false)
      (effect : Effect s ⟨a, pageMask x, a.pageIndex x, flags⟩ True own content p s')
      (own_private : own = true → hasFlag a.vmFlags vmShared = false)
      (content_eq : own = true → ∀ j < pageSize, content j = s.visible a x j)
      (shared : hasFlag a.vmFlags vmShared = true → a.isAnonymous = false) :
      EmptyFault s a x flags (.ok (ret, s'))

section Empty

variable (h : MemOk s) (hx : x < taskSize) (hr : Ready s a x)
  (hpte : s.pte a.vmMm (pageOf x) = .none)

include h hx hr hpte

theorem emptyFault_anon (hanon : a.isAnonymous = true) :
    EmptyFault s a x flags (.ok (doAnonymousPage s (a.vmf x flags))) := by
  have hback : s.backing a (a.pageIndex x) = none := by
    rw [backing, isNone_iff_eq_none.1 hanon]
  cases hshared : hasFlag a.vmFlags vmShared with
  | true =>
    rw [doAnonymousPage, if_pos (by exact hshared)]
    exact .sigbus hanon hshared
  | false =>
    obtain ⟨s', page, heq, hpage, hout⟩ := doAnonymousPage_spec
      (emptyEntry h hx hpte) h.pages (by have := hr.frames; omega) hshared
    obtain ⟨p, heff⟩ := hout.effect_of_zero hr.zero
    rw [heq]
    refine .mapped (by decide) heff (fun _ => hshared) (fun _ j hj => ?_)
      fun hsh => absurd (hshared.symm.trans hsh) (by decide)
    rw [visible_of_none hpte, hback]
    exact hr.zero page (List.mem_of_getElem? hpage) j hj

theorem emptyFault_file (hd : Delivers s a (a.pageIndex x)) :
    EmptyFault s a x flags (doFault s (a.vmf x flags)) := by
  have hlen := hr.frames
  obtain ⟨ops, hops⟩ := hd.exists_ops
  have hanon := isAnonymous_of_ops hops
  rw [doFault_eq hops (hd.ne_dummy hops)]
  dsimp only
  cases hwrite : flags.write with
  | false =>
    obtain ⟨ret, s', heq, hret, hout⟩ := doReadFault_spec
      (emptyEntry h hx hpte) h.pages hops hd (by omega) hwrite
    obtain ⟨p, heff⟩ := hout.effect_of_zero hr.zero
    rw [Bool.not_false, if_pos rfl, heq]
    exact .mapped hret heff nofun nofun fun _ => hanon
  | true =>
    rw [Bool.not_true, if_neg Bool.false_ne_true]
    cases hshared : hasFlag a.vmFlags vmShared with
    | false =>
      obtain ⟨ret, s', page, heq, hret, hsrc, hout⟩ := doCowFault_spec
        (emptyEntry h hx hpte) h.pages hops hd hlen hwrite hshared
      obtain ⟨p, heff⟩ := hout.effect_of_zero hr.zero
      rw [Bool.not_false, if_pos rfl, heq]
      refine .mapped hret heff (fun _ => hshared) (fun _ j hj => ?_) fun _ => hanon
      rw [visible_of_none hpte]
      rcases hsrc with hsome | ⟨hnone, hplace⟩
      · rw [show s.backing a (a.pageIndex x) = some page from hsome]
      · rw [show s.backing a (a.pageIndex x) = none from hnone]
        exact hr.zero page (List.mem_of_getElem? hplace) j hj
    | true =>
      rw [Bool.not_true, if_neg Bool.false_ne_true]
      rcases doSharedFault_spec (emptyEntry h hx hpte) h.pages hops hd (by omega) hshared with
        ⟨ret, s', heq, hret, hout, -⟩ | ⟨heq, -, -⟩
      · obtain ⟨p, heff⟩ := hout.effect_of_zero hr.zero
        rw [heq]
        exact .mapped hret heff nofun nofun fun _ => hanon
      · rw [heq]
        exact .oops hwrite

theorem handleMmFault_empty : EmptyFault s a x flags (handleMmFault s a x flags) := by
  rw [handleMmFault_of_none h hx hpte]
  rcases hr.delivers with hanon | hd
  · rw [if_pos hanon]
    exact emptyFault_anon h hx hr hpte hanon
  · obtain ⟨ops, hops⟩ := hd.exists_ops
    rw [if_neg (by rw [isAnonymous_of_ops hops]; exact false_ne_true)]
    exact emptyFault_file h hx hr hpte hd

end Empty

/-! ### A fault changes nothing that is visible -/

theorem visible_of_pfn (h : (s.pte a.vmMm (pageOf x)).pfn = some p) :
    s.visible a x j = (s.frame p).data j := by
  unfold visible
  rw [h]
  rfl

theorem visible_congr (hpage : pageOf x = pageOf y) (hindex : a.pageIndex x = a.pageIndex y) :
    s.visible a x j = s.visible a y j := by
  unfold visible
  rw [hpage, hindex]

/-- A page that a mapping shows is cached or special. -/
theorem cached_or_special_of_backing (h : s.backing a i = some p) :
    s.Cached p ∨ s.special i = some p := by
  unfold backing at h
  rcases hops : a.vmOps with _ | _ | _ | _ <;> rw [hops] at h
  · cases h
  · cases h
  · obtain ⟨f, -, hf⟩ := bind_eq_some_iff.1 h
    exact .inl ⟨f, i, hf⟩
  · exact .inr h

theorem Grown.backing_new {T : ℕ → Prop} (h : Grown m k T Q s s') (hb : s'.backing a i = some p) :
    s.backing a i = some p ∨ s.backing a i = none ∧ p ∈ s.free := by
  unfold MemState.backing at hb ⊢
  rcases hops : a.vmOps with _ | _ | _ | _ <;> rw [hops] at hb
  · cases hb
  · cases hb
  · obtain ⟨f, hf, hc⟩ := bind_eq_some_iff.1 hb
    dsimp only
    rw [hf, bind_some]
    cases hs : s.cache f i with
    | none => exact .inr ⟨rfl, ((h.cache_new f i p hc).resolve_left (by rw [hs]; nofun))⟩
    | some r => exact .inl ((h.cache_mono f i r hs).symm.trans hc)
  · dsimp only at hb ⊢
    rw [h.special] at hb
    exact .inl hb

/-- The page of this process alone is not shown by any mapping. -/
theorem SystemOk.not_exclusive_of_backing (h : SystemOk R s) (hb : s.backing a i = some p) :
    (s.frame p).exclusive = false := by
  cases hexcl : (s.frame p).exclusive with
  | false => rfl
  | true =>
    rcases cached_or_special_of_backing hb with hc | hs
    · exact absurd hc (h.mem.uncached p hexcl)
    · exact absurd hs (h.unspecial p hexcl i)

section Effect

variable (hL : Layout R) (h : SystemOk R s) (ha : R a) (hx : a.Holds x) (hr : Ready s a x)
  (hpte : s.pte a.vmMm (pageOf x) = .none)
  (heff : Effect s (a.vmf x flags) True own content p s')

include heff in
theorem Effect.grown_page : Grown a.vmMm (pageOf x) (fun q => own = true ∧ q = p) True s s' := by
  have hg := heff.grown
  rwa [vpn_vmf] at hg

include heff in
theorem Effect.pfn : (s'.pte a.vmMm (pageOf x)).pfn = some p := by
  obtain ⟨w, d, hpte', -⟩ := heff.pte
  rw [vpn_vmf] at hpte'
  rw [show s'.pte a.vmMm (pageOf x) = _ from hpte']
  rfl

include heff in
/-- Pages that are mapped or shown before are not the new page of the process. -/
theorem Effect.not_touched (hq : q ∉ s.free) : ¬ (own = true ∧ q = p) := by
  rintro ⟨hown, rfl⟩
  exact hq (heff.own_page hown).1

include h in
theorem SystemOk.not_mem_of_pfn {k : ℕ} (hk : k / ptrsPerPte < userPtrsPerPgd)
    (hpfn : (s.pte m k).pfn = some q) : q ∉ s.free := fun hq =>
  h.mem.unmapped q hq m k ⟨hk, hpfn⟩

include h hr heff in
/-- What a mapping shows where no page is present stays the same. -/
theorem Effect.shown_eq {z : ℕ} (hj : j < pageSize) :
    (match s'.backing b z with | some r => (s'.frame r).data j | none => 0)
      = match s.backing b z with | some r => (s.frame r).data j | none => 0 := by
  have hg := heff.grown_page
  cases hb : s.backing b z with
  | some r =>
    rw [hg.backing hb]
    exact congrFun (hg.data r (.inl (heff.not_touched (h.mem.pages.not_mem_of_backing hb)))) j
  | none =>
    cases hb' : s'.backing b z with
    | none => rfl
    | some r =>
      have hfree : r ∈ s.free :=
        ((hg.backing_new hb').resolve_left (by rw [hb]; nofun)).2
      have hnot : ¬ (own = true ∧ r = p) := by
        rintro ⟨hown, rfl⟩
        rcases cached_or_special_of_backing hb' with hc | hs
        · exact (heff.own_page hown).2.1 hc
        · rw [hg.special] at hs
          exact h.mem.pages.unspecial r hfree z hs
      exact (congrFun (hg.data r (.inl hnot)) j).trans (hr.zero r hfree j hj)

include hL h ha hx hr hpte heff in
theorem Effect.sameView (hcontent : own = true → ∀ j < pageSize, content j = s.visible a x j) :
    SameView R s s' := by
  intro b hb y hy j hj
  have hg := heff.grown_page
  by_cases hsame : b.vmMm = a.vmMm ∧ pageOf y = pageOf x
  · obtain rfl := hL.apart b a y x hb ha hsame.1 hy hx hsame.2
    have hindex := pageIndex_eq (hL.aligned b hb) hy hx hsame.2
    rw [visible_congr hsame.2 hindex, visible_congr hsame.2 hindex, visible_of_pfn heff.pfn]
    cases hown : own with
    | true => rw [(heff.own_page hown).2.2.2, hcontent hown j hj]
    | false =>
      have hback := heff.shown hown
      have hshown := heff.shown_eq h hr (b := b) (z := b.pageIndex x) hj
      rw [show s'.backing b (b.pageIndex x) = some p from hback] at hshown
      rw [visible_of_none hpte]
      exact hshown
  · have hpte' := hg.quiet trivial b.vmMm (pageOf y) hsame
    unfold visible
    rw [hpte']
    cases hpfn : (s.pte b.vmMm (pageOf y)).pfn with
    | some q =>
      have hq := h.not_mem_of_pfn (vpn_lt (hL.lt_taskSize hb hy)) hpfn
      exact congrFun (hg.data q (.inl (heff.not_touched hq))) j
    | none => exact heff.shown_eq h hr hj

include h heff in
/-- A page that the mapping shows is not marked as belonging to one process. -/
theorem Effect.not_exclusive (hown : own = false) : (s'.frame p).exclusive = false := by
  have hg := heff.grown_page
  have hexcl := hg.exclusive p (by rw [hown]; exact fun hc => false_ne_true hc.1)
  rw [hexcl]
  rcases hg.backing_new (heff.shown hown) with hb | ⟨-, hfree⟩
  · exact h.not_exclusive_of_backing hb
  · exact h.inexclusive p hfree

include heff in
/-- The entries after the fault. -/
theorem Effect.maps (hmap : s'.Maps m k q) :
    (m = a.vmMm ∧ k = pageOf x) ∧ q = p ∨ s.Maps m k q := by
  by_cases hsame : m = a.vmMm ∧ k = pageOf x
  · obtain ⟨rfl, rfl⟩ := hsame
    exact .inl ⟨⟨rfl, rfl⟩, Option.some.inj (hmap.2.symm.trans heff.pfn)⟩
  · refine .inr ⟨hmap.1, ?_⟩
    rw [← heff.grown_page.quiet trivial m k hsame]
    exact hmap.2

include h heff in
theorem Effect.memOk : MemOk s' := by
  have hg := heff.grown_page
  have hexcl : ∀ q, (s'.frame q).exclusive = true → own = true ∧ q = p ∨
      (s.frame q).exclusive = true := fun q hq => by
    by_cases hT : own = true ∧ q = p
    · exact .inl hT
    · exact .inr ((hg.exclusive q hT).symm.trans hq)
  refine ⟨hg.ready, fun q hq m k hmap => ?_, fun q hq hc => ?_, fun q hq m k m' k' hmap hmap' => ?_,
    fun m i hi hbad => h.mem.dirs m i hi (hg.dirs m i hbad)⟩
  · rcases heff.maps hmap with ⟨-, rfl⟩ | hmap
    · exact heff.not_free hq
    · exact h.mem.unmapped q (hg.free.subset hq) m k hmap
  · rcases hexcl q hq with ⟨hown, rfl⟩ | hq'
    · exact (heff.own_page hown).2.1 hc
    · obtain ⟨f, i, hc⟩ := hc
      rcases hg.cache_new f i q hc with hc | hfree
      · exact h.mem.uncached q hq' ⟨f, i, hc⟩
      · exact nomatch (h.inexclusive q hfree).symm.trans hq'
  · rcases hexcl q hq with ⟨hown, rfl⟩ | hq'
    · have hhere : ∀ m k, s'.Maps m k q → m = a.vmMm ∧ k = pageOf x := fun m k hmap =>
        (heff.maps hmap).elim And.left fun hold =>
          absurd hold (h.mem.unmapped q (heff.own_page hown).1 m k)
      obtain ⟨rfl, rfl⟩ := hhere m k hmap
      obtain ⟨rfl, rfl⟩ := hhere m' k' hmap'
      exact ⟨rfl, rfl⟩
    · have hold : ∀ m k, s'.Maps m k q → s.Maps m k q := fun m k hmap => by
        rcases heff.maps hmap with ⟨-, rfl⟩ | hmap
        · cases hown : own with
          | true =>
            exact nomatch (h.inexclusive q (heff.own_page hown).1).symm.trans hq'
          | false => exact nomatch (heff.not_exclusive h hown).symm.trans hq
        · exact hmap
      exact h.mem.once q hq' m k m' k' (hold m k hmap) (hold m' k' hmap')

include hL h ha hx heff in
theorem Effect.systemOk (hprivate : own = true → hasFlag a.vmFlags vmShared = false) :
    SystemOk R s' := by
  have hg := heff.grown_page
  refine ⟨heff.memOk h, fun q hq i => ?_, fun q hq => ?_, fun b hb y hy => ?_⟩
  · rw [hg.special]
    by_cases hT : own = true ∧ q = p
    · obtain ⟨hown, rfl⟩ := hT
      exact h.mem.pages.unspecial q (heff.own_page hown).1 i
    · exact h.unspecial q ((hg.exclusive q hT).symm.trans hq) i
  · have hne : ¬ (own = true ∧ q = p) := by
      rintro ⟨-, rfl⟩
      exact heff.not_free hq
    rw [hg.exclusive q hne]
    exact h.inexclusive q (hg.free.subset hq)
  · by_cases hsame : b.vmMm = a.vmMm ∧ pageOf y = pageOf x
    · obtain rfl := hL.apart b a y x hb ha hsame.1 hy hx hsame.2
      have hindex := pageIndex_eq (hL.aligned b hb) hy hx hsame.2
      obtain ⟨w, d, hpte', -, hw⟩ := heff.pte
      rw [vpn_vmf] at hpte'
      have hpte'' : s'.pte b.vmMm (pageOf y) = .present p w d true := hsame.2 ▸ hpte'
      refine ⟨by rw [hpte'']; nofun, fun q w' d' acc' hq => ?_⟩
      rw [hpte''] at hq
      cases hq
      cases hown : own with
      | true => exact .inl ⟨(heff.own_page hown).2.2.1, hprivate hown⟩
      | false =>
        refine .inr ⟨heff.not_exclusive h hown, hindex ▸ heff.shown hown, fun hw' => ?_⟩
        exact (hw hw').resolve_right (by rw [hown]; exact false_ne_true)
    · have hpte' := hg.quiet trivial b.vmMm (pageOf y) hsame
      have hold := h.entries b hb y hy
      refine ⟨hpte' ▸ hold.not_swap, fun q w d acc hq => ?_⟩
      rw [hpte'] at hq
      have hfree := h.not_mem_of_pfn (m := b.vmMm) (k := pageOf y)
        (vpn_lt (hL.lt_taskSize hb hy)) (by rw [hq]; rfl)
      rw [hg.exclusive q (heff.not_touched hfree)]
      exact (hold.page q w d acc hq).imp_right fun hp => ⟨hp.1, hg.backing hp.2.1, hp.2.2⟩

end Effect

/-! ### Faults on a page that is present -/

/-- The states differ in reference counts, in the bytes of pages and in the flags of entries that
map a page of one process alone. -/
structure Similar (s s' : MemState) : Prop where
  pte : ∀ m k, s'.pte m k = s.pte m k ∨ ∃ p w d acc w' d' acc', s.pte m k = .present p w d acc ∧
    s'.pte m k = .present p w' d' acc' ∧ (s.frame p).exclusive = true
  exclusive : ∀ q, (s'.frame q).exclusive = (s.frame q).exclusive
  cache : s'.cache = s.cache
  special : s'.special = s.special
  free : s'.free = s.free
  dirs : ∀ m i, s'.pgd m i = .bad → s.pgd m i = .bad
  ready : PagesOk s'

theorem Similar.pfn (h : Similar s s') (m : MmId) (k : ℕ) : (s'.pte m k).pfn = (s.pte m k).pfn := by
  rcases h.pte m k with heq | ⟨p, w, d, acc, w', d', acc', hs, hs', -⟩
  · rw [heq]
  · rw [hs, hs']
    rfl

theorem Similar.backing (h : Similar s s') : s'.backing a i = s.backing a i := by
  unfold MemState.backing
  rw [h.cache, h.special]

theorem Similar.systemOk (hs : Similar s s') (h : SystemOk R s) : SystemOk R s' := by
  have hmaps : ∀ m k q, s'.Maps m k q ↔ s.Maps m k q := fun m k q => by
    rw [Maps, hs.pfn, Maps]
  have hcached : ∀ q, s'.Cached q ↔ s.Cached q := fun q => by rw [Cached, hs.cache, Cached]
  refine ⟨⟨hs.ready, fun q hq m k => ?_, fun q hq => ?_, fun q hq m k m' k' => ?_,
    fun m i hi hbad => h.mem.dirs m i hi (hs.dirs m i hbad)⟩, fun q hq => ?_, fun q hq => ?_,
    fun b hb y hy => ⟨?_, fun q w d acc hq => ?_⟩⟩
  · rw [hmaps]
    exact h.mem.unmapped q (hs.free ▸ hq) m k
  · rw [hcached]
    exact h.mem.uncached q ((hs.exclusive q).symm.trans hq)
  · rw [hmaps, hmaps]
    exact h.mem.once q ((hs.exclusive q).symm.trans hq) m k m' k'
  · rw [hs.special]
    exact h.unspecial q ((hs.exclusive q).symm.trans hq)
  · rw [hs.exclusive]
    exact h.inexclusive q (hs.free ▸ hq)
  · rcases hs.pte b.vmMm (pageOf y) with heq | ⟨p, w, d, acc, w', d', acc', -, hp', -⟩
    · rw [heq]
      exact (h.entries b hb y hy).not_swap
    · rw [hp']
      exact Pte.noConfusion
  · rw [hs.exclusive, hs.backing]
    rcases hs.pte b.vmMm (pageOf y) with heq | ⟨p, w', d', acc', w'', d'', acc'', hp, hp', hexcl⟩
    · exact (h.entries b hb y hy).page q w d acc (heq ▸ hq)
    · rw [hp'] at hq
      cases hq
      -- the entry maps a page of one process alone, whatever its flags are
      rcases (h.entries b hb y hy).page q w' d' acc' hp with hown | ⟨hno, -⟩
      · exact .inl hown
      · exact absurd (hno.symm.trans hexcl) (by decide)

theorem Similar.sameView (hs : Similar s s') (hdata : ∀ q, (s'.frame q).data = (s.frame q).data) :
    SameView R s s' := by
  intro b _ y _ j _
  unfold visible
  rw [hs.pfn, hs.backing]
  cases (s.pte b.vmMm (pageOf y)).pfn.or (s.backing b (b.pageIndex y)) with
  | none => rfl
  | some q => exact congrFun (hdata q) j

theorem SystemOk.similar_getPage (h : SystemOk R s) (hp : p ∉ s.free) : Similar s (s.getPage p) :=
  ⟨fun _ _ => .inl rfl, (h.mem.pages.getPage (m := 0) hp).exclusive, rfl, rfl, rfl,
    fun _ _ hbad => hbad, (h.mem.pages.getPage (m := 0) hp).ready⟩

theorem SystemOk.similar_setPte {w d acc w' d' acc' : Bool} (h : SystemOk R s)
    (hpte : s.pte m k = .present p w d acc) (hexcl : (s.frame p).exclusive = true) :
    Similar s (s.setPte m k (.present p w' d' acc')) := by
  have htable := isTable_of_present hpte
  have hg : Grown m k (fun _ => False) True s (s.setPte m k (.present p w' d' acc')) :=
    h.mem.pages.grown_setPte htable
  refine ⟨fun m' l => ?_, fun q => by rw [frame_setPte], ?_, hg.special, free_setPte, hg.dirs,
    hg.ready⟩
  · by_cases hsame : m' = m ∧ l = k
    · obtain ⟨rfl, rfl⟩ := hsame
      exact .inr ⟨p, w, d, acc, w', d', acc', hpte,
        by rw [pte_setPte htable, if_pos ⟨rfl, rfl⟩], hexcl⟩
    · exact .inl (hg.quiet trivial m' l hsame)
  · obtain ⟨entries, hd⟩ := Pde.exists_of_isTable htable
    rw [setPte_eq hd]
    rfl

/-- **A fault keeps the invariant and changes nothing that is visible.** -/
theorem handleMmFault_keeps (hL : Layout R) (h : SystemOk R s) (ha : R a) (hx : a.Holds x)
    (hr : Ready s a x) (heq : handleMmFault s a x flags = .ok (ret, s')) :
    SystemOk R s' ∧ SameView R s s' := by
  have hxt := hL.lt_taskSize ha hx
  have hrefl : SystemOk R s ∧ SameView R s s := ⟨h, fun _ _ _ _ _ _ => rfl⟩
  cases hpte : s.pte a.vmMm (pageOf x) with
  | none =>
    have hf : EmptyFault s a x flags _ := handleMmFault_empty h.mem hxt hr hpte
    rw [heq] at hf
    cases hf with
    | sigbus => exact hrefl
    | mapped _ heff hprivate hcontent =>
      exact ⟨heff.systemOk hL h ha hx hprivate, heff.sameView hL h ha hx hr hpte hcontent⟩
  | swap => exact absurd hpte (h.entries a ha x hx).not_swap
  | present p w d acc =>
    rw [handleMmFault_of_present hpte] at heq
    split_ifs at heq with hwr
    · unfold doWpPage at heq
      split_ifs at heq with hre
      · have hexcl : (s.frame p).exclusive = true := (and_eq_true _ _ ▸ hre).2
        have hsim : Similar s s' ∧ s'.frame = s.frame := by
          cases heq
          unfold wpPageReuse maybeMkwrite
          rw [vpn_vmf]
          split_ifs <;> exact ⟨h.similar_setPte hpte hexcl, frame_setPte⟩
        exact ⟨hsim.1.systemOk h, hsim.1.sameView fun q => by rw [hsim.2]⟩
      · have hfree : p ∉ s.free := h.not_mem_of_pfn (vpn_lt hxt) (by rw [hpte]; rfl)
        cases heq
        exact ⟨(h.similar_getPage hfree).systemOk h, (h.similar_getPage hfree).sameView
          (h.mem.pages.getPage (m := 0) hfree).data⟩
    · cases heq
      exact hrefl

/-! ### Loads -/

section Shared

variable (h : EntryOk s a x) (hshared : hasFlag a.vmFlags vmShared = true)
include h hshared

theorem EntryOk.backing_of_shared {w d acc : Bool}
    (hpte : s.pte a.vmMm (pageOf x) = .present p w d acc) :
    s.backing a (a.pageIndex x) = some p := by
  rcases h.page p w d acc hpte with ⟨-, hprivate⟩ | ⟨-, hback, -⟩
  · exact nomatch hprivate.symm.trans hshared
  · exact hback

theorem EntryOk.of_shared_anon (hanon : a.isAnonymous = true) :
    s.pte a.vmMm (pageOf x) = .none := by
  cases hpte : s.pte a.vmMm (pageOf x) with
  | none => rfl
  | swap => exact absurd hpte h.not_swap
  | present p w d acc =>
    have hback := h.backing_of_shared hshared hpte
    rw [backing, isNone_iff_eq_none.1 hanon] at hback
    cases hback

end Shared

theorem offsetInPage_lt (x : ℕ) : offsetInPage x < pageSize := Nat.mod_lt _ (by decide)

variable (flags) in
/-- **A load returns the visible byte**, except that shared anonymous memory cannot be read. -/
theorem load_eq (hL : Layout R) (h : SystemOk R s) (ha : R a) (hx : a.Holds x) (hr : Ready s a x) :
    (a.isAnonymous = true ∧ hasFlag a.vmFlags vmShared = true ∧
      s.load a x flags = .ok (none, s)) ∨
    (¬ (a.isAnonymous = true ∧ hasFlag a.vmFlags vmShared = true) ∧
      ∃ s', s.load a x flags = .ok (some (s.visible a x (offsetInPage x)), s')) := by
  have hxt := hL.lt_taskSize ha hx
  have hentry := h.entries a ha x hx
  by_cases hno : a.isAnonymous = true ∧ hasFlag a.vmFlags vmShared = true
  · refine .inl ⟨hno.1, hno.2, ?_⟩
    have hpte := hentry.of_shared_anon hno.2 hno.1
    rw [load, readByte, hpte]
    dsimp only [Pte.pfn, map_none]
    rw [handleMmFault_of_none h.mem hxt hpte, if_pos hno.1, doAnonymousPage,
      if_pos (by exact hno.2)]
    rfl
  · refine .inr ⟨hno, ?_⟩
    cases hpte : s.pte a.vmMm (pageOf x) with
    | swap => exact absurd hpte hentry.not_swap
    | present p w d acc =>
      refine ⟨s, ?_⟩
      rw [visible_of_pfn (by rw [hpte]; rfl), load, readByte, hpte]
      rfl
    | none =>
      have hf : EmptyFault s a x { flags with write := false } _ :=
        handleMmFault_empty h.mem hxt hr hpte
      rw [load, readByte, hpte]
      dsimp only [Pte.pfn, map_none]
      generalize hres : handleMmFault s a x { flags with write := false } = r at hf ⊢
      cases hf with
      | sigbus hanon hshared => exact absurd ⟨hanon, hshared⟩ hno
      | oops hwrite => cases hwrite
      | mapped hret heff hprivate hcontent =>
        have hview := heff.sameView hL h ha hx hr hpte hcontent a ha x hx _ (offsetInPage_lt x)
        dsimp only
        rw [hret, if_neg Bool.false_ne_true, readByte, heff.pfn, ← hview, visible_of_pfn heff.pfn]
        exact ⟨_, rfl⟩

/-! ### Stores -/

/-- The processor writes a byte: the invariant does not speak about bytes. -/
theorem SystemOk.similar_setFrame {f : Frame} (h : SystemOk R s) (hp : p ∉ s.free)
    (hrefs : f.refs = (s.frame p).refs) (hexcl : f.exclusive = (s.frame p).exclusive) :
    Similar s (s.setFrame p f) :=
  ⟨fun _ _ => .inl rfl, fun _ => frame_setFrame Frame.exclusive hexcl, rfl, rfl, rfl,
    fun _ _ hbad => hbad, h.mem.pages.setFrame hp fun hle => by rw [hrefs]; exact hle⟩

theorem writeByte_eq_some (h : s.writeByte a x c = some s') :
    ∃ p d acc, s.pte a.vmMm (pageOf x) = .present p true d acc ∧ s' = s.setFrame p
      { s.frame p with data := Function.update (s.frame p).data (offsetInPage x) c } := by
  unfold writeByte at h
  split at h
  · next p d acc hpte => exact ⟨p, d, acc, hpte, (Option.some.inj h).symm⟩
  · cases h

/-- **A store** changes nothing that is visible before the processor writes the byte. -/
theorem store_cases (hL : Layout R) (h : SystemOk R s) (ha : R a) (hx : a.Holds x)
    (hr : Ready s a x) {done : Bool} (heq : s.store a x c flags = .ok (done, s')) :
    SystemOk R s' ∧ (done = false → SameView R s s') ∧
      (done = true → ∃ s₁, SystemOk R s₁ ∧ SameView R s s₁ ∧ s₁.writeByte a x c = some s') := by
  have hwrite : ∀ s₁ s₂, SystemOk R s₁ → s₁.writeByte a x c = some s₂ → SystemOk R s₂ :=
    fun s₁ s₂ h₁ hw => by
      obtain ⟨p, d, acc, hpte, rfl⟩ := writeByte_eq_some hw
      have hfree := h₁.not_mem_of_pfn (vpn_lt (hL.lt_taskSize ha hx))
        (show (s₁.pte a.vmMm (pageOf x)).pfn = some p by rw [hpte]; rfl)
      exact (h₁.similar_setFrame hfree (by rfl) (by rfl)).systemOk h₁
  unfold store at heq
  split at heq
  · next s₁ hw =>
    cases heq
    exact ⟨hwrite s s' h hw, nofun, fun _ => ⟨s, h, fun _ _ _ _ _ _ => rfl, hw⟩⟩
  · split at heq
    · cases heq
    · next ret s₁ hf =>
      obtain ⟨hok, hview⟩ := handleMmFault_keeps hL h ha hx hr hf
      split_ifs at heq
      · cases heq
        exact ⟨hok, fun _ => hview, nofun⟩
      · split at heq
        · next s₂ hw =>
          cases heq
          exact ⟨hwrite s₁ s' hok hw, nofun, fun _ => ⟨s₁, hok, hview, hw⟩⟩
        · cases heq
          exact ⟨hok, fun _ => hview, nofun⟩

theorem writeByte_private (h : SystemOk R s) (hxt : x < taskSize) (hentry : EntryOk s a x)
    (hshared : hasFlag a.vmFlags vmShared = false) (hw : s.writeByte a x c = some s')
    (hb : b.vmMm ≠ a.vmMm) (hy : y < taskSize) : s'.visible b y j = s.visible b y j := by
  obtain ⟨p, d, acc, hpte, rfl⟩ := writeByte_eq_some hw
  have hexcl : (s.frame p).exclusive = true := by
    rcases hentry.page p true d acc hpte with ⟨hexcl, -⟩ | ⟨-, -, hsh⟩
    · exact hexcl
    · exact nomatch hshared.symm.trans (hsh rfl)
  have hmaps : s.Maps a.vmMm (pageOf x) p := ⟨vpn_lt hxt, by rw [hpte]; rfl⟩
  show (match (s.pte b.vmMm (pageOf y)).pfn.or (s.backing b (b.pageIndex y)) with
    | some q => ((s.setFrame p _).frame q).data j
    | none => 0) = _
  unfold visible
  cases hpfn : (s.pte b.vmMm (pageOf y)).pfn with
  | some q =>
    have hne : q ≠ p := by
      rintro rfl
      exact hb (h.mem.once q hexcl _ _ _ _ ⟨vpn_lt hy, hpfn⟩ hmaps).1
    simp only [some_or]
    rw [frame_setFrame_of_ne hne]
  | none =>
    rw [none_or]
    cases hback : s.backing b (b.pageIndex y) with
    | none => rfl
    | some q =>
      have hne : q ≠ p := by
        rintro rfl
        exact nomatch (h.not_exclusive_of_backing hback).symm.trans hexcl
      dsimp only
      rw [frame_setFrame_of_ne hne]

/-- Two shared mappings show the same page. -/
structure SamePage (a b : VmArea) (x y : ℕ) : Prop where
  ops : b.vmOps = a.vmOps
  file : b.vmFile = a.vmFile
  index : b.pageIndex y = a.pageIndex x

theorem SamePage.backing (h : SamePage a b x y) :
    s.backing b (b.pageIndex y) = s.backing a (a.pageIndex x) := by
  unfold MemState.backing
  rw [h.ops, h.file, h.index]

theorem writeByte_shared (hentry : EntryOk s a x) (hentry' : EntryOk s b y)
    (hshared : hasFlag a.vmFlags vmShared = true) (hshared' : hasFlag b.vmFlags vmShared = true)
    (hsame : SamePage a b x y) (hw : s.writeByte a x c = some s') :
    s'.visible b y (offsetInPage x) = c := by
  obtain ⟨p, d, acc, hpte, rfl⟩ := writeByte_eq_some hw
  have hback : s.backing b (b.pageIndex y) = some p :=
    hsame.backing.trans (hentry.backing_of_shared hshared hpte)
  have hor : (s.pte b.vmMm (pageOf y)).pfn.or (s.backing b (b.pageIndex y)) = some p := by
    cases hpte' : s.pte b.vmMm (pageOf y) with
    | none => exact hback
    | swap => exact absurd hpte' hentry'.not_swap
    | present q w d' acc' =>
      exact (hentry'.backing_of_shared hshared' hpte').symm.trans hback
  show (match (s.pte b.vmMm (pageOf y)).pfn.or (s.backing b (b.pageIndex y)) with
    | some q => ((s.setFrame p _).frame q).data (offsetInPage x)
    | none => 0) = c
  rw [hor]
  simp [setFrame]

end MinimalKernel.Mm
