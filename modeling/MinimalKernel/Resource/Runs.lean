import MinimalKernel.Resource.Calls
import MinimalKernel.Lib.Run

/-!
# The resources in every run

In every run of calls that are made with a resource that they are meant for, the pointers of the
resources form trees, every call returns, a call fails exactly when the new resource leaves its
parent, is empty or overlaps with a resource that is in its way, and a call that fails leaves every
resource as it was.

The three conditions are needed: `request_resource` refuses an empty range although nothing is in
the way, a resource that is requested twice is in two lists, and `__release_region` frees a region
with children, whose pointers to their parent then lead to memory that is free.

## Main definitions

* `ResourcesOk` — the invariant
* `ResourceSpec` — what holds of the resources and of every call

## Main results

* `ResourcesOk.step` — a step keeps the invariant
* `resource_run` — the resources in every run
-/

namespace MinimalKernel.Resource

open Function Lib List Relation

/-! ### The invariant -/

/-- The pointers form trees. A call that waits has a resource of its own, which no caller can name
yet and which has no children, and its parent is there. -/
structure ResourcesOk (s : Resources) (kids : ℕ → List ℕ) : Prop where
  forest : ForestOk s.mem s.live kids
  parent : ∀ w ∈ s.waiting, s.live w.parent
  res : ∀ w ∈ s.waiting, s.live w.res = false
  child : ∀ w ∈ s.waiting, s.mem.child w.res = none
  nodup : (s.waiting.map RegionCall.res).Nodup

variable {s s' : Resources} {kids : ℕ → List ℕ} {root new old parent : ℕ} {m : ResourceMem}
  {res : ℕ}

namespace ResourcesOk

theorem init (h : Unlinked s) : ResourcesOk s fun _ => [] where
  forest := by
    refine ⟨fun r hr => h.child r hr, fun _ _ => rfl, nofun, nofun, nofun, fun _ => .nil, ?_⟩
    exact ⟨fun _ => 0, 0, nofun⟩
  parent := by simp [h.waiting]
  res := by simp [h.waiting]
  child := by simp [h.waiting]
  nodup := by simp [h.waiting]

section

variable (h : ResourcesOk s kids)
include h

/-- The memory changes, and stays a forest. -/
theorem setMem (hm : Stays s.live s.mem m) : ∃ kids', ResourcesOk { s with mem := m } kids' := by
  obtain ⟨kids', hforest, hchild⟩ := hm
  exact ⟨kids', hforest, h.parent, h.res,
    fun w hw => (hchild w.res (h.res w hw)).trans (h.child w hw), h.nodup⟩

theorem notMem_of_guard (hnew : ∀ p, s.live p → ¬Child s.mem p new) :
    ∀ p, new ∉ kids p := fun p hp =>
  hnew p (h.forest.live_parent hp) ((h.forest.child_iff (h.forest.live_parent hp)).2 hp)

theorem kids_of_child {r : ℕ} (hr : s.live r) (hchild : s.mem.child r = none) : kids r = [] := by
  have := (h.forest.list r hr).start_eq
  rw [hchild] at this
  exact List.head?_eq_none_iff.1 this.symm

end

/-! ### The calls -/

section

variable (h : ResourcesOk s kids)
include h

theorem request (hroot : s.live root) (hnew : s.live new)
    (hg : ResourceGuard s (.request root new)) :
    ∃ m o, Returns (s.mem.requestResourceConflict root new) (m, o) ∧
      (o = none ↔ Fits s.mem root new ∧ ∀ c ∈ kids root, ¬Overlaps s.mem c new) ∧
      (o = none → Stays s.live s.mem m) ∧ (o ≠ none → m = s.mem) :=
  h.forest.request hnew (h.notMem_of_guard hg.1) hroot fun hb => hg.2 (h.forest.below_child hb)

theorem insert (hparent : s.live parent) (hnew : s.live new)
    (hg : ResourceGuard s (.insert parent new)) :
    ∃ m o, Returns (s.mem.insertResourceConflict parent new) (m, o) ∧
      (o = none ↔ Allowed s.mem kids (Nested s.mem new) parent new) ∧
      (o = none → Stays s.live s.mem m) ∧ (o ≠ none → m = s.mem) :=
  h.forest.insert hnew (h.notMem_of_guard hg.1) (h.kids_of_child hnew hg.2.1) hparent hg.2.2

/-- A call of `__request_region`, with its resource, which nobody else can name. -/
theorem requestRegion {w : RegionCall} (hres : s.live w.res = false)
    (hchild : s.mem.child w.res = none) (hparent : s.live w.parent) :
    ∃ m o, Returns (s.mem.requestRegionLocked w.res w.parent w.flags) (m, o) ∧
      (o = .granted ↔ Allowed s.mem kids (Passable s.mem w.res) w.parent w.res) ∧
      (o = .granted → Stays (update s.live w.res true) s.mem m) ∧
      (o ≠ .granted → ∃ y, m = s.mem.setFlags w.res y) ∧ ∀ p, o = .wait p → s.live p := by
  have hne : w.res ≠ w.parent := ne_of_dead hres hparent
  have hforest := h.forest.setLive true (h.forest.dead _ hres) (fun _ => hchild) nofun
  have hnew : ∀ p, w.res ∉ kids p := fun p hp => by
    rw [h.forest.live p w.res hp] at hres
    cases hres
  obtain ⟨m, o, hret, hallowed, hok, hfail, hwait⟩ := hforest.requestRegion w.flags
    (update_self ..) hnew (h.forest.dead _ hres)
    (by rwa [update_of_ne hne.symm]) hne
  refine ⟨m, o, hret, hallowed, hok, hfail, fun p hp => ?_⟩
  obtain ⟨hlive, hne⟩ := hwait p hp
  rwa [update_of_ne hne.symm] at hlive

/-- A round of `__request_region` ends. -/
theorem finish {w : RegionCall} (hres : s.live w.res = false)
    (hwait : ∀ w' ∈ s.waiting, w'.res ≠ w.res) (hchild : s.mem.child w.res = none)
    (hparent : s.live w.parent) {o : RegionOutcome}
    (hret : Returns (s.mem.requestRegionLocked w.res w.parent w.flags) (m, o)) :
    ∃ kids', ResourcesOk (s.finish w m o) kids' := by
  obtain ⟨m', o', hret', -, hok, hfail, hlive⟩ := h.requestRegion hres hchild hparent
  cases hret.unique hret'
  have hmem : o ≠ .granted → ForestOk m s.live kids ∧ m.child = s.mem.child := by
    intro ho
    obtain ⟨y, rfl⟩ := hfail ho
    exact ⟨h.forest.setFlags w.res y, rfl⟩
  cases o with
  | granted =>
    obtain ⟨kids', hforest, hkeep⟩ := hok rfl
    refine ⟨kids', hforest, fun w' hw => ?_, fun w' hw => ?_, fun w' hw => ?_, h.nodup⟩
    · show update s.live w.res true w'.parent = true
      rw [update_of_ne (ne_of_dead hres (h.parent w' hw)).symm]
      exact h.parent w' hw
    · show update s.live w.res true w'.res = false
      rw [update_of_ne (hwait w' hw)]
      exact h.res w' hw
    · refine (hkeep w'.res ?_).trans (h.child w' hw)
      rw [update_of_ne (hwait w' hw)]
      exact h.res w' hw
  | busy =>
    obtain ⟨hforest, hch⟩ := hmem nofun
    exact ⟨kids, hforest, h.parent, h.res, fun w' hw => hch ▸ h.child w' hw, h.nodup⟩
  | wait p =>
    obtain ⟨hforest, hch⟩ := hmem nofun
    refine ⟨kids, hforest, forall_mem_cons.2 ⟨hlive p rfl, h.parent⟩,
      forall_mem_cons.2 ⟨hres, h.res⟩,
      forall_mem_cons.2 ⟨hch ▸ hchild, fun w' hw => hch ▸ h.child w' hw⟩, ?_⟩
    show (w.res :: s.waiting.map RegionCall.res).Nodup
    refine nodup_cons.2 ⟨fun hm => ?_, h.nodup⟩
    obtain ⟨w', hw, he⟩ := mem_map.1 hm
    exact hwait w' hw he

theorem zalloc (start stop : ℕ) (hres : s.live res = false) (hwait : ∀ w ∈ s.waiting, w.res ≠ res) :
    ResourcesOk { s with mem := s.mem.zalloc res start stop } kids where
  __ := h
  forest := by
    have hupd : ∀ {β : Type} (f : _ → β) b r, s.live r → update f res b r = f r :=
      fun f b r hr => update_of_ne (ne_of_dead hres hr).symm ..
    exact h.forest.congr (hupd _ _) (hupd _ _) (hupd _ _) (hupd _ _) (hupd _ _)
  child := fun w hw => by
    show update s.mem.child res none w.res = none
    rw [update_of_ne (hwait w hw)]
    exact h.child w hw

theorem releaseRegion {start n : ℕ}
    (hparent : s.live parent) (hg : ResourceGuard s (.releaseRegion parent start n))
    (hret : Returns
      (fun fuel => s.mem.releaseRegionLoop start (lastOf start n) fuel (.child parent))
      (m, some res)) : ∃ kids', ResourcesOk ({ s with mem := m }.freeResource res) kids' := by
  obtain ⟨m', o, hret', hspec⟩ := h.forest.releaseRegion parent hparent
  cases hret.unique hret'
  rcases hspec with ⟨hno, -⟩ | ⟨res', p, a, b, hres', hbusy, hstart, hstop, hk, rfl⟩
  · cases hno
  cases hres'
  have hres : res ∈ kids p := by simp [hk]
  have hunlink : ForestOk (s.mem.write (slotAfter p a) (s.mem.sibling res)) s.live
      (update kids p (a ++ b)) :=
    { h.forest.unlink hk (s.mem.parent res) with
      parent := by
        have := (h.forest.unlink hk (s.mem.parent res)).parent
        simpa only [ResourceMem.setParent, ResourceMem.write_parent, update_eq_self]
          using this }
  have hok : ResourcesOk { s with mem := s.mem.write (slotAfter p a) (s.mem.sibling res) }
      (update kids p (a ++ b)) :=
    ⟨hunlink, h.parent, h.res, fun w hw => (write_child_of_ne (ne_of_dead (h.res w hw)
      (h.forest.live_parent hres))).trans (h.child w hw), h.nodup⟩
  rw [Resources.freeResource]
  split
  · next hslab =>
    have hlive := h.forest.live p res hres
    obtain ⟨hchild, hwait⟩ := hg res hlive hslab hbusy hstart hstop
    have hempty : update kids p (a ++ b) res = [] := by
      rw [update_of_ne (h.forest.ne_parent hres)]
      exact h.kids_of_child hlive hchild
    have hnot : ∀ q, res ∉ update kids p (a ++ b) q := by
      intro q hq
      rcases eq_or_ne q p with rfl | hne
      · rw [update_self] at hq
        have hnodup := h.forest.nodup q
        rw [hk, nodup_middle, nodup_cons] at hnodup
        exact hnodup.1 hq
      · rw [update_of_ne hne] at hq
        exact hne (h.forest.parent_unique hq hres)
    refine ⟨_, hunlink.setLive false hempty (absurd · (by decide)) fun _ => hnot,
      fun w hw => ?_, fun w hw => ?_, hok.child, h.nodup⟩
    · show update s.live res false w.parent = true
      rw [update_of_ne (hwait w hw)]
      exact h.parent w hw
    · show update s.live res false w.res = false
      rw [update_of_ne (ne_of_dead (h.res w hw) hlive)]
      exact h.res w hw
  · exact ⟨_, hok⟩

/-- **A step keeps the invariant.** -/
theorem step {o : ResourceOp} (hs : guarded ResourceGuard ResourceStep s o s') :
    ∃ kids', ResourcesOk s' kids' := by
  obtain ⟨hg, hs⟩ := hs
  have hkeep : ∀ {P : Prop} {m : ResourceMem}, (P → Stays s.live s.mem m) → (¬P → m = s.mem) →
      ∃ kids', ResourcesOk { s with mem := m } kids' := by
    intro P m hok hfail
    by_cases hP : P
    · exact h.setMem (hok hP)
    · rw [hfail hP]
      exact ⟨kids, h⟩
  cases hs with
  | request hroot hnew hret =>
    obtain ⟨m', o, hret', -, hok, hfail⟩ := h.request hroot hnew hg
    cases hret.unique hret'
    exact hkeep hok hfail
  | insert hparent hnew hret =>
    obtain ⟨m', o, hret', -, hok, hfail⟩ := h.insert hparent hnew hg
    cases hret.unique hret'
    exact hkeep hok hfail
  | noMemory => exact ⟨kids, h⟩
  | @requestRegion parent start n flags res _ _ hparent hres hwait hret =>
    exact (h.zalloc start (lastOf start n) hres hwait).finish (w := ⟨res, parent, flags⟩) hres hwait
      (update_self ..) hparent hret
  | @resume w m o hw hret =>
    have hsub : ∀ w' ∈ s.waiting.erase w, w' ∈ s.waiting := fun w' => mem_of_mem_erase
    have hnodup : s.waiting.Nodup := List.Nodup.of_map _ h.nodup
    have hok : ResourcesOk { s with waiting := s.waiting.erase w } kids :=
      ⟨h.forest, fun w' hw => h.parent w' (hsub w' hw), fun w' hw => h.res w' (hsub w' hw),
        fun w' hw => h.child w' (hsub w' hw), h.nodup.sublist (erase_sublist.map _)⟩
    refine hok.finish (h.res w hw) (fun w' hw' he => ?_) (h.child w hw) (h.parent w hw) hret
    obtain rfl : w' = w := inj_on_of_nodup_map h.nodup (hsub w' hw') hw he
    exact hnodup.not_mem_erase hw'
  | releaseRegion hparent hret => exact h.releaseRegion hparent hg hret
  | noRegion hparent hret =>
    obtain ⟨m', o, hret', hspec⟩ := h.forest.releaseRegion _ hparent
    cases hret.unique hret'
    rcases hspec with ⟨-, rfl⟩ | ⟨_, _, _, _, hno, -⟩
    · exact ⟨kids, h⟩
    · cases hno
  | release hold hret =>
    obtain ⟨p, hp, hlive⟩ := hg
    obtain ⟨m', o, hret', -, hok, hfail⟩ := h.forest.release hp hlive
    cases hret.unique hret'
    exact hkeep hok hfail

end

end ResourcesOk

/-! ### Every run -/

/-- The resource `r` is the same in both memories. -/
def SameAt (m m' : ResourceMem) (r : ℕ) : Prop :=
  m'.start r = m.start r ∧ m'.stop r = m.stop r ∧ m'.flags r = m.flags r ∧
    m'.parent r = m.parent r ∧ m'.sibling r = m.sibling r ∧ m'.child r = m.child r

/-- Something below `root` is in the way of `new`. -/
def Blocked (m : ResourceMem) (kids : ℕ → List ℕ) (Q : ℕ → Prop) (root new : ℕ) : Prop :=
  ∃ c ∈ kids root, ∃ t, Below kids c t ∧ Overlaps m t new ∧ ¬Q t

/-- What holds of the resources, and of every call that is made next: it returns, it fails exactly
when the new resource does not fit or something is in its way, and when it fails every resource is
as it was. -/
structure ResourceSpec (s : Resources) (kids : ℕ → List ℕ) : Prop where
  forest : ForestOk s.mem s.live kids
  request : ∀ root new, s.live root → s.live new → ResourceGuard s (.request root new) →
    ∃ m o, Returns (s.mem.requestResourceConflict root new) (m, o) ∧
      (o ≠ none ↔ ¬Fits s.mem root new ∨ ∃ c ∈ kids root, Overlaps s.mem c new) ∧
      (o ≠ none → m = s.mem)
  insert : ∀ parent new, s.live parent → s.live new → ResourceGuard s (.insert parent new) →
    ∃ m o, Returns (s.mem.insertResourceConflict parent new) (m, o) ∧
      (o ≠ none ↔ ¬Fits s.mem parent new ∨ Blocked s.mem kids (Nested s.mem new) parent new) ∧
      (o ≠ none → m = s.mem)
  requestRegion : ∀ parent start n flags res, s.live parent → s.live res = false →
    (∀ w ∈ s.waiting, w.res ≠ res) →
    ∃ m o, Returns ((s.mem.zalloc res start (lastOf start n)).requestRegionLocked res parent flags)
        (m, o) ∧
      (o ≠ .granted ↔ ¬Fits (s.mem.zalloc res start (lastOf start n)) parent res ∨
        Blocked (s.mem.zalloc res start (lastOf start n)) kids
          (Passable (s.mem.zalloc res start (lastOf start n)) res) parent res) ∧
      (o ≠ .granted → ∀ r, s.live r → SameAt s.mem m r)
  resume : ∀ w ∈ s.waiting,
    ∃ m o, Returns (s.mem.requestRegionLocked w.res w.parent w.flags) (m, o) ∧
      (o ≠ .granted ↔ ¬Fits s.mem w.parent w.res ∨
        Blocked s.mem kids (Passable s.mem w.res) w.parent w.res) ∧
      (o ≠ .granted → ∀ r, s.live r → SameAt s.mem m r)
  releaseRegion : ∀ parent start n, s.live parent →
    ∃ m o, Returns (fun fuel => s.mem.releaseRegionLoop start (lastOf start n) fuel (.child parent))
        (m, o) ∧
      (o = none → m = s.mem)
  release : ∀ old p, s.live old → s.mem.parent old = some p → s.live p →
    ∃ m o, Returns (s.mem.releaseResource old) (m, o) ∧ (o ≠ .ok () ↔ old ∉ kids p) ∧
      (o ≠ .ok () → m = s.mem)

theorem not_allowed_iff {Q : ℕ → Prop} :
    ¬Allowed m kids Q root new ↔ ¬Fits m root new ∨ Blocked m kids Q root new := by
  simp only [Allowed, Blocked]
  push Not
  rw [imp_iff_not_or]

theorem sameAt_setFlags {r y : ℕ} (hne : r ≠ res) : SameAt m (m.setFlags res y) r :=
  ⟨rfl, rfl, update_of_ne hne .., rfl, rfl, rfl⟩

theorem ResourcesOk.spec (h : ResourcesOk s kids) : ResourceSpec s kids where
  forest := h.forest
  request := fun root new hroot hnew hg => by
    obtain ⟨m, o, hret, hiff, -, hfail⟩ := h.request hroot hnew hg
    refine ⟨m, o, hret, ?_, hfail⟩
    rw [Ne, hiff, not_and_or]
    simp only [not_forall, not_not, exists_prop]
  insert := fun parent new hparent hnew hg => by
    obtain ⟨m, o, hret, hiff, -, hfail⟩ := h.insert hparent hnew hg
    exact ⟨m, o, hret, by rw [Ne, hiff, not_allowed_iff], hfail⟩
  requestRegion := fun parent start n flags res hparent hres hwait => by
    have hok := h.zalloc start (lastOf start n) hres hwait
    obtain ⟨m, o, hret, hiff, -, hfail, -⟩ := hok.requestRegion (w := ⟨res, parent, flags⟩) hres
      (update_self ..) hparent
    refine ⟨m, o, hret, by rw [Ne, hiff, not_allowed_iff], fun ho r hr => ?_⟩
    obtain ⟨y, rfl⟩ := hfail ho
    have hne : r ≠ res := (ne_of_dead hres hr).symm
    exact ⟨update_of_ne hne .., update_of_ne hne ..,
      (update_of_ne hne ..).trans (update_of_ne hne ..),
      update_of_ne hne .., update_of_ne hne .., update_of_ne hne ..⟩
  resume := fun w hw => by
    obtain ⟨m, o, hret, hiff, -, hfail, -⟩ :=
      h.requestRegion (h.res w hw) (h.child w hw) (h.parent w hw)
    refine ⟨m, o, hret, by rw [Ne, hiff, not_allowed_iff], fun ho r hr => ?_⟩
    obtain ⟨y, rfl⟩ := hfail ho
    exact sameAt_setFlags (ne_of_dead (h.res w hw) hr).symm
  releaseRegion := fun parent start n hparent => by
    obtain ⟨m, o, hret, hspec⟩ := h.forest.releaseRegion parent hparent
    refine ⟨m, o, hret, fun ho => ?_⟩
    rcases hspec with ⟨-, hm⟩ | ⟨_, _, _, _, hno, -⟩
    · exact hm
    · rw [ho] at hno
      cases hno
  release := fun old p _ hp hlive => by
    obtain ⟨m, o, hret, hiff, -, hfail⟩ := h.forest.release hp hlive
    exact ⟨m, o, hret, by rw [Ne, hiff], hfail⟩

/-- **The resources in every run.** -/
theorem resource_run {s₀ : Resources} {ops : List ResourceOp} (h₀ : Unlinked s₀)
    (h : Run (guarded ResourceGuard ResourceStep) s₀ ops s) : ∃ kids, ResourceSpec s kids := by
  obtain ⟨kids, hok⟩ := h.invariant (I := fun s => ∃ kids, ResourcesOk s kids)
    (fun _ _ _ ⟨_, hi⟩ hs => hi.step hs) ⟨_, ResourcesOk.init h₀⟩
  exact ⟨kids, hok.spec⟩

/-! ### Calls that the conditions leave out -/

/-- Two roots, a busy resource of the slab, a range inside of it and an empty range. -/
def someResources : Resources where
  mem :=
    { start := fun r => [0, 0, 2, 0, 5].getD r 0
      stop := fun r => [10, 9, 3, 10, 4].getD r 0
      flags := fun r => if r = 1 then 0x80000000 else 0
      parent := fun _ => none
      sibling := fun _ => none
      child := fun _ => none }
  live := fun r => r < 5
  slab := fun r => r = 1
  waiting := []

/-- An empty range is refused although it is inside of its parent and nothing is in the way; a
resource that is requested twice is in two lists; and after `__release_region` of a region with a
child, the parent of the child is gone. -/
theorem resource_misuse :
    (Returns (someResources.mem.requestResourceConflict 0 4) (someResources.mem, some 0) ∧
      someResources.mem.start 0 ≤ someResources.mem.start 4 ∧
      someResources.mem.stop 4 ≤ someResources.mem.stop 0 ∧ someResources.mem.child 0 = none) ∧
    (∃ s, Run ResourceStep someResources [.request 0 2, .request 3 2] s ∧
      Child s.mem 0 2 ∧ Child s.mem 3 2) ∧
    ∃ s, Run ResourceStep someResources [.request 0 1, .insert 0 2, .releaseRegion 0 0 10] s ∧
      s.live 2 ∧ s.mem.parent 2 = some 1 ∧ s.live 1 = false := by
  refine ⟨⟨.of_add 0 fun _ => rfl, by decide, by decide, rfl⟩,
    ⟨_, .cons (.request rfl rfl (.of_add 1 fun _ => rfl))
      (.cons (.request rfl rfl (.of_add 1 fun _ => rfl)) .nil),
      ⟨[2], ⟨rfl, rfl⟩, mem_singleton_self 2⟩, ⟨[2], ⟨rfl, rfl⟩, mem_singleton_self 2⟩⟩,
    _, .cons (.request rfl rfl (.of_add 1 fun _ => rfl))
      (.cons (.insert rfl rfl (.of_add 2 fun _ => rfl))
        (.cons (.releaseRegion rfl (.of_add 1 fun _ => rfl)) .nil)), rfl, rfl, rfl⟩

/-- A region is granted, and another one that overlaps with it is refused. -/
theorem resource_run_regions : ∃ s kids,
    Run (guarded ResourceGuard ResourceStep) someResources
      [.requestRegion 0 2 3 0 (some 5), .requestRegion 0 3 3 0 (some 6)] s ∧
    s.mem.child 0 = some 5 ∧ s.live 6 = false ∧ ResourceSpec s kids := by
  have hrun : ∃ s, Run (guarded ResourceGuard ResourceStep) someResources
      [.requestRegion 0 2 3 0 (some 5), .requestRegion 0 3 3 0 (some 6)] s ∧
      s.mem.child 0 = some 5 ∧ s.live 6 = false :=
    ⟨_, .cons ⟨trivial, .requestRegion rfl rfl nofun (.of_add 1 fun _ => rfl)⟩
      (.cons ⟨trivial, .requestRegion rfl rfl nofun (.of_add 1 fun _ => rfl)⟩ .nil), rfl, rfl⟩
  obtain ⟨s, hrun, hchild, hlive⟩ := hrun
  obtain ⟨kids, hspec⟩ := resource_run ⟨fun _ _ => rfl, rfl⟩ hrun
  exact ⟨s, kids, hrun, hchild, hlive, hspec⟩

end MinimalKernel.Resource
