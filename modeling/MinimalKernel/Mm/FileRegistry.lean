import MinimalKernel.Mm.Fork
import MinimalKernel.Mm.WellFormed
import Mathlib.Data.Set.Card

/-!
# The registry of file mappings

Each file has an interval tree `i_mmap` of the VMAs that map it, keyed by the page indices they map.
The registry is exact if the trees hold the live file VMAs, each once and under its current bounds.

`Registered s` is the invariant that carries this through the operations of any number of tasks
with any number of address spaces. Mapping keeps it, and so does unmapping if no file VMA is cut
and stays: `__vma_adjust` changes the bounds of a VMA without moving its node.

## Main definitions

* `FileRegistry s` — the registry holds exactly the live file VMAs, under their bounds
* `Holds s P`, `Keyed s` — the members of the registry, and their keys
* `Registered s` — the invariant
* `CutSafe s m start endAddr` — no file VMA is cut by an unmapping and stays

## Main results

* `Registered.munmap`, `Registered.mmapRegion` — unmapping and mapping keep the invariant
-/

namespace MinimalKernel.Mm

open Function Lib List VmArea VmState

variable {s s' s'' : VmState} {m m' : MmId} {v w : VmaId} {f : FileId} {t : TaskId}
  {P Q : VmaId → Prop} {addr len start endAddr : ℕ} {r : Except Errno ℕ}

/-! ### The registry -/

/-- The VMA is linked into some address space. -/
def Live (s : VmState) (v : VmaId) : Prop := ∃ m, v ∈ (s.mm m).mmap

/-- **The registry is exact.** -/
structure FileRegistry (s : VmState) : Prop where
  /-- The tree of a file holds the live VMAs that map it, under their current page indices. -/
  exact : ∀ f n, n ∈ s.imap f ↔ Live s n.vma ∧ (s.vma n.vma).vmFile = some f ∧
    n.start = (s.vma n.vma).vmPgoff ∧ n.last = (s.vma n.vma).lastPgoff
  /-- It holds each of them once. -/
  once : ∀ f, ((s.imap f).map ImapNode.vma).Nodup
  /-- No node has been removed that was not there. -/
  intact : s.imapCorrupt = false

/-- The VMAs in the registry are the file VMAs with the property `P`. -/
structure Holds (s : VmState) (P : VmaId → Prop) : Prop where
  mem : ∀ f v, v ∈ (s.imap f).map ImapNode.vma ↔ P v ∧ (s.vma v).vmFile = some f
  once : ∀ f, ((s.imap f).map ImapNode.vma).Nodup
  intact : s.imapCorrupt = false

/-- Every node carries the current page indices of its VMA. -/
def Keyed (s : VmState) : Prop :=
  ∀ f, ∀ n ∈ s.imap f, n.start = (s.vma n.vma).vmPgoff ∧ n.last = (s.vma n.vma).lastPgoff

theorem Holds.fileRegistry (h : Holds s (Live s)) (hk : Keyed s) : FileRegistry s := by
  refine ⟨fun f n => ⟨fun hn => ?_, fun hn => ?_⟩, h.once, h.intact⟩
  · obtain ⟨hlive, hfile⟩ := (h.mem f n.vma).1 (mem_map_of_mem hn)
    exact ⟨hlive, hfile, hk f n hn⟩
  · obtain ⟨hlive, hfile, hstart, hlast⟩ := hn
    obtain ⟨n', hn', hvma⟩ := mem_map.1 ((h.mem f n.vma).2 ⟨hlive, hfile⟩)
    obtain ⟨hstart', hlast'⟩ := hk f n' hn'
    rw [hvma, ← hstart] at hstart'
    rw [hvma, ← hlast] at hlast'
    have hn : n' = n := by
      cases n'
      cases n
      simp_all
    exact hn ▸ hn'

section

variable (h : Holds s P) (himap : s'.imap = s.imap) (hcorrupt : s'.imapCorrupt = s.imapCorrupt)
include h himap hcorrupt

/-- Only the file VMAs count. -/
theorem Holds.of_iff
    (hmem : ∀ f v, P v ∧ (s.vma v).vmFile = some f ↔ Q v ∧ (s'.vma v).vmFile = some f) :
    Holds s' Q :=
  ⟨fun f v => by rw [himap, h.mem, hmem], by rw [himap]; exact h.once, hcorrupt.trans h.intact⟩

theorem Holds.congr (hPQ : ∀ v, Q v ↔ P v)
    (hfile : ∀ v, P v → (s'.vma v).vmFile = (s.vma v).vmFile) : Holds s' Q := by
  refine h.of_iff himap hcorrupt fun f v => ?_
  rw [hPQ]
  exact and_congr_right fun hv => by rw [hfile v hv]

end

/-! ### Entering and leaving the registry -/

theorem map_eraseP_vma (nodes : List ImapNode) (v : VmaId) :
    (nodes.eraseP fun n => n.vma == v).map ImapNode.vma = (nodes.map ImapNode.vma).erase v := by
  rw [erase_eq_eraseP', eraseP_map]
  rfl

/-- Another list of nodes for the file `f`, which changes the property for its VMAs only. -/
theorem Holds.setImap {nodes : List ImapNode} {corrupt : Bool} (h : Holds s P)
    (hmem : ∀ w, w ∈ nodes.map ImapNode.vma ↔ Q w ∧ (s.vma w).vmFile = some f)
    (hnodup : (nodes.map ImapNode.vma).Nodup)
    (hPQ : ∀ w, (s.vma w).vmFile ≠ some f → (Q w ↔ P w)) (hcorrupt : corrupt = false) :
    Holds { s.setImap f nodes with imapCorrupt := corrupt } Q := by
  refine ⟨fun g w => ?_, (forall_update_iff s.imap fun _ l => (l.map ImapNode.vma).Nodup).2
    ⟨hnodup, fun g _ => h.once g⟩, hcorrupt⟩
  by_cases hg : g = f
  · subst hg
    simpa only [VmState.setImap, update_self] using hmem w
  · simp only [VmState.setImap, update_of_ne hg, h.mem]
    exact and_congr_left fun hfile => (hPQ w (by simp [hfile, hg])).symm

/-- Removing a VMA that is in the registry. -/
theorem Holds.unlinkFileVma (h : Holds s P) (hv : P v) :
    Holds (unlinkFileVma s v) fun w => P w ∧ w ≠ v := by
  unfold Mm.unlinkFileVma
  rcases hf : (s.vma v).vmFile with _ | f
  · refine h.of_iff rfl rfl fun f w => and_congr_left fun hfile => (and_iff_left ?_).symm
    rintro rfl
    simp [hf] at hfile
  · obtain ⟨n, hn, hnv⟩ := mem_map.1 ((h.mem f v).2 ⟨hv, hf⟩)
    refine h.setImap (fun w => ?_) ?_ (fun w hw => and_iff_left fun hwv => hw (hwv ▸ hf)) ?_
    · rw [map_eraseP_vma, (h.once f).mem_erase_iff, h.mem]
      tauto
    · rw [map_eraseP_vma]
      exact (h.once f).erase v
    · simp only [h.intact, Bool.false_or, all_eq_false]
      exact ⟨n, hn, by simp [hnv]⟩

theorem Holds.unlinkFileVmas {vs : List VmaId} (h : Holds s P) (hvs : ∀ v ∈ vs, P v)
    (hnodup : vs.Nodup) : Holds (unlinkFileVmas s vs) fun w => P w ∧ w ∉ vs := by
  induction vs generalizing s P with
  | nil => exact h.congr rfl rfl (by simp) fun _ _ => rfl
  | cons v vs ih =>
    obtain ⟨hv, hnodup⟩ := nodup_cons.1 hnodup
    have h₁ := h.unlinkFileVma (hvs v (by simp))
    refine (ih h₁ (fun w hw => ⟨hvs w (by simp [hw]), ?_⟩) hnodup).congr rfl rfl
      (fun w => ?_) fun _ _ => rfl
    · rintro rfl
      exact hv hw
    · simp only [mem_cons, not_or, ne_eq]
      tauto

theorem mem_of_mem_unlinkFileVmas {vs : List VmaId} {n : ImapNode}
    (hn : n ∈ (unlinkFileVmas s vs).imap f) : n ∈ s.imap f := by
  induction vs generalizing s with
  | nil => exact hn
  | cons v vs ih =>
    have hn := ih hn
    unfold unlinkFileVma at hn
    rcases hf₀ : (s.vma v).vmFile with _ | f₀ <;> rw [hf₀] at hn
    · exact hn
    · by_cases hf : f = f₀
      · subst hf
        simp only [setImap, update_self] at hn
        exact mem_of_mem_eraseP hn
      · simpa only [setImap, update_of_ne hf] using hn

/-- Entering a VMA that is not in the registry. -/
theorem Holds.vmaLinkFile (h : Holds s P) (hv : ¬ P v) :
    Holds (vmaLinkFile s v) fun w => P w ∨ w = v := by
  unfold Mm.vmaLinkFile
  rcases hf : (s.vma v).vmFile with _ | f
  · refine h.of_iff rfl rfl fun f w => and_congr_left fun hfile => (or_iff_left ?_).symm
    rintro rfl
    simp [hf] at hfile
  · refine h.setImap (fun w => ?_) ?_ (fun w hw => or_iff_left fun hwv => hw (hwv ▸ hf)) h.intact
    · rw [map_cons, mem_cons, h.mem, or_and_right, or_comm]
      exact or_congr_right (iff_self_and.2 fun hwv => hwv ▸ hf)
    · rw [map_cons, nodup_cons, h.mem]
      exact ⟨fun hw => hv hw.1, h.once f⟩

theorem Keyed.vmaLinkFile (h : Keyed s) : Keyed (vmaLinkFile s v) := by
  intro f n hn
  rw [vmaLinkFile_vma]
  unfold Mm.vmaLinkFile at hn
  rcases hf₀ : (s.vma v).vmFile with _ | f₀ <;> rw [hf₀] at hn
  · exact h f n hn
  · by_cases hf : f = f₀
    · subst hf
      simp only [setImap, update_self, mem_cons] at hn
      rcases hn with rfl | hn
      · exact ⟨rfl, rfl⟩
      · exact h f n hn
    · simp only [setImap, update_of_ne hf] at hn
      exact h f n hn

theorem vmaLink_imap (s : VmState) (m : MmId) (v : VmaId) (prev : Option VmaId)
    (place : Path VmaId) :
    (vmaLink s m v prev place).imap = (vmaLinkFile s v).imap ∧
      (vmaLink s m v prev place).imapCorrupt = (vmaLinkFile s v).imapCorrupt := by
  unfold vmaLink vmaLinkRb vmaLinkList vmaLinkFile
  simp only [setMm]
  rcases (s.vma v).vmFile with _ | f <;> exact ⟨rfl, rfl⟩

/-! ### The invariant -/

/-- The tasks that run in the address space `m`. -/
def usersOf (s : VmState) (m : MmId) : Set TaskId := {t | (s.task t).mm = some m}

/-- What the invariant says about one address space. -/
structure Accounted (s : VmState) (m : MmId) : Prop where
  used : ∀ t, (s.task t).mm = some m → Coherent s m ∧ m < s.nextMm
  idle : (∀ t, (s.task t).mm ≠ some m) → (s.mm m).mmap = []
  finite : (usersOf s m).Finite
  users : (s.mm m).mmUsers = (usersOf s m).ncard

/-- The invariant of the runs: the address spaces in use are coherent, the others have no VMAs, the
user counts are right, and the registry is exact. -/
structure Registered (s : VmState) : Prop where
  used : ∀ t m, (s.task t).mm = some m → Coherent s m
  idle : ∀ m, (∀ t, (s.task t).mm ≠ some m) → (s.mm m).mmap = []
  bound : ∀ t m, (s.task t).mm = some m → m < s.nextMm
  finite : ∀ m, (usersOf s m).Finite
  users : ∀ m, (s.mm m).mmUsers = (usersOf s m).ncard
  holds : Holds s (Live s)
  keyed : Keyed s

namespace Registered

theorem of_accounted (hmm : ∀ m, Accounted s m) (hholds : Holds s (Live s)) (hkeyed : Keyed s) :
    Registered s :=
  ⟨fun t m ht => ((hmm m).used t ht).1, fun m => (hmm m).idle, fun t m ht => ((hmm m).used t ht).2,
    fun m => (hmm m).finite, fun m => (hmm m).users, hholds, hkeyed⟩

section

variable (h : Registered s)
include h

theorem coherent_of_mem (hv : v ∈ (s.mm m).mmap) : Coherent s m := by
  by_contra hc
  have hidle := h.idle m fun t ht => hc (h.used t m ht)
  rw [hidle] at hv
  exact not_mem_nil hv

/-- A VMA belongs to one address space. -/
theorem eq_of_mem (hv : v ∈ (s.mm m).mmap) (hv' : v ∈ (s.mm m').mmap) : m = m' :=
  ((h.coherent_of_mem hv).owned v hv).symm.trans ((h.coherent_of_mem hv').owned v hv')

theorem nodup (m : MmId) : (s.mm m).mmap.Nodup := by
  rcases hmmap : (s.mm m).mmap with _ | ⟨v, vs⟩
  · exact nodup_nil
  · exact hmmap ▸ (h.coherent_of_mem (v := v) (by simp [hmmap])).ordered.nodup

theorem lt_nextVma (hv : Live s v) : v < s.nextVma := by
  obtain ⟨m, hv⟩ := hv
  exact (h.coherent_of_mem hv).allocated v hv

/-- An address space whose users stay as they are. -/
theorem accounted (hmmap : (∀ t, (s.task t).mm ≠ some m) → (s'.mm m).mmap = (s.mm m).mmap)
    (husers : (s'.mm m).mmUsers = (s.mm m).mmUsers)
    (htask : ∀ t, (s'.task t).mm = some m ↔ (s.task t).mm = some m) (hnext : s.nextMm ≤ s'.nextMm)
    (hc : Coherent s m → Coherent s' m) : Accounted s' m := by
  have heq : usersOf s' m = usersOf s m := Set.ext htask
  refine ⟨fun t ht => ?_, fun hu => ?_, by rw [heq]; exact h.finite m, ?_⟩
  · have ht := (htask t).1 ht
    exact ⟨hc (h.used t m ht), (h.bound t m ht).trans_le hnext⟩
  · have hu : ∀ t, (s.task t).mm ≠ some m := fun t ht => hu t ((htask t).2 ht)
    exact (hmmap hu).trans (h.idle m hu)
  · rw [heq, husers, h.users]

/-- **A change of one address space** keeps the invariant if it keeps that address space coherent
and the registry exact. -/
theorem of_elsewhere (ht : (s.task t).mm = some m) (he : Elsewhere m s s') (hc : Coherent s' m)
    (hholds : Holds s' (Live s')) (hkeyed : Keyed s') : Registered s' := by
  refine of_accounted (fun m' => h.accounted (fun hu => ?_) ?_ (fun u => by rw [he.taskMm])
    he.nextMm.ge fun hc' => ?_) hholds hkeyed
  · rw [he.mm m' fun hm => hu t (hm ▸ ht)]
  · by_cases hm : m' = m
    · rw [hm, he.users]
    · rw [he.mm m' hm]
  · by_cases hm : m' = m
    · exact hm ▸ hc
    · exact he.coherent hm hc' fun v hv hv' => hm (h.eq_of_mem hv hv')

/-- A change that touches no VMA and no registry. -/
theorem of_quiet (ht : (s.task t).mm = some m) (hq : Quiet s s') : Registered s' := by
  have hvma : ∀ v, Live s v → s'.vma v = s.vma v := fun v hv => hq.vma v (h.lt_nextVma hv)
  refine h.of_elsewhere ht (.of_quiet hq) ((h.used t m ht).of_quiet hq) ?_ fun f n hn => ?_
  · exact h.holds.congr hq.imap hq.imapCorrupt (fun v => by simp only [Live, hq.mm]) fun v hv => by
      rw [hvma v hv]
  · rw [hq.imap] at hn
    rw [hvma n.vma ((h.holds.mem f n.vma).1 (mem_map_of_mem hn)).1]
    exact h.keyed f n hn

end

end Registered

/-! ### Unmapping -/

/-- No file VMA is cut by an unmapping and stays: none is cut at the start of the range, and one
that reaches past the end of the range is the first one behind its start, which is always detached
as a whole. -/
def CutSafe (s : VmState) (m : MmId) (start endAddr : ℕ) : Prop :=
  ∀ v ∈ (s.mm m).mmap, (s.vma v).vmFile.isSome → (s.lo v < start → s.hi v ≤ start) ∧
    (start ≤ s.lo v → s.lo v < endAddr → endAddr < s.hi v →
      ∀ w ∈ (s.mm m).mmap, start ≤ s.lo w → s.lo v ≤ s.lo w)

theorem vmFile_cutStart (start : ℕ) (a : VmArea) : (a.cutStart start).vmFile = a.vmFile := by
  unfold cutStart
  split <;> rfl

theorem vmFile_cutEnd (endAddr : ℕ) (a : VmArea) : (a.cutEnd endAddr).vmFile = a.vmFile := by
  unfold cutEnd
  split <;> rfl

theorem Elsewhere.of_mapVmas {g : VmArea → VmArea} (hr : Rewrites (mapVmas s m g) s s') :
    Elsewhere m s s' :=
  .of_rewrites hr fun _ _ hv => if_neg hv

/-- The members of the registry do not change with the bounds of the VMAs. -/
theorem Registered.holds_of_mapVmas {g : VmArea → VmArea} (h : Registered s)
    (hr : Rewrites (mapVmas s m g) s s') (hg : ∀ a, (g a).vmFile = a.vmFile) :
    Holds s' (Live s) := by
  refine h.holds.congr hr.imap hr.imapCorrupt (fun _ => Iff.rfl) fun v hv => ?_
  rw [hr.vma v (h.lt_nextVma hv), mapVmas]
  split
  · exact hg _
  · rfl

/-- The keys stay right where the VMAs stay as they are. -/
theorem Registered.keyed_of_subset (h : Registered s) (hsub : ∀ f, ∀ n ∈ s'.imap f, n ∈ s.imap f)
    (hvma : ∀ f v, v ∈ (s'.imap f).map ImapNode.vma → s'.vma v = s.vma v) : Keyed s' := by
  intro f n hn
  rw [hvma f n.vma (mem_map_of_mem hn)]
  exact h.keyed f n (hsub f n hn)

theorem Elsewhere.of_unlinkFileVmas (vs : List VmaId) : Elsewhere m s (unlinkFileVmas s vs) := by
  obtain ⟨imap, corrupt, hu⟩ := unlinkFileVmas_eq s vs
  rw [hu]
  exact ⟨fun _ _ => rfl, rfl, fun _ _ _ => rfl, fun _ hv _ => hv, le_rfl, rfl, rfl, fun _ => rfl,
    fun _ _ hc => hc⟩

/-- A file VMA that begins before the range is not cut. -/
theorem CutSafe.cutBoth_of_lt (hsafe : CutSafe s m start endAddr) (hr : start < endAddr)
    (hv : v ∈ (s.mm m).mmap) (hfile : (s.vma v).vmFile.isSome) (hlt : s.lo v < start) :
    ((cutEnd endAddr ∘ cutStart start) (s.vma v)) = s.vma v := by
  have hhi := (hsafe v hv hfile).1 hlt
  have hs : (s.vma v).cutStart start = s.vma v := if_neg fun h => absurd h.2 (not_lt.2 hhi)
  rw [comp_apply, hs]
  exact if_neg fun h => absurd h.2 (not_lt.2 (hhi.trans hr.le))

/-- A file VMA behind the one that is detached in any case is not cut. -/
theorem CutSafe.cutBoth_of_behind (hsafe : CutSafe s m start endAddr) (hv : v ∈ (s.mm m).mmap)
    (hfile : (s.vma v).vmFile.isSome) (hle : start ≤ s.lo v) (hw : w ∈ (s.mm m).mmap)
    (hstart : start ≤ s.lo w) (hlt : s.lo w < s.lo v) :
    ((cutEnd endAddr ∘ cutStart start) (s.vma v)) = s.vma v := by
  have hs : (s.vma v).cutStart start = s.vma v := if_neg fun h => absurd h.1 (not_lt.2 hle)
  rw [comp_apply, hs]
  exact if_neg fun h => absurd ((hsafe v hv hfile).2 hle h.1 h.2 w hw hstart) (not_le.2 hlt)

/-- What is live after an unmapping has detached the VMAs `gone`. -/
theorem Registered.live_iff_of_detached {kept gone left : List VmaId} (h : Registered s)
    (hmmap : (s.mm m).mmap = kept ++ (gone ++ left)) (hmm : (s'.mm m).mmap = kept ++ left)
    (hother : ∀ m' ≠ m, s'.mm m' = s.mm m') (w : VmaId) : Live s' w ↔ Live s w ∧ w ∉ gone := by
  refine (exists_congr fun m' => ?_).trans exists_and_right
  by_cases hm' : m' = m
  · subst hm'
    obtain ⟨-, hnodup, hkept⟩ := nodup_append.1 (hmmap ▸ h.nodup m')
    have hk : w ∈ kept → w ∉ gone := fun hw hg => hkept w hw w (mem_append_left _ hg) rfl
    have hl : w ∈ left → w ∉ gone := fun hw hg => (nodup_append.1 hnodup).2.2 w hg w hw rfl
    rw [hmm, hmmap, mem_append, mem_append, mem_append]
    tauto
  · rw [hother m' hm']
    exact (and_iff_left_of_imp fun hw hg => hm' (h.eq_of_mem hw (by simp [hmmap, hg]))).symm

/-- Unmapping changes no other address space. -/
theorem MunmapOutcome.elsewhere (ho : MunmapOutcome s m start endAddr (.ok (r, s'))) :
    Elsewhere m s s' := by
  cases ho with
  | refused hq | nothing _ _ hq => exact .of_quiet hq
  | halfway hcut _ => exact .of_mapVmas hcut
  | done _ _ hmmap _ _ _ _ hcut =>
    refine (Elsewhere.of_mapVmas hcut).trans (Elsewhere.trans ?_ (.of_unlinkFileVmas _))
    refine .of_setMm (fun w hw _ => ?_) rfl
    rw [hcut.mm, hmmap]
    simp only [mem_append, mem_cons] at hw ⊢
    tauto

section

variable (h : Registered s)
include h

/-- **Unmapping keeps the registry exact** when no file VMA is cut and stays. -/
theorem Registered.munmap (ht : (s.task t).mm = some m)
    (hsafe : CutSafe s m start endAddr) (ho : MunmapOutcome s m start endAddr (.ok (r, s'))) :
    Registered s' := by
  have hm := h.used t m ht
  have hc := ho.coherent hm
  have he := ho.elsewhere
  cases ho with
  | refused hq | nothing _ _ hq => exact h.of_quiet ht hq
  | halfway hcut _ =>
    have hlive : ∀ v, Live s' v ↔ Live s v := fun v => by simp only [Live, hcut.mm]
    have hholds := h.holds_of_mapVmas hcut (vmFile_cutStart start)
    refine h.of_elsewhere ht he hc (hholds.congr rfl rfl hlive fun _ _ => rfl) ?_
    refine h.keyed_of_subset (fun f n hn => hcut.imap ▸ hn) fun f v hv => ?_
    rw [hcut.imap] at hv
    obtain ⟨hv, hfile⟩ := (h.holds.mem f v).1 hv
    rw [hcut.vma v (h.lt_nextVma hv), mapVmas]
    split
    · next hmem =>
      have hsome : (s.vma v).vmFile.isSome := by rw [hfile]; rfl
      exact if_neg fun hlt => absurd hlt.2 (not_lt.2 ((hsafe v hmem hsome).1 hlt.1))
    · rfl
  | @done _ s₂ kept gone left u hrange _ hmmap hbelow hbehind _ _ hcut =>
    set gone' := u :: gone with hgone'
    have hmmap' : (s.mm m).mmap = kept ++ (gone' ++ left) := by rw [hmmap, hgone', cons_append]
    have hmm :
        ((unlinkFileVmas (detached s₂ m kept gone' left) gone').mm m).mmap = kept ++ left := by
      rw [unlinkFileVmas_mm, detached_mm_self]
    have hlive := h.live_iff_of_detached hmmap' hmm he.mm
    have hholds₂ : Holds s₂ (Live s) := h.holds_of_mapVmas hcut fun a => by
      rw [comp_apply, vmFile_cutEnd, vmFile_cutStart]
    have hholdsd : Holds (detached s₂ m kept gone' left) (Live s) :=
      hholds₂.congr rfl rfl (fun _ => Iff.rfl) fun _ _ => rfl
    have hnodup : gone'.Nodup := by
      exact (nodup_append.1 (nodup_append.1 (hmmap' ▸ h.nodup m)).2.1).1
    have hholds := (hholdsd.unlinkFileVmas (fun w hw => ⟨m, by simp [hmmap', hw]⟩) hnodup).congr
      rfl rfl hlive fun _ _ => rfl
    refine h.of_elsewhere ht he hc hholds (h.keyed_of_subset (fun f n hn => ?_) fun f w hw => ?_)
    · have hn := mem_of_mem_unlinkFileVmas hn
      rw [← hcut.imap]
      exact hn
    · obtain ⟨hw', hfile⟩ := (hholds.mem f w).1 hw
      obtain ⟨hlw, hgw⟩ := (hlive w).1 hw'
      have hvma : (unlinkFileVmas (detached s₂ m kept gone' left) gone').vma w = s₂.vma w := by
        rw [unlinkFileVmas_vma]
        rfl
      rw [hvma] at hfile ⊢
      rw [hcut.vma w (h.lt_nextVma hlw), mapVmas] at hfile ⊢
      split
      · next hmem =>
        rw [if_pos hmem, comp_apply, vmFile_cutEnd, vmFile_cutStart] at hfile
        have hsome : (s.vma w).vmFile.isSome := by rw [hfile]; rfl
        have hmem' := hmem
        rw [hmmap', mem_append, mem_append] at hmem'
        rcases hmem' with hk | hg | hl
        · exact hsafe.cutBoth_of_lt hrange.lt hmem hsome (hbelow w hk)
        · exact absurd hg hgw
        · -- the first VMA behind the start lies before this one
          have hord := (Ordered.append_iff.1 (hmmap ▸ hm.ordered)).2.1
          have hul := (Ordered.cons_iff.1 hord).2.2 w (by simp [hl])
          have hu := (Ordered.cons_iff.1 hord).1
          exact hsafe.cutBoth_of_behind hmem hsome (hbehind w (by simp [hl]))
            (w := u) (by simp [hmmap]) (hbehind u (by simp)) (hu.trans_le hul)
      · rfl

/-! ### Mapping -/

/-- **Linking a new VMA** enters it into the registry. -/
theorem Registered.link {place : Path VmaId} {prev : Option VmaId}
    (ht : (s.task t).mm = some m) (hq : Quiet s s') (hv : s.nextVma ≤ v) (hn : v < s'.nextVma)
    (hroom : Room s m (s'.lo v) (s'.hi v) place prev) (hlt : s'.lo v < s'.hi v)
    (hle : s'.hi v ≤ taskSize) (hm : (s'.vma v).vmMm = m) :
    Registered (vmaLink s' m v prev place) := by
  have h' := h.of_quiet ht hq
  have hc' := (h.used t m ht).of_quiet hq
  have hroom' := hroom.of_quiet (h.used t m ht) hq
  have hfits : Fits s' m v prev place := { hroom' with }
  have hins := hfits.insertAfter_eq hc'
  have hlive' : ¬ Live s' v := fun ⟨m', hv'⟩ =>
    not_lt.2 hv (h.lt_nextVma ⟨m', hq.mm ▸ hv'⟩)
  obtain ⟨himap, hcorrupt⟩ := vmaLink_imap s' m v prev place
  have hvma : (vmaLink s' m v prev place).vma = (vmaLinkFile s' v).vma := by
    rw [vmaLink_vma, vmaLinkFile_vma]
  have hmem : ∀ w, w ∈ place.before ++ v :: place.after ↔ w = v ∨ w ∈ (s'.mm m).mmap := by
    intro w
    rw [hroom'.mmap, mem_append, mem_cons, mem_append]
    tauto
  refine h.of_elsewhere ht (.of_link hq (vmaLink_mm s' m v prev place) rfl (fun w hw => ?_)
    (vmaLink_vma ..) (vmaLink_nextVma ..) ?_ ?_ (vmaLink_task ..))
    (hc'.vmaLink hfits hlt hle hm hn) ?_ ?_
  · rw [hins, hmem] at hw
    rcases hw with rfl | hw
    · exact .inr hv
    · exact .inl hw
  · simp [vmaLink, vmaLinkRb, vmaLinkList, setMm]
  · simp [vmaLink, vmaLinkRb, vmaLinkList, setMm]
  · refine (h'.holds.vmaLinkFile hlive').congr himap hcorrupt (fun w => ?_) fun _ _ => by rw [hvma]
    simp only [Live, vmaLink_mm, exists_update_iff s'.mm fun _ mm => w ∈ mm.mmap, hins, hmem]
    constructor
    · rintro ((rfl | hw) | ⟨m', -, hw⟩)
      · exact .inr rfl
      · exact .inl ⟨m, hw⟩
      · exact .inl ⟨m', hw⟩
    · rintro (⟨m', hw⟩ | rfl)
      · by_cases hm' : m' = m
        · exact .inl (.inr (hm' ▸ hw))
        · exact .inr ⟨m', hm', hw⟩
      · exact .inl (.inl rfl)
  · intro f n hn
    rw [himap] at hn
    rw [hvma]
    exact h'.keyed.vmaLinkFile f n hn

theorem Registered.of_munmapVmaRange (ht : (s.task t).mm = some m)
    (hsafe : CutSafe s m addr (addr + pageAlign len))
    (hs' : s' = s ∨ ∃ r, doMunmap s m addr len false = .ok (r, s')) :
    Registered s' ∧ (s'.task t).mm = some m := by
  rcases hs' with rfl | ⟨r, hd⟩
  · exact ⟨h, ht⟩
  · have ho := doMunmap_outcome (h.used t m ht) addr len false
    rw [hd] at ho
    exact ⟨h.munmap ht hsafe ho, (ho.elsewhere.taskMm t).trans ht⟩

/-- **`mmap_region` keeps the registry exact** when making room does. -/
theorem Registered.mmapRegion {file : Option FileId} {vmFlags : VmFlags} {pgoff : ℕ}
    (hm : s.currentMm = some m) (hlen : 0 < len) (hle : addr + len ≤ taskSize)
    (hsafe : CutSafe s m addr (addr + pageAlign len))
    (hr : mmapRegion s file addr len vmFlags pgoff = .ok (r, s')) : Registered s' := by
  have hc := h.used s.current m hm
  have hend := wadd_of_user hle
  have hcases := munmapVmaRange_cases hc hle
  unfold Mm.mmapRegion at hr
  rw [hm] at hr
  dsimp only at hr
  rcases hmu : munmapVmaRange s m addr len with e | ⟨e | ⟨place, prev⟩, s₁⟩ <;>
    rw [hmu] at hr hcases
  · cases hr
  · cases hr
    exact (h.of_munmapVmaRange hm hsafe hcases.1).1
  obtain ⟨h₁, ht₁⟩ := h.of_munmapVmaRange hm hsafe hcases.1
  have hroom := hcases.2 place prev rfl
  dsimp only at hr
  rcases hal : vmAreaAlloc s₁ m with ⟨_ | v, s₂⟩ <;> rw [hal] at hr
  · cases hr
    exact h₁.of_quiet ht₁ (newVma_none hal)
  obtain ⟨hv, hq, hinit, hnext⟩ := newVma_some hal
  have hn : v < s₂.nextVma := hnext ▸ Nat.lt_succ_self v
  have hlink : ∀ a : VmArea, a.vmStart = addr → a.vmEnd = addr + len → a.vmMm = m →
      Registered (vmaLink (s₂.setVma v a) m v prev place) := by
    intro a hstart hend hm
    have hvma : (s₂.setVma v a).vma v = a := update_self ..
    refine h₁.link ht₁ (hq.setVma hv.ge a) hv.ge hn ?_ ?_ ?_ (by rw [hvma, hm]) <;>
      rw [hi, hvma, hend]
    · rwa [lo, hvma, hstart]
    · rw [lo, hvma, hstart]
      omega
    · exact hle
  have hmm : (s₂.vma v).vmMm = m := by rw [hinit]; rfl
  dsimp only at hr
  rw [hend] at hr
  cases file with
  | none =>
    cases hr
    exact hlink _ rfl rfl hmm
  | some f =>
    dsimp only at hr
    rcases hops : s₂.fileMmap f with _ | ops <;> rw [hops] at hr <;> cases hr
    · exact h₁.of_quiet ht₁ hq
    · exact hlink _ rfl rfl hmm

end

end MinimalKernel.Mm
