import MinimalKernel.Vfs.Store

/-!
# The walk in RCU mode follows the walk with references

Where no mount lies on a dentry, a path walk that begins in RCU mode and one that begins with
references do the same. The two are run side by side: `Twin` says that they are at the same point,
and each function of the walk takes twins to twins (the lemmas that end in `_sim`), unless the first
one gives up with `ECHILD`. The first walk may leave RCU mode at any point.

When the mounts show whole file systems and the path is relative to no preset root, the only reason
to give up is a component that is not in the cache, at a time when no symbolic link has been
followed. This part of the statements is guarded by the proposition `P`.

## Main definitions

* `Frame` — what a walk leaves as it is
* `SameWalk`, `Twin` — two walks at the same point

## Main results

* `pathLookupat_sim` — the two modes of `path_lookupat`
-/

namespace MinimalKernel.Vfs

open Lib List Store

/-! ### States that agree apart from the mode -/

/-- What a walk that has begun in `k` never changes, with the bound on the depth of its stack. -/
structure Frame (k nd : Nameidata) : Prop where
  name : nd.name = k.name
  dfd : nd.dfd = k.dfd
  preset : nd.rootPreset = k.rootPreset
  root : k.rootPreset = true → nd.root = k.root
  root_mnt : k.rootPreset = true → k.root.mnt ≠ none
  depth_le : nd.depth ≤ nd.stack.length
  length : nd.stack.length = embeddedLevels ∨ nd.stack.length = maxSymlinks

/-- An entry of the stack without its sequence counter. -/
def Saved.content (x : Saved) : Path × Name := (x.link, x.name)

/-- The state `b` of a walk with references agrees with `a` apart from the mode, the sequence
counters and what is known about references. -/
structure SameWalk (a b : Nameidata) : Prop where
  path : b.path = a.path
  last : b.last = a.last
  lastRest : b.lastRest = a.lastRest
  lastType : b.lastType = a.lastType
  root : b.root = a.root
  inode : b.inode = a.inode
  flags : b.flags = { a.flags with rcu := false }
  preset : b.rootPreset = a.rootPreset
  depth : b.depth = a.depth
  total : b.totalLinkCount = a.totalLinkCount
  stack : b.stack.map Saved.content = a.stack.map Saved.content
  name : b.name = a.name
  dfd : b.dfd = a.dfd

section

variable (w : Store) (k : Nameidata) (P : Prop)

/-- A walk `s` that may be in RCU mode, and a walk `t` with references that is at the same point.
`P` says that the walk has no reason to leave RCU mode except at its start. -/
structure Pre (s t : WalkState Store) : Prop where
  frame : Frame k s.nd
  same : SameWalk s.nd t.nd
  fs : s.fs = w
  fs' : t.fs = w
  uncached : s.nd.flags.cached = false
  root : s.nd.root.mnt ≠ none → ∃ d, s.nd.root.dentry = some d ∧
    (P → s.nd.flags.rcu = true → s.nd.rootSeq = (w.tree.dentry d).seq)
  links : s.nd.flags.rcu = true → ∀ x ∈ s.nd.stack.take s.nd.depth,
    ∃ d, x.link.dentry = some d ∧ x.seq = (w.tree.dentry d).seq
  plain : P → s.nd.rootPreset = false ∧ s.nd.flags.isScoped = false

/-- The walk stands at the path `l`. -/
structure Placed (s : WalkState Store) (l : Loc) : Prop where
  path : s.nd.path = l.path
  inode : s.nd.inode = (w.tree.dentry l.dentry).inode

/-- The sequence counter of the walk is that of the dentry. -/
def Current (s : WalkState Store) (d : DentryId) : Prop :=
  P → s.nd.flags.rcu = true → s.nd.totalLinkCount = 0 ∨ s.nd.seq = (w.tree.dentry d).seq

/-- Two walks at the same place. -/
structure Twin (s t : WalkState Store) : Prop extends Pre w k P s t where
  placed : ∃ l, Placed w s l ∧ Current w P s l.dentry

/-- A walk in RCU mode may give up. -/
def GivesUp (e : Stop) (s : WalkState Store) : Prop :=
  e = .errno .ECHILD ∧ Frame k s.nd ∧ (P → s.nd.totalLinkCount = 0)

/-- Both walks fail. -/
def BothFail (s t : WalkState Store) : Prop := Frame k s.nd ∧ Frame k t.nd

/-- Two computations end alike, unless the first one gives up. -/
abbrev Sim {α β : Type} (Q : α → β → WalkState Store → WalkState Store → Prop) :=
  Corresponds (GivesUp k P) (BothFail k) Q

/-- The two walks are at the same place again. -/
abbrev Twins (_ _ : Unit) (s t : WalkState Store) : Prop := Twin w k P s t

/-- The two walks are at the same place with the same answer. -/
abbrev SameAnswer {α : Type} (a b : α) (s t : WalkState Store) : Prop := b = a ∧ Twin w k P s t

end

variable {w : Store} {k : Nameidata} {P : Prop} {s t : WalkState Store} {α β : Type}
  {s' : WalkState Store} {d : DentryId} {link : Path} {l : Loc} {seq seq' : ℕ}

theorem Placed.dentry (h : Placed w s l) : s.nd.path.dentry = some l.dentry := by
  rw [h.path]
  rfl

namespace SameWalk

variable {a b : Nameidata} (h : SameWalk a b)

include h

theorem noXdev : b.flags.noXdev = a.flags.noXdev := by rw [h.flags]

theorem beneath : b.flags.beneath = a.flags.beneath := by rw [h.flags]

theorem isScoped : b.flags.isScoped = a.flags.isScoped := by rw [h.flags]; rfl

theorem noSymlinks : b.flags.noSymlinks = a.flags.noSymlinks := by rw [h.flags]

theorem follow : b.flags.follow = a.flags.follow := by rw [h.flags]

theorem directory : b.flags.directory = a.flags.directory := by rw [h.flags]

theorem mountpoint : b.flags.mountpoint = a.flags.mountpoint := by rw [h.flags]

end SameWalk

theorem SameWalk.length {a b : Nameidata} (h : SameWalk a b) : b.stack.length = a.stack.length := by
  simpa using congrArg List.length h.stack

theorem Frame.same {a b : Nameidata} (h : Frame k a) (hs : SameWalk a b) : Frame k b where
  name := hs.name.trans h.name
  dfd := hs.dfd.trans h.dfd
  preset := hs.preset.trans h.preset
  root := fun hp => hs.root.trans (h.root hp)
  root_mnt := h.root_mnt
  depth_le := by rw [hs.depth, hs.length]; exact h.depth_le
  length := by rw [hs.length]; exact h.length

theorem Pre.ref (h : Pre w k P s t) : t.nd.flags.rcu = false := by
  rw [h.same.flags]

theorem Pre.bothFail (h : Pre w k P s t) : BothFail k s t := ⟨h.frame, h.frame.same h.same⟩

theorem Current.givesUp (h : Current w P s d) (hf : Frame k s.nd) (hr : s.nd.flags.rcu = true)
    (hseq : (w.tree.dentry d).seq ≠ s.nd.seq) : GivesUp k P (.errno .ECHILD) s :=
  ⟨rfl, hf, fun hp => (h hp hr).resolve_right hseq.symm⟩

/-- A result of the second walk that goes with a failure of both. -/
theorem Pre.error (h : Pre w k P s t) {Q : α → β → WalkState Store → WalkState Store → Prop}
    (e : Stop) : Sim k P Q (.error e s) (.error e t) :=
  .error h.bothFail

theorem onlyIf_sim {p : Prop} [Decidable p] {x y : Walk Store Unit}
    {Q : Unit → Unit → WalkState Store → WalkState Store → Prop} (hx : p → Sim k P Q (x s) (y t))
    (hn : ¬ p → Q () () s t) : Sim k P Q (onlyIf p x s) (onlyIf p y t) := by
  by_cases hp : p
  · rw [onlyIf_true hp, onlyIf_true hp]
    exact hx hp
  · rw [onlyIf_false hp, onlyIf_false hp]
    exact .ok (hn hp)

/-! ### Leaving RCU mode -/

theorem legitimizePath_apply (p : Path) (d : DentryId) (seq : ℕ) (hd : p.dentry = some d) :
    legitimizePath ops p seq s = .ok (decide ((s.fs.tree.dentry d).seq = seq), p) s := by
  unfold legitimizePath
  rw [hd]
  rfl

theorem legitimizeLinksFrom_apply (n i : ℕ)
    (h : ∀ j < n, ∃ x d, s.nd.stack[i + j]? = some x ∧ x.link.dentry = some d ∧
      x.seq = (s.fs.tree.dentry d).seq) : legitimizeLinksFrom ops n i s = .ok true s := by
  induction n generalizing i with
  | zero => rfl
  | succ n ih =>
    obtain ⟨x, d, hx, hd, hseq⟩ := h 0 (Nat.succ_pos n)
    rw [Nat.add_zero] at hx
    have hrest := ih (i + 1) fun j hj => by
      have := h (j + 1) (Nat.succ_lt_succ hj)
      rwa [show i + (j + 1) = i + 1 + j by omega] at this
    unfold legitimizeLinksFrom
    simp [getSaved_apply, hx, legitimizePath_apply _ d _ hd, hseq, hrest]

theorem legitimizeLinks_apply (hc : s.nd.flags.cached = false)
    (hlen : s.nd.depth ≤ s.nd.stack.length)
    (h : ∀ x ∈ s.nd.stack.take s.nd.depth,
      ∃ d, x.link.dentry = some d ∧ x.seq = (s.fs.tree.dentry d).seq) :
    legitimizeLinks ops s = .ok true s := by
  unfold legitimizeLinks
  simp only [getNd_bind, hc, Bool.false_eq_true, if_false]
  refine legitimizeLinksFrom_apply _ _ fun j hj => ?_
  have hj' : j < s.nd.stack.length := lt_of_lt_of_le hj hlen
  obtain ⟨d, hd, hseq⟩ := h s.nd.stack[j] (mem_take_iff_getElem.2 ⟨j, by omega, rfl⟩)
  exact ⟨s.nd.stack[j], d, by simp [hj'], hd, hseq⟩

/-- The walk when it has left RCU mode. -/
def unlazied (s : WalkState Store) (grabbed : Bool) : WalkState Store :=
  { s with nd := { s.nd with
      flags := { s.nd.flags with rcu := false }, rootGrabbed := grabbed } }

theorem Twin.unlazied (h : Twin w k P s t) (g : Bool) : Twin w k P (unlazied s g) t where
  __ := h
  frame := { h.frame with }
  same := { h.same with }
  fs' := h.fs'
  root := fun hr => by
    obtain ⟨d, hd, -⟩ := h.root hr
    exact ⟨d, hd, fun _ hf => absurd hf Bool.false_ne_true⟩
  links := fun hf => absurd hf Bool.false_ne_true
  placed := by
    obtain ⟨l, hl, -⟩ := h.placed
    exact ⟨l, ⟨hl.path, hl.inode⟩, fun _ hf => absurd hf Bool.false_ne_true⟩

theorem legitimizeRoot_apply (h : s.nd.root.mnt ≠ none → ∃ d, s.nd.root.dentry = some d ∧
      (P → s.nd.rootSeq = (s.fs.tree.dentry d).seq)) :
    ∃ b g, legitimizeRoot ops s = .ok b { s with nd := { s.nd with rootGrabbed := g } } ∧
      (b = false → ¬ P) := by
  unfold legitimizeRoot
  rw [getNd_bind, Lib.ite_apply]
  split_ifs with hr
  · exact ⟨true, s.nd.rootGrabbed, rfl, by simp⟩
  · obtain ⟨d, hd, hseq⟩ := h fun hm => hr (by rw [hm]; rfl)
    refine ⟨decide ((s.fs.tree.dentry d).seq = s.nd.rootSeq), true, ?_, fun hb hP => ?_⟩
    · rw [modifyNd_bind, bind_apply, legitimizePath_apply _ d _ hd]
      rfl
    · exact of_decide_eq_false hb (hseq hP).symm

section LeaveRcu

variable (hr : s.nd.flags.rcu = true)
include hr

theorem leaveRcu_apply : leaveRcu s = .ok () (unlazied s s.nd.rootGrabbed) := by
  unfold leaveRcu
  rw [getNd_bind, if_pos hr]
  rfl

theorem Pre.legitimizeLinks_unlazied (h : Pre w k P s t) :
    legitimizeLinks ops (unlazied s s.nd.rootGrabbed) =
      .ok true (unlazied s s.nd.rootGrabbed) :=
  legitimizeLinks_apply h.uncached h.frame.depth_le fun x hx => by
    have := h.links hr x hx
    rwa [← h.fs] at this

theorem Pre.legitimizeRoot_unlazied (h : Pre w k P s t) :
    ∃ b g, legitimizeRoot ops (unlazied s s.nd.rootGrabbed) = .ok b (unlazied s g) ∧
      (b = false → ¬ P) := by
  refine legitimizeRoot_apply (s := unlazied s s.nd.rootGrabbed) (P := P) fun hm => ?_
  obtain ⟨d, hd, hseq⟩ := h.root hm
  refine ⟨d, hd, fun hP => ?_⟩
  rw [← h.fs] at hseq
  exact hseq hP hr

variable (h : Twin w k P s t)
include h

/-- **Leaving RCU mode.** The attempt succeeds, or no link has been followed yet. -/
theorem tryToUnlazy_apply :
    ∃ b g, tryToUnlazy ops s = .ok b (unlazied s g) ∧
      (b = false → P → s.nd.totalLinkCount = 0) := by
  obtain ⟨l, hl, hcur⟩ := h.placed
  have hpath := hl.dentry
  obtain ⟨b, g, hb, hP⟩ := h.legitimizeRoot_unlazied hr
  have hinode : s.nd.inode = (s.fs.tree.dentry l.dentry).inode := by rw [h.fs]; exact hl.inode
  have hlegit := legitimizePath_apply (s := unlazied s s.nd.rootGrabbed)
    (unlazied s s.nd.rootGrabbed).nd.path l.dentry (unlazied s s.nd.rootGrabbed).nd.seq hpath
  unfold tryToUnlazy
  rw [getNd_bind, bind_ok (leaveRcu_apply hr), bind_ok (h.legitimizeLinks_unlazied hr), if_pos rfl,
    getNd_bind, bind_ok hlegit]
  by_cases hseq : ((unlazied s s.nd.rootGrabbed).fs.tree.dentry l.dentry).seq =
    (unlazied s s.nd.rootGrabbed).nd.seq
  · refine ⟨b, g, ?_, fun hbf hp => absurd hp (hP hbf)⟩
    rw [modifyNd_bind, if_pos (decide_eq_true hseq)]
    refine (bind_ok hb).trans ?_
    cases b with
    | false => rfl
    | true =>
      rw [if_pos rfl, tree_bind, hpath, deref_some_bind, getNd_bind]
      rw [if_pos]
      · rfl
      · exact hinode
  · refine ⟨false, s.nd.rootGrabbed, ?_, fun _ hp => ?_⟩
    · rw [modifyNd_bind, decide_eq_false hseq]
      rfl
    refine (hcur hp hr).resolve_right fun hc => hseq ?_
    exact (congrArg (fun v : Store => (v.tree.dentry l.dentry).seq) h.fs).trans hc.symm

theorem tryToUnlazyNext_apply
    (hseq : P → s.nd.totalLinkCount = 0 ∨ seq = (w.tree.dentry d).seq) :
    ∃ b g, tryToUnlazyNext ops d seq s = .ok b (unlazied s g) ∧
      (b = false → P → s.nd.totalLinkCount = 0) := by
  obtain ⟨l, hl, hcur⟩ := h.placed
  have hpath : (unlazied s s.nd.rootGrabbed).nd.path.dentry = some l.dentry := hl.dentry
  obtain ⟨b, g, hb, hP⟩ := h.legitimizeRoot_unlazied hr
  unfold tryToUnlazyNext
  rw [bind_ok (leaveRcu_apply hr), bind_ok (h.legitimizeLinks_unlazied hr), if_pos rfl, getNd_bind,
    hpath, deref_some_bind, getNotDead_bind, if_pos rfl, getNotDead_bind, if_pos rfl, tree_bind]
  by_cases hd : ((unlazied s s.nd.rootGrabbed).fs.tree.dentry d).seq = seq
  · refine ⟨b, g, ?_, fun hbf hp => absurd hp (hP hbf)⟩
    rw [if_pos hd]
    refine (bind_ok hb).trans ?_
    cases b <;> rfl
  · refine ⟨false, s.nd.rootGrabbed, ?_, fun _ hp => (hseq hp).resolve_right fun hc => hd ?_⟩
    · rw [if_neg hd]
      rfl
    · exact (congrArg (fun v : Store => (v.tree.dentry d).seq) h.fs).trans hc.symm

theorem unlazyOrFail_apply :
    ∃ g, unlazyOrFail ops s = .ok () (unlazied s g) ∨
      unlazyOrFail ops s = .error (.errno .ECHILD) (unlazied s g) ∧
        (P → s.nd.totalLinkCount = 0) := by
  obtain ⟨b, g, hb, hP⟩ := tryToUnlazy_apply hr h
  unfold unlazyOrFail
  rw [bind_ok hb]
  cases b with
  | true => exact ⟨g, .inl rfl⟩
  | false => exact ⟨g, .inr ⟨rfl, hP rfl⟩⟩

end LeaveRcu

/-- `s'` is `s`, or what is left of it after RCU mode. -/
def Later (s s' : WalkState Store) : Prop := s' = s ∨ ∃ g, s' = unlazied s g

/-- RCU mode is left where the condition holds. -/
theorem unlazyIf_sim (h : Twin w k P s t) (c : Prop) [Decidable c] :
    Sim k P (fun _ _ s' t' => Twin w k P s' t' ∧ t' = t ∧ Later s s')
      (onlyIf (s.nd.flags.rcu = true ∧ c) (unlazyOrFail ops) s)
      (onlyIf (t.nd.flags.rcu = true ∧ c) (unlazyOrFail ops) t) := by
  rw [onlyIf_false (p := t.nd.flags.rcu = true ∧ c) (by simp [h.ref])]
  by_cases hc : s.nd.flags.rcu = true ∧ c
  · rw [onlyIf_true hc]
    obtain ⟨g, hok | ⟨hfail, hP⟩⟩ := unlazyOrFail_apply hc.1 h
    · rw [hok]
      exact .ok ⟨h.unlazied g, rfl, .inr ⟨g, rfl⟩⟩
    · rw [hfail]
      exact .escape ⟨rfl, (h.unlazied g).frame, hP⟩
  · rw [onlyIf_false hc]
    exact .ok ⟨h, rfl, .inl rfl⟩

/-! ### Mounts -/

theorem handleMountsRef_apply (d : DentryId) :
    handleMountsRef ops d s =
      if (!(s.fs.tree.dentry d).mounted && s.fs.tree.isNegative d) = true then
        .error (.errno .ENOENT) s
      else .ok ⟨⟨s.nd.path.mnt, some d⟩, (s.fs.tree.dentry d).inode, 0⟩ s := by
  have htraverse : traverseMounts ops d s =
      .ok (if (!(s.fs.tree.dentry d).mounted && s.fs.tree.isNegative d) = true then
        some .ENOENT else none) s := rfl
  unfold handleMountsRef
  rw [getNd_bind, bind_ok htraverse]
  split <;> rfl

/-- Both walks have found the step to `d`. -/
structure SameStep (w : Store) (d : DentryId) (p q : Step) (s : WalkState Store) : Prop where
  path : q.path = p.path
  inode : q.inode = p.inode
  dentry : p.path.dentry = some d
  mnt : p.path.mnt = s.nd.path.mnt
  inode_eq : p.inode = (w.tree.dentry d).inode

theorem handleMountsRef_sim (h : Twin w k P s t) (d : DentryId) :
    Sim k P (fun p q s' t' => Twin w k P s' t' ∧ t' = t ∧ s' = s ∧ SameStep w d p q s)
      (handleMountsRef ops d s) (handleMountsRef ops d t) := by
  rw [handleMountsRef_apply, handleMountsRef_apply, h.fs, h.fs']
  split
  · exact h.error _
  · refine .ok ⟨h, rfl, rfl, ?_⟩
    exact ⟨by rw [h.same.path], rfl, rfl, rfl, rfl⟩

section

variable (hm : ∀ m d, w.tree.mountOn m d = none)
include hm

theorem followMountRcuLoop_apply (fuel : ℕ) (m : MntId)
    (d : DentryId) (inode : Option InodeId) (seq : ℕ) :
    followMountRcuLoop w.tree fuel m d inode seq s = .ok ⟨⟨some m, some d⟩, inode, seq⟩ s := by
  unfold followMountRcuLoop
  rw [hm m d]
  rfl

theorem followMountRcu_apply (hs : s.fs = w) (fuel : ℕ)
    (m : MntId) (d : DentryId) (inode : Option InodeId) (seq : ℕ) :
    followMountRcu ops fuel m d inode seq s = .ok
      (if (w.tree.dentry d).mounted = true ∧ s.nd.flags.noXdev = true then none
        else some ⟨⟨some m, some d⟩, inode, seq⟩) s := by
  unfold followMountRcu
  rw [tree_bind, hs]
  cases (w.tree.dentry d).mounted with
  | false => rfl
  | true =>
    simp only [Bool.not_true, Bool.false_eq_true, if_false, true_and]
    rw [getNd_bind]
    split
    · rfl
    · exact bind_ok (followMountRcuLoop_apply hm fuel m d inode seq)

/-- **Mounts.** Where no mount is attached, both modes take the same step. -/
theorem handleMounts_sim (h : Twin w k P s t) (fuel : ℕ)
    {i i' : Option InodeId} (hi : s.nd.flags.rcu = true → i = (w.tree.dentry d).inode)
    (hseq : s.nd.flags.rcu = true → P → s.nd.totalLinkCount = 0 ∨ seq = (w.tree.dentry d).seq) :
    Sim k P (fun p q s' t' => Twin w k P s' t' ∧ t' = t ∧ Later s s' ∧ SameStep w d p q s ∧
        (s'.nd.flags.rcu = true → p.seq = seq))
      (handleMounts ops fuel d i seq s) (handleMounts ops fuel d i' seq' t) := by
  obtain ⟨l, hl, hcur⟩ := h.placed
  have hmnt : s.nd.path.mnt = some l.mnt := by rw [hl.path]; rfl
  unfold handleMounts
  rw [getNd_bind, getNd_bind, h.ref, if_neg Bool.false_ne_true]
  by_cases hr : s.nd.flags.rcu = true
  · rw [if_pos hr]
    have hi := hi hr
    by_cases hneg : i.isNone
    · -- a negative dentry: no mountpoint, so the walk with references fails as well
      have hnone : (w.tree.dentry d).inode = none := by
        rw [← hi]; exact Option.isNone_iff_eq_none.1 hneg
      have hun : (w.tree.dentry d).mounted = false :=
        Bool.eq_false_iff.2 fun hmt => w.mounted_positive d hmt hnone
      rw [if_pos hneg, handleMountsRef_apply, h.fs', if_pos (by simp [hun, Tree.isNegative, hnone])]
      exact h.error _
    · have hpos : ¬ (!(w.tree.dentry d).mounted && w.tree.isNegative d) = true := by
        simp only [Tree.isNegative, ← hi, Bool.and_eq_true]
        exact fun hc => hneg hc.2
      have hsame : ∀ q, SameStep w d ⟨⟨some l.mnt, some d⟩, i, q⟩
          ⟨⟨t.nd.path.mnt, some d⟩, (w.tree.dentry d).inode, 0⟩ s := fun q =>
        ⟨by rw [h.same.path, hmnt], hi.symm, rfl, hmnt.symm, hi⟩
      rw [if_neg hneg, hmnt, deref_some_bind, bind_ok (followMountRcu_apply hm h.fs ..)]
      split_ifs with hx
      · -- RCU mode is left at every mountpoint
        obtain ⟨b, g, hb, hP⟩ := tryToUnlazyNext_apply hr h (hseq hr)
        dsimp only
        rw [bind_ok hb]
        cases b with
        | true =>
          refine (handleMountsRef_sim (h.unlazied g) d).mono ?_
          rintro p q s' t' ⟨hT, rfl, rfl, hst⟩
          refine ⟨hT, rfl, .inr ⟨g, rfl⟩, { hst with }, fun hf => ?_⟩
          exact absurd hf Bool.false_ne_true
        | false => exact .escape ⟨rfl, (h.unlazied g).frame, hP rfl⟩
      · rw [handleMountsRef_apply, h.fs', if_neg hpos]
        exact .ok ⟨h, rfl, .inl rfl, hsame seq, fun _ => rfl⟩
  · rw [if_neg hr]
    refine (handleMountsRef_sim h d).mono ?_
    rintro p q s' t' ⟨hT, rfl, rfl, hst⟩
    exact ⟨hT, rfl, .inl rfl, hst, fun hf => absurd hf hr⟩

end

/-! ### The root -/

/-- The walk has not moved. -/
structure Still (s s' : WalkState Store) : Prop where
  path : s'.nd.path = s.nd.path
  inode : s'.nd.inode = s.nd.inode
  seq : s'.nd.seq = s.nd.seq
  rcu : s'.nd.flags.rcu = true → s.nd.flags.rcu = true
  total : s'.nd.totalLinkCount = s.nd.totalLinkCount

theorem Placed.still (h : Placed w s l) (hs : Still s s') :
    Placed w s' l := ⟨hs.path.trans h.path, hs.inode.trans h.inode⟩

theorem Current.still (h : Current w P s d) (hs : Still s s') : Current w P s' d := by
  intro hp hr
  rw [hs.total, hs.seq]
  exact h hp (hs.rcu hr)

theorem Twin.still {t' : WalkState Store} (h : Twin w k P s t) (h' : Pre w k P s' t')
    (hs : Still s s' := by exact ⟨rfl, rfl, rfl, id, rfl⟩) : Twin w k P s' t' := by
  obtain ⟨l, hl, hcur⟩ := h.placed
  exact { h' with placed := ⟨l, hl.still hs, hcur.still hs⟩ }

section

variable (task : Task) (h : Pre w k P s t)
include h

theorem setRoot_sim (hn : s.nd.root.mnt = none) :
    Sim k P (fun _ _ s' t' => Pre w k P s' t' ∧ Still s s' ∧ s'.nd.root.mnt ≠ none)
      (setRoot ops task s) (setRoot ops task t) := by
  have hpreset : ∀ r : Path, k.rootPreset = true → r = k.root := fun r hp =>
    absurd (by rw [← h.frame.root hp]; exact hn) (h.frame.root_mnt hp)
  unfold setRoot
  rw [getNd_bind, getNd_bind, h.same.isScoped, h.ref]
  split
  · exact h.error _
  · rw [if_neg Bool.false_ne_true]
    by_cases hr : s.nd.flags.rcu = true
    · rw [if_pos hr, tree_bind, dget_bind]
      exact .ok ⟨{ h with
        frame := { h.frame with root := hpreset _ }
        same := { h.same with root := rfl }
        root := fun _ => ⟨_, rfl, fun _ _ => by rw [h.fs]⟩ },
        ⟨rfl, rfl, rfl, id, rfl⟩, Option.some_ne_none _⟩
    · rw [if_neg hr, dget_bind, dget_bind]
      exact .ok ⟨{ h with
        frame := { h.frame with root := hpreset _ }
        same := { h.same with root := rfl }
        root := fun _ => ⟨_, rfl, fun _ hr' => absurd hr' hr⟩ },
        ⟨rfl, rfl, rfl, id, rfl⟩, Option.some_ne_none _⟩

theorem needRoot_sim :
    Sim k P (fun _ _ s' t' => Pre w k P s' t' ∧ Still s s' ∧ s'.nd.root.mnt ≠ none)
      (needRoot ops task s) (needRoot ops task t) := by
  unfold needRoot
  rw [getNd_bind, getNd_bind, h.same.root]
  exact onlyIf_sim (setRoot_sim task h) fun hn => ⟨h, ⟨rfl, rfl, rfl, id, rfl⟩, hn⟩

/-- **Jump to the root.** Both walks end up at the root. -/
theorem ndJumpRoot_sim : Sim k P (Twins w k P) (ndJumpRoot ops task s) (ndJumpRoot ops task t) := by
  unfold ndJumpRoot
  rw [getNd_bind, getNd_bind, h.same.beneath, h.same.noXdev, h.same.path, h.same.root]
  split
  · exact h.error _
  split
  · exact h.error _
  refine (needRoot_sim task h).bind ?_
  rintro _ _ s t ⟨h, -, hn⟩
  obtain ⟨m, hm⟩ := Option.ne_none_iff_exists'.1 hn
  obtain ⟨d, hd, hseq⟩ := h.root hn
  have hloc : s.nd.root = (Loc.mk m d).path := by
    rw [Loc.path, ← hm, ← hd]
  rw [getNd_bind, getNd_bind, h.same.root, hd, deref_some_bind, deref_some_bind, tree_bind,
    tree_bind, h.ref, if_neg Bool.false_ne_true, bind_ok (pathPut_apply _ _),
    bind_ok (pathGet_apply _ _), h.fs, h.fs']
  by_cases hr : s.nd.flags.rcu = true
  · rw [if_pos hr, modifyNd_bind]
    by_cases hc : (w.tree.dentry d).seq = s.nd.rootSeq
    · rw [if_pos hc]
      refine .ok { h with
        frame := { h.frame with }
        same := { h.same with path := h.same.root, inode := rfl }
        placed := ⟨⟨m, d⟩, ⟨hloc, rfl⟩, fun _ _ => .inr hc.symm⟩ }
    · rw [if_neg hc]
      exact .escape ⟨rfl, { h.frame with }, fun hp => absurd (hseq hp hr).symm hc⟩
  · rw [if_neg hr, bind_ok (pathPut_apply _ _), bind_ok (pathGet_apply _ _)]
    refine .ok { h with
      frame := { h.frame with }
      same := { h.same with path := h.same.root, inode := rfl }
      placed := ⟨⟨m, d⟩, ⟨hloc, rfl⟩, fun _ hr' => absurd hr' hr⟩ }

end

/-! ### The stack of links -/

/-- The sequence counter has been checked against the dentry that the walk stands at. -/
def Checked (w : Store) (P : Prop) (s : WalkState Store) : Prop :=
  P → s.nd.flags.rcu = true → ∃ d, s.nd.path.dentry = some d ∧ s.nd.seq = (w.tree.dentry d).seq

theorem Checked.still (h : Checked w P s) (hs : Still s s') : Checked w P s' := by
  intro hp hr
  rw [hs.path, hs.seq]
  exact h hp (hs.rcu hr)

theorem Later.still (h : Later s s') : Still s s' := by
  rcases h with rfl | ⟨g, rfl⟩
  · exact ⟨rfl, rfl, rfl, id, rfl⟩
  · exact ⟨rfl, rfl, rfl, fun hr => absurd hr Bool.false_ne_true, rfl⟩

theorem Checked.later (h : Checked w P s) (hs : Later s s') : Checked w P s' := h.still hs.still

/-- The walk stands where it did and has checked its counter, so links may be counted. -/
theorem Twin.checked {t' : WalkState Store} (h : Twin w k P s t) (h' : Pre w k P s' t')
    (hpath : s'.nd.path = s.nd.path) (hinode : s'.nd.inode = s.nd.inode) (hc : Checked w P s') :
    Twin w k P s' t' := by
  obtain ⟨l, hl, -⟩ := h.placed
  refine { h' with placed := ⟨l, ⟨hpath.trans hl.path, hinode.trans hl.inode⟩, fun hp hr => ?_⟩ }
  obtain ⟨d, hd, hseq⟩ := hc hp hr
  rw [hpath, hl.path] at hd
  exact .inr (Option.some.inj hd ▸ hseq)

theorem SameWalk.getElem? {a b : Nameidata} (h : SameWalk a b) (i : ℕ) :
    (a.stack[i]? = none ∧ b.stack[i]? = none) ∨
      ∃ x y, a.stack[i]? = some x ∧ b.stack[i]? = some y ∧ y.content = x.content := by
  have heq : (b.stack.map Saved.content)[i]? = (a.stack.map Saved.content)[i]? := by rw [h.stack]
  rw [getElem?_map, getElem?_map] at heq
  cases ha : a.stack[i]? with
  | none =>
    rw [ha, Option.map_none, Option.map_eq_none_iff] at heq
    exact .inl ⟨rfl, heq⟩
  | some x =>
    rw [ha, Option.map_some, Option.map_eq_some_iff] at heq
    obtain ⟨y, hy, hxy⟩ := heq
    exact .inr ⟨x, y, rfl, hy, hxy⟩

section

variable (h : Twin w k P s t)
include h

theorem getSaved_sim (i : ℕ) :
    Sim k P
      (fun x y s' t' => s' = s ∧ t' = t ∧ y.content = x.content) (getSaved i s) (getSaved i t) := by
  rw [getSaved_apply, getSaved_apply]
  rcases h.same.getElem? i with ⟨ha, hb⟩ | ⟨x, y, ha, hb, hxy⟩
  · rw [ha, hb]
    exact h.error _
  · rw [ha, hb]
    exact .ok ⟨rfl, rfl, hxy⟩

theorem Twin.pop :
    Twin w k P { s with nd := { s.nd with depth := s.nd.depth - 1 } }
      { t with nd := { t.nd with depth := t.nd.depth - 1 } } := by
  refine h.still { h.toPre with
    frame := { h.frame with depth_le := (Nat.sub_le _ _).trans h.frame.depth_le }
    same := { h.same with depth := congrArg (· - 1) h.same.depth }
    links := fun hr x hx => h.links hr x (take_subset_take_left _ (Nat.sub_le _ _) hx) }

theorem putLink_sim :
    Sim k P (fun _ _ s' t' => Twin w k P s' t' ∧ Still s s') (putLink ops s) (putLink ops t) := by
  unfold putLink
  rw [getNd_bind, getNd_bind, h.same.depth, h.ref]
  split_ifs with h0
  · exact h.error _
  rcases h.same.getElem? (s.nd.depth - 1) with ⟨ha, hb⟩ | ⟨x, y, ha, hb, -⟩
  · have := getElem?_eq_none_iff.1 ha
    have := h.frame.depth_le
    omega
  · have hpop := h.pop
    rw [h.same.depth] at hpop
    rw [bind_ok (a := x) (t := s) (by rw [getSaved_apply, ha]),
      bind_ok (a := y) (t := t) (by rw [getSaved_apply, hb]), modifyNd_bind, modifyNd_bind,
      onlyIf_true rfl, pathPut_apply]
    rw [onlyIf_ok (pathPut_apply _ _), h.same.depth]
    exact .ok ⟨hpop, rfl, rfl, rfl, id, rfl⟩

theorem putLinkUnlessMore_sim (flags : WalkFlag) :
    Sim k P (fun _ _ s' t' => Twin w k P s' t' ∧ Still s s')
      (putLinkUnlessMore ops flags s) (putLinkUnlessMore ops flags t) := by
  unfold putLinkUnlessMore
  rw [getNd_bind, getNd_bind, h.same.depth]
  exact onlyIf_sim (fun _ => putLink_sim h) fun _ => ⟨h, rfl, rfl, rfl, id, rfl⟩

end

/-- The larger stack. -/
def grown (s : WalkState Store) : WalkState Store :=
  { s with nd := { s.nd with
      stack := s.nd.stack ++ replicate (maxSymlinks - s.nd.stack.length) ⟨.null, 0, []⟩ } }

theorem ndAllocStack_apply :
    ndAllocStack ops s = if s.fs.memory then .ok true (grown s) else .ok false s := by
  unfold ndAllocStack
  rw [kmalloc_bind]
  split <;> rfl

theorem Twin.grown (h : Twin w k P s t) : Twin w k P (grown s) (grown t) := by
  refine h.still { h.toPre with
    frame := { h.frame with depth_le := ?_, length := ?_ }
    same := { h.same with stack := ?_ }
    links := fun hr x hx => h.links hr x ?_ }
  · exact h.frame.depth_le.trans (by simp [Vfs.grown])
  · right
    have hlen : s.nd.stack.length ≤ maxSymlinks := by
      rcases h.frame.length with hl | hl
      · rw [hl]; decide
      · exact hl.le
    simp only [Vfs.grown, length_append, length_replicate]
    omega
  · simp only [Vfs.grown, map_append, h.same.stack, h.same.length]
  · change x ∈ take s.nd.depth (_ ++ _) at hx
    rwa [take_append_of_le_length h.frame.depth_le] at hx

/-- The walk after the count of links has grown. -/
def counted (s : WalkState Store) : WalkState Store :=
  { s with nd := { s.nd with totalLinkCount := s.nd.totalLinkCount + 1 } }

theorem Twin.counted (h : Twin w k P s t) (hc : Checked w P s) :
    Twin w k P (counted s) (counted t) := by
  refine h.checked ?_ rfl rfl hc
  exact { h.toPre with
    frame := { h.frame with }
    same := { h.same with total := congrArg (· + 1) h.same.total } }

/-- The answers of `reserve_stack` agree, unless RCU mode has to be given up. In RCU mode the
condition `c` on the link holds. -/
def Reserved (w : Store) (k : Nameidata) (P : Prop) (link : Path) (c : Prop)
    (r r' : Option Errno × Path) (s t : WalkState Store) : Prop :=
  r.2 = link ∧ r'.2 = link ∧
    (r.1 = some .ECHILD ∧ GivesUp k P (.errno .ECHILD) s ∨
      r'.1 = r.1 ∧ Twin w k P s t ∧ Checked w P s ∧ (s.nd.flags.rcu = true → c))

theorem reserveStack_apply (link : Path) (seq : ℕ) :
    reserveStack ops link seq s =
      if maxSymlinks ≤ s.nd.totalLinkCount then .ok (some .ELOOP, link) (counted s)
      else if s.nd.depth ≠ embeddedLevels ∨ s.nd.stack.length ≠ embeddedLevels then
        .ok (none, link) (counted s)
      else if s.fs.memory then .ok (none, link) (grown (counted s))
      else if s.nd.flags.rcu then reserveUnlazy ops link seq (counted s)
      else .ok (some .ENOMEM, link) (counted s) := by
  unfold reserveStack
  rw [getNd_bind, modifyNd_bind]
  split
  · rfl
  by_cases hd : s.nd.depth ≠ embeddedLevels
  · rw [if_pos hd, if_pos (.inl hd)]
    rfl
  by_cases hlen : s.nd.stack.length ≠ embeddedLevels
  · rw [if_neg hd, if_pos hlen, if_pos (.inr hlen)]
    rfl
  rw [if_neg hd, if_neg hlen, if_neg (not_or_intro hd hlen), bind_apply, ndAllocStack_apply]
  by_cases hm : s.fs.memory = true
  · rw [if_pos hm, if_pos hm]
    rfl
  · rw [if_neg hm, if_neg hm]
    simp only [Bool.false_eq_true, if_false]
    split <;> rfl

theorem reserveStack_sim (h : Twin w k P s t) (hc : Checked w P s) (hd : link.dentry = some d)
    (hseq : s.nd.flags.rcu = true → seq = (w.tree.dentry d).seq) :
    Sim k P (Reserved w k P link (seq = (w.tree.dentry d).seq))
      (reserveStack ops link seq s) (reserveStack ops link seq' t) := by
  have h1 := h.counted hc
  have hc1 : Checked w P (counted s) := hc
  rw [reserveStack_apply, reserveStack_apply, h.same.total, h.same.depth, h.same.length, h.ref,
    h.fs, h.fs', if_neg Bool.false_ne_true]
  split_ifs with hl hdep hm hr
  · exact .ok ⟨rfl, rfl, .inr ⟨rfl, h1, hc1, hseq⟩⟩
  · exact .ok ⟨rfl, rfl, .inr ⟨rfl, h1, hc1, hseq⟩⟩
  · exact .ok ⟨rfl, rfl, .inr ⟨rfl, h1.grown, hc1, hseq⟩⟩
  · obtain ⟨b, g, hb, hP⟩ := tryToUnlazy_apply (s := counted s) hr h1
    have hlegit : legitimizePath ops link seq (counted s) = .ok (true, link) (counted s) := by
      rw [legitimizePath_apply link d seq hd, h1.fs, hseq hr, decide_eq_true rfl]
    have hmem : ¬ (unlazied (counted s) g).fs.memory = true := by
      change ¬ s.fs.memory = true
      rwa [h.fs]
    unfold reserveUnlazy
    rw [bind_ok hlegit, bind_ok hb]
    cases b with
    | true =>
      have halloc : ndAllocStack ops (unlazied (counted s) g) =
          .ok false (unlazied (counted s) g) := by
        rw [ndAllocStack_apply, if_neg hmem]
      rw [Bool.and_self, if_pos rfl, bind_ok halloc]
      exact .ok ⟨rfl, rfl, .inr ⟨rfl, h1.unlazied g, hc1.later (.inr ⟨g, rfl⟩), fun _ => hseq hr⟩⟩
    | false =>
      exact .ok ⟨rfl, rfl, .inl ⟨rfl, rfl, (h1.unlazied g).frame, hP rfl⟩⟩
  · exact .ok ⟨rfl, rfl, .inr ⟨rfl, h1, hc1, hseq⟩⟩

/-- The walk after `link` has been put on the stack. -/
def pushed (s : WalkState Store) (x : Saved) : WalkState Store :=
  { s with nd := { s.nd with stack := s.nd.stack.set s.nd.depth x, depth := s.nd.depth + 1 } }

theorem pushLink_apply (link : Path) (seq : ℕ) :
    pushLink link seq s = match s.nd.stack[s.nd.depth]? with
      | some old => .ok () (pushed s { old with link := link, seq := seq })
      | none => .error (.oops .wildAccess) s := by
  unfold pushLink
  rw [getNd_bind, bind_apply, getSaved_apply]
  cases hx : s.nd.stack[s.nd.depth]? with
  | none => rfl
  | some old =>
    have hlt : s.nd.depth < s.nd.stack.length := (List.getElem?_eq_some_iff.1 hx).1
    change (setSaved _ _ >>= _) s = _
    rw [bind_apply, setSaved_apply, if_pos hlt]
    rfl

section

variable (h : Twin w k P s t)
include h

theorem Twin.pushed {x y : Saved} (hxy : y.content = x.content)
    (hlt : s.nd.depth < s.nd.stack.length)
    (hx : s.nd.flags.rcu = true → ∃ d, x.link.dentry = some d ∧ x.seq = (w.tree.dentry d).seq) :
    Twin w k P (pushed s x) (pushed t y) := by
  refine h.still { h.toPre with
    frame := { h.frame with depth_le := ?_, length := ?_ }
    same := { h.same with depth := congrArg (· + 1) h.same.depth, stack := ?_ }
    links := fun hr z hz => ?_ }
  · simpa [Vfs.pushed] using Nat.succ_le_of_lt hlt
  · simpa [Vfs.pushed] using h.frame.length
  · simp only [Vfs.pushed, map_set, h.same.stack, h.same.depth, hxy]
  · change z ∈ (s.nd.stack.set s.nd.depth x).take (s.nd.depth + 1) at hz
    rw [take_add_one, take_set_of_le le_rfl, getElem?_set_self hlt] at hz
    rcases mem_append.1 hz with hz | hz
    · exact h.links hr z hz
    · rw [Option.toList_some, mem_singleton] at hz
      subst hz
      exact hx hr

theorem pushLink_sim (hc : Checked w P s) (hd : link.dentry = some d)
    (hseq : s.nd.flags.rcu = true → seq = (w.tree.dentry d).seq) :
    Sim k P (fun _ _ s' t' => Twin w k P s' t' ∧ Checked w P s')
      (pushLink link seq s) (pushLink link seq' t) := by
  rw [pushLink_apply, pushLink_apply, h.same.depth]
  rcases h.same.getElem? s.nd.depth with ⟨ha, hb⟩ | ⟨x, y, ha, hb, hxy⟩
  · rw [ha, hb]
    exact h.error _
  · rw [ha, hb]
    have hlt : s.nd.depth < s.nd.stack.length := (List.getElem?_eq_some_iff.1 ha).1
    refine .ok ⟨h.pushed ?_ hlt fun hr => ⟨d, hd, hseq hr⟩, hc⟩
    exact congrArg (Prod.mk link) (congrArg Prod.snd hxy)

theorem getLink_sim (hc : Checked w P s) (i : Inode) :
    Sim k P (fun a b s' t' => b = a ∧ i.link = .ok a ∧ Twin w k P s' t' ∧ Checked w P s')
      (getLink ops i s) (getLink ops i t) := by
  refine (unlazyIf_sim h _).bind ?_
  rintro _ _ s' t' ⟨h', -, hl⟩
  cases hi : i.link with
  | ok a => exact .ok ⟨rfl, rfl, h', hc.later hl⟩
  | error e => exact h'.error _

theorem bodyOrDone_sim (res : Name) :
    Sim k P (SameAnswer w k P) (bodyOrDone ops res s) (bodyOrDone ops res t) := by
  unfold bodyOrDone
  split
  · refine (putLink_sim h).bind ?_
    rintro _ _ s t ⟨h, -⟩
    exact .ok ⟨rfl, h⟩
  · exact .ok ⟨rfl, h⟩

end

/-- **Symbolic links.** Both walks begin to follow the same link. -/
theorem pickLink_sim (task : Task) (h : Twin w k P s t) (hc : Checked w P s)
    (hd : link.dentry = some d) (inode : Option InodeId)
    (hseq : s.nd.flags.rcu = true → seq = (w.tree.dentry d).seq) :
    Sim k P (SameAnswer w k P)
      (pickLink ops task link inode seq s) (pickLink ops task link inode seq' t) := by
  refine (reserveStack_sim h hc hd hseq).bind ?_
  rintro ⟨e, l⟩ ⟨e', l'⟩ s t ⟨hl, hl', hres⟩
  subst hl hl'
  rcases hres with ⟨rfl, hg⟩ | ⟨rfl, h, hc, hseq⟩
  · dsimp only
    rw [getNd_bind, bind_ok (onlyIf_ok (pathPut_apply _ _))]
    exact .escape hg
  cases e' with
  | some e =>
    dsimp only
    rw [getNd_bind, getNd_bind, bind_ok (onlyIf_ok (pathPut_apply _ _)),
      bind_ok (onlyIf_ok (pathPut_apply _ _))]
    exact h.error _
  | none =>
    refine (pushLink_sim h hc hd hseq).bind ?_
    rintro _ _ s t ⟨h, hc⟩
    cases hmnt : l'.mnt with
    | none => exact h.error _
    | some m =>
      rw [deref_some_bind, tree_bind, tree_bind, getNd_bind, getNd_bind, h.same.noSymlinks, h.fs,
        h.fs']
      split
      · exact h.error _
      cases inode with
      | none => exact h.error _
      | some i =>
        refine (unlazyIf_sim h _).bind ?_
        rintro _ _ s' t' ⟨h, -, hlater⟩
        refine (getLink_sim h (hc.later hlater) _).bind ?_
        rintro res _ s t ⟨rfl, -, h, -⟩
        refine Corresponds.bind (onlyIf_sim (Q := Twins w k P)
          (fun _ => ndJumpRoot_sim task h.toPre) fun _ => h) ?_
        exact fun _ _ s t h => bodyOrDone_sim h _

/-- **One step.** Both walks take the same step, or begin to follow the same link. In RCU mode
the inode and the sequence counter are those of the dentry. -/
theorem stepInto_sim (hm : ∀ m d, w.tree.mountOn m d = none) (task : Task) (fuel : ℕ)
    (flags : WalkFlag) (h : Twin w k P s t) {i i' : Option InodeId}
    (hi : s.nd.flags.rcu = true → i = (w.tree.dentry d).inode)
    (hseq : s.nd.flags.rcu = true → P → s.nd.totalLinkCount = 0 ∨ seq = (w.tree.dentry d).seq)
    (hc : flags = .nofollow ∨ Checked w P s) :
    Sim k P (SameAnswer w k P) (stepInto ops task fuel flags d i seq s)
      (stepInto ops task fuel flags d i' seq' t) := by
  refine (handleMounts_sim hm h fuel hi hseq).bind ?_
  rintro p q s' t' ⟨h', rfl, hl, hst, hpseq⟩
  rw [hst.path, hst.inode, hst.dentry, deref_some_bind, deref_some_bind, tree_bind, tree_bind,
    getNd_bind, getNd_bind, h'.same.follow, h'.ref, h'.fs, h'.fs']
  obtain ⟨l, hpl, -⟩ := h.placed
  have hseq' : s'.nd.flags.rcu = true → P →
      s'.nd.totalLinkCount = 0 ∨ p.seq = (w.tree.dentry d).seq := fun hr hp => by
    rw [hl.still.total, hpseq hr]
    exact hseq (hl.still.rcu hr) hp
  rw [Bool.false_and, if_neg Bool.false_ne_true]
  split_ifs with hcond hr
  · rw [bind_ok (onlyIf_ok (dputPtr_apply _ _)), bind_ok (onlyIf_ok (dputPtr_apply _ _)),
      modifyNd_bind, modifyNd_bind]
    have hpath : p.path = (Loc.mk l.mnt d).path := by
      have hmnt := hst.mnt.trans (congrArg Path.mnt hpl.path)
      rw [Loc.path, ← hst.dentry]
      exact congrArg (fun m => Path.mk m p.path.dentry) hmnt
    exact .ok ⟨rfl, { h'.toPre with
      frame := { h'.frame with }
      same := { h'.same with path := rfl, inode := rfl }
      placed := ⟨⟨l.mnt, d⟩, ⟨hpath, hst.inode_eq⟩, fun hp hr => hseq' hr hp⟩ }⟩
  · rw [Bool.and_eq_true, decide_eq_true_eq] at hr
    refine .escape ⟨rfl, h'.frame, fun hp => ?_⟩
    exact (hseq' hr.1 hp).resolve_right fun hc => hr.2 hc.symm
  · have hc' : Checked w P s' := by
      refine (hc.resolve_left fun hf => hcond ?_).later hl
      simp [hf]
    rw [Bool.and_eq_true, decide_eq_true_eq, not_and, not_not] at hr
    exact pickLink_sim task h' hc' hst.dentry _ fun hr' => (hr hr').symm

/-! ### One component -/

/-- Both walks have found the same dentry, and in RCU mode its inode and its counter are known. -/
def SameFound (w : Store) (s : WalkState Store) (d : DentryId) (i : Option InodeId) (seq : ℕ)
    (b : DentryId × Option InodeId × ℕ) : Prop :=
  b.1 = d ∧ (s.nd.flags.rcu = true → i = (w.tree.dentry d).inode ∧ seq = (w.tree.dentry d).seq)

/-- The answers of `lookup_fast` agree; RCU mode is left where the name is not in the cache. -/
def FoundFast (w : Store) (k : Nameidata) (P : Prop) :
    Option (DentryId × Option InodeId × ℕ) → Option (DentryId × Option InodeId × ℕ) →
      WalkState Store → WalkState Store → Prop
  | none, none, s, t => Twin w k P s t ∧ s.nd.flags.rcu = false
  | some (d, i, seq), some b, s, t => Twin w k P s t ∧ Checked w P s ∧ SameFound w s d i seq b
  | _, _, _, _ => False

theorem lookupFast_sim (h : Twin w k P s t) :
    Sim k P (FoundFast w k P) (lookupFast ops s) (lookupFast ops t) := by
  obtain ⟨l, hl, hcur⟩ := h.placed
  have hd := hl.dentry
  unfold lookupFast
  rw [getNd_bind, getNd_bind, h.same.path, h.same.last, h.ref, hd, deref_some_bind, deref_some_bind,
    if_neg Bool.false_ne_true, dLookup_bind, h.fs']
  by_cases hr : s.nd.flags.rcu = true
  · rw [if_pos hr, dLookupRcu_bind, h.fs]
    cases w.child l.dentry s.nd.last with
    | none =>
      dsimp only
      obtain ⟨g, hok | ⟨hfail, hP⟩⟩ := unlazyOrFail_apply hr h
      · rw [bind_ok hok]
        exact .ok ⟨h.unlazied g, rfl⟩
      · rw [bind_error hfail]
        exact .escape ⟨rfl, (h.unlazied g).frame, hP⟩
    | some d =>
      dsimp only
      rw [tree_bind, h.fs]
      split_ifs with hseq
      · exact .ok ⟨h, fun _ _ => ⟨_, hd, hseq.symm⟩, rfl, fun _ => ⟨rfl, rfl⟩⟩
      · exact .escape (hcur.givesUp h.frame hr hseq)
  · rw [if_neg hr, dLookup_bind, h.fs]
    cases w.child l.dentry s.nd.last with
    | none => exact .ok ⟨h, Bool.eq_false_iff.2 hr⟩
    | some d =>
      exact .ok ⟨h, fun _ hr' => absurd hr' hr, rfl, fun hr' => absurd hr' hr⟩

theorem lookupSlow_apply (name : Name) (dir : DentryId) :
    lookupSlow ops name dir s =
      if (s.fs.tree.inodeOf dir).any Inode.dead then .error (.errno .ENOENT) s
      else if s.fs.cached dir name = false ∧ nameMax < name.length then
        .error (.errno .ENAMETOOLONG) s
      else .ok (s.fs.entry dir name) s := by
  unfold lookupSlow
  rw [tree_bind]
  split
  · rfl
  have halloc : onFs (ops.dAllocParallel dir name) s =
      .ok (.ok (s.fs.entry dir name)) s := rfl
  have hin : readFs (ops.dInLookup (s.fs.entry dir name)) s =
      .ok (!s.fs.cached dir name) s := by
    change EStateM.Result.ok (!s.fs.cached (s.fs.tree.dentry (s.fs.entry dir name)).parent
      (s.fs.tree.dentry (s.fs.entry dir name)).name) s = _
    rw [s.fs.entry_parent, s.fs.entry_name]
  have hlookup : onFs (ops.lookup dir (s.fs.entry dir name)) s =
      .ok (if nameMax < name.length then .error .ENAMETOOLONG else .ok none) s := by
    change EStateM.Result.ok (s.fs.simpleLookup _) s = _
    rw [simpleLookup, s.fs.entry_name]
  rw [bind_ok halloc]
  dsimp only
  rw [bind_ok hin]
  cases hc : s.fs.cached dir name with
  | true => simp
  | false =>
    rw [Bool.not_false, if_pos rfl, bind_ok hlookup]
    simp only [true_and]
    split_ifs <;> rfl

section

variable (h : Twin w k P s t)
include h

theorem lookupSlow_sim (name : Name) (dir : DentryId) :
    Sim k P (fun a b s' t' => b = a ∧ s' = s ∧ t' = t)
      (lookupSlow ops name dir s) (lookupSlow ops name dir t) := by
  rw [lookupSlow_apply, lookupSlow_apply, h.fs, h.fs']
  split
  · exact h.error _
  split
  · exact h.error _
  · exact .ok ⟨rfl, rfl, rfl⟩

/-- The answers of `follow_dotdot_rcu` and `follow_dotdot` agree. -/
def FoundParent (w : Store) (s t : WalkState Store) :
    Option (DentryId × Option InodeId × ℕ) → Option (DentryId × Option InodeId × ℕ) →
      WalkState Store → WalkState Store → Prop
  | none, none, s', t' => s' = s ∧ t' = t
  | some (d, i, seq), some b, s', t' => s' = s ∧ t' = t ∧ SameFound w s d i seq b
  | _, _, _, _ => False

theorem followDotdot_sim (hP : P → ∀ m, (w.tree.mnt m).root = (w.tree.mnt m).sbRoot) :
    Sim k P (FoundParent w s t) (followDotdot ops s) (followDotdot ops t) := by
  obtain ⟨l, hl, hcur⟩ := h.placed
  have hd := hl.dentry
  have hm : s.nd.path.mnt = some l.mnt := by rw [hl.path]; rfl
  unfold followDotdot
  rw [getNd_bind, getNd_bind, h.same.path, h.same.root, h.same.beneath, h.ref, hd, hm]
  simp only [deref_some_bind, Bool.false_eq_true, if_false]
  rw [tree_bind, tree_bind, h.fs, h.fs']
  split_ifs with hroot hb hr hr hr hseq hcon hcon
  · refine .escape ⟨rfl, h.frame, fun hp => ?_⟩
    have := (h.plain hp).2
    simp [LookupFlags.isScoped, hb] at this
  · exact h.error _
  · exact .ok ⟨rfl, rfl⟩
  · exact .ok ⟨rfl, rfl⟩
  · exact .escape (hcur.givesUp h.frame hr hseq)
  · exact .escape (hcur.givesUp h.frame hr hseq)
  · refine .escape ⟨rfl, h.frame, fun hp => ?_⟩
    simp [Tree.pathConnected, hP hp] at hcon
  · exact .ok ⟨rfl, rfl, rfl, fun _ => ⟨rfl, rfl⟩⟩
  · exact h.error _
  · exact .ok ⟨rfl, rfl, rfl, fun hr' => absurd hr' hr⟩

/-! ### A whole path -/

theorem mayLookup_sim (task : Task) :
    Sim k P (fun _ _ s' t' => s' = s ∧ t' = t) (mayLookup ops task s) (mayLookup ops task t) := by
  unfold mayLookup
  rw [tree_bind, tree_bind, getNd_bind, getNd_bind, h.same.inode, h.fs, h.fs']
  cases s.nd.inode with
  | none => exact h.error _
  | some i =>
    rw [deref_some_bind]
    cases inodePermission task.cred (w.tree.inode i) mayExec with
    | ok u => exact .ok ⟨rfl, rfl⟩
    | error e => exact h.error _

theorem needDirectory_sim :
    Sim k P (fun _ _ s' t' => s' = s ∧ t' = t) (needDirectory ops s) (needDirectory ops t) := by
  obtain ⟨l, hl, -⟩ := h.placed
  have hd := hl.dentry
  unfold needDirectory
  rw [tree_bind, tree_bind, getNd_bind, getNd_bind, h.same.path, hd, deref_some_bind,
    deref_some_bind, h.fs, h.fs']
  split
  · exact .ok ⟨rfl, rfl⟩
  · have hun := unlazyIf_sim h True
    simp only [and_true] at hun
    refine hun.bind ?_
    rintro _ _ s t ⟨h, -, -⟩
    exact h.error _

/-- The name of a saved link is replaced. -/
theorem Twin.setName (i : ℕ) (name : Name) {x y : Saved}
    (hx : s.nd.stack[i]? = some x) (hxy : y.content = x.content) :
    Twin w k P { s with nd := { s.nd with stack := s.nd.stack.set i { x with name := name } } }
      { t with nd := { t.nd with stack := t.nd.stack.set i { y with name := name } } } := by
  refine h.still { h.toPre with
    frame := { h.frame with depth_le := ?_, length := ?_ }
    same := { h.same with stack := ?_ }
    links := fun hr z hz => ?_ }
  · simpa using h.frame.depth_le
  · simpa using h.frame.length
  · have hlink : y.link = x.link := congrArg Prod.fst hxy
    simp only [map_set, h.same.stack, Saved.content, hlink]
  · change z ∈ (s.nd.stack.set i { x with name := name }).take s.nd.depth at hz
    rw [take_set] at hz
    by_cases hi : i < s.nd.depth
    · rcases mem_or_eq_of_mem_set hz with hz | rfl
      · exact h.links hr z hz
      · obtain ⟨hlt, rfl⟩ := List.getElem?_eq_some_iff.1 hx
        exact h.links hr s.nd.stack[i] (mem_take_iff_getElem.2 ⟨i, by omega, rfl⟩)
    · rw [set_eq_of_length_le (by simp; omega)] at hz
      exact h.links hr z hz

theorem walkOn_sim {walk : Name → ℕ → Walk Store Unit}
    (hwalk : ∀ n depth s t, Twin w k P s t →
      Sim k P (Twins w k P) (walk n depth s) (walk n depth t))
    (name : Name) (depth : ℕ) (link : Option Name) :
    Sim k P (Twins w k P)
      (walkOn ops walk name depth link s) (walkOn ops walk name depth link t) := by
  cases link with
  | some link =>
    unfold walkOn
    dsimp only
    rw [bind_apply, bind_apply, getSaved_apply, getSaved_apply]
    rcases h.same.getElem? depth with ⟨ha, hb⟩ | ⟨x, y, ha, hb, hxy⟩
    · rw [ha, hb]
      exact h.error _
    · rw [ha, hb]
      have hlt : depth < s.nd.stack.length := (List.getElem?_eq_some_iff.1 ha).1
      change Corresponds _ _ _ ((setSaved _ _ >>= _) s) ((setSaved _ _ >>= _) t)
      rw [bind_apply, bind_apply, setSaved_apply, setSaved_apply, h.same.length, if_pos hlt,
        if_pos hlt]
      exact hwalk _ _ _ _ (h.setName depth name ha hxy)
  | none =>
    refine (needDirectory_sim h).bind ?_
    rintro _ _ s' t' ⟨rfl, rfl⟩
    exact hwalk _ _ _ _ h

theorem Twin.trailingSlash :
    Twin w k P { s with nd := s.nd.trailingSlash } { t with nd := t.nd.trailingSlash } := by
  have hiff : (t.nd.lastType = .norm ∧ t.nd.lastRest ≠ []) =
      (s.nd.lastType = .norm ∧ s.nd.lastRest ≠ []) := by rw [h.same.lastType, h.same.lastRest]
  simp only [Nameidata.trailingSlash, hiff]
  split
  · exact h.still { h.toPre with
      frame := { h.frame with }
      same := { h.same with flags := by simp only [h.same.flags] } }
  · exact h

theorem handleLookupDown_sim (hm : ∀ m d, w.tree.mountOn m d = none) (task : Task) (fuel : ℕ) :
    Sim k P (Twins w k P)
      (handleLookupDown ops task fuel s) (handleLookupDown ops task fuel t) := by
  obtain ⟨l, hl, hcur⟩ := h.placed
  have hd := hl.dentry
  unfold handleLookupDown
  rw [getNd_bind, getNd_bind, h.same.path, hd, deref_some_bind, deref_some_bind,
    bind_ok (onlyIf_ok (dget_apply _ _)), bind_ok (onlyIf_ok (dget_apply _ _))]
  refine (stepInto_sim hm task fuel .nofollow h (fun _ => hl.inode) (fun hr hp => hcur hp hr)
    (.inl rfl)).bind ?_
  rintro _ _ s t ⟨-, h⟩
  exact .ok h

end

section

variable (hm : ∀ m d, w.tree.mountOn m d = none)
  (hP : P → ∀ m, (w.tree.mnt m).root = (w.tree.mnt m).sbRoot) (task : Task) (fuel : ℕ)

include hm hP

theorem handleDots_sim (h : Twin w k P s t) (type : LastType) :
    Sim k P (SameAnswer w k P)
      (handleDots ops task fuel type s) (handleDots ops task fuel type t) := by
  unfold handleDots
  split
  · refine (needRoot_sim task h.toPre).bind ?_
    rintro _ _ s' t' ⟨h', hs, -⟩
    replace h := h.still h' hs
    refine (followDotdot_sim h hP).bind ?_
    rintro (_ | ⟨d, i, seq⟩) (_ | b) s t hf
    · obtain ⟨rfl, rfl⟩ := hf
      obtain ⟨l, hl, hcur⟩ := h.placed
      have hd := hl.dentry
      dsimp only
      rw [getNd_bind, getNd_bind, h.same.path, hd, deref_some_bind, deref_some_bind]
      exact stepInto_sim hm task fuel _ h (fun _ => hl.inode) (fun hr hp => hcur hp hr) (.inl rfl)
    · exact hf.elim
    · exact hf.elim
    · obtain ⟨rfl, rfl, hb, hv⟩ := hf
      obtain ⟨d', i', seq'⟩ := b
      subst hb
      exact stepInto_sim hm task fuel _ h (fun hr => (hv hr).1) (fun hr _ => .inr (hv hr).2)
        (.inl rfl)
  · exact .ok ⟨rfl, h⟩

/-- **One component.** Both walks go the same way. -/
theorem walkComponent_sim (h : Twin w k P s t) (flags : WalkFlag) :
    Sim k P (SameAnswer w k P)
      (walkComponent ops task fuel flags s) (walkComponent ops task fuel flags t) := by
  unfold walkComponent
  rw [getNd_bind, getNd_bind, h.same.lastType]
  split
  · refine (putLinkUnlessMore_sim h flags).bind ?_
    rintro _ _ s t ⟨h, -⟩
    exact handleDots_sim hm hP task fuel h _
  · refine (lookupFast_sim h).bind ?_
    rintro (_ | ⟨d, i, seq⟩) (_ | ⟨d', i', seq'⟩) s t hf
    · obtain ⟨h, hr⟩ := hf
      obtain ⟨l, hl, -⟩ := h.placed
      have hd := hl.dentry
      dsimp only
      rw [getNd_bind, getNd_bind, h.same.path, h.same.last, hd, deref_some_bind]
      refine (lookupSlow_sim h _ _).bind ?_
      rintro d _ s' t' ⟨rfl, rfl, rfl⟩
      refine (putLinkUnlessMore_sim h flags).bind ?_
      rintro _ _ s'' t'' ⟨h, hs⟩
      have hr' : ¬ s''.nd.flags.rcu = true := fun hc => by
        rw [hs.rcu hc] at hr
        exact absurd hr Bool.false_ne_true.symm
      exact stepInto_sim hm task fuel _ h (fun hc => absurd hc hr') (fun hc => absurd hc hr')
        (.inr fun _ hc => absurd hc hr')
    · exact hf.elim
    · exact hf.elim
    · obtain ⟨h, hc, hb, hv⟩ := hf
      subst hb
      refine (putLinkUnlessMore_sim h flags).bind ?_
      rintro _ _ s' t' ⟨h, hs⟩
      exact stepInto_sim hm task fuel _ h (fun hr => (hv (hs.rcu hr)).1)
        (fun hr _ => .inr (hv (hs.rcu hr)).2) (.inr (hc.still hs))

/-- **The loop of `link_path_walk`.** Both walks go the same way, component by component. -/
theorem linkPathWalkLoop_sim (name : Name) (depth : ℕ) (h : Twin w k P s t) :
    Sim k P (Twins w k P) (linkPathWalkLoop ops task fuel name depth s)
      (linkPathWalkLoop ops task fuel name depth t) := by
  induction fuel generalizing name depth s t with
  | zero => exact h.error _
  | succ fuel ih =>
    refine (mayLookup_sim h task).bind ?_
    rintro _ _ s' t' ⟨rfl, rfl⟩
    rw [modifyNd_bind, modifyNd_bind]
    have h' : Twin w k P
        { s' with nd := { s'.nd with
            last := component name, lastRest := afterComponent name,
            lastType := componentType (component name) } }
        { t' with nd := { t'.nd with
            last := component name, lastRest := afterComponent name,
            lastType := componentType (component name) } } :=
      h.still { h.toPre with
        frame := { h.frame with }
        same := { h.same with last := rfl, lastRest := rfl, lastType := rfl } }
    split
    · split
      · exact .ok h'
      · refine (getSaved_sim h' (depth - 1)).bind ?_
        rintro x y s t ⟨rfl, rfl, hxy⟩
        refine (walkComponent_sim hm hP task fuel h' .nested).bind ?_
        rintro link _ s t ⟨rfl, h⟩
        have hname : y.name = x.name := congrArg Prod.snd hxy
        rw [hname]
        exact walkOn_sim h (fun n depth s t h => ih n depth h) _ _ _
    · refine (walkComponent_sim hm hP task fuel h' .more).bind ?_
      rintro link _ s t ⟨rfl, h⟩
      exact walkOn_sim h (fun n depth s t h => ih n depth h) _ _ _

theorem linkPathWalk_sim (name : Name) (h : Twin w k P s t) :
    Sim k P (Twins w k P)
      (linkPathWalk ops task fuel name s) (linkPathWalk ops task fuel name t) := by
  unfold linkPathWalk
  rw [modifyNd_bind, modifyNd_bind]
  have h' : Twin w k P { s with nd := { s.nd with lastType := .root } }
      { t with nd := { t.nd with lastType := .root } } :=
    h.still { h.toPre with frame := { h.frame with }, same := { h.same with lastType := rfl } }
  split
  · exact .ok h'
  · exact linkPathWalkLoop_sim hm hP task fuel _ 0 h'

theorem lookupLast_sim (h : Twin w k P s t) :
    Sim k P (SameAnswer w k P) (lookupLast ops task fuel s) (lookupLast ops task fuel t) := by
  exact walkComponent_sim hm hP task fuel h.trailingSlash .trailing

theorem lookupLoop_sim (name : Name) (h : Twin w k P s t) :
    Sim k P (Twins w k P) (lookupLoop ops task fuel name s) (lookupLoop ops task fuel name t) := by
  induction fuel generalizing name s t with
  | zero => exact h.error _
  | succ fuel ih =>
    refine (linkPathWalk_sim hm hP task fuel name h).bind ?_
    rintro _ _ s t h
    refine (lookupLast_sim hm hP task fuel h).bind ?_
    rintro _ link s t ⟨rfl, h⟩
    cases link with
    | none => exact .ok h
    | some link => exact ih link h

end

/-! ### The start and the end of a walk -/

/-- A `nameidata` before a walk. -/
structure Fresh (k : Nameidata) : Prop where
  depth : k.depth = 0
  length : k.stack.length = embeddedLevels ∨ k.stack.length = maxSymlinks
  root : k.rootPreset = true → ∃ l : Loc, k.root = l.path

theorem Fresh.frame (hk : Fresh k) (f : LookupFlags) : Frame k { k with flags := f } where
  name := rfl
  dfd := rfl
  preset := rfl
  root := fun _ => rfl
  root_mnt := fun hp => by
    obtain ⟨l, hl⟩ := hk.root hp
    rw [hl]
    exact Option.some_ne_none _
  depth_le := by rw [hk.depth]; exact Nat.zero_le _
  length := hk.length

/-- The walk before `path_init` has found out where it begins. -/
structure Begun (w : Store) (k : Nameidata) (P : Prop) (s t : WalkState Store) : Prop
    extends Pre w k P s t where
  total : P → s.nd.totalLinkCount = 0

theorem startAt_sim (h : Begun w k P s t) (p : Loc) :
    Sim k P (Twins w k P) (startAt ops p s) (startAt ops p t) := by
  unfold startAt
  rw [dget_bind, dget_bind, tree_bind, tree_bind, h.fs, h.fs']
  exact .ok { h.toPre with
    frame := { h.frame with }
    same := { h.same with path := rfl, inode := rfl }
    placed := ⟨p, ⟨rfl, rfl⟩, fun hp _ => .inl (h.total hp)⟩ }

theorem startRelative_sim (task : Task) (h : Begun w k P s t) (name : Name) (dfd : Option ℕ) :
    Sim k P (Twins w k P)
      (startRelative ops task name dfd s) (startRelative ops task name dfd t) := by
  cases dfd with
  | none => exact startAt_sim h _
  | some fd =>
    unfold startRelative
    cases hfd : task.fd fd with
    | none =>
      simp only [hfd]
      exact h.error _
    | some p =>
      simp only [hfd]
      rw [tree_bind, tree_bind, h.fs, h.fs']
      split
      · exact h.error _
      · exact startAt_sim h p

theorem scopeRoot_sim (h : Twin w k P s t) (hp : k.rootPreset = false) :
    Sim k P (Twins w k P) (scopeRoot ops s) (scopeRoot ops t) := by
  obtain ⟨l, hl, -⟩ := h.placed
  unfold scopeRoot
  rw [getNd_bind, getNd_bind, h.same.isScoped]
  refine onlyIf_sim (fun hs => ?_) fun _ => h
  rw [bind_ok (pathGet_apply _ _), bind_ok (pathGet_apply _ _)]
  refine .ok (h.still ?_)
  have hnP : ¬ P := fun hP => Bool.false_ne_true ((h.plain hP).2.symm.trans hs)
  exact { h.toPre with
    frame := { h.frame with root := fun hc => absurd hc (by simp [hp]) }
    same := { h.same with root := h.same.path }
    root := fun _ => ⟨l.dentry, hl.dentry, fun hP => absurd hP hnP⟩ }

theorem startPreset_sim (h : Pre w k P s t) (hp : ¬ P) (name : Name) (hl : s.nd.root = l.path) :
    Sim k P (Twins w k P) (startPreset ops name s) (startPreset ops name t) := by
  have hd : s.nd.root.dentry = some l.dentry := by rw [hl]; rfl
  unfold startPreset
  rw [getNd_bind, getNd_bind, h.same.root, hd, deref_some_bind, deref_some_bind, tree_bind,
    tree_bind, h.fs, h.fs']
  split
  · exact h.error _
  · rw [modifyNd_bind, modifyNd_bind, onlyIf_ok (pathGet_apply _ _), onlyIf_ok (pathGet_apply _ _)]
    exact .ok { h with
      frame := { h.frame with }
      same := { h.same with path := h.same.root, inode := rfl }
      placed := ⟨l, ⟨hl, rfl⟩, fun hP => absurd hP hp⟩ }

section

variable (task : Task) (hk : Fresh k) {f : LookupFlags} (hf : f.cached = false)
  (hplain : P → k.rootPreset = false ∧ f.isScoped = false ∧ k.totalLinkCount = 0) (c : Bool)
include hk hf hplain

/-- The two modes begin at the same place. -/
theorem startWalk_sim (name : Name) :
    Sim k P (Twins w k P) (startWalk ops task name ⟨{ k with flags := f }, w, c⟩)
      (startWalk ops task name ⟨{ k with flags := { f with rcu := false } }, w, c⟩) := by
  have hpre : ∀ r : Path, (k.rootPreset = true → r = k.root) →
      (r.mnt ≠ none → ∃ d, r.dentry = some d ∧ ¬ P) →
      Pre w k P ⟨{ k with flags := f, root := r }, w, c⟩
        ⟨{ k with flags := { f with rcu := false }, root := r }, w, c⟩ := fun r hroot hr =>
    { frame := { hk.frame f with root := hroot }
      same := by constructor <;> rfl
      fs := rfl
      fs' := rfl
      uncached := hf
      root := fun hm => (hr hm).imp fun d hd => ⟨hd.1, fun hP => absurd hP hd.2⟩
      links := fun _ x hx => by simp [hk.depth] at hx
      plain := fun hP => ⟨(hplain hP).1, (hplain hP).2.1⟩ }
  unfold startWalk
  rw [getNd_bind, getNd_bind]
  by_cases hp : k.rootPreset = true
  · have hnP : ¬ P := fun hP => Bool.false_ne_true ((hplain hP).1.symm.trans hp)
    obtain ⟨l, hl⟩ := hk.root hp
    rw [if_pos hp]
    exact startPreset_sim (hpre _ (fun _ => rfl) fun _ => ⟨l.dentry, by rw [hl]; rfl, hnP⟩) hnP
      name hl
  · have hbegun := hpre { k.root with mnt := none } (fun hc => absurd hc hp) fun hc => absurd rfl hc
    rw [if_neg hp, modifyNd_bind, modifyNd_bind]
    split
    · exact ndJumpRoot_sim task hbegun
    · refine (startRelative_sim task { hbegun with total := fun hP => (hplain hP).2.2 } name _).bind
        fun _ _ s t h => ?_
      exact scopeRoot_sim h (Bool.eq_false_iff.2 hp)

/-- The two modes begin alike. -/
theorem pathInit_sim :
    Sim k P (SameAnswer w k P) (pathInit ops task { f with rcu := true } ⟨k, w, c⟩)
      (pathInit ops task { f with rcu := false } ⟨k, w, c⟩) := by
  unfold pathInit
  rw [if_neg (by simp), if_neg (by simp [hf]), getNd_bind, getNd_bind, modifyNd_bind, modifyNd_bind]
  refine Corresponds.bind (Q := Twins w k P) ?_
    fun _ _ s' t' h => .ok ⟨rfl, h⟩
  have := startWalk_sim (w := w) task hk (f := if k.name = [] then { f with rcu := false } else
    { f with rcu := true }) (by split <;> exact hf)
    (fun hP => ⟨(hplain hP).1, by split <;> exact (hplain hP).2.1, (hplain hP).2.2⟩) c k.name
  by_cases hn : k.name = [] <;> simpa only [hn, if_true, if_false] using this

end

/-- The path that a walk has reached. -/
structure Reached (w : Store) (k : Nameidata) (s t : WalkState Store) : Prop where
  path : t.nd.path = s.nd.path
  directory : t.nd.flags.directory = s.nd.flags.directory
  fs : s.fs = w
  fs' : t.fs = w
  frames : BothFail k s t

theorem completeWalk_sim (h : Twin w k P s t) :
    Sim k P (fun _ _ s' t' => Reached w k s' t') (completeWalk ops s) (completeWalk ops t) := by
  unfold completeWalk
  rw [getNd_bind, getNd_bind, onlyIf_false (by simp [h.ref] : ¬ t.nd.flags.rcu = true)]
  have hreached : Reached w k s t := ⟨h.same.path, h.same.directory, h.fs, h.fs', h.bothFail⟩
  by_cases hr : s.nd.flags.rcu = true
  · rw [onlyIf_true hr]
    -- the root is forgotten first, so both states are compared without it
    have hforget : ∃ s', (onlyIf (s.nd.rootPreset = false ∧ s.nd.flags.isScoped = false)
        (modifyNd fun nd => { nd with root := { nd.root with mnt := none } })) s = .ok () s' ∧
        ∃ t', Twin w k P s' t' ∧ Still s s' ∧ s'.nd.flags = s.nd.flags := by
      by_cases hp : s.nd.rootPreset = false ∧ s.nd.flags.isScoped = false
      · rw [onlyIf_true hp]
        refine ⟨_, rfl, { t with nd := { t.nd with root := { t.nd.root with mnt := none } } }, ?_,
          ⟨rfl, rfl, rfl, id, rfl⟩, rfl⟩
        exact h.still { h.toPre with
          frame := { h.frame with
            root := fun hc => absurd (h.frame.preset.symm.trans hp.1) (by simp [hc]) }
          same := { h.same with root := by rw [h.same.root] }
          root := fun hc => absurd rfl hc }
      · rw [onlyIf_false hp]
        exact ⟨s, rfl, t, h, ⟨rfl, rfl, rfl, id, rfl⟩, rfl⟩
    obtain ⟨s', hs', t', h', hstill, hflags⟩ := hforget
    rw [bind_ok hs', modifyNd_bind]
    have h'' : Twin w k P
        { s' with nd := { s'.nd with flags := { s'.nd.flags with cached := false } } } t' := by
      exact h'.still { h'.toPre with
        frame := { h'.frame with }
        same := { h'.same with flags := by rw [h'.same.flags]; simp only [h'.uncached] }
        uncached := rfl }
    have hr'' : ({ s' with nd := { s'.nd with flags := { s'.nd.flags with cached := false } } } :
        WalkState Store).nd.flags.rcu = true := by
      rw [hflags]
      exact hr
    obtain ⟨g, hok | ⟨hfail, hP⟩⟩ := unlazyOrFail_apply hr'' h''
    · rw [hok]
      have hframe := (h''.unlazied g).frame
      refine .ok ⟨h.same.path.trans hstill.path.symm, ?_, h''.fs, h.fs', hframe,
        h.frame.same h.same⟩
      exact h.same.directory.trans (congrArg LookupFlags.directory hflags).symm
    · rw [hfail]
      exact .escape ⟨rfl, (h''.unlazied g).frame, hP⟩
  · rw [onlyIf_false hr]
    exact .ok hreached

theorem checkDirectory_sim (h : Reached w k s t) :
    Sim k P (fun _ _ s' t' => s' = s ∧ t' = t) (checkDirectory ops s) (checkDirectory ops t) := by
  unfold checkDirectory
  rw [getNd_bind, getNd_bind, h.directory, h.path]
  refine onlyIf_sim (fun _ => ?_) fun _ => ⟨rfl, rfl⟩
  cases s.nd.path.dentry with
  | none => exact .error h.frames
  | some d =>
    rw [deref_some_bind, tree_bind, tree_bind, h.fs, h.fs']
    exact onlyIf_sim (fun _ => .error h.frames) fun _ => ⟨rfl, rfl⟩

/-- What `terminate_walk` leaves. -/
def terminated (s : WalkState Store) (g : Bool) : WalkState Store :=
  { s with nd := { s.nd with
      depth := 0, path := .null, flags := { s.nd.flags with rcu := false }, rootGrabbed := g } }

theorem terminateWalk_apply (h : s.nd.depth ≤ s.nd.stack.length) :
    ∃ g, terminateWalk ops s = .ok () (terminated s g) := by
  have hdrop : dropLinks s = .ok () s := by
    unfold dropLinks
    rw [getNd_bind, if_pos h]
    rfl
  have hput : ∃ g, putReferences ops s = .ok () { s with nd := { s.nd with
      flags := { s.nd.flags with rcu := false }, rootGrabbed := g } } := by
    unfold putReferences
    rw [getNd_bind]
    by_cases hr : s.nd.flags.rcu = true
    · rw [if_pos hr]
      exact ⟨s.nd.rootGrabbed, rfl⟩
    · have hflags : ({ s.nd.flags with rcu := false } : LookupFlags) = s.nd.flags := by
        rw [← Bool.eq_false_iff.2 hr]
      rw [if_neg hr, bind_ok (pathPut_apply _ _), bind_ok (putLinks_apply _ _), hflags]
      by_cases hg : s.nd.rootGrabbed = true
      · rw [onlyIf_true hg, bind_ok (pathPut_apply _ _)]
        exact ⟨false, rfl⟩
      · rw [onlyIf_false hg]
        exact ⟨s.nd.rootGrabbed, rfl⟩
  obtain ⟨g, hput⟩ := hput
  refine ⟨g, ?_⟩
  unfold terminateWalk
  rw [bind_ok hdrop, bind_ok hput]
  rfl

theorem Frame.terminated (h : Frame k s.nd) (g : Bool) : Frame k (terminated s g).nd :=
  { h with depth_le := Nat.zero_le _ }

section

variable (hm : ∀ m d, w.tree.mountOn m d = none)
  (hP : P → ∀ m, (w.tree.mnt m).root = (w.tree.mnt m).sbRoot) (task : Task) (fuel : ℕ)
  (hk : Fresh k) {f : LookupFlags} (hf : f.cached = false)
  (hplain : P → k.rootPreset = false ∧ f.isScoped = false ∧ k.totalLinkCount = 0) (c : Bool)
include hm hP hk hf hplain

theorem lookupAt_sim :
    Sim k P (fun a b s' t' => b = a ∧ BothFail k s' t')
      (lookupAt ops task fuel { f with rcu := true } ⟨k, w, c⟩)
      (lookupAt ops task fuel { f with rcu := false } ⟨k, w, c⟩) := by
  refine (pathInit_sim task hk hf hplain c).bind ?_
  rintro _ name s t ⟨rfl, h⟩
  refine Corresponds.bind (onlyIf_sim (Q := Twins w k P)
    (fun _ => handleLookupDown_sim h hm task fuel) fun _ => h) ?_
  intro _ _ s t h
  refine (lookupLoop_sim hm hP task fuel name h).bind ?_
  intro _ _ s t h
  rw [getNd_bind, getNd_bind, h.same.mountpoint]
  refine Corresponds.bind (onlyIf_sim (Q := Twins w k P)
    (fun _ => handleLookupDown_sim h hm task fuel) fun _ => h) ?_
  intro _ _ s t h
  refine (completeWalk_sim h).bind ?_
  intro _ _ s t h
  refine (checkDirectory_sim h).bind ?_
  rintro _ _ s' t' ⟨rfl, rfl⟩
  exact .ok ⟨h.path, { h.frames.1 with }, { h.frames.2 with }⟩

/-- **The two modes agree.** Where no mount is attached to a dentry, a walk in RCU mode gives up
with `ECHILD`, or ends as the walk with references does. If moreover the walk is neither scoped nor
below a preset root, it can give up only before it has followed a link. -/
theorem pathLookupat_sim :
    Sim k P (fun a b s' t' => b = a ∧ BothFail k s' t')
      (pathLookupat ops task fuel { f with rcu := true } ⟨k, w, c⟩)
      (pathLookupat ops task fuel { f with rcu := false } ⟨k, w, c⟩) := by
  have h := lookupAt_sim hm hP task fuel hk hf hplain c
  unfold pathLookupat andFinally
  generalize lookupAt ops task fuel { f with rcu := true } ⟨k, w, c⟩ = r at h
  generalize lookupAt ops task fuel { f with rcu := false } ⟨k, w, c⟩ = r' at h
  cases h with
  | ok h =>
    obtain ⟨rfl, hs, ht⟩ := h
    obtain ⟨g, hg⟩ := terminateWalk_apply hs.depth_le
    obtain ⟨g', hg'⟩ := terminateWalk_apply ht.depth_le
    simp only [hg, hg']
    exact .ok ⟨rfl, hs.terminated g, ht.terminated g'⟩
  | error h =>
    obtain ⟨g, hg⟩ := terminateWalk_apply h.1.depth_le
    obtain ⟨g', hg'⟩ := terminateWalk_apply h.2.depth_le
    simp only [hg, hg']
    exact .error ⟨h.1.terminated g, h.2.terminated g'⟩
  | escape h =>
    obtain ⟨g, hg⟩ := terminateWalk_apply h.2.1.depth_le
    simp only [hg]
    exact .escape ⟨h.1, h.2.1.terminated g, h.2.2⟩

end

end MinimalKernel.Vfs
