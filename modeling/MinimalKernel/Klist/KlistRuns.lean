import MinimalKernel.Klist.Klist
import MinimalKernel.Lib.Tally

/-!
# What iterators of a changing list see

Two invariants hold over all interleavings of calls that follow the rules, with any finite number of
iterators.

`CountOk` is about references: the count of a node is one for the list, if the node has not been
deleted, and one for each iterator that stands on it. Between two parts of a call a reference may be
in nobody's hands; the second argument of `CountOk` says on which node. So each part of a call is a
lemma of its own: killing a node and leaving a node set a reference free, `klist_dec_and_del` gives
it up, taking a reference and standing on a node are the way back.

`PassOk` is about one iterator. Among the nodes that have stayed on the list since the pass began,
those that it has returned are those up to the node on which it stands, in the order of the list.
Nodes that leave the list do not matter, since they have been deleted, and new ones do not, since
they come last.

## Main results

* `Klist.CountOk.klistDecAndDel` — giving up a reference
* `klist_iterators` — the three promises, for every run
-/

namespace MinimalKernel

open Function Lib List

variable {N I : Type*} [DecidableEq N]

/-! ### Passes -/

theorem filter_erase_of_eq_false {p : N → Bool} {n : N} (hn : p n = false) (l : List N) :
    (l.erase n).filter p = l.filter p := by
  induction l with
  | nil => rfl
  | cons m l ih =>
    by_cases hm : m = n
    · rw [hm, erase_cons_head, filter_cons_of_neg (by simp [hn])]
    · rw [erase_cons_tail (by simpa using hm), filter_cons, filter_cons, ih]

theorem filter_update_false (p : N → Bool) (n : N) (l : List N) :
    l.filter (update p n false) = (l.filter p).filter (· ≠ n) := by
  rw [filter_filter]
  refine filter_congr fun m _ => ?_
  by_cases hm : m = n
  · simp [hm]
  · simp [hm]

/-- The pass of an iterator that stands on `c`, over the list `l`. -/
def PassOk (l : List N) : Option N → Pass N → Prop
  | some c, p => ∃ front back, l = front ++ c :: back ∧
      p.seen.filter p.stay = (front ++ [c]).filter p.stay
  | none, p => if p.ended then p.seen.filter p.stay = l.filter p.stay else p.seen = []

namespace PassOk

variable {l : List N} {c : Option N} {p : Pass N} {n : N}

/-- A node that did not stay leaves the list. -/
theorem erase (h : PassOk l c p) (hn : p.stay n = false) (hc : c ≠ some n) :
    PassOk (l.erase n) c p := by
  cases c with
  | none =>
    rw [PassOk] at h ⊢
    rwa [filter_erase_of_eq_false hn]
  | some d =>
    obtain ⟨front, back, rfl, hseen⟩ := h
    have hd : d ≠ n := fun hd => hc (congrArg some hd)
    by_cases hmem : n ∈ front
    · refine ⟨front.erase n, back, erase_append_left _ hmem, ?_⟩
      rw [hseen, filter_append, filter_append, filter_erase_of_eq_false hn]
    · refine ⟨front, back.erase n, ?_, hseen⟩
      rw [erase_append_right _ hmem, erase_cons_tail (by simpa using hd)]

omit [DecidableEq N] in
/-- A node comes to the list. -/
theorem append (h : PassOk l c p) (hn : p.stay n = false) : PassOk (l ++ [n]) c p := by
  cases c with
  | none =>
    rw [PassOk] at h ⊢
    rwa [filter_append, filter_cons_of_neg (by simp [hn]), filter_nil, append_nil]
  | some d =>
    obtain ⟨front, back, rfl, hseen⟩ := h
    exact ⟨front, back ++ [n], by simp, hseen⟩

/-- A node is deleted. -/
theorem kill (h : PassOk l c p) (n : N) : PassOk l c { p with stay := update p.stay n false } := by
  cases c with
  | none =>
    rw [PassOk] at h ⊢
    simp only [filter_update_false]
    split_ifs at h ⊢ with hover
    · rw [h]
    · exact h
  | some d =>
    obtain ⟨front, back, rfl, hseen⟩ := h
    refine ⟨front, back, rfl, ?_⟩
    simp only [filter_update_false, hseen]

end PassOk

/-! ### References -/

namespace Klist

variable [Fintype I]

/-- The references. One on the node `o`, if any, is in nobody's hands. -/
structure CountOk (s : Klist N I) (o : Option N) : Prop where
  nodup : s.list.Nodup
  attached : ∀ n, s.attached n = true ↔ n ∈ s.list
  dead : ∀ n, s.dead n = true → n ∈ s.list
  ref : ∀ n, s.ref n = (if s.Present n then 1 else 0) + tally s.cur (some n) +
    if o = some n then 1 else 0
  /-- a node without references has left the list -/
  pos : ∀ n ∈ s.list, 0 < s.ref n
  off : ∀ n, n ∉ s.list → s.ref n = 0
  stay : ∀ i n, (s.pass i).stay n = true → s.Present n
  waiters : ∀ w ∈ s.waiters, w.1 ∈ s.list

variable {s : Klist N I} {n : N} {i : I} {o : Option N}

theorem CountOk.mem_of_cur (h : CountOk s o) (hc : s.cur i = some n) : n ∈ s.list := by
  by_contra hn
  have := h.ref n
  have := tally_pos hc
  have := h.off n hn
  omega

/-- `knode_kill` sets the reference of the list free. -/
theorem CountOk.knodeKill (h : CountOk s none) (hn : s.Present n) :
    CountOk (s.knodeKill n) (some n) := by
  obtain ⟨_, _, hdead, href, _, _, hstay, _⟩ := h
  constructor <;> simp only [Klist.knodeKill, update_apply, Present] at * <;> grind -ring -linarith

/-- `kref_get`. -/
theorem CountOk.get (h : CountOk s none) (hn : n ∈ s.list) :
    CountOk { s with ref := update s.ref n (s.ref n + 1) } (some n) := by
  obtain ⟨_, _, _, href, hpos, hoff, _, _⟩ := h
  constructor <;> simp only [update_apply, Present] at * <;> grind -ring -linarith

section

variable (h : CountOk s (some n))
include h

/-- **Giving up a reference.** `klist_dec_and_del` takes the node off the list when nobody else
has a reference. -/
theorem CountOk.klistDecAndDel : CountOk (s.klistDecAndDel n).2 none := by
  have hn := h.ref n
  rw [if_pos rfl] at hn
  obtain ⟨hnodup, hattached, hdead, href, hpos, hoff, hstay, hwaiters⟩ := h
  rw [Klist.klistDecAndDel]
  by_cases hone : s.ref n = 1
  · have hpresent : ¬s.Present n := fun hp => by rw [if_pos hp] at hn; omega
    have htally : tally s.cur (some n) = 0 := by omega
    rw [if_pos hone]
    constructor <;> simp only [Klist.klistRelease, update_apply, Present] at * <;>
      grind -ring -linarith [List.Nodup.mem_erase_iff]
  · rw [if_neg hone]
    constructor <;> simp only [update_apply, Present] at * <;> grind -ring -linarith

/-- What else `klist_dec_and_del` does: nothing, or the node, on which nobody stands and which has
not stayed, leaves the list. -/
theorem CountOk.decAndDel_cases :
    (s.klistDecAndDel n).2.cur = s.cur ∧ (s.klistDecAndDel n).2.pass = s.pass ∧
    ((s.klistDecAndDel n).2.list = s.list ∨
      (s.klistDecAndDel n).2.list = s.list.erase n ∧ (∀ j, (s.pass j).stay n = false) ∧
        ∀ j, s.cur j ≠ some n) := by
  have hn := h.ref n
  rw [if_pos rfl] at hn
  rw [Klist.klistDecAndDel]
  split_ifs with hone
  · refine ⟨rfl, rfl, .inr ⟨rfl, ?_, fun j hj => ?_⟩⟩
    · grind -ring -linarith [h.stay]
    · have := tally_pos hj
      omega
  · exact ⟨rfl, rfl, .inl rfl⟩

/-- The other iterators do not notice. -/
theorem CountOk.passOk_decAndDel {j : I} (hp : PassOk s.list (s.cur j) (s.pass j)) :
    PassOk (s.klistDecAndDel n).2.list ((s.klistDecAndDel n).2.cur j)
      ((s.klistDecAndDel n).2.pass j) := by
  obtain ⟨hcur, hpass, hlist⟩ := h.decAndDel_cases
  rw [hcur, hpass]
  rcases hlist with hlist | ⟨hlist, hstay, hne⟩
  · rwa [hlist]
  · rw [hlist]
    exact hp.erase (hstay j) (hne j)

end

/-! ### Calls -/

/-- The invariant. -/
structure Ok (s : Klist N I) : Prop where
  count : CountOk s none
  pass : ∀ i, PassOk s.list (s.cur i) (s.pass i)

theorem Ok.init : Ok (klistInit : Klist N I) := by
  have htally (n : N) : tally (fun _ : I => (none : Option N)) (some n) = 0 :=
    tally_const_of_ne nofun
  refine ⟨?_, fun _ => rfl⟩
  constructor <;> simp [klistInit, Present, htally]

theorem Ok.klistAddTail (h : Ok s) (hn : s.attached n = false) : Ok (s.klistAddTail n) := by
  obtain ⟨⟨hnodup, hattached, hdead, href, hpos, hoff, hstay, hwaiters⟩, hpass⟩ := h
  have hnot : n ∉ s.list := by grind -ring -linarith
  have hnew : ∀ j, (s.pass j).stay n = false := by grind -ring -linarith [Present]
  have htally : tally s.cur (some n) = 0 := by grind -ring -linarith
  refine ⟨?_, fun j => (hpass j).append (hnew j)⟩
  constructor <;> simp only [Klist.klistAddTail, update_apply, Present] at * <;>
    grind -ring -linarith

theorem Ok.klistDel (h : Ok s) (hn : s.Present n) : Ok (s.klistDel n).2 := by
  have hkill := h.count.knodeKill hn
  exact ⟨hkill.klistDecAndDel, fun j => hkill.passOk_decAndDel ((h.pass j).kill n)⟩

theorem Ok.klistAwait (h : Ok s) {t : ℕ} (hn : s.Present n) : Ok (s.klistAwait n t) :=
  ⟨{ h.count with waiters := forall_mem_cons.2 ⟨hn.1, h.count.waiters⟩ }, h.pass⟩

/-! ### Iterators -/

omit [Fintype I] in
theorem after_append_cons {front : List N} (hn : n ∉ front) (back : List N) :
    after (front ++ n :: back) n = back := by
  have hdrop : ∀ m ∈ front, (decide (m ≠ n)) = true := by
    intro m hm
    rw [decide_eq_true_iff]
    rintro rfl
    exact hn hm
  rw [after, dropWhile_append_of_pos hdrop]
  simp

/-- A node of the list, with what is before it and behind it. -/
theorem CountOk.split (h : CountOk s o) (hn : n ∈ s.list) : ∃ front back,
    s.list = front ++ n :: back ∧ after s.list n = back ∧ ∀ m ∈ front ++ [n], m ∉ back := by
  obtain ⟨front, back, hlist⟩ := append_of_mem hn
  have hnodup := h.nodup
  rw [hlist, nodup_append] at hnodup
  rw [hlist]
  exact ⟨front, back, rfl, after_append_cons (by grind -ring -linarith) back, by grind⟩

omit [Fintype I] in
/-- `klist_dec_and_del` does not look at the iterators. -/
theorem klistDecAndDel_cur (s : Klist N I) (n : N) (c : I → Option N) :
    ({ s with cur := c }.klistDecAndDel n).2 = { (s.klistDecAndDel n).2 with cur := c } := by
  simp only [Klist.klistDecAndDel]
  split_ifs <;> rfl

variable [DecidableEq I]

/-- An iterator that leaves its node sets its reference free. -/
theorem CountOk.leave (h : CountOk s none) (hc : s.cur i = some n) :
    CountOk { s with cur := update s.cur i none } (some n) := by
  refine { h with ref := fun m => ?_ }
  have hm := h.ref m
  have ht := tally_update s.cur i none (some m)
  show s.ref m = (if s.Present m then 1 else 0) + tally _ (some m) + _
  simp only [hc, reduceCtorEq, if_false, Option.some.injEq] at ht hm ⊢
  omega

/-- An iterator that stands nowhere comes to stand on the node. -/
theorem CountOk.stand (h : CountOk s (some n)) (hc : s.cur i = none) :
    CountOk { s with cur := update s.cur i (some n) } none := by
  refine { h with ref := fun m => ?_ }
  have hm := h.ref m
  have ht := tally_update s.cur i (some n) (some m)
  show s.ref m = (if s.Present m then 1 else 0) + tally _ (some m) + _
  simp only [hc, reduceCtorEq, if_false, Option.some.injEq] at ht hm ⊢
  omega

section

variable (h : Ok s)
include h

/-- A pass begins. -/
theorem Ok.beginPass {l : List N} (hl : ∀ n ∈ l, n ∈ s.list) :
    CountOk (s.beginPass i l) none ∧
      ∀ j ≠ i, PassOk s.list (s.cur j) ((s.beginPass i l).pass j) := by
  refine ⟨{ h.count with stay := fun j m => ?_ }, fun j hj => ?_⟩ <;>
    simp only [Klist.beginPass, update_apply]
  · split_ifs
    · simpa [Present] using fun hm hd => ⟨hl m hm, hd⟩
    · exact h.count.stay j m
  · rw [if_neg hj]
    exact h.pass j

theorem Ok.klistIterInitNode (hc : s.cur i = none) (o : Option N) :
    Ok (s.klistIterInitNode i o) := by
  have hstart : Ok ({ s.beginPass i s.list with cur := update s.cur i none }) := by
    obtain ⟨hcount, hpass⟩ := h.beginPass (i := i) fun n hn => hn
    have hcur : update s.cur i none = s.cur := by rw [← hc, update_eq_self]
    rw [hcur]
    refine ⟨hcount, fun j => ?_⟩
    rcases eq_or_ne j i with rfl | hj
    · simp [Klist.beginPass, PassOk, hc]
    · exact hpass j hj
  cases o with
  | none => exact hstart
  | some n =>
    rw [Klist.klistIterInitNode]
    by_cases hn : s.ref n = 0
    · rw [if_neg (by simpa using hn)]
      exact hstart
    · rw [if_pos hn]
      have hmem : n ∈ s.list := by
        by_contra hnot
        exact hn (h.count.off n hnot)
      obtain ⟨front, back, hlist, hafter, hdisj⟩ := h.count.split hmem
      have hback : ∀ m ∈ after s.list n, m ∈ s.list := by
        intro m hm
        rw [hafter] at hm
        rw [hlist]
        exact mem_append_right _ (mem_cons_of_mem _ hm)
      obtain ⟨hcount, hpass⟩ := h.beginPass (i := i) hback
      refine ⟨(hcount.get hmem).stand hc, fun j => ?_⟩
      rcases eq_or_ne j i with rfl | hj
      · simp only [Klist.beginPass, update_self]
        refine ⟨front, back, hlist, ?_⟩
        rw [filter_nil, eq_comm, filter_eq_nil_iff]
        intro m hm
        simp [hafter, hdisj m hm]
      · show PassOk s.list (update s.cur i (some n) j) _
        rw [update_of_ne hj]
        exact hpass j hj

/-- An iterator leaves its node, which stays on the list unless it has been deleted and nobody else
stands on it. -/
theorem Ok.leave_cases (hc : s.cur i = some n) :
    (s.klistDecAndDel n).2.cur = s.cur ∧ (s.klistDecAndDel n).2.pass = s.pass ∧
    ((s.klistDecAndDel n).2.list = s.list ∨
      (s.klistDecAndDel n).2.list = s.list.erase n ∧ (∀ j, (s.pass j).stay n = false) ∧
        ∀ j ≠ i, s.cur j ≠ some n) := by
  have hcur : (s.klistDecAndDel n).2.cur = s.cur := by
    simp only [Klist.klistDecAndDel]
    split_ifs <;> rfl
  have hleave := (h.count.leave hc).decAndDel_cases
  rw [klistDecAndDel_cur] at hleave
  refine ⟨hcur, hleave.2.1, hleave.2.2.imp id fun hl => ⟨hl.1, hl.2.1, fun j hj => ?_⟩⟩
  have hne : update s.cur i none j ≠ some n := hl.2.2 j
  rwa [update_of_ne hj] at hne

theorem Ok.passOk_leave (hc : s.cur i = some n) {j : I} (hj : j ≠ i) :
    PassOk (s.klistDecAndDel n).2.list (s.cur j) ((s.klistDecAndDel n).2.pass j) := by
  obtain ⟨-, hpass, hlist⟩ := h.leave_cases hc
  rw [hpass]
  rcases hlist with hlist | ⟨hlist, hstay, hne⟩
  · rw [hlist]
    exact h.pass j
  · rw [hlist]
    exact (h.pass j).erase (hstay j) (hne j hj)

/-- An iterator ends its pass. -/
theorem Ok.klistIterExit (i : I) : Ok (s.klistIterExit i).2 := by
  rw [Klist.klistIterExit]
  cases hc : s.cur i with
  | none => exact h
  | some n =>
    have hcount := (h.count.leave hc).klistDecAndDel
    rw [klistDecAndDel_cur] at hcount
    have hcur := (h.leave_cases hc).1
    show Ok { (s.klistDecAndDel n).2 with
      cur := update (s.klistDecAndDel n).2.cur i none
      pass := update (s.klistDecAndDel n).2.pass i ⟨[], fun _ => false, true⟩ }
    rw [hcur]
    refine ⟨{ hcount with stay := fun j m => ?_ }, fun j => ?_⟩ <;> simp only [update_apply] <;>
      split_ifs with hj
    · exact nofun
    · exact hcount.stay j m
    · simp [PassOk]
    · exact h.passOk_leave hc hj

end

/-- What `advance` needs to know of a pass: the nodes that are still to be looked at. -/
def Walk (s : Klist N I) (i : I) (rest : List N) : Prop :=
  ∃ front, s.list = front ++ rest ∧
    (s.pass i).seen.filter (s.pass i).stay = front.filter (s.pass i).stay

omit [Fintype I] in
/-- The old position does not matter. -/
theorem advance_cur (s : Klist N I) (i : I) (c : Option N) (rest : List N) :
    { s with cur := update s.cur i c }.advance i rest = s.advance i rest := by
  simp only [advance, update_idem]

/-- **The loop of `klist_next`.** It comes to the end, or to a node that has not been deleted. -/
theorem advance_ok (hcount : CountOk s none) (hpass : ∀ j ≠ i, PassOk s.list (s.cur j) (s.pass j))
    (hc : s.cur i = none) {rest : List N} (hw : Walk s i rest) :
    Ok (s.advance i rest) ∧ (∀ n, (s.advance i rest).cur i = some n → s.Present n) ∧
      ((s.advance i rest).cur i = none → ((s.advance i rest).pass i).ended = true) := by
  obtain ⟨front, hlist, hseen⟩ := hw
  -- nodes that are dead have not stayed
  have hdead : ∀ l : List N, (∀ m ∈ l, s.dead m = true) → l.filter (s.pass i).stay = [] := by
    intro l hl
    rw [filter_eq_nil_iff]
    intro m hm hstay
    have := (hcount.stay i m hstay).2
    rw [hl m hm] at this
    exact nomatch this
  rw [advance]
  cases hfind : rest.find? fun n => !s.dead n with
  | some n =>
    rw [List.find?_eq_some_iff_append] at hfind
    obtain ⟨hn, skipped, back, hrest, hskip⟩ := hfind
    have hn' : s.dead n = false := by simpa using hn
    have hmem : n ∈ s.list := by simp [hlist, hrest]
    have hstep := (hcount.get hmem).stand hc
    have hsk := hdead skipped fun m hm => by simpa using hskip m hm
    refine ⟨⟨{ hstep with stay := fun j m => ?_ }, fun j => ?_⟩, ?_, ?_⟩
    · simp only [update_apply]
      split_ifs <;> exact hcount.stay _ m
    · rcases eq_or_ne j i with rfl | hj
      · simp only [update_self]
        exact ⟨front ++ skipped, back, by simp [hlist, hrest], by simp [hseen, hsk]⟩
      · simpa only [update_of_ne hj] using hpass j hj
    · simp [Present, hmem, hn']
    · simp
  | none =>
    rw [List.find?_eq_none] at hfind
    have hrest := hdead rest fun m hm => by simpa using hfind m hm
    have hcur : update s.cur i none = s.cur := by rw [← hc, update_eq_self]
    simp only [hcur]
    refine ⟨⟨{ hcount with stay := fun j m => ?_ }, fun j => ?_⟩, ?_, ?_⟩
    · simp only [update_apply]
      split_ifs <;> exact hcount.stay _ m
    · rcases eq_or_ne j i with rfl | hj
      · simp [PassOk, hc, hseen, hlist, hrest]
      · simpa only [update_of_ne hj] using hpass j hj
    · simp [hc]
    · simp

omit [Fintype I] [DecidableEq I] in
theorem present_of_decAndDel {m : N} (hnodup : s.list.Nodup)
    (h : (s.klistDecAndDel n).2.Present m) : s.Present m := by
  rw [Klist.klistDecAndDel] at h
  split_ifs at h
  · obtain ⟨hm, hd⟩ := h
    obtain ⟨hne, hm⟩ := hnodup.mem_erase_iff.1 hm
    exact ⟨hm, (update_of_ne hne _ _).symm.trans hd⟩
  · exact h

/-- **One call of `klist_next`.** It does not follow a poisoned link, what it returns has not been
deleted, and when it returns nothing the pass is over. -/
theorem Ok.klistNext (h : Ok s) (i : I) : ∃ s', s.klistNext i = .ok s' ∧ Ok s' ∧
    (∀ n, s'.cur i = some n → s.Present n) ∧ (s'.cur i = none → (s'.pass i).ended = true) := by
  rw [Klist.klistNext]
  cases hc : s.cur i with
  | none =>
    refine ⟨_, rfl, ?_⟩
    have hpass := h.pass i
    rw [hc, PassOk] at hpass
    split_ifs at hpass ⊢ with hover
    · obtain ⟨hcount, hothers⟩ := h.beginPass (i := i) fun n hn => hn
      refine advance_ok hcount hothers hc ⟨[], rfl, ?_⟩
      show (update s.pass i _ i).seen.filter _ = []
      rw [update_self]
      rfl
    · exact advance_ok h.count (fun j _ => h.pass j) hc ⟨[], rfl, by rw [hpass]⟩
  | some last =>
    have hmem := h.count.mem_of_cur hc
    obtain ⟨front, back, hlist, hseen⟩ : ∃ front back, s.list = front ++ last :: back ∧
        (s.pass i).seen.filter (s.pass i).stay = (front ++ [last]).filter (s.pass i).stay := by
      have hpass := h.pass i
      rwa [hc] at hpass
    have hnot : last ∉ front := by
      have hnodup := h.count.nodup
      rw [hlist, nodup_middle, nodup_cons] at hnodup
      exact fun hm => hnodup.1 (mem_append_left _ hm)
    have hafter : after s.list last = back := by rw [hlist, after_append_cons hnot]
    have hcount := (h.count.leave hc).klistDecAndDel
    rw [klistDecAndDel_cur] at hcount
    obtain ⟨hcur, hpass, hcases⟩ := h.leave_cases hc
    -- what is behind the old node is still to be looked at, whether the node leaves or not
    have hwalk : Walk (s.klistDecAndDel last).2 i back := by
      rcases hcases with hl | ⟨hl, hstay, -⟩
      · exact ⟨front ++ [last], by rw [hl, hlist]; simp, by rw [hpass, hseen]⟩
      · refine ⟨front, ?_, ?_⟩
        · rw [hl, hlist, erase_append_right _ hnot, erase_cons_head]
        · rw [hpass, hseen, filter_append, filter_cons_of_neg (by simp [hstay i]),
            filter_nil, append_nil]
    simp only [if_pos hmem, hafter]
    refine ⟨_, rfl, ?_⟩
    rw [← advance_cur _ i none, hcur]
    obtain ⟨hok, hpresent, hend⟩ := advance_ok (i := i) hcount (fun j hj => by
      simpa only [update_of_ne hj] using h.passOk_leave hc hj) (update_self ..)
      hwalk
    exact ⟨hok, fun n hn => present_of_decAndDel h.count.nodup (hpresent n hn), hend⟩

/-- Every call keeps the invariant. -/
theorem Ok.step {s' : Klist N I} {op : KlistOp N I} (h : Ok s) (hstep : KlistStep s op s') :
    Ok s' := by
  cases hstep with
  | add hn => exact h.klistAddTail hn
  | del hn hd => exact h.klistDel ⟨(h.count.attached _).1 hn, hd⟩
  | await hn hd => exact h.klistAwait ⟨(h.count.attached _).1 hn, hd⟩
  | init hc => exact h.klistIterInitNode hc _
  | @next _ i hnext =>
    obtain ⟨u, hu, hok, -⟩ := h.klistNext i
    exact Except.ok.inj (hu.symm.trans hnext) ▸ hok
  | exit => exact h.klistIterExit _

theorem Ok.run {ops : List (KlistOp N I)} (h : Run KlistStep klistInit ops s) : Ok s :=
  h.invariant (I := Ok) (fun _ _ _ hs => hs.step) .init

end Klist

variable [Fintype I] [DecidableEq I]

/-- **Iterators over a changing list.** In every state of every run of calls that follow the rules,
with any finite number of iterators:

* the count of a node is one, if it is on the list and has not been deleted, plus the number of
  iterators that stand on it;
* `klist_next` follows no poisoned link, and what it returns has not been deleted;
* when it comes to the end, the nodes that have been there without being deleted since the pass
  began are among those returned exactly as they are on the list: in the same order, each once. -/
theorem klist_iterators {s : Klist N I} {ops : List (KlistOp N I)}
    (h : Run KlistStep klistInit ops s) :
    (∀ n, s.ref n = (if s.Present n then 1 else 0) + tally s.cur (some n)) ∧
    ∀ i, ∃ s', s.klistNext i = .ok s' ∧ (∀ n, s'.cur i = some n → s.Present n) ∧
      (s'.cur i = none → s'.list.Nodup ∧
        (s'.pass i).seen.filter (s'.pass i).stay = s'.list.filter (s'.pass i).stay) := by
  have hok := Klist.Ok.run h
  refine ⟨fun n => by simpa using hok.count.ref n, fun i => ?_⟩
  obtain ⟨s', hs', hok', hpresent, hend⟩ := hok.klistNext i
  refine ⟨s', hs', hpresent, fun hc => ⟨hok'.count.nodup, ?_⟩⟩
  have hpass := hok'.pass i
  rwa [hc, PassOk, if_pos (hend hc)] at hpass

/-- Three nodes; the iterator stands on the first when the first and the third are deleted. -/
def changedOps : List (KlistOp ℕ (Fin 2)) :=
  [.add 1, .add 2, .add 3, .init 0 none, .next 0, .init 1 (some 3), .del 1, .del 3, .next 0]

/-- The iterator has returned 1 and 2 and comes to the end. The third node has been deleted and is
still there, since the other iterator stands on it. -/
theorem klist_iterators_changed : ∃ s s' : Klist ℕ (Fin 2), Run KlistStep klistInit changedOps s ∧
    s.klistNext 0 = .ok s' ∧ s'.list = [2, 3] ∧ (s'.pass 0).seen = [1, 2] ∧ s.ref 3 = 1 ∧
    (s'.pass 0).seen.filter (s'.pass 0).stay = s'.list.filter (s'.pass 0).stay := by
  obtain ⟨s, hs, hnext⟩ : ∃ s : Klist ℕ (Fin 2), Run KlistStep klistInit changedOps s ∧
      ∃ s', s.klistNext 0 = .ok s' ∧ s'.cur 0 = none ∧ s'.list = [2, 3] ∧
        (s'.pass 0).seen = [1, 2] ∧ s.ref 3 = 1 :=
    ⟨_, .cons (.add rfl) (.cons (.add rfl) (.cons (.add rfl) (.cons (.init rfl) (.cons (.next rfl)
      (.cons (.init rfl) (.cons (.del rfl rfl) (.cons (.del rfl rfl) (.cons (.next rfl)
      .nil)))))))), _, rfl, rfl, rfl, rfl, rfl⟩
  obtain ⟨s', hs', hc, hlist, hseen, href⟩ := hnext
  obtain ⟨u, hu, -, hend⟩ := (klist_iterators hs).2 0
  obtain rfl := Except.ok.inj (hu.symm.trans hs')
  exact ⟨s, u, hs, hu, hlist, hseen, href, (hend hc).2⟩

end MinimalKernel
