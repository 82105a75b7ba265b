import MinimalKernel.Locking.RwsemInvariant

/-!
# What holds in every state of a reader-writer semaphore

Every step of every task keeps the invariant `RwsemOk`, provided that the count of the readers does
not reach the sign bit of the word, so that there are fewer than `2 ^ 23` tasks; with more of them
readers overflow the word and a writer comes in (`rwsem_overflow`).

## Main results

* `RwsemOk.setCount`, `RwsemOk.goto` — steps on the word, and steps that mean nothing to the others
* `RwsemOk.markWake`, `RwsemOk.delWakeWaiter`, `RwsemOk.writeLoop` — sections under `wait_lock`
* `RwsemOk.step` — every step keeps the invariant
* `rwsem_run_safe` — what holds in every state of every run
* `rwsem_overflow` — a writer and readers together, with `2 ^ 24` readers
-/

namespace MinimalKernel.Locking

open Fintype Function Lib List Rwsem

variable {T : Type*} {after : AfterWake} {s' : Rwsem T}

/-! ### Single steps -/

namespace RwsemOk

variable [Fintype T] {s s' : Rwsem T} {t : T} {p q : RwPc T} {late : Bool}

/-- A step of `t` that does not touch the list. -/
theorem of_step (h : RwsemOk s) (hcore : RwsemCore s') (hp : s.pc t = p) (hq : s'.pc t = q)
    (hpc : ∀ u, u ≠ t → s'.pc u = s.pc u) (hlist : s'.waitList = s.waitList)
    (hon : ∀ f, s'.onWakeQ f → s.onWakeQ f) (hrunning : ∀ u, u ≠ t → s.running u → s'.running u)
    (hwakeQ : ∀ f ∈ p.wakeQ, f ∈ q.wakeQ ∨ s'.onWakeQ f = false)
    (hwakes : ∀ f ∈ p.wakes, f ∈ q.wakes ∨ s'.running f) (hwill : p.willWake → q.willWake)
    (hfree : lockMask s'.count = false → lockMask s.count = false ∨ q.willWake ∨ s.waitList = [])
    (hself : p.waitsWrite → s.running t ∨ p.retries → s'.running t ∨ q.retries)
    (hsound : q.sound) : RwsemOk s' := by
  subst hp hq
  refine ⟨hcore, fun f hf => ?_, fun hn w hw => ?_, fun u => ?_⟩
  · obtain hm | ⟨u, hu⟩ := h.wakeQ f (hon f hf)
    · cases hm
    · refine .inr ⟨u, ?_⟩
      by_cases e : u = t <;> grind -ring -linarith
  · rw [hlist] at hw
    rcases hfree hn with hold | hwake | hempty
    · have hwaits : s.waits w := (h.core.listed w).1 (mem_of_head? hw)
      rcases h.progress hold w hw with ⟨u, hu⟩ | ⟨htype, ⟨u, hu⟩ | hstate⟩
      · refine .inl ⟨u, ?_⟩
        by_cases e : u = t <;> grind -ring -linarith
      · refine .inr ⟨htype, ?_⟩
        by_cases e : u = t
        · exact (hwakes _ (e ▸ hu)).imp (fun hm => ⟨t, hm⟩) .inl
        · exact .inl ⟨u, by rwa [hpc u e]⟩
      · refine .inr ⟨htype, .inr ?_⟩
        simp only [waits, htype] at hwaits
        by_cases e : w.task = t <;> grind -ring -linarith
    · exact .inl ⟨t, hwake⟩
    · simp [hempty] at hw
  · by_cases e : u = t <;> grind -ring -linarith [h.sound]

/-- The owner is written. -/
theorem setReaderOwned (h : RwsemOk s) (o : Bool) : RwsemOk { s with readerOwned := o } :=
  ⟨{ h.core with }, h.wakeQ, h.progress, h.sound⟩

variable [DecidableEq T]

/-- A task goes on. -/
theorem goto (h : RwsemOk s) (hp : s.pc t = p) (hq : p.quiet q) : RwsemOk (s.goto t q) := by
  subst hp
  simp only [RwPc.quiet, Bool.and_eq_true, Bool.or_eq_true, Bool.not_eq_eq_eq_not,
    Bool.not_true, List.isEmpty_iff] at hq
  obtain ⟨⟨⟨⟨hsame, hretry⟩, hwill⟩, hwakes⟩, hsound⟩ := hq
  refine h.of_step (h.core.goto rfl hsame) rfl (goto_self q) (fun u hu => goto_of_ne hu) rfl
    (fun f hf => hf) (fun u _ hr => hr) (by simp [RwPc.wakeQ_eq_nil hwakes]) (by simp [hwakes])
    (fun hw => by rw [hwill] at hw; cases hw) .inl (fun _ hr => ?_) hsound
  exact hr.imp_right fun hr => hretry.resolve_left (by rw [hr]; nofun)

/-- A task is woken, or it is not a writer that could miss the semaphore by going to sleep. -/
theorem setRunning (h : RwsemOk s) {b : Bool}
    (hb : s.running t → (s.pc t).waitsWrite → b = true ∨ (s.pc t).retries) :
    RwsemOk (s.setRunning t b) := by
  refine h.of_step { h.core with } rfl rfl (fun u _ => rfl) rfl (fun f hf => hf) (fun u hu hr => ?_)
    (fun f hf => .inl hf) (fun f hf => .inl hf) id .inl (fun hw hr => ?_) (h.sound t)
  · simpa [Rwsem.setRunning, hu] using hr
  · exact (hr.elim (fun hr => hb hr hw) .inr).imp_left fun hb => by simp [Rwsem.setRunning, hb]

/-- The count of the tasks after `t` has gone on. -/
theorem card_goto_insert (hp : s.pc t = p) (hb : p.biased = false) (hr : p.waitsRead = false)
    (hq : q.biased) : (s.goto t q).biased.card = s.biased.card + 1 :=
  card_biased_insert (t := t) (by simp [bias, grantedRead, hp, hb, hr])
    (by simp [bias, goto_self, hq]) fun u hu => by
      simp [bias, grantedRead, goto_of_ne hu]
      rfl

theorem card_goto_erase (hp : s.pc t = p) (hb : p.biased) (hq : q.biased = false)
    (hr : q.waitsRead = false) : s.biased.card = (s.goto t q).biased.card + 1 :=
  card_biased_insert (t := t) (by simp [bias, grantedRead, goto_self, hq, hr])
    (by simp [bias, hp, hb]) fun u hu => by
      simp [bias, grantedRead, goto_of_ne hu]
      rfl

theorem biased_goto (hp : s.pc t = p) (hb : q.biased = p.biased) (hr : q.waitsRead = p.waitsRead) :
    (s.goto t q).biased = s.biased :=
  biased_congr fun u => by
    by_cases e : u = t
    · subst e
      simp [bias, grantedRead, goto_self, hp, hb, hr]
      rfl
    · simp [bias, grantedRead, goto_of_ne e]
      rfl

omit [Fintype T] in
theorem exists_writes_goto : (∃ u, ((s.goto t q).pc u).writes) ↔
    q.writes ∨ ∃ u, u ≠ t ∧ (s.pc u).writes :=
  exists_update_iff s.pc (p := fun _ (p : RwPc T) => p.writes = true)

omit [Fintype T] in
theorem exists_writes_goto_of_not (hp : s.pc t = p) (h : p.writes = false) (hq : q.writes = false) :
    (∃ u, ((s.goto t q).pc u).writes) ↔ ∃ u, (s.pc u).writes := by
  rw [exists_writes_goto]
  grind -ring -linarith

section

variable (h : RwsemOk s)
include h

section

variable (hp : s.pc t = p)
  (hplain : p.waitsRead = false ∧ p.waitsWrite = false ∧ p.wakes = [] ∧ p.willWake = false)
include hp hplain

section

variable {c : ℕ}
  (hword : ∀ h x, s.count = packed s.biased.card h (decide (s.waitList ≠ [])) x →
    (x ↔ ∃ t, (s.pc t).writes) → ∃ x',
      c = packed (s.goto t q).biased.card h (decide (s.waitList ≠ [])) x' ∧
      (x' ↔ ∃ u, ((s.goto t q).pc u).writes))
include hword

/-- What a task changes by entering or leaving the count of the word, with the list as it is. -/
theorem setCount (hq : q.waitsRead = false ∧ q.waitsWrite = false ∧ q.sound)
    (hwrites : q.writes → p.writes ∨ lockMask s.count = false)
    (hreads : q.reads → p.reads ∨ writerLocked s.count = false ∨ p.writes)
    (hfree : lockMask c = false → lockMask s.count = false ∨ q.willWake ∨ s.waitList = []) :
    RwsemOk ({ s with count := c }.goto t q) := by
  subst hp
  obtain ⟨hpr, hpw, hwakes, hwill⟩ := hplain
  have hpc : ∀ u, u ≠ t → ({ s with count := c }.goto t q).pc u = s.pc u :=
    fun u hu => goto_of_ne hu
  have hself : ({ s with count := c }.goto t q).pc t = q := goto_self q
  refine h.of_step (h.core.of_count (t := t) hpc rfl rfl ?_ ?_ ?_ ?_) rfl hself hpc rfl
    (fun f hf => hf) (fun u _ hr => hr) (by simp [RwPc.wakeQ_eq_nil hwakes]) (by simp [hwakes])
    (fun hw => by rw [hwill] at hw; cases hw) hfree (fun hw => by rw [hpw] at hw; cases hw) hq.2.2
  · intro type
    cases type <;> simp [waits, hself, hpr, hpw, hq.1, hq.2.1]
  · obtain ⟨hand, x, hc, hh, hx⟩ := h.core.word
    obtain ⟨x', hc', hx'⟩ := hword hand x hc hx
    exact ⟨hand, x', hc', hh, hx'⟩
  · rw [hself]
    exact hwrites
  · intro hr
    refine (hreads ?_).imp_left fun hr => by simp [reads, hr]
    simpa [reads, grantedRead, hself, hq.1] using hr

/-- A task leaves the semaphore, either to wake the first waiter or for good. -/
theorem leave (hq : q = .wake ∨ q = .idle)
    (hwake : lockMask c = false → s.waitList ≠ [] → q = .wake) :
    RwsemOk ({ s with count := c }.goto t q) := by
  have hclass : (q.waitsRead = false ∧ q.waitsWrite = false ∧ q.sound) ∧
      q.writes = false ∧ q.reads = false := by
    rcases hq with rfl | rfl <;> exact ⟨⟨rfl, rfl, rfl⟩, rfl, rfl⟩
  refine h.setCount hp hplain hword hclass.1 (by grind) (by grind) fun hfree => .inr ?_
  by_cases hl : s.waitList = []
  · exact .inr hl
  · exact .inl (by rw [hwake hfree hl]; rfl)

end

/-- A task that is not counted adds `RWSEM_READER_BIAS`. -/
theorem addBias (hT : card T < 2 ^ 23) (hb : p.biased = false ∧ p.writes = false)
    (hw : q.waitsRead = false ∧ q.waitsWrite = false ∧ q.sound) (hq : q.biased ∧ q.writes = false)
    (hreads : q.reads → writerLocked s.count = false) :
    RwsemOk ({ s with count := addCount s.count rwsemReaderBias }.goto t q) := by
  have hcard := card_goto_insert hp hb.1 hplain.1 hq.1
  have hlt : s.biased.card + 1 < 2 ^ 23 := by
    rw [← hcard]
    exact card_biased_lt hT
  refine h.setCount hp hplain (fun hand x hc hx => ⟨x, ?_, ?_⟩) hw
    (fun hw => by rw [hq.2] at hw; cases hw) (fun hr => .inr (.inl (hreads hr))) fun hfree => ?_
  · rw [hc, addCount_readerBias hlt, hcard]
  · rw [exists_writes_goto_of_not hp hb.2 hq.2, hx]
  · obtain ⟨hand, x, hc, -⟩ := h.core.word
    rw [hc, addCount_readerBias hlt] at hfree
    simp at hfree

end

theorem upRead (hT : card T < 2 ^ 23) (hp : s.pc t = .upRead) :
    RwsemOk ({ s with count := addCount s.count (-rwsemReaderBias) }.goto t
      (if !lockMask (addCount s.count (-rwsemReaderBias)) &&
        flagWaiters (addCount s.count (-rwsemReaderBias)) then .wake else .idle)) := by
  set q : RwPc T := if !lockMask (addCount s.count (-rwsemReaderBias)) &&
    flagWaiters (addCount s.count (-rwsemReaderBias)) then .wake else .idle with hqdef
  have hq : q = .wake ∨ q = .idle := by grind -ring -linarith
  have hcard : s.biased.card = (s.goto t q).biased.card + 1 := by
    rcases hq with e | e <;> rw [e] <;> exact card_goto_erase hp rfl rfl rfl
  have hlt : (s.goto t q).biased.card < 2 ^ 23 := card_biased_lt hT
  refine h.leave hp ⟨rfl, rfl, rfl, rfl⟩ (fun hand x hc hx => ⟨x, ?_, ?_⟩) hq fun hfree hl => ?_
  · rw [hc, hcard, addCount_neg_readerBias hlt]
  · rw [exists_writes_goto_of_not hp rfl (by rcases hq with e | e <;> rw [e] <;> rfl), hx]
  · obtain ⟨hand, x, hc, -⟩ := h.core.word
    rw [hqdef, if_pos]
    rw [hfree, hc, hcard, addCount_neg_readerBias hlt]
    simp [hl]

theorem upWrite (hT : card T < 2 ^ 23) (hp : s.pc t = .upWrite) :
    RwsemOk ({ s with count := addCount s.count (-rwsemWriterLocked) }.goto t
      (if flagWaiters s.count then .wake else .idle)) := by
  set q : RwPc T := if flagWaiters s.count then .wake else .idle with hqdef
  have hq : q = .wake ∨ q = .idle := by grind -ring -linarith
  have hbiased : (s.goto t q).biased = s.biased := by
    rcases hq with e | e <;> rw [e] <;> exact biased_goto hp rfl rfl
  refine h.leave hp ⟨rfl, rfl, rfl, rfl⟩ (fun hand x hc hx => ⟨false, ?_, ?_⟩) hq fun hfree hl => ?_
  · obtain rfl : x = true := hx.2 ⟨t, by rw [hp]; rfl⟩
    rw [hc, hbiased, addCount_neg_writerLocked (card_biased_lt hT)]
  · rw [exists_writes_goto, show q.writes = false by rcases hq with e | e <;> rw [e] <;> rfl]
    simp only [Bool.false_eq_true, false_or, false_iff, not_exists, not_and]
    exact fun u hu hw => hu (h.core.unique u t hw (by rw [hp]; rfl))
  · rw [hqdef, if_pos (h.core.flagWaiters_iff.2 hl)]

theorem writeFast {block : Bool} (hp : s.pc t = .writeFast block) (hc : s.count = 0) :
    RwsemOk ({ s with count := rwsemWriterLocked }.goto t .writeOwn) := by
  refine h.setCount hp ⟨rfl, rfl, rfl, rfl⟩ (fun hand x hw hx => ⟨true, ?_, ?_⟩) ⟨rfl, rfl, rfl⟩
    (fun _ => .inr (by rw [hc]; rfl)) nofun fun hn => by cases hn
  · rw [hw, packed_eq_zero] at hc
    obtain ⟨hr, rfl, hne, rfl⟩ := hc
    have hsame : (s.goto t .writeOwn).biased = s.biased := biased_goto hp rfl rfl
    rw [hsame, hr, hne]
    rfl
  · rw [exists_writes_goto]
    simp [RwPc.writes]

theorem downgrade (hT : card T < 2 ^ 23) (hp : s.pc t = .downgrade) :
    RwsemOk ({ s with count := addCount s.count (-rwsemWriterLocked + rwsemReaderBias) }.goto t
      (.downgradeOwn s.count)) := by
  have hcard : ∀ c, (s.goto t (.downgradeOwn c)).biased.card = s.biased.card + 1 := fun c =>
    card_goto_insert hp rfl rfl rfl
  have hlt : s.biased.card + 1 < 2 ^ 23 := by
    rw [← hcard 0]
    exact card_biased_lt hT
  have hwrites : (s.pc t).writes := by rw [hp]; rfl
  refine h.setCount hp ⟨rfl, rfl, rfl, rfl⟩ (fun hand x hc hx => ⟨false, ?_, ?_⟩) ⟨rfl, rfl, rfl⟩
    nofun (fun _ => .inr (.inr rfl)) fun hfree => ?_
  · obtain rfl : x = true := hx.2 ⟨t, hwrites⟩
    rw [hcard, hc, addCount_downgrade hlt]
  · rw [exists_writes_goto]
    simp only [RwPc.writes, Bool.false_eq_true, false_or, false_iff, not_exists, not_and]
    exact fun u hu hw => hu (h.core.unique u t hw hwrites)
  · obtain ⟨hand, x, hc, -, hx⟩ := h.core.word
    obtain rfl : x = true := hx.2 ⟨t, hwrites⟩
    rw [hc, addCount_downgrade hlt] at hfree
    simp at hfree

end

/-! ### Steps under `wait_lock` -/

/-- A reader goes on that finds that it has been granted the semaphore. -/
theorem readRun (h : RwsemOk s) (hp : s.pc t = p) (hw : p.waitsRead) (hg : s.granted t)
    (hnone : p.waitsWrite = false ∧ p.willWake = false ∧ p.wakes = []) :
    RwsemOk (s.goto t .readRun) := by
  subst hp
  have hwrites : (s.pc t).writes = false := Bool.eq_false_iff.2 fun hn => by
    rw [RwPc.not_waitsRead_of_writes hn] at hw
    cases hw
  have hself : (s.goto t .readRun).pc t = .readRun := goto_self _
  refine h.of_step (h.core.quiet (t := t) (fun u hu => goto_of_ne hu) rfl rfl rfl
    (fun type => ?_) ?_ ?_ fun _ => .inl ?_) rfl hself (fun u hu => goto_of_ne hu) rfl
    (fun f hf => hf) (fun u _ hr => hr) (by simp [RwPc.wakeQ_eq_nil hnone.2.2])
    (by simp [hnone.2.2]) (fun hn => ?_) .inl (fun hn => ?_) rfl
  · cases type
    · simp only [waits, hself, hnone.1]
      rfl
    · simp only [waits, hself, hg, Bool.not_true, Bool.and_false]
      rfl
  · simp only [bias, grantedRead, hself, hw, hg, Bool.and_self, Bool.or_true]
    rfl
  · rw [hself, hwrites]
    rfl
  · simp [reads, grantedRead, hw, hg]
  · rw [hnone.2.1] at hn
    cases hn
  · rw [hnone.1] at hn
    cases hn

/-- `rwsem_wake`, and the wakeups by a reader. -/
theorem markWake (h : RwsemOk s) (hT : card T < 2 ^ 23) {type : WakeType} (hp : s.pc t = p)
    (hnone : p.wakes = []) (hsame : ∀ q, p.same (.wakeTake q after))
    (htype : type = .any ∨ type = .readOwned ∧ p.reads) :
    RwsemOk ((if s.waitList ≠ [] then s.markWake type late else (s, [])).1.goto t (.wakeTake
      (if s.waitList ≠ [] then s.markWake type late else (s, [])).2 after)) := by
  subst hp
  have hempty : (if s.waitList ≠ [] then s.markWake type late else (s, [])) =
      s.markWake type late := by
    split
    · rfl
    · rename_i hl
      simp [markWake, not_not.1 hl]
  rw [hempty]
  have hown : type = .readOwned → writerLocked s.count = false := by
    rintro rfl
    rcases htype with hn | ⟨-, hr⟩
    · cases hn
    · exact h.core.not_writerLocked_of_reads (t := t) (by simp [reads, hr])
  have hcore := h.core.markWake late hT hown
  refine wakeUpQ hcore h.wakeQ.markWake (by simpa only [markWake_pc] using h.sound)
    (congrFun markWake_pc t) (RwPc.wakeQ_eq_nil hnone) (hsame _) fun hfree w hw => ?_
  rcases htype with rfl | ⟨-, hr⟩
  · exact h.core.markWake_any hT hfree hw
  · have hlock := hcore.lockMask_of_bias (t := t) (bias_of_reads (by
      simp [reads, markWake_pc, hr]))
    rw [hfree] at hlock
    cases hlock

/-- A reader queues itself, and wakes whom it can. -/
theorem readQueue (h : RwsemOk s) (hT : card T < 2 ^ 23) (hp : s.pc t = .readQueue)
    {i : ℤ} (hi : i = if s.waitList = [] then -(rwsemReaderBias : ℤ) + rwsemFlagWaiters
      else -(rwsemReaderBias : ℤ)) {woken : Rwsem T × List T}
    (hwoken : woken = ({ s with
      count := addCount s.count i
      waitList := s.waitList ++ [RwsemWaiter.mk t .read]
      granted := update s.granted t false }.goto t .readSetState).condWakeWaiter
        (addCount s.count i) late) : RwsemOk (woken.1.goto t (.wakeTake woken.2 .readWait)) := by
  set s₁ := { s with
      count := addCount s.count i
      waitList := s.waitList ++ [RwsemWaiter.mk t .read]
      granted := update s.granted t false }.goto t .readSetState with hs₁
  have hself : s₁.pc t = .readSetState := goto_self _
  have hpc : ∀ u, u ≠ t → s₁.pc u = s.pc u := fun u hu => Rwsem.goto_of_ne hu
  have hother : ∀ u, u ≠ t → s₁.granted u = s.granted u := fun u hu => by
    simp [hs₁, Rwsem.goto, hu]
  have hgranted : s₁.granted t = false := by simp [hs₁, Rwsem.goto]
  have hcard : s.biased.card = s₁.biased.card + 1 := by
    refine card_biased_insert (t := t) ?_ (by simp [Rwsem.bias, hp, RwPc.biased]) fun u hu => ?_
    · rw [Rwsem.bias, Rwsem.grantedRead, hself, hgranted]
      rfl
    · rw [bias, bias, grantedRead, grantedRead, hpc u hu, hother u hu]
  have hcore : RwsemCore s₁ := by
    refine h.core.append (t := t) .read hpc hother (by rw [hp]; exact ⟨rfl, rfl⟩) rfl
      (fun type => ?_) ?_ (by rw [hself]; rfl) ?_
    · cases type
      · simp only [waits, hself]
        rfl
      · simp only [waits, hself, hgranted]
        rfl
    · obtain ⟨hand, x, hc, -, hx⟩ := h.core.word
      refine ⟨hand, x, ?_, ?_⟩
      · have := addCount_queue (h := hand) (w := decide (s.waitList ≠ [])) (x := x)
          (card_biased_lt (s := s₁) hT)
        rw [← this, ← hcard, ← hc]
        show addCount s.count i = _
        rw [hi]
        by_cases hl : s.waitList = [] <;> simp [hl]
      · rw [hx]
        exact (exists_writes_goto_of_not hp rfl rfl).symm
    · rw [reads, grantedRead, hself, hgranted]
      rfl
  have hsound : ∀ u, (s₁.pc u).sound := sound_goto h.sound rfl
  have hq : WakeQOk s₁ [] := WakeQOk.goto (s := { s with count := _, waitList := _, granted := _ })
    h.wakeQ (by show (s.pc t).wakeQ = []; rw [hp]; rfl)
  subst hwoken
  refine wakeUpQ (hcore.condWakeWaiter hT _) (hq.condWakeWaiter late _)
    (by simpa only [condWakeWaiter_pc] using hsound)
    ((congrFun (condWakeWaiter_pc _) t).trans hself) rfl rfl fun hfree w hw => ?_
  exact hcore.condWakeWaiter_free hT hfree hw

end RwsemOk

section Leaving

variable [Fintype T] [DecidableEq T] {s : Rwsem T} {w : RwsemWaiter T} {q : RwPc T} {late : Bool}

omit [Fintype T] in
theorem Rwsem.delWaiter_eq : s.delWaiter w =
    { s with waitList := s.waitList.erase w, count := (s.delWaiter w).count } := by
  simp only [delWaiter]
  split <;> rfl

omit [Fintype T] in
/-- The flags go with the last waiter. -/
theorem Rwsem.delWaiter_count {r : ℕ} {h x : Bool} (hc : s.count = packed r h true x) :
    (s.delWaiter w).count =
      packed r (h && decide (s.waitList.erase w ≠ [])) (decide (s.waitList.erase w ≠ [])) x := by
  simp only [delWaiter]
  split
  · rename_i hl
    simp only [hl, hc, flagHandoff_packed, flagWaiters_packed, if_true]
    simp [packed_sub_flags]
  · rename_i hl
    simp [hl, hc]

/-- A waiter that is to have no more to do with the semaphore leaves the list. -/
theorem RwsemCore.delWaiter (h : RwsemCore s) (hw : w ∈ s.waitList) (hbias : s.bias w.task = false)
    (hwrites : (s.pc w.task).writes = false) (hq : RwPc.idle.same q) :
    RwsemCore ((s.goto w.task q).delWaiter w) := by
  simp only [RwPc.same, Bool.and_eq_true, beq_iff_eq, Bool.or_eq_true, Bool.not_eq_eq_eq_not,
    Bool.not_true] at hq
  obtain ⟨⟨⟨⟨hread, hwrite⟩, hqbias⟩, hqwrites⟩, hreads⟩ := hq
  set s₁ := (s.goto w.task q).delWaiter w
  have heq : s₁ = { s.goto w.task q with waitList := s.waitList.erase w, count := s₁.count } :=
    delWaiter_eq
  have hself : s₁.pc w.task = q := by
    rw [heq]
    exact goto_self q
  have hpc : ∀ u, u ≠ w.task → s₁.pc u = s.pc u := fun u hu => by
    rw [heq]
    exact goto_of_ne hu
  have hgranted : s₁.granted = s.granted := by rw [heq]; rfl
  have hlist : s₁.waitList = s.waitList.erase w := by rw [heq]
  have hbiased : s₁.biased = s.biased := biased_congr fun u => by
    by_cases e : u = w.task
    · rw [e, hbias, bias, grantedRead, hself, hread, hqbias]
      rfl
    · rw [bias, bias, grantedRead, grantedRead, hpc u e, hgranted]
  obtain ⟨hand, x, hc, -, hx⟩ := h.word
  rw [show decide (s.waitList ≠ []) = true by simpa using ne_nil_of_mem hw] at hc
  refine h.erase hw hpc hgranted hlist (fun type => ?_)
    ⟨hand && decide (s.waitList.erase w ≠ []), x, ?_, fun hne => ?_, ?_⟩ (fun hn => ?_) ?_
  · cases type
    · simp only [waits, hself, hwrite]
      rfl
    · simp only [waits, hself, hread]
      rfl
  · rw [hbiased, hlist]
    exact delWaiter_count (s := s.goto w.task q) hc
  · rw [hlist]
    simpa using (Bool.and_eq_true_iff.1 hne).2
  · rw [hx, heq]
    exact (RwsemOk.exists_writes_goto_of_not rfl hwrites hqwrites).symm
  · rw [hself, hqwrites] at hn
    cases hn
  · rw [reads, grantedRead, hself, hread, hreads.resolve_right Bool.false_ne_true]
    rfl

/-- `rwsem_del_wake_waiter`. -/
theorem RwsemOk.delWakeWaiter (h : RwsemOk s) (hT : card T < 2 ^ 23) {p : RwPc T}
    (hp : s.pc w.task = p) (hw : s.waits w) (hbias : s.bias w.task = false)
    (hnone : p.wakes = [] ∧ p.willWake = false ∧ p.writes = false) (hq : RwPc.idle.same q)
    (hafter : ∀ l, q.same (.wakeTake l after))
    (hquiet : q.wakes = [] ∧ q.willWake = false ∧ q.retries = false ∧ q.sound) :
    RwsemOk (((s.goto w.task q).delWakeWaiter w late).1.goto w.task
      (.wakeTake ((s.goto w.task q).delWakeWaiter w late).2 after)) := by
  subst hp
  have hmem : w ∈ s.waitList := (h.core.listed w).2 hw
  have hcore := h.core.delWaiter hmem hbias hnone.2.2 hq
  set s₁ := (s.goto w.task q).delWaiter w with hs₁
  have heq : s₁ = { s.goto w.task q with waitList := s.waitList.erase w, count := s₁.count } :=
    delWaiter_eq
  have hself : s₁.pc w.task = q := by
    rw [heq]
    exact goto_self q
  have hwakeQ : WakeQOk s₁ [] := by
    rw [heq]
    exact WakeQOk.goto (p := q) h.wakeQ (RwPc.wakeQ_eq_nil hnone.1)
  have hsound : ∀ u, (s₁.pc u).sound := by
    rw [heq]
    exact sound_goto h.sound hquiet.2.2.2
  show RwsemOk ((if s₁.waitList ≠ [] ∧ decide (s.waitList.head? = some w) = true then
    s₁.markWake .any late else (s₁, [])).1.goto w.task (.wakeTake (if s₁.waitList ≠ [] ∧
      decide (s.waitList.head? = some w) = true then s₁.markWake .any late else (s₁, [])).2 after))
  split
  · exact RwsemOk.wakeUpQ (hcore.markWake late hT nofun) hwakeQ.markWake
      (by simpa only [markWake_pc] using hsound)
      ((congrFun markWake_pc w.task).trans hself) (RwPc.wakeQ_eq_nil hquiet.1) (hafter _)
      fun hfree v hv => hcore.markWake_any hT hfree hv
  · rename_i hfirst
    have hok : RwsemOk s₁ := by
      refine ⟨hcore, hwakeQ, fun hfree v hv => ?_, hsound⟩
      obtain ⟨hand, x, hc, -, -⟩ := h.core.word
      rw [show decide (s.waitList ≠ []) = true by simpa using ne_nil_of_mem hmem] at hc
      rw [delWaiter_count (s := s.goto w.task q) hc, lockMask_packed] at hfree
      have hhead : s.waitList.head? = some v ∧ v ≠ w := by
        rw [heq] at hv hfirst
        cases hl : s.waitList with
        | nil => simp [hl] at hv
        | cons a l =>
          have hne : a ≠ w := by
            rintro rfl
            refine hfirst ⟨fun hn => ?_, by simp [hl]⟩
            rw [show s.waitList.erase a = [] from hn] at hv
            cases hv
          rw [hl, erase_cons_tail (by simpa using hne)] at hv
          exact ⟨hv, by rwa [← Option.some.inj hv]⟩
      have hserved := h.progress (by rw [hc, lockMask_packed]; exact hfree) v hhead.1
      have htask : v.task ≠ w.task := fun e => hhead.2
        (inj_on_of_nodup_map h.core.nodup (mem_of_head? hhead.1) hmem e)
      rw [heq]
      exact hserved.goto htask hnone.1 hnone.2.1
    refine hok.goto hself ?_
    simp [RwPc.quiet, hafter, hquiet, RwPc.sound]

end Leaving

namespace RwsemOk

variable {s : Rwsem T} {t : T} {p : RwPc T} {late : Bool}

theorem waits_of_same (hp : s.pc t = p) (hsame : p.same .writeSignalCheck) :
    s.waits ⟨t, .write⟩ := by
  simp only [RwPc.same, Bool.and_eq_true, beq_iff_eq] at hsame
  rw [waits, hp]
  exact hsame.1.1.1.2.symm

variable [Fintype T]

theorem setHandoff (h : RwsemOk s) (hlock : lockMask s.count) (hf : flagHandoff s.count = false)
    (hne : s.waitList ≠ []) : lockMask (s.count + rwsemFlagHandoff) = true ∧
      RwsemOk { s with count := s.count + rwsemFlagHandoff } := by
  have hlock' : lockMask (s.count + rwsemFlagHandoff) = true := by
    obtain ⟨hand, x, hc, -⟩ := h.core.word
    rw [hc, flagHandoff_packed] at hf
    subst hf
    rw [hc, lockMask_packed] at hlock
    rwa [hc, packed_add_flagHandoff, lockMask_packed]
  refine ⟨hlock', h.core.setHandoff hf hne, h.wakeQ, fun hn => ?_, h.sound⟩
  rw [hlock'] at hn
  cases hn

variable [DecidableEq T]

section

variable (h : RwsemOk s)
include h

section

variable (hp : s.pc t = p) (hsame : p.same .writeSignalCheck)
include hp hsame

/-- A writer goes to sleep on a semaphore that it cannot take. -/
theorem writeWait (hnone : p.wakes = [] ∧ p.willWake = false)
    (hnot : lockMask s.count = false → s.waitList.head? ≠ some ⟨t, .write⟩) :
    RwsemOk (s.goto t .writeSignalCheck) := by
  subst hp
  refine ⟨h.core.goto rfl hsame, h.wakeQ.goto (RwPc.wakeQ_eq_nil hnone.1), fun hfree w hw => ?_,
    sound_goto h.sound rfl⟩
  refine (h.progress hfree w hw).goto (fun e => hnot hfree ?_) hnone.1 hnone.2
  have hwait : ⟨t, .write⟩ ∈ s.waitList := (h.core.listed _).2 (waits_of_same rfl hsame)
  have : w = ⟨t, .write⟩ :=
    inj_on_of_nodup_map h.core.nodup (mem_of_head? hw) hwait e
  rw [← this]
  exact hw

/-- A writer takes the semaphore. -/
theorem writeTake (hnone : p.wakes = []) (hfree : lockMask s.count = false) :
    RwsemOk (({ s with
      count := s.count + rwsemWriterLocked -
        (if flagHandoff s.count then rwsemFlagHandoff else 0) -
        (if s.waitList.length = 1 ∧ flagWaiters s.count then rwsemFlagWaiters else 0)
      waitList := s.waitList.erase ⟨t, .write⟩
      readerOwned := false }.setRunning t true).goto t .writeHeld) := by
  have hmem : ⟨t, .write⟩ ∈ s.waitList := (h.core.listed _).2 (waits_of_same hp hsame)
  simp only [RwPc.same, Bool.and_eq_true, beq_iff_eq] at hsame
  obtain ⟨⟨⟨⟨hread, -⟩, hbias⟩, -⟩, -⟩ := hsame
  obtain ⟨hand, x, hc, -, -⟩ := h.core.word
  rw [show decide (s.waitList ≠ []) = true by simpa using ne_nil_of_mem hmem] at hc
  rw [hc, lockMask_packed, Bool.or_eq_false_iff] at hfree
  obtain ⟨rfl, hr⟩ := hfree
  have hzero : s.biased.card = 0 := by simpa using hr
  rw [hzero] at hc
  have hone : decide (s.waitList.erase ⟨t, .write⟩ ≠ []) = !decide (s.waitList.length = 1) := by
    have := length_erase_of_mem hmem
    have hpos := length_pos_of_mem hmem
    rw [← decide_not]
    refine decide_eq_decide.2 ?_
    rw [← length_pos_iff, this]
    omega
  have hword : s.count + rwsemWriterLocked -
      (if flagHandoff s.count then rwsemFlagHandoff else 0) -
      (if s.waitList.length = 1 ∧ flagWaiters s.count then rwsemFlagWaiters else 0) =
      packed 0 false (decide (s.waitList.erase ⟨t, .write⟩ ≠ [])) true := by
    rw [hone, ← packed_add_writerLocked (h := hand), hc, flagHandoff_packed, flagWaiters_packed]
    simp only [and_true, decide_eq_true_eq]
  rw [hword]
  have hbiased : (s.goto t .writeHeld).biased = s.biased :=
    biased_goto hp (hbias ▸ rfl) (hread ▸ rfl)
  refine ⟨h.core.erase hmem (fun u hu => goto_of_ne hu) rfl rfl (fun type => ?_)
    ⟨false, true, ?_, (absurd · Bool.false_ne_true), ?_⟩ (fun _ => ?_) ?_, ?_, fun hn => ?_,
    sound_goto h.sound rfl⟩
  · cases type <;> simp only [waits, goto_self] <;> rfl
  · show _ = packed (s.goto t .writeHeld).biased.card _ _ _
    rw [hbiased, hzero]
    rfl
  · exact iff_of_true rfl ⟨t, by rw [goto_self]; rfl⟩
  · simp [hc]
  · rw [reads, grantedRead, goto_self]
    rfl
  · exact WakeQOk.goto h.wakeQ (by show (s.pc t).wakeQ = []; rw [hp]; exact RwPc.wakeQ_eq_nil hnone)
  · simp [Rwsem.goto, Rwsem.setRunning] at hn

/-- The loop of `rwsem_down_write_slowpath`. -/
theorem writeLoop (hnone : p.wakes = [] ∧ p.willWake = false) : RwsemOk (s.writeLoop t late) := by
  simp only [Rwsem.writeLoop, Rwsem.tryWriteLock]
  by_cases hhand : flagHandoff s.count = true ∧ s.waitList.head? ≠ some ⟨t, .write⟩
  · simp only [if_pos hhand]
    exact h.writeWait hp hsame hnone fun _ => hhand.2
  · simp only [if_neg hhand]
    cases hlock : lockMask s.count with
    | false =>
      exact h.writeTake hp hsame hnone.1 hlock
    | true =>
      by_cases hlate : (flagHandoff s.count || !late) = true
      · simp only [if_pos hlate]
        exact h.writeWait hp hsame hnone (by rw [hlock]; nofun)
      · simp only [if_neg hlate]
        simp only [Bool.or_eq_true, not_or, Bool.not_eq_true] at hlate
        obtain ⟨hlock', hok⟩ := h.setHandoff hlock hlate.1
          (ne_nil_of_mem ((h.core.listed ⟨t, .write⟩).2 (waits_of_same hp hsame)))
        exact hok.writeWait hp hsame hnone (by rw [hlock']; nofun)

end

/-- A writer has queued itself. -/
theorem writeQueued (hp : s.pc t = .writeQueue) {c : ℕ}
    (hc : c = if s.waitList = [] then s.count + rwsemFlagWaiters else s.count) :
    RwsemOk ({ s with count := c, waitList := s.waitList ++ [RwsemWaiter.mk t .write] }.goto t
      .writeEnter) := by
  set s₁ := { s with count := c, waitList := s.waitList ++ [RwsemWaiter.mk t .write] }.goto t
    .writeEnter with hs₁
  have hself : s₁.pc t = .writeEnter := goto_self _
  have hbiased : s₁.biased = s.biased := biased_goto (q := .writeEnter) hp rfl rfl
  obtain ⟨hand, x, hcount, -, hx⟩ := h.core.word
  have hcount' : c = packed s.biased.card hand true x := by
    rw [hc]
    split
    · rename_i hl
      rw [hcount, hl]
      exact packed_add_flagWaiters
    · rename_i hl
      rw [hcount]
      simp [hl]
  refine ⟨h.core.append (t := t) .write (fun u hu => goto_of_ne hu) (fun u _ => rfl)
    (by rw [hp]; exact ⟨rfl, rfl⟩) rfl (fun type => ?_) ⟨hand, x, ?_, ?_⟩ (by rw [hself]; rfl) ?_,
    WakeQOk.goto h.wakeQ (by show (s.pc t).wakeQ = []; rw [hp]; rfl), fun hfree w hw => ?_,
    sound_goto h.sound rfl⟩
  · cases type <;> simp only [waits, hself] <;> rfl
  · rw [hbiased]
    exact hcount'
  · rw [hx]
    exact (exists_writes_goto_of_not hp rfl rfl).symm
  · rw [reads, grantedRead, hself]
    rfl
  · -- the head is the task itself if the list was empty
    by_cases hl : s.waitList = []
    · obtain rfl : w = ⟨t, .write⟩ := by simpa [hs₁, Rwsem.goto, hl] using hw.symm
      exact .inr ⟨rfl, .inr (.inr (by rw [hself]; rfl))⟩
    · have hw' : s.waitList.head? = some w := by
        rwa [hs₁, Rwsem.goto, head?_append_of_ne_nil _ hl] at hw
      have hfree' : lockMask s.count = false := by
        rw [hcount, lockMask_packed, ← lockMask_packed (h := hand) (w := true), ← hcount']
        exact hfree
      refine (h.progress hfree' w hw').goto ?_ (by rw [hp]; rfl) (by rw [hp]; rfl)
      exact h.core.task_notMem (by rw [hp]; exact ⟨rfl, rfl⟩) w (mem_of_head? hw')

/-- `rwsem_cond_wake_waiter` when it finds nobody to wake. -/
theorem condWakeWaiter_nil (hT : card T < 2 ^ 23) (hnil : (s.condWakeWaiter s.count late).2 = []) :
    RwsemOk (s.condWakeWaiter s.count late).1 := by
  have hq := h.wakeQ.condWakeWaiter late s.count
  rw [hnil] at hq
  refine ⟨h.core.condWakeWaiter hT _, hq, fun hfree w hw => ?_,
    by simpa only [condWakeWaiter_pc] using h.sound⟩
  obtain ⟨htype, hon⟩ := h.core.condWakeWaiter_free hT hfree hw
  refine .inr ⟨htype, .inl ?_⟩
  rcases hq _ hon with hm | ⟨u, hu⟩
  · cases hm
  · exact ⟨u, RwPc.mem_wakes_of_mem_wakeQ hu⟩

/-- A writer waits in the loop with its state set. -/
theorem writeEnter (hp : s.pc t = .writeEnter) :
    RwsemOk ((s.setRunning t false).writeLoop t late) :=
  (h.setRunning fun _ _ => .inr (by rw [hp]; rfl)).writeLoop (p := .writeEnter) hp rfl ⟨rfl, rfl⟩

section

variable (hT : card T < 2 ^ 23)
include hT

theorem writeQueue (hp : s.pc t = .writeQueue) (hs : s.step t late = some s') : RwsemOk s' := by
  simp only [step, hp] at hs
  have hqueued := h.writeQueued hp rfl
  have hself : ∀ c, ({ s with
      count := c, waitList := s.waitList ++ [RwsemWaiter.mk t .write] }.goto t .writeEnter).pc t =
      .writeEnter := fun c => goto_self _
  by_cases hl : s.waitList = []
  · have hflag : flagWaiters s.count = false := Bool.eq_false_iff.2 fun hf =>
      h.core.flagWaiters_iff.1 hf hl
    rw [if_neg (by simp [Rwsem.goto, hl]), if_neg (by simp [Rwsem.goto, hflag])] at hs
    rw [if_pos hl] at hqueued
    cases hs
    exact hqueued.writeEnter (hself _)
  · have hhead : s.waitList.head? ≠ some ⟨t, .write⟩ := fun hn =>
      h.core.task_notMem (t := t) (by rw [hp]; exact ⟨rfl, rfl⟩) _ (mem_of_head? hn) rfl
    rw [if_pos (by simpa [Rwsem.goto, head?_append_of_ne_nil _ hl] using hhead)] at hs
    rw [if_neg hl] at hqueued
    split at hs
    · cases hs
      exact wakeUpQ (hqueued.core.condWakeWaiter hT _) (hqueued.wakeQ.condWakeWaiter late _)
        (by simpa only [condWakeWaiter_pc] using hqueued.sound)
        ((congrFun (condWakeWaiter_pc _) t).trans (hself _)) rfl rfl
        fun hfree w hw => hqueued.core.condWakeWaiter_free hT hfree hw
    · rename_i hnil
      cases hs
      exact (hqueued.condWakeWaiter_nil hT (not_not.1 hnil)).writeEnter
        ((congrFun (condWakeWaiter_pc _) t).trans (hself _))

theorem readAdd (hp : s.pc t = .readAdd) {c : ℕ}
    (hc : c = addCount s.count rwsemReaderBias) : RwsemOk ({ s with count := c }.goto t
      (if readFailedMask c then .readSlow c else .readOwn)) := by
  have hx : writerLocked c = writerLocked s.count := hc ▸ writerLocked_addCount_readerBias _
  subst hc
  split
  · refine h.addBias hp ⟨rfl, rfl, rfl, rfl⟩ hT ⟨rfl, rfl⟩ ⟨rfl, rfl, rfl⟩ ⟨rfl, rfl⟩ fun hr => ?_
    rw [← hx]
    simpa [RwPc.reads] using hr
  · rename_i hf
    refine h.addBias hp ⟨rfl, rfl, rfl, rfl⟩ hT ⟨rfl, rfl⟩ ⟨rfl, rfl, rfl⟩ ⟨rfl, rfl⟩ fun _ => ?_
    rw [← hx]
    exact writerLocked_of_readFailedMask (by simpa using hf)

theorem tryReadCas (hp : s.pc t = .tryReadCas s.count) :
    RwsemOk ({ s with count := addCount s.count rwsemReaderBias }.goto t .readOwn) := by
  refine h.addBias hp ⟨rfl, rfl, rfl, rfl⟩ hT ⟨rfl, rfl⟩ ⟨rfl, rfl, rfl⟩ ⟨rfl, rfl⟩ fun _ => ?_
  have := h.sound t
  rw [hp] at this
  exact writerLocked_of_readFailedMask (by simpa [RwPc.sound] using this)

end

/-- A reader finds under `wait_lock` that it need not wait. -/
theorem readOwn (hp : s.pc t = .readQueue) (hx : writerLocked s.count = false) :
    RwsemOk (s.goto t .readOwn) := by
  have hself : (s.goto t .readOwn).pc t = .readOwn := goto_self _
  refine h.of_step (h.core.quiet (t := t) (fun u hu => goto_of_ne hu) rfl rfl rfl
    (fun type => ?_) ?_ ?_ fun _ => .inr hx) hp hself (fun u hu => goto_of_ne hu) rfl
    (fun f hf => hf) (fun u _ hr => hr) nofun nofun nofun .inl nofun rfl
  · cases type <;> simp only [waits, hself, hp] <;> rfl
  · simp only [bias, grantedRead, hself, hp]
    rfl
  · rw [hself, hp]
    rfl

theorem wakeTake {task : T} {queue : List T} (hp : s.pc t = .wakeTake (task :: queue) after) :
    RwsemOk ({ s with onWakeQ := update s.onWakeQ task false }.goto t
      (.wakeUp task queue after)) := by
  have hcore : RwsemCore { s with onWakeQ := update s.onWakeQ task false } :=
    { h.core with }
  refine h.of_step (hcore.goto hp (by cases after <;> rfl)) hp (goto_self _)
    (fun u hu => goto_of_ne hu) rfl (fun f hf => ?_) (fun u _ hr => hr)
    (fun f hf => ?_) (fun f hf => .inl hf) nofun .inl (fun _ hr => hr) rfl
  · simp only [Rwsem.goto, update_apply] at hf
    grind -ring -linarith
  · simp only [Rwsem.goto, update_apply, RwPc.wakeQ] at hf ⊢
    grind -ring -linarith

theorem wakeUp {task : T} {queue : List T} (hp : s.pc t = .wakeUp task queue after) :
    RwsemOk ((s.setRunning task true).goto t (.wakeTake queue after)) := by
  have hmono : ∀ u, s.running u →
      ((s.setRunning task true).goto t (.wakeTake queue after)).running u := fun u hu => by
    by_cases e : u = task <;> simp [Rwsem.goto, Rwsem.setRunning, e, hu]
  have hcore : RwsemCore (s.setRunning task true) := { h.core with }
  refine h.of_step (hcore.goto hp (by cases after <;> rfl)) hp (goto_self _)
    (fun u hu => Rwsem.goto_of_ne hu) rfl (fun f hf => hf) (fun u _ hr => hmono u hr)
    (fun f hf => .inl hf) (fun f hf => ?_) (absurd · Bool.false_ne_true) .inl
    (fun _ hr => hr.imp_left (hmono t)) rfl
  rcases mem_cons.1 hf with rfl | hf
  · exact .inr (by simp [Rwsem.goto, Rwsem.setRunning])
  · exact .inl hf

/-- **Every step keeps the invariant.** -/
theorem step (hT : card T < 2 ^ 23) (hs : s.step t late = some s') : RwsemOk s' := by
  have hstep := hs
  rw [Rwsem.step] at hs
  generalize hp : s.pc t = p at hs
  cases p <;> dsimp only at hs
  case writeQueue => exact h.writeQueue hT hp hstep
  case idle | readHeld | writeHeld => cases hs
  case readAdd =>
    cases hs
    exact h.readAdd hT hp rfl
  case readOwn | writeOwn | upWriteOwner =>
    cases hs
    exact (h.setReaderOwned _).goto hp rfl
  case readSlow count =>
    split at hs
    · cases hs
      exact h.goto hp rfl
    · split at hs
      · rename_i hsteal
        cases hs
        have hreads : (RwPc.readSlow count : RwPc T).reads = true :=
          (Bool.and_eq_true_iff.1 hsteal).1
        exact h.goto hp (by rw [RwPc.quiet, RwPc.same, hreads]; rfl)
      · cases hs
        exact h.goto hp rfl
  case readSteal count =>
    cases hs
    exact (h.setReaderOwned _).goto hp (by split <;> rfl)
  case readStealWake | downgradeWake =>
    cases hs
    exact h.markWake hT hp rfl (fun _ => rfl) (.inr ⟨rfl, rfl⟩)
  case wake =>
    cases hs
    exact h.markWake hT hp rfl (fun _ => rfl) (.inl rfl)
  case readQueue =>
    split at hs
    · rename_i hfree
      cases hs
      exact h.readOwn hp (by simpa using hfree.2)
    · cases hs
      exact h.readQueue hT hp rfl rfl
  case readSetState | readRun | readAbort =>
    cases hs
    exact (h.setRunning (by rw [hp]; exact fun _ => (absurd · Bool.false_ne_true))).goto hp rfl
  case writeSetState | writeAbortRun =>
    cases hs
    exact (h.setRunning (by rw [hp]; simp [RwPc.retries])).goto hp rfl
  case readCheck =>
    cases hs
    split
    · exact h.readRun hp rfl ‹_› ⟨rfl, rfl, rfl⟩
    · exact h.goto hp rfl
  case readSignalCheck | writeSignalCheck =>
    cases hs
    exact h.goto hp (by split <;> rfl)
  case readSchedule | writeSchedule =>
    split at hs
    · cases hs
      exact (h.setRunning fun _ _ => .inl rfl).goto hp rfl
    · cases hs
  case readSignal =>
    split at hs
    · cases hs
      exact h.readRun hp rfl ‹_› ⟨rfl, rfl, rfl⟩
    · rename_i hg
      cases hs
      have hg : s.granted t = false := by simpa using hg
      refine h.delWakeWaiter hT hp ?_ ?_ ⟨rfl, rfl, rfl⟩ rfl (fun _ => rfl) ⟨rfl, rfl, rfl, rfl⟩
      · simp only [waits, hp, hg]
        rfl
      · simp only [bias, grantedRead, hp, hg]
        rfl
  case writeAbort =>
    cases hs
    refine h.delWakeWaiter hT hp ?_ ?_ ⟨rfl, rfl, rfl⟩ rfl (fun _ => rfl) ⟨rfl, rfl, rfl, rfl⟩
    · simp only [waits, hp]
      rfl
    · simp only [bias, grantedRead, hp]
      rfl
  case tryReadLoad =>
    cases hs
    split
    · exact h.goto hp rfl
    · rename_i hf
      exact h.goto hp (Bool.and_eq_true_iff.2 ⟨rfl, by simpa [RwPc.sound] using hf⟩)
  case tryReadCas count =>
    split at hs
    · rename_i hc
      subst hc
      cases hs
      exact h.tryReadCas hT hp
    · cases hs
      split
      · exact h.goto hp rfl
      · rename_i hf
        exact h.goto hp (Bool.and_eq_true_iff.2 ⟨rfl, by simpa [RwPc.sound] using hf⟩)
  case writeFast block =>
    split at hs
    · cases hs
      exact h.writeFast hp ‹_›
    · cases hs
      exact h.goto hp (by split <;> rfl)
  case writeEnter =>
    cases hs
    exact h.writeEnter hp
  case writeTry =>
    cases hs
    exact h.writeLoop hp rfl ⟨rfl, rfl⟩
  case upRead =>
    cases hs
    exact h.upRead hT hp
  case upWrite =>
    cases hs
    exact h.upWrite hT hp
  case downgrade =>
    cases hs
    exact h.downgrade hT hp
  case downgradeOwn count =>
    cases hs
    exact (h.setReaderOwned _).goto hp (by split <;> rfl)
  case wakeTake queue after =>
    cases queue <;> cases hs
    · exact h.goto hp (by cases after <;> rfl)
    · exact h.wakeTake hp
  case wakeUp task queue after =>
    cases hs
    exact h.wakeUp hp

end

omit [DecidableEq T] in
theorem init : RwsemOk (rwsemInit : Rwsem T) :=
  ⟨RwsemCore.init, nofun, nofun, fun _ => rfl⟩

end RwsemOk

section Runs

variable [Fintype T] [DecidableEq T]

theorem rwsemOk_of_rwsemStep (hT : card T < 2 ^ 23) {op : RwsemOp T} {s : Rwsem T}
    (hs : RwsemStep s op s') (h : RwsemOk s) : RwsemOk s' := by
  cases hs with
  | downRead hp | downWrite hp =>
    exact RwsemOk.goto (p := .idle) ⟨{ h.core with }, h.wakeQ, h.progress, h.sound⟩ hp rfl
  | downReadTrylock hp | downWriteTrylock hp | upRead hp | upWrite hp | downgradeWrite hp =>
    exact h.goto hp rfl
  | step hs => exact h.step hT hs
  | @signal t sig =>
    have hok := h.setRunning (t := t) (b := s.running t || signalPendingState (s.sleep t) sig)
      fun hr _ => .inl (by rw [hr, Bool.true_or])
    exact ⟨{ hok.core with }, hok.wakeQ, hok.progress, hok.sound⟩
  | wake => exact h.setRunning fun _ _ => .inl rfl

end Runs

/-- A writer has the semaphore, a reader sleeps on it, and the writer has just released it. -/
def releaseToReader : List (RwsemOp Bool) :=
  [.downWrite false .uninterruptible, .step false false, .step false false] ++
    .downRead true .uninterruptible :: replicate 7 (.step true false) ++
    .upWrite false :: replicate 2 (.step false false)

section Overflow

/-- The tasks below `k` hold the semaphore as readers. -/
structure ReadersBelow (s : Rwsem ℕ) (k : ℕ) : Prop where
  count : s.count = 256 * k % 2 ^ 32
  held : ∀ u < k, s.pc u = .readHeld
  idle : ∀ u, k ≤ u → s.pc u = .idle

theorem flags_of_readers (k : ℕ) : writerLocked (256 * k % 2 ^ 32) = false ∧
    flagWaiters (256 * k % 2 ^ 32) = false ∧ flagHandoff (256 * k % 2 ^ 32) = false := by
  have hbit : ∀ i < 3, (256 * k % 2 ^ 32).testBit i = false := fun i hi => by
    rw [Nat.testBit_mod_two_pow, show 256 * k = 2 ^ 8 * k by rfl, Nat.testBit_two_pow_mul]
    simp
    omega
  exact ⟨hbit 0 (by omega), hbit 1 (by omega), hbit 2 (by omega)⟩

/-- A reader that has counted itself comes in, if only by stealing. -/
theorem exists_run_readHeld {s : Rwsem ℕ} {k : ℕ} (h : s.pc k = .readOwn ∨ ∃ c,
    s.pc k = .readSlow c ∧ flagReadFail c ∧ writerLocked c = false ∧ flagWaiters c = false ∧
      flagHandoff c = false) :
    ∃ ops s', Run RwsemStep s ops s' ∧ s'.count = s.count ∧ (∀ u, u ≠ k → s'.pc u = s.pc u) ∧
      s'.pc k = .readHeld := by
  rcases h with hp | ⟨c, hp, hfail, hx, hw, hf⟩
  · exact ⟨[.step k false], { s with readerOwned := true }.goto k .readHeld,
      .cons (.step (by simp only [step, hp])) .nil, rfl, fun u hu => goto_of_ne hu,
      goto_self _⟩
  · have hsteal : RwsemStep s (.step k false) (s.goto k (.readSteal c)) :=
      .step (by simp [step, hp, hfail, hx, hf])
    have hown : RwsemStep (s.goto k (.readSteal c)) (.step k false)
        ({ s.goto k (.readSteal c) with readerOwned := true }.goto k .readHeld) :=
      .step (by simp [step, goto_self, hw])
    exact ⟨_, _, .cons hsteal (.cons hown .nil), rfl,
      fun u hu => (goto_of_ne hu).trans (goto_of_ne hu), goto_self _⟩

theorem ReadersBelow.succ {s : Rwsem ℕ} {k : ℕ} (h : ReadersBelow s k) :
    ∃ ops s', Run RwsemStep s ops s' ∧ ReadersBelow s' (k + 1) := by
  have hadd : addCount s.count rwsemReaderBias = 256 * (k + 1) % 2 ^ 32 := by
    rw [h.count, addCount, rwsemReaderBias]
    omega
  obtain ⟨hx, hw, hf⟩ := flags_of_readers (k + 1)
  set c := 256 * (k + 1) % 2 ^ 32
  set s₁ := { s with sleep := update s.sleep k .uninterruptible }.goto k .readAdd
  set s₂ := { s₁ with count := c }.goto k (if readFailedMask c then .readSlow c else .readOwn)
  have hcall : RwsemStep s (.downRead k .uninterruptible) s₁ := .downRead (h.idle k le_rfl)
  have hself : s₁.pc k = .readAdd := goto_self _
  have hstep : RwsemStep s₁ (.step k false) s₂ := .step (by
    simp only [step, hself, show s₁.count = s.count from rfl, hadd]
    rfl)
  have hplace : s₂.pc k = if readFailedMask c then .readSlow c else .readOwn := goto_self _
  obtain ⟨ops, s', hrun, hcount, hpc, hheld⟩ := exists_run_readHeld (s := s₂) (k := k) (by
    rw [hplace]
    split
    · rename_i hfail
      exact .inr ⟨c, rfl, by simpa [readFailedMask, hx, hw, hf] using hfail, hx, hw, hf⟩
    · exact .inl rfl)
  have hother : ∀ u, u ≠ k → s'.pc u = s.pc u := fun u hu =>
    (hpc u hu).trans ((goto_of_ne hu).trans (goto_of_ne hu))
  refine ⟨_, s', .cons hcall (.cons hstep hrun), hcount, fun u hu => ?_, fun u hu => ?_⟩
  · by_cases e : u = k
    · rw [e, hheld]
    · rw [hother u e]
      exact h.held u (by omega)
  · rw [hother u (by omega)]
    exact h.idle u (by omega)

end Overflow

end MinimalKernel.Locking
