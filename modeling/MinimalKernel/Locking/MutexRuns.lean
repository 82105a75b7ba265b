import MinimalKernel.Locking.Mutex

/-!
# What holds in every state of a mutex

The steps of a mutex are put together from a few changes: a task goes on, the word, `wait_lock`,
the list, a task state or a wake queue changes. The invariant `MutexOk` is kept by each of these
changes on its own, under a condition on where the tasks are, and a step of a task is one or two of
them.

The order of the two matters. A task that takes the mutex changes the word first and then goes on
as an owner; one that releases it goes on first. The invariant says what an owner may rely on, and
nothing about a word that names a task which is not yet, or no longer, an owner.

A released mutex with waiters is not lost, but the first waiter may still be asleep: the task that
released it wakes the waiter later, after it has taken `wait_lock`. `mutex_free_first_asleep` is
such a state. What holds throughout is that somebody is about to wake the first waiter, or it is
running already.

## Main definitions

* `Pc.owns`, `Pc.mayPickUp`, `Pc.released`, `Pc.wakes` — what a task has, or will do, by its place
* `MutexOk` — the invariant

## Main results

* `MutexOk.step` — every step keeps the invariant
* `mutex_run_safe` — the properties of every state that is reached
* `mutex_free_first_asleep` — a free mutex whose first waiter is asleep
-/

namespace MinimalKernel.Locking

open Bool Function Lib List Option

variable {T : Type*} {p : Pc T} {o : Owner T} {s' : Mutex T}

/-! ### Places in the code -/

/-- The call is made with `wait_lock` held. -/
def TrySite.holdsWait : TrySite → Bool
  | .locked | .loop => true
  | _ => false

/-- The call is made by a task on the wait list. -/
def TrySite.queued : TrySite → Bool
  | .loop | .woken _ => true
  | _ => false

namespace Pc

/-- The task holds `wait_lock`. -/
@[simp] def holdsWait : Pc T → Bool
  | .tryRead site | .tryCas site _ => site.holdsWait
  | .addList | .addFlag | .setState | .signalCheck | .unlockWait => true
  | .setRunning _ | .removeList _ | .removeFlag _ | .dropWait _ => true
  | .unlockPick _ | .handoffRead _ _ | .handoffCas _ _ _ | .unlockDrop _ => true
  | _ => false

/-- The task is on the wait list and will try to take the mutex again before it sleeps. -/
@[simp] def retries : Pc T → Bool
  | .tryRead site | .tryCas site _ => site.queued
  | .addFlag | .setState | .readFirst | .setStateAgain _ | .relock => true
  | _ => false

/-- The task is on the wait list and has failed to take the mutex since it took `wait_lock`. -/
@[simp] def gaveUp : Pc T → Bool
  | .signalCheck | .unlockWait => true
  | .setRunning acquired | .removeList acquired => !acquired
  | _ => false

/-- The task is on the wait list. -/
@[simp] def queued : Pc T → Bool
  | .tryRead site | .tryCas site _ => site.queued
  | .addFlag | .setState | .readFirst | .setStateAgain _ | .relock => true
  | .signalCheck | .unlockWait | .schedule => true
  | .breakLock | .setRunning _ | .removeList _ => true
  | _ => false

/-- The task is on the wait list and will try to take the mutex again before it can leave the list:
the mutex may be reserved for it. -/
@[simp] def mayPickUp : Pc T → Bool
  | .tryRead site | .tryCas site _ => site.queued
  | .schedule | .readFirst | .setStateAgain _ | .relock => true
  | _ => false

/-- The task has acquired the mutex and has not yet released it. -/
@[simp] def owns : Pc T → Bool
  | .held | .breakLock => true
  | .setRunning acquired | .removeList acquired | .removeFlag acquired | .dropWait acquired =>
    acquired
  | .unlockFast | .unlockRead | .unlockCas _ | .handoffRead _ _ | .handoffCas _ _ _ => true
  | .unlockLock owner | .unlockPick owner => owner.handoff
  | _ => false

/-- The task has released the mutex and has still to look for the first waiter to wake. -/
@[simp] def released : Pc T → Bool
  | .unlockLock owner | .unlockPick owner => !owner.handoff
  | _ => false

/-- The task on the wake queue of an unlock. -/
@[simp] def wakeQ : Pc T → Option T
  | .handoffRead _ queued | .handoffCas _ queued _ | .unlockDrop queued | .wakeTake queued => queued
  | _ => none

/-- The task that an unlock is about to wake. -/
@[simp] def wakes : Pc T → Option T
  | .handoffRead _ queued | .handoffCas _ queued _ | .unlockDrop queued | .wakeTake queued => queued
  | .wakeUp task => some task
  | _ => none

/-- The waiter, if there is one, to which an unlock hands the mutex over. -/
@[simp] def handsTo : Pc T → Option (Option T)
  | .handoffRead next _ | .handoffCas next _ _ => some next
  | _ => none

def isAddFlag : Pc T → Bool
  | .addFlag => true
  | _ => false

def isUnlockCas : Pc T → Bool
  | .unlockCas _ => true
  | _ => false

/-- Going on from `p` at `q` means nothing to the other tasks, except for `wait_lock`. -/
def quiet (p q : Pc T) : Bool :=
  q.queued == p.queued && (!q.owns || p.owns) && (!p.mayPickUp || q.mayPickUp) &&
    (!q.gaveUp || p.gaveUp) && (!p.released || q.released) && (!p.retries || q.retries) &&
    q.handsTo.isNone && p.wakes.isNone && !p.isAddFlag && !q.isUnlockCas

theorem queued_of_gaveUp (h : p.gaveUp) : p.queued := by
  cases p <;> simp_all [queued, gaveUp]

theorem queued_of_mayPickUp (h : p.mayPickUp) : p.queued := by
  cases p <;> simp_all [queued, mayPickUp]

/-- A waiter without `wait_lock` and without the mutex has still to look at the mutex. -/
theorem mayPickUp_of_queued (h : p.queued) (hw : ¬ p.holdsWait) (ho : ¬ p.owns) : p.mayPickUp := by
  cases p <;> simp_all

theorem holdsWait_of_gaveUp (h : p.gaveUp) : p.holdsWait := by
  cases p <;> simp_all [holdsWait, gaveUp]

theorem holdsWait_of_handsTo {n : Option T} (h : p.handsTo = some n) : p.holdsWait := by
  cases p <;> simp_all [holdsWait, handsTo]

theorem wakes_of_wakeQ {f : T} (h : p.wakeQ = some f) : p.wakes = some f := by
  cases p <;> simp_all [wakeQ, wakes]

end Pc

/-! ### The invariant -/

/-- The mutex is as the places of the tasks say. -/
structure MutexOk (s : Mutex T) : Prop where
  lock : ∀ t, (s.pc t).holdsWait → s.waitLock = some t
  nodup : s.waitList.Nodup
  queued : ∀ t, t ∈ s.waitList ↔ (s.pc t).queued
  owns : ∀ t, (s.pc t).owns → s.owner.task = some t ∧ s.owner.pickup = false
  waiters : ∀ f, s.waitList.head? = some f → s.owner.waiters ∨ s.pc f = .addFlag
  pickup : s.owner.pickup → ∃ t, s.owner.task = some t ∧ (s.pc t).mayPickUp
  plain : ∀ t o, s.pc t = .unlockCas o → o.handoff = false
  next : ∀ t n, (s.pc t).handsTo = some n → s.waitList.head? = n
  wakeQ : ∀ f, s.onWakeQ f → ∃ t, (s.pc t).wakeQ = some f
  failed : s.owner.task = none → ∀ t, (s.pc t).gaveUp → ∃ u, (s.pc u).released
  retry : s.owner.task = none → ∀ f, s.waitList.head? = some f →
    (∃ u, (s.pc u).released) ∨ (∃ u, (s.pc u).wakes = some f) ∨ s.running f ∨ (s.pc f).retries

/-- What a task must see to when it goes on from `p` at `q` and nothing else changes. -/
structure Moves (s : Mutex T) (t : T) (p q : Pc T) : Prop where
  lock : q.holdsWait → p.holdsWait ∨ s.waitLock = some t
  queued : q.queued = p.queued
  owns : q.owns → p.owns ∨ s.owner.task = some t ∧ s.owner.pickup = false
  waiters : p = .addFlag → s.waitList.head? = some t → s.owner.waiters
  pickup : s.owner.pickup → s.owner.task = some t → p.mayPickUp → q.mayPickUp
  plain : ∀ o, q = .unlockCas o → o.handoff = false
  next : ∀ n, q.handsTo = some n → s.waitList.head? = n
  wakeQ : ∀ f, p.wakeQ = some f → q.wakeQ = some f ∨ s.onWakeQ f = false
  wakes : ∀ f, p.wakes = some f → q.wakes = some f ∨ s.running f
  failed : q.gaveUp → p.gaveUp ∨ s.owner.task ≠ none
  released : p.released → q.released ∨ p.holdsWait ∧ ∀ f, s.waitList.head? = some f →
    q.wakes = some f ∨ ∃ u, u ≠ t ∧ (s.pc u).wakes = some f
  retry : p.retries → q.retries ∨ s.owner.task ≠ none

theorem Moves.quiet {s : Mutex T} {t : T} {q : Pc T}
    (hlock : q.holdsWait → p.holdsWait ∨ s.waitLock = some t) (h : p.quiet q) : Moves s t p q := by
  simp only [Pc.quiet, and_eq_true, beq_iff_eq, or_eq_true, not_eq_eq_eq_not,
    Bool.not_true, isNone_iff_eq_none] at h
  obtain ⟨⟨⟨⟨⟨⟨⟨⟨⟨hqueued, howns⟩, hpick⟩, hgave⟩, hrel⟩, hretry⟩, hhands⟩, hwakes⟩, hadd⟩, hcas⟩ :=
    h
  constructor
  case lock => exact hlock
  case wakeQ => exact fun f hf => by rw [Pc.wakes_of_wakeQ hf] at hwakes; cases hwakes
  all_goals grind -ring -linarith [Pc.isAddFlag, Pc.isUnlockCas]

/-- A task that the word names, without a reservation, has the mutex. -/
def Mutex.Named (s : Mutex T) : Prop :=
  ∀ t, s.owner.task = some t → s.owner.pickup = false → (s.pc t).owns

namespace MutexOk

variable {s : Mutex T} {t : T} {p q : Pc T}

theorem init : MutexOk (mutexInit : Mutex T) := by
  constructor <;> simp [mutexInit, Pc.holdsWait, Pc.queued, Pc.gaveUp, Pc.owns, Pc.handsTo]

/-- `wait_lock` has one holder. -/
theorem eq_of_holdsWait (h : MutexOk s) {t u : T} (ht : (s.pc t).holdsWait)
    (hu : (s.pc u).holdsWait) : t = u :=
  some.inj ((h.lock t ht).symm.trans (h.lock u hu))

/-- The mutex has one owner. -/
theorem eq_of_owns (h : MutexOk s) {t u : T} (ht : (s.pc t).owns) (hu : (s.pc u).owns) : t = u :=
  some.inj ((h.owns t ht).1.symm.trans (h.owns u hu).1)

theorem moves_afterUnlockRead (hp : p = .unlockRead ∨ ∃ o, p = .unlockCas o) :
    Moves s t p (afterUnlockRead s.owner) := by
  simp only [afterUnlockRead]
  split <;> rcases hp with rfl | ⟨o, rfl⟩ <;> constructor <;> simp_all

/-- No flag is set while no task is on the list, except for one that is being added. -/
theorem addFlag_of_not_waiters (h : MutexOk s) (hw : s.owner.waiters = false) :
    ∀ f, s.waitList.head? = some f → s.pc f = .addFlag := by
  intro f hf
  refine (h.waiters f hf).resolve_left fun hset => ?_
  rw [hw] at hset
  cases hset

/-! ### Single changes -/

/-- `wait_lock` changes hands while nobody relies on it. -/
theorem setWaitLock (h : MutexOk s) {w : Option T} (hw : ∀ t, (s.pc t).holdsWait = false) :
    MutexOk { s with waitLock := w } :=
  { h with
    lock := fun t ht => by
      rw [hw t] at ht
      cases ht }

/-- The word changes: no owner loses the mutex, the flag stays while there are waiters, and if the
mutex becomes free then the task that freed it will look for waiters, or there are none. -/
theorem setOwner (h : MutexOk s) (howns : ∀ t, (s.pc t).owns → o.task = some t ∧ o.pickup = false)
    (hwaiters : s.owner.waiters → o.waiters ∨ s.waitList = [])
    (hpickup : o.pickup → ∃ t, o.task = some t ∧ (s.pc t).mayPickUp)
    (hfree : o.task = none → s.owner.task = none ∨ (∃ u, (s.pc u).released) ∨
      ∀ f, s.waitList.head? = some f → s.pc f = .addFlag) : MutexOk { s with owner := o } := by
  have hretry := h.retry
  refine { h with owns := howns, waiters := ?_, pickup := hpickup, failed := ?_, retry := ?_ }
  · grind -ring -linarith [h.waiters]
  · intro hn u hu
    rcases hfree hn with hn | hr | hadd
    · exact h.failed hn u hu
    · exact hr
    · -- only the task that is being added is on the list, and it holds `wait_lock`
      have hmem := (h.queued u).2 (Pc.queued_of_gaveUp hu)
      obtain ⟨f, hf⟩ := isSome_iff_exists.1
        (isSome_head?.2 (ne_nil_of_mem hmem))
      have hf' := hadd f hf
      obtain rfl := h.eq_of_holdsWait (t := u) (u := f) (Pc.holdsWait_of_gaveUp hu)
        (by rw [hf']; rfl)
      simp [hf'] at hu
  · grind -ring -linarith [Pc.retries]

variable [DecidableEq T]

section

variable (h : MutexOk s)
include h

/-- A task goes on. -/
theorem goto (hp : s.pc t = p) (m : Moves s t p q) : MutexOk (s.goto t q) := by
  subst hp
  have hpickup := h.pickup
  have hfailed := h.failed
  have hretry := h.retry
  constructor <;> simp only [Mutex.goto, update_apply]
  case lock => grind -ring -linarith [h.lock, m.lock]
  case nodup => exact h.nodup
  case queued => grind -ring -linarith [h.queued, m.queued]
  case owns => grind -ring -linarith [h.owns, m.owns]
  case waiters => grind -ring -linarith [h.waiters, m.waiters]
  case pickup => grind -ring -linarith [m.pickup]
  case plain => grind -ring -linarith [h.plain, m.plain]
  case next => grind -ring -linarith [h.next, m.next]
  case wakeQ => grind -ring -linarith [h.wakeQ, m.wakeQ]
  case failed =>
    -- a task that has released the mutex waits for `wait_lock`, which one that gave up holds
    have hapart : (s.pc t).released → ¬(s.pc t).gaveUp := by cases s.pc t <;> simp
    have hwait : ∀ u, (s.pc u).gaveUp → (s.pc t).holdsWait → u = t := fun u hu =>
      h.eq_of_holdsWait (Pc.holdsWait_of_gaveUp hu)
    grind -ring -linarith [m.failed, m.released]
  case retry => grind -ring -linarith [m.retry, m.wakes, m.released]

/-- A task is woken, or is about to look at the mutex before it sleeps. -/
theorem setRunning {b : Bool} (hb : s.running t → b = true ∨ (s.pc t).retries) :
    MutexOk (s.setRunning t b) :=
  { h with
    retry := fun hn f hf => by
      refine (h.retry hn f hf).imp_right (Or.imp_right fun hr => ?_)
      by_cases e : f = t
      · subst e
        refine (hr.elim hb .inr).imp_left fun hb => ?_
        simp [Mutex.setRunning, hb]
      · exact hr.imp_left fun hr => by simpa [Mutex.setRunning, e] using hr }

/-- The task on a wake queue is on the queue of one of the tasks. -/
theorem wakeQAdd {f : T} (hf : ∃ u, (s.pc u).wakeQ = some f) : MutexOk (s.wakeQAdd f) :=
  { h with
    wakeQ := fun g hg => by
      by_cases e : g = f
      · subst e
        exact hf
      · exact h.wakeQ g (by simpa [Mutex.wakeQAdd, e] using hg) }

theorem wakeQClear (f : T) : MutexOk { s with onWakeQ := update s.onWakeQ f false } :=
  { h with
    wakeQ := fun g hg => by
      by_cases e : g = f
      · subst e
        simp at hg
      · exact h.wakeQ g (by simpa [e] using hg) }

end

section

variable (h : MutexOk s)
include h

/-- A task that holds `wait_lock` changes the list by adding or removing itself, from `p` to `q`.
Nobody else is at work on the list. -/
theorem setList {l : List T} (hp : s.pc t = p) (hlock : p.holdsWait) (hnodup : l.Nodup)
    (hmem : ∀ u, u ≠ t → (u ∈ l ↔ u ∈ s.waitList)) (hself : t ∈ l ↔ q.queued)
    (howns : q.owns → p.owns) (hfrom : p.mayPickUp = false ∧ p.wakes = none ∧ p.released = false)
    (hq : (∀ o, q ≠ .unlockCas o) ∧ q.handsTo = none ∧ q.gaveUp = false)
    (hwaiters : ∀ f, l.head? = some f → s.owner.waiters ∨ f = t ∧ q = .addFlag)
    (hretry : s.owner.task = none → ∀ f, l.head? = some f → (∃ u, (s.pc u).released) ∨
      f = t ∧ q.retries ∨ f ≠ t ∧ s.waitList.head? = some f) :
    MutexOk ({ s with waitList := l }.goto t q) := by
  subst hp
  have hother : ∀ u, u ≠ t → (s.pc u).holdsWait = false := fun u hu =>
    eq_false_iff.2 fun hw => hu (h.eq_of_holdsWait hw hlock)
  have hpickup := h.pickup
  have hretry' := h.retry
  constructor <;> simp only [Mutex.goto, update_apply]
  case lock => grind -ring -linarith [h.lock]
  case nodup => exact hnodup
  case queued => grind -ring -linarith [h.queued]
  case owns => grind -ring -linarith [h.owns]
  case waiters | pickup => grind -ring -linarith
  case plain => grind -ring -linarith [h.plain]
  case next => grind -ring -linarith [→ Pc.holdsWait_of_handsTo]
  case wakeQ => grind -ring -linarith [h.wakeQ, → Pc.wakes_of_wakeQ]
  case failed => grind -ring -linarith [→ Pc.holdsWait_of_gaveUp]
  case retry => grind -ring -linarith

/-- A task joins the wait list. -/
theorem addList (hp : s.pc t = .addList) :
    MutexOk ({ s with waitList := s.waitList ++ [t] }.goto t .addFlag) := by
  have hnot : t ∉ s.waitList := by
    rw [h.queued, hp]
    simp [Pc.queued]
  have hhead : ∀ f, (s.waitList ++ [t]).head? = some f →
      f = t ∨ f ≠ t ∧ s.waitList.head? = some f := by
    cases hl : s.waitList <;> grind -ring -linarith
  refine h.setList hp rfl ?_ (fun u hu => by simp [hu]) (by simp [Pc.queued])
    (fun ho => by cases ho) ⟨rfl, rfl, rfl⟩ ⟨fun o => nofun, rfl, rfl⟩ (fun f hf => ?_)
    fun hn f hf => ?_
  · exact h.nodup.append (nodup_singleton t) (by simpa using hnot)
  · rcases hhead f hf with rfl | ⟨hne, hf⟩
    · exact .inr ⟨rfl, rfl⟩
    · -- another task that is being added would hold `wait_lock` as well
      refine .inl ((h.waiters f hf).resolve_right fun hadd => hne ?_)
      exact h.eq_of_holdsWait (by rw [hadd]; rfl) (by rw [hp]; rfl)
  · exact .inr ((hhead f hf).imp_left fun e => ⟨e, rfl⟩)

/-- A task leaves the wait list. If the mutex is free then the task leaves because it failed to take
the mutex, and whoever has released it since is still waiting for `wait_lock`. -/
theorem removeList {a : Bool} (hp : s.pc t = .removeList a) :
    MutexOk ({ s with waitList := s.waitList.erase t }.goto t (.removeFlag a)) := by
  refine h.setList hp rfl (h.nodup.erase t) (fun u hu => by simp [h.nodup.mem_erase_iff, hu])
    (by simp [h.nodup.mem_erase_iff, Pc.queued]) id ⟨rfl, rfl, rfl⟩
    ⟨fun o => nofun, rfl, rfl⟩ (fun f _ => .inl ?_)
    fun hn f _ => .inl ?_
  · obtain ⟨g, hg⟩ : ∃ g, s.waitList.head? = some g := by
      have hmem : t ∈ s.waitList := by rw [h.queued, hp]; rfl
      cases hl : s.waitList with
      | nil => rw [hl] at hmem; cases hmem
      | cons g l => exact ⟨g, rfl⟩
    refine (h.waiters g hg).resolve_right fun hadd => ?_
    have := h.eq_of_holdsWait (t := g) (u := t) (by rw [hadd]; rfl) (by rw [hp]; rfl)
    rw [this, hp] at hadd
    cases hadd
  · cases a with
    | true =>
      have := (h.owns t (by rw [hp]; rfl)).1
      rw [hn] at this
      cases this
    | false => exact h.failed hn t (by rw [hp]; rfl)

/-- `raw_spin_lock`: the lock changes hands first. -/
theorem spinLock (hs : s.spinLock t q = some s') (hp : s.pc t = p)
    (m : Moves { s with waitLock := some t } t p q) : MutexOk s' := by
  simp only [Mutex.spinLock] at hs
  split at hs
  · rename_i hfree
    cases hs
    have hnone : ∀ u, (s.pc u).holdsWait = false := fun u =>
      eq_false_iff.2 fun hu => nomatch hfree.symm.trans (h.lock u hu)
    exact (h.setWaitLock hnone).goto hp m
  · cases hs

/-- `raw_spin_unlock`: the task goes on first. -/
theorem spinUnlock (hp : s.pc t = p) (hw : p.holdsWait) (hq : q.holdsWait = false)
    (m : Moves s t p q) : MutexOk (s.spinUnlock t q) := by
  refine (h.goto hp m).setWaitLock ?_
  simp only [Mutex.goto, update_apply]
  grind -ring -linarith [h.eq_of_holdsWait]

end

/-! ### Steps -/

theorem tryTarget_eq_none {handoff : Bool} (h : tryTarget t handoff o = none) :
    o.task ≠ none ∧ (o.pickup → o.task ≠ some t) := by
  simp only [tryTarget] at h
  split at h <;> rename_i ho
  · refine ⟨by simp [ho], fun hp e => ?_⟩
    simp [hp, some.inj (ho.symm.trans e)] at h
  · cases h

/-- A task that has read the word goes on with the exchange, unless the mutex is taken by another
task, and that includes a mutex reserved for another task. -/
theorem moves_afterRead {site : TrySite} (hp : p = .tryRead site ∨ ∃ o, p = .tryCas site o) :
    Moves s t p (afterRead t site s.owner) := by
  simp only [afterRead]
  split
  · rcases hp with rfl | ⟨o, rfl⟩ <;> constructor <;> simp +contextual
  · rename_i hnone
    obtain ⟨htaken, hother⟩ := tryTarget_eq_none (by simpa using hnone)
    rcases hp with rfl | ⟨o, rfl⟩ <;> cases site <;> constructor <;>
      simp_all [TrySite.fail, TrySite.holdsWait, TrySite.queued]

section

variable (h : MutexOk s)
include h

/-- The exchange of `__mutex_trylock_common` has succeeded. -/
theorem tryCas {site : TrySite} {new : Owner T} (hp : s.pc t = .tryCas site o)
    (ho : s.owner = o) (hnew : tryTarget t site.handoff o = some new)
    (hnamed : o.task = some t → o.pickup) :
    MutexOk ({ s with owner := new }.goto t
      (if new.task = some t then site.success else site.fail)) := by
  subst ho
  have hpickup := h.pickup
  simp only [tryTarget] at hnew
  split at hnew
  · rename_i u hu
    split_ifs at hnew with hpick hut hhand hset <;> cases hnew
    · -- the mutex was reserved for this task
      have hset : MutexOk { s with owner := { s.owner with pickup := false } } :=
        h.setOwner (by grind -ring -linarith [h.owns]) .inl nofun .inl
      rw [if_pos (by rw [hu, hut])]
      exact hset.goto hp (by cases site <;> constructor <;> simp_all [TrySite.success,
        TrySite.holdsWait, TrySite.queued])
    · -- the waiter asks for a handoff
      have hset : MutexOk { s with owner := { s.owner with handoff := true } } :=
        h.setOwner h.owns .inl h.pickup .inl
      have hsite : ∃ first, site = .woken first := by
        cases site <;> simp_all [TrySite.handoff]
      obtain ⟨first, rfl⟩ := hsite
      rw [if_neg (by grind -ring -linarith)]
      exact hset.goto hp (by constructor <;> simp_all [TrySite.fail, TrySite.holdsWait,
        TrySite.queued])
  · -- the mutex was free
    rename_i hfree
    cases hnew
    have hset : MutexOk { s with owner := { s.owner with task := some t } } :=
      h.setOwner (by grind -ring -linarith [h.owns]) .inl (by grind) nofun
    rw [if_pos rfl]
    exact hset.goto hp (by cases site <;> constructor <;> simp_all [TrySite.success,
      TrySite.holdsWait, TrySite.queued])

/-- The unlock gives the mutex up, or hands it over: the task goes on first. -/
theorem release (hp : s.pc t = p) (howns : p.owns) (hq : q.owns = false)
    (m : Moves s t p q) (o : Owner T) (hwaiters : o.waiters = s.owner.waiters)
    (hpick : o.pickup → ∃ u, o.task = some u ∧ u ≠ t ∧ (s.pc u).mayPickUp)
    (hwake : o.task = none → q.released ∨ ∀ f, s.waitList.head? = some f → s.pc f = .addFlag) :
    MutexOk ({ s with owner := o }.goto t q) := by
  subst hp
  refine (h.goto rfl m).setOwner ?_ (fun hw => .inl (hwaiters.trans hw)) ?_ ?_ <;>
    simp only [Mutex.goto, update_apply]
  · grind -ring -linarith [h.eq_of_owns]
  · grind -ring -linarith
  · grind -ring -linarith [Pc.owns]

/-- `wake_q_add` of the first waiter: the task that has it on its queue will wake it. -/
theorem pick {next : T} (hp : s.pc t = p) (hw : p.wakeQ = none)
    (m : (s.onWakeQ next → ∃ u, u ≠ t ∧ (s.pc u).wakeQ = some next) → Moves s t p q)
    (hq : s.onWakeQ next = false → q.wakeQ = some next) : MutexOk ((s.wakeQAdd next).goto t q) := by
  have hother : s.onWakeQ next → ∃ u, u ≠ t ∧ (s.pc u).wakeQ = some next := by
    grind -ring -linarith [h.wakeQ]
  refine (h.goto hp (m hother)).wakeQAdd ?_
  simp only [Mutex.goto, update_apply]
  grind -ring -linarith

/-- Every step of a task keeps the invariant. `Mutex.Named` is what the exchange needs to know: a
task that tries to take the mutex does not have it. -/
theorem step (hnamed : s.Named) (hs : s.step t = some s') : MutexOk s' := by
  rw [Mutex.step] at hs
  generalize hp : s.pc t = p at hs
  cases p <;> dsimp only at hs
  case idle | held => cases hs
  case fast =>
    split at hs <;> rename_i ho <;> cases hs
    · have hset : MutexOk { s with owner := ⟨some t, false, false, false⟩ } := by
        refine h.setOwner (fun u hu => ?_) (fun hw => ?_) (fun hp => by cases hp)
          fun hn => by cases hn
        · have := (h.owns u hu).1
          rw [ho] at this
          cases this
        · rw [ho] at hw
          cases hw
      exact hset.goto hp (by constructor <;> simp)
    · exact h.goto hp (.quiet .inl rfl)
  case tryRead site =>
    cases hs
    exact h.goto hp (moves_afterRead (.inl rfl))
  case tryCas site o =>
    split at hs
    · rename_i ho
      split at hs
      · rename_i new hnew
        cases hs
        refine h.tryCas hp ho hnew fun ht => ?_
        by_contra hpick
        have := hnamed t (by rw [ho]; exact ht) (by rw [ho]; simpa using hpick)
        rw [hp] at this
        cases this
      · cases hs
    · cases hs
      exact h.goto hp (moves_afterRead (.inr ⟨o, rfl⟩))
  case lockWait | relock | breakLock => exact h.spinLock hs hp (.quiet (fun _ => .inr rfl) rfl)
  case addList =>
    cases hs
    exact h.addList hp
  case addFlag =>
    split at hs <;> rename_i hfirst <;> cases hs
    · have hset : MutexOk { s with owner := { s.owner with waiters := true } } :=
        h.setOwner h.owns (fun _ => .inl rfl) h.pickup fun hn => .inl hn
      exact hset.goto hp (by constructor <;> simp)
    · exact h.goto hp (by constructor <;> simp [hfirst])
  case setState | setStateAgain =>
    cases hs
    exact (h.setRunning fun _ => .inr (by rw [hp]; rfl)).goto hp (.quiet .inl rfl)
  case signalCheck =>
    split at hs <;> cases hs <;> exact h.goto hp (.quiet .inl rfl)
  case unlockWait =>
    cases hs
    exact h.spinUnlock hp rfl rfl (.quiet nofun rfl)
  case schedule =>
    split at hs <;> cases hs
    exact (h.setRunning fun _ => .inl rfl).goto hp (.quiet .inl rfl)
  case readFirst =>
    cases hs
    exact h.goto hp (.quiet .inl rfl)
  case setRunning acquired =>
    cases hs
    exact (h.setRunning fun _ => .inl rfl).goto hp (.quiet .inl (by cases acquired <;> rfl))
  case removeList acquired =>
    cases hs
    exact h.removeList hp
  case removeFlag acquired =>
    split at hs <;> rename_i hempty <;> cases hs
    · have hset : MutexOk { s with owner := ⟨s.owner.task, false, false, false⟩ } :=
        h.setOwner (fun u hu => ⟨(h.owns u hu).1, rfl⟩) (fun _ => .inr hempty)
          (fun hp => by cases hp) fun hn => .inl hn
      exact hset.goto hp (.quiet .inl (by cases acquired <;> rfl))
    · exact h.goto hp (.quiet .inl (by cases acquired <;> rfl))
  case dropWait acquired =>
    cases hs
    exact h.spinUnlock hp rfl (by cases acquired <;> rfl)
      (.quiet (by cases acquired <;> nofun) (by cases acquired <;> rfl))
  case unlockFast =>
    split at hs <;> rename_i ho <;> cases hs
    · refine h.release (q := .idle) hp rfl rfl (.quiet nofun rfl) ⟨none, false, false, false⟩
        (by rw [ho]) (fun hp => by cases hp) fun _ => .inr ?_
      exact h.addFlag_of_not_waiters (by rw [ho])
    · exact h.goto hp (.quiet .inl rfl)
  case unlockRead =>
    cases hs
    exact h.goto hp (moves_afterUnlockRead (.inl rfl))
  case unlockCas o =>
    split at hs <;> rename_i ho <;> cases hs
    · have hplain := h.plain t o hp
      have hnopick : o.pickup = false := by
        rw [← ho]
        exact (h.owns t (by rw [hp]; rfl)).2
      by_cases hw : o.waiters
      · rw [if_pos hw]
        exact h.release hp rfl (by simp [hplain]) (by constructor <;> simp [hplain]) _ (by rw [ho])
          (fun hp => by simp [hnopick] at hp) fun _ => .inl (by simp [hplain])
      · rw [if_neg hw]
        refine h.release (q := .idle) hp rfl rfl (.quiet nofun rfl) _ (by rw [ho])
          (fun hp => by simp [hnopick] at hp) fun _ => .inr ?_
        exact h.addFlag_of_not_waiters (by rw [ho]; simpa using hw)
    · exact h.goto hp (moves_afterUnlockRead (.inr ⟨o, rfl⟩))
  case unlockLock o =>
    exact h.spinLock hs hp (.quiet (fun _ => .inr rfl)
      (by cases ho : o.handoff <;> simp [Pc.quiet, Pc.isAddFlag, Pc.isUnlockCas, ho]))
  case unlockPick o =>
    split at hs <;> rename_i hnext <;> cases hs
    · rename_i next
      refine h.pick hp rfl (fun hother => ?_) fun hon => ?_
      · have hwakes : ∀ f, s.waitList.head? = some f →
            (if s.onWakeQ next then none else some next) = some f ∨
              ∃ u, u ≠ t ∧ (s.pc u).wakes = some f := by
          intro f hf
          obtain rfl : next = f := some.inj (hnext.symm.trans hf)
          split
          · rename_i hon
            obtain ⟨u, hne, hu⟩ := hother hon
            exact .inr ⟨u, hne, Pc.wakes_of_wakeQ hu⟩
          · exact .inl rfl
        cases ho : o.handoff with
        | false =>
          constructor
          case released => exact fun _ => .inr ⟨rfl, hwakes⟩
          all_goals simp
        | true => constructor <;> simp [ho, hnext]
      · cases ho : o.handoff <;> simp [hon]
    · exact h.goto hp (by cases ho : o.handoff <;> constructor <;> simp [ho, hnext])
  case handoffRead next queued =>
    cases hs
    exact h.goto hp (by constructor <;> simp +contextual [h.next t next (by rw [hp]; rfl)])
  case handoffCas next queued o =>
    have hnext := h.next t next (by rw [hp]; rfl)
    split at hs <;> rename_i ho <;> cases hs
    · refine h.release hp rfl rfl (by constructor <;> simp +contextual) _ (by rw [ho])
        (fun hn => ?_) fun hn => .inr fun f hf => ?_
      · obtain ⟨u, rfl⟩ := isSome_iff_exists.1 hn
        have hne : u ≠ t := by
          rintro rfl
          have := (h.queued u).1 (mem_of_head? hnext)
          rw [hp] at this
          cases this
        exact ⟨u, rfl, hne, Pc.mayPickUp_of_queued ((h.queued u).1 (mem_of_head? hnext))
          (fun hw => hne (h.eq_of_holdsWait hw (by rw [hp]; rfl)))
          fun hw => hne (h.eq_of_owns hw (by rw [hp]; rfl))⟩
      · rw [hnext, show next = none from hn] at hf
        cases hf
    · exact h.goto hp (by constructor <;> simp +contextual [hnext])
  case unlockDrop queued =>
    cases hs
    exact h.spinUnlock hp rfl rfl (by constructor <;> simp +contextual)
  case wakeTake queued =>
    split at hs <;> cases hs
    · rename_i f
      exact (h.wakeQClear f).goto hp (by constructor <;> simp +contextual)
    · exact h.goto hp (.quiet .inl rfl)
  case wakeUp f =>
    cases hs
    exact MutexOk.goto (h.setRunning fun _ => .inl rfl) hp
      (by constructor <;> simp [Mutex.setRunning])

end

end MutexOk

/-! ### The word names the owner -/

namespace Mutex.Named

variable [DecidableEq T] {s s' : Mutex T} {t : T} {p q : Pc T}

/-- A task goes on while the word changes. -/
theorem setOwner (hq : o.task = some t → o.pickup = false → q.owns)
    (hother : ∀ u, u ≠ t → o.task = some u → o.pickup = false → (s.pc u).owns) :
    ({ s with owner := o }.goto t q).Named := by
  simp only [Mutex.Named, Mutex.goto, update_apply]
  grind -ring -linarith

/-- A task goes on; an owner stays one. -/
theorem goto (h : s.Named) (hp : s.pc t = p)
    (hq : s.owner.task = some t → s.owner.pickup = false → p.owns → q.owns) : (s.goto t q).Named :=
  setOwner (fun hu hn => hq hu hn (hp ▸ h t hu hn)) fun u _ => h u

theorem step (h : s.Named) (hok : MutexOk s) (hs : s.step t = some s') : s'.Named := by
  rw [Mutex.step] at hs
  generalize hp : s.pc t = p at hs
  cases p <;> dsimp only at hs
  case fast =>
    split at hs <;> cases hs
    · exact setOwner (fun _ _ => rfl) fun u hne hu => absurd (some.inj hu).symm hne
    · exact goto h hp (by simp)
  case tryCas site o =>
    split at hs
    · rename_i ho
      subst ho
      split at hs
      · rename_i new hnew
        cases hs
        refine setOwner (fun hu _ => ?_) fun u hne hu hn => ?_
        · rw [if_pos hu]
          cases site <;> rfl
        · -- the word has kept its owner
          simp only [tryTarget] at hnew
          split at hnew
          · rename_i v hv
            refine h u ?_ ?_ <;> grind -ring -linarith
          · grind -ring -linarith
      · cases hs
    · cases hs
      exact goto h hp (by simp)
  case removeFlag acquired =>
    split at hs <;> rename_i hempty <;> cases hs
    · -- nothing is reserved for a waiter when there is none
      have hnopick : s.owner.pickup = false := by
        refine eq_false_iff.2 fun hpick => ?_
        obtain ⟨u, -, hu⟩ := hok.pickup hpick
        have := (hok.queued u).2 (Pc.queued_of_mayPickUp hu)
        rw [hempty] at this
        cases this
      exact setOwner (fun hu _ => by simpa [hp] using h t hu hnopick) fun u _ hu _ => h u hu hnopick
    · exact goto h hp (by simp)
  case unlockFast =>
    split at hs <;> cases hs
    · exact setOwner nofun fun u _ => nofun
    · exact goto h hp (by simp)
  case unlockRead =>
    cases hs
    exact goto h hp fun _ _ _ => by simp only [afterUnlockRead]; split <;> simp_all
  case unlockCas o =>
    split at hs <;> cases hs
    · exact setOwner nofun fun u _ => nofun
    · exact goto h hp fun _ _ _ => by simp only [afterUnlockRead]; split <;> simp_all
  case handoffCas next queued o =>
    split at hs <;> cases hs
    · refine setOwner (fun hu hn => ?_) fun u _ hu hn => ?_ <;>
      · rw [show next = _ from hu] at hn
        cases hn
    · exact goto h hp (by simp)
  all_goals
    try simp only [Mutex.spinLock] at hs
    (try split at hs) <;> (try split at hs) <;> cases hs <;> exact goto h hp (by simp_all)

end Mutex.Named

/-! ### Runs -/

variable [DecidableEq T]

/-- The invariant of a run. -/
theorem mutexOk_of_mutexStep {s : Mutex T} {op : MutexOp T} (hs : MutexStep s op s')
    (h : MutexOk s ∧ s.Named) : MutexOk s' ∧ s'.Named := by
  cases hs with
  | lock hp =>
    have hsleep : ∀ f, MutexOk { s with sleep := f } := fun f => { h.1 with }
    exact ⟨(hsleep _).goto hp (.quiet .inl rfl), Mutex.Named.goto h.2 hp (by simp)⟩
  | trylock hp | unlock hp => exact ⟨h.1.goto hp (.quiet .inl rfl), h.2.goto hp (by simp)⟩
  | step hs => exact ⟨h.1.step h.2 hs, h.2.step h.1 hs⟩
  | @signal t sig =>
    have hsignal : MutexOk { s with signal := update s.signal t sig } := { h.1 with }
    refine ⟨hsignal.setRunning (t := t)
      (b := s.running t || signalPendingState (s.sleep t) sig) fun hr => .inl ?_, h.2⟩
    rw [show s.running t = true from hr, Bool.true_or]
  | wake => exact ⟨h.1.setRunning fun _ => .inl rfl, h.2⟩

/-- The task is not asleep in `schedule`. -/
def Mutex.Runnable (s : Mutex T) (t : T) : Prop := s.pc t = .schedule → s.running t

/-- **Safety of the mutex.** In every state that is reached, whatever the tasks do and in whatever
order: at most one task has the mutex, and the word names it; the flag of the word is set while
tasks wait and `wait_lock` is free; a reserved mutex is reserved for a task on the wait list that
has still to try and take it; and if the mutex is free then the first waiter is not asleep, or a
task that has released the mutex is about to wake it. -/
theorem mutex_run_safe {ops : List (MutexOp T)} {s : Mutex T} (h : Run MutexStep mutexInit ops s) :
    (∀ t u, (s.pc t).owns → (s.pc u).owns → t = u) ∧
    (∀ t, (s.pc t).owns → s.owner.task = some t ∧ s.owner.pickup = false) ∧
    (s.waitLock = none → s.waitList ≠ [] → s.owner.waiters) ∧
    (s.owner.pickup → ∃ t ∈ s.waitList, s.owner.task = some t ∧ (s.pc t).mayPickUp) ∧
    (s.owner.task = none → ∀ f, s.waitList.head? = some f →
      s.Runnable f ∨ ∃ u, (s.pc u).released ∨ (s.pc u).wakes = some f) := by
  have hinit : MutexOk (mutexInit : Mutex T) ∧ (mutexInit : Mutex T).Named :=
    ⟨MutexOk.init, fun t ht => by cases ht⟩
  obtain ⟨hok, -⟩ := h.invariant (fun _ _ _ hi hs => mutexOk_of_mutexStep hs hi) hinit
  refine ⟨fun t u => hok.eq_of_owns, hok.owns, fun hfree hne => ?_, fun hpick => ?_,
    fun hn f hf => ?_⟩
  · obtain ⟨f, l, hl⟩ := exists_cons_of_ne_nil hne
    refine (hok.waiters f (by rw [hl]; rfl)).resolve_right fun hadd => ?_
    have := hok.lock f (by rw [hadd]; rfl)
    rw [hfree] at this
    cases this
  · obtain ⟨t, ht, hm⟩ := hok.pickup hpick
    exact ⟨t, (hok.queued t).2 (Pc.queued_of_mayPickUp hm), ht, hm⟩
  · rcases hok.retry hn f hf with ⟨u, hu⟩ | ⟨u, hu⟩ | hr | hr
    · exact .inr ⟨u, .inl hu⟩
    · exact .inr ⟨u, .inr hu⟩
    · exact .inl fun _ => hr
    · refine .inl fun hp => ?_
      rw [hp] at hr
      cases hr

/-- One task has the mutex and a second one goes to sleep on it; then the first gives it up. -/
def releaseBeforeWake : List (MutexOp Bool) :=
  [.lock false .uninterruptible, .step false] ++ .lock true .uninterruptible ::
    List.replicate 10 (.step true) ++ .unlock false :: List.replicate 3 (.step false)

theorem run_releaseBeforeWake : ∃ s, Run MutexStep mutexInit releaseBeforeWake s ∧
    s.owner.task = none ∧ s.waitList.head? = some true ∧ s.pc true = .schedule ∧
    s.running true = false :=
  ⟨_, .cons (.lock rfl) <| .cons (.step rfl) <| .cons (.lock rfl) <| .cons (.step rfl) <|
    .cons (.step rfl) <| .cons (.step rfl) <| .cons (.step rfl) <| .cons (.step rfl) <|
    .cons (.step rfl) <| .cons (.step rfl) <| .cons (.step rfl) <| .cons (.step rfl) <|
    .cons (.step rfl) <| .cons (.unlock rfl) <| .cons (.step rfl) <| .cons (.step rfl) <|
    .cons (.step rfl) .nil, by decide, by decide, by decide, by decide⟩

/-- The first waiter of a free mutex may be asleep. -/
theorem mutex_free_first_asleep : ∃ s, Run MutexStep mutexInit releaseBeforeWake s ∧
    ¬ (s.owner.task = none → ∀ f, s.waitList.head? = some f → s.Runnable f) := by
  obtain ⟨s, hrun, hfree, hhead, hpc, hasleep⟩ := run_releaseBeforeWake
  refine ⟨s, hrun, fun h => ?_⟩
  rw [h hfree true hhead hpc] at hasleep
  cases hasleep

/-- In that state the task that has released the mutex is about to wake the waiter. -/
theorem mutex_run_safe_releaseBeforeWake : ∃ s, Run MutexStep mutexInit releaseBeforeWake s ∧
    s.owner.task = none ∧ s.waitList.head? = some true ∧ ¬ s.Runnable true ∧
    ∃ u, (s.pc u).released ∨ (s.pc u).wakes = some true := by
  obtain ⟨s, hrun, hfree, hhead, hpc, hasleep⟩ := run_releaseBeforeWake
  have hnot : ¬ s.Runnable true := fun h => by rw [h hpc] at hasleep; cases hasleep
  exact ⟨s, hrun, hfree, hhead, hnot,
    ((mutex_run_safe hrun).2.2.2.2 hfree true hhead).resolve_left hnot⟩

end MinimalKernel.Locking
