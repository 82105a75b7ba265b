import MinimalKernel.Locking.RwsemWord
import Mathlib.Data.Fintype.Card

/-!
# The invariant of the reader-writer semaphore

The word is described by the places of the tasks: it counts the tasks that have added
`RWSEM_READER_BIAS` and not taken it back, together with the waiting readers that have been granted
the semaphore, and its three flags say that there is a writer, that the wait list is not empty, and
that the first waiter is to be handed the semaphore.

A semaphore that nobody holds has a first waiter that is seen to: whoever made it free is about to
take `wait_lock` and look at the list, or the waiter is a writer that is about to be woken, is
awake, or looks at the word itself before it sleeps. A task that merely has its bias in the word
counts as a holder here, since it looks at the list when it takes the bias back.

The functions that run under `wait_lock` are dealt with here; `RwsemRuns` has the steps of a task.

## Main definitions

* `RwPc.biased`, `RwPc.writes`, `RwPc.reads`, … — what the place of a task means to the others
* `RwsemCore` — the word and the list are as the places say, and a writer is alone
* `Rwsem.Served`, `Rwsem.Progress` — the first waiter of a free semaphore is seen to
* `RwsemOk` — the invariant

## Main results

* `RwsemCore.of_step` — what a step of one task has to keep
* `RwsemCore.markWake_cases` — what `rwsem_mark_wake` does, by the first waiter
* `RwsemCore.markWake_free` — it leaves no semaphore free with a reader first
* `RwsemOk.wakeUpQ` — the end of a section under `wait_lock`
-/

namespace MinimalKernel.Locking

open Fintype Function Lib List RwPc

variable {T : Type*} {p : RwPc T} {w : RwsemWaiter T} {s : Rwsem T} {f : T}

/-! ### Places in the code -/

namespace RwPc

/-- The task has added `RWSEM_READER_BIAS` to the word, and has not yet taken it back. -/
def biased : RwPc T → Bool
  | .readOwn | .readSlow _ | .readSteal _ | .readStealWake | .readQueue | .readRun => true
  | .readHeld | .upRead | .downgradeOwn _ | .downgradeWake => true
  | .wakeTake _ after | .wakeUp _ _ after => after = .readHeld
  | _ => false

/-- The task has queued itself as a reader and has not yet found out that it was granted the
semaphore. -/
def waitsRead : RwPc T → Bool
  | .readSetState | .readCheck | .readSignalCheck | .readSchedule | .readSignal => true
  | .wakeTake _ after | .wakeUp _ _ after => after = .readWait
  | _ => false

/-- The task has queued itself as a writer. -/
def waitsWrite : RwPc T → Bool
  | .writeEnter | .writeSignalCheck | .writeSchedule | .writeSetState | .writeTry => true
  | .writeAbortRun | .writeAbort => true
  | .wakeTake _ after | .wakeUp _ _ after => after = .writeEnter
  | _ => false

/-- The task holds the semaphore as a writer. -/
def writes : RwPc T → Bool
  | .writeOwn | .writeHeld | .upWriteOwner | .upWrite | .downgrade => true
  | _ => false

/-- The task holds the semaphore as a reader, or has only to find out that it does: it has counted
itself while there was no writer. -/
def reads : RwPc T → Bool
  | .readSlow count => !writerLocked count
  | .readQueue => false
  | p => p.biased

/-- A queued writer that will try to take the semaphore before it sleeps. -/
def retries : RwPc T → Bool
  | .writeEnter | .writeSetState | .writeTry => true
  | .wakeTake _ after | .wakeUp _ _ after => after = .writeEnter
  | _ => false

/-- The task is about to take `wait_lock` in order to wake the first waiter. -/
def willWake : RwPc T → Bool
  | .wake => true
  | _ => false

/-- The tasks on the wake queue. -/
def wakeQ : RwPc T → List T
  | .wakeTake queue _ | .wakeUp _ queue _ => queue
  | _ => []

/-- The tasks that are about to be woken. -/
def wakes : RwPc T → List T
  | .wakeTake queue _ => queue
  | .wakeUp task queue _ => task :: queue
  | _ => []

/-- What a task has found out about its copy of the word. -/
def sound : RwPc T → Bool
  | .tryReadCas count => !readFailedMask count
  | _ => true

/-- The task counts for as much at `q` as at `p`. -/
def same (p q : RwPc T) : Bool :=
  q.waitsRead == p.waitsRead && q.waitsWrite == p.waitsWrite && q.biased == p.biased &&
    q.writes == p.writes && (!q.reads || p.reads)

/-- Going on from `p` at `q` means nothing to the other tasks. -/
def quiet (p q : RwPc T) : Bool :=
  p.same q && (!p.retries || q.retries) && !p.willWake && p.wakes.isEmpty && q.sound

theorem biased_of_reads (h : p.reads) : p.biased := by
  cases p <;> simp_all [reads, biased]

theorem not_biased_of_waitsRead (h : p.waitsRead) : p.biased = false := by
  cases p <;> simp_all [biased, waitsRead]

theorem not_reads_of_writes (h : p.writes) : p.reads = false := by
  cases p <;> simp_all [reads, biased, writes]

theorem not_waitsRead_of_writes (h : p.writes) : p.waitsRead = false := by
  cases p <;> simp_all [writes, waitsRead]

theorem mem_wakes_of_mem_wakeQ (h : f ∈ p.wakeQ) : f ∈ p.wakes := by
  cases p <;> simp_all [wakeQ, wakes]

theorem wakeQ_eq_nil (h : p.wakes = []) : p.wakeQ = [] := by
  cases p <;> simp_all [wakeQ, wakes]

end RwPc

namespace Rwsem

/-- A reader that has been granted the semaphore while it waits. -/
def grantedRead (s : Rwsem T) (t : T) : Bool := (s.pc t).waitsRead && s.granted t

/-- The task is counted in the word. -/
def bias (s : Rwsem T) (t : T) : Bool := (s.pc t).biased || s.grantedRead t

/-- The task holds the semaphore as a reader. -/
def reads (s : Rwsem T) (t : T) : Bool := (s.pc t).reads || s.grantedRead t

/-- The waiter belongs on the list. -/
def waits (s : Rwsem T) (w : RwsemWaiter T) : Bool :=
  match w.type with
  | .read => (s.pc w.task).waitsRead && !s.granted w.task
  | .write => (s.pc w.task).waitsWrite

/-- The tasks that are counted in the word. -/
def biased [Fintype T] (s : Rwsem T) : Finset T := Finset.univ.filter fun t => s.bias t

@[simp] theorem mem_biased [Fintype T] {t : T} : t ∈ s.biased ↔ s.bias t := by
  simp [biased]

theorem goto_self [DecidableEq T] {t : T} (p : RwPc T) : (s.goto t p).pc t = p := by
  simp [goto]

theorem goto_of_ne [DecidableEq T] {t u : T} (hu : u ≠ t) : (s.goto t p).pc u = s.pc u := by
  simp [goto, hu]

theorem bias_of_reads {t : T} (h : s.reads t) : s.bias t := by
  simp only [reads, Bool.or_eq_true] at h
  exact Bool.or_eq_true_iff.2 (h.imp_left biased_of_reads)

end Rwsem

/-! ### The invariant -/

/-- The word and the list are as the places of the tasks say, and a writer is alone. -/
structure RwsemCore [Fintype T] (s : Rwsem T) : Prop where
  word : ∃ h x, s.count = packed s.biased.card h (decide (s.waitList ≠ [])) x ∧
    (h → s.waitList ≠ []) ∧ (x ↔ ∃ t, (s.pc t).writes)
  unique : ∀ t u, (s.pc t).writes → (s.pc u).writes → t = u
  exclusion : ∀ t u, (s.pc t).writes → s.reads u = false
  nodup : (s.waitList.map (·.task)).Nodup
  listed : ∀ w, w ∈ s.waitList ↔ s.waits w

/-- The tasks that are on a wake queue are on that of a task, or on `queue`. -/
def WakeQOk (s : Rwsem T) (queue : List T) : Prop :=
  ∀ f, s.onWakeQ f → f ∈ queue ∨ ∃ t, f ∈ (s.pc t).wakeQ

/-- Somebody sees to the waiter `w`: a task is about to look at the list, or the waiter is a writer
that is about to be woken, is awake, or will look at the semaphore itself. -/
def Rwsem.Served (s : Rwsem T) (w : RwsemWaiter T) : Prop :=
  (∃ u, (s.pc u).willWake) ∨
    w.type = .write ∧ ((∃ u, w.task ∈ (s.pc u).wakes) ∨ s.running w.task ∨ (s.pc w.task).retries)

/-- If nobody holds the semaphore then the first waiter is seen to. -/
def Rwsem.Progress (s : Rwsem T) : Prop :=
  lockMask s.count = false → ∀ w, s.waitList.head? = some w → s.Served w

/-! ### Counting -/

section Counting

variable [Fintype T] {s s' : Rwsem T} {t : T}

theorem card_biased_lt (hT : card T < 2 ^ 23) : s.biased.card < 2 ^ 23 :=
  (Finset.card_le_univ _).trans_lt hT

theorem biased_congr (h : ∀ u, s'.bias u = s.bias u) : s'.biased = s.biased := by
  ext u
  simp [h u]

theorem card_biased_insert [DecidableEq T] (ht : s.bias t = false) (ht' : s'.bias t)
    (h : ∀ u, u ≠ t → s'.bias u = s.bias u) : s'.biased.card = s.biased.card + 1 := by
  have : s'.biased = insert t s.biased := by
    ext u
    by_cases e : u = t
    · simp [e, ht']
    · simp [e, h u e]
  rw [this, Finset.card_insert_of_notMem (by simp [ht])]

end Counting

namespace RwsemCore

variable [Fintype T] {s s' : Rwsem T} {t : T}

theorem init : RwsemCore (rwsemInit : Rwsem T) := by
  have hempty : (rwsemInit : Rwsem T).biased = ∅ := by
    ext t
    simp [rwsemInit, Rwsem.bias, Rwsem.grantedRead, biased, waitsRead]
  constructor
  · exact ⟨false, false, by rw [hempty]; rfl, nofun, by simp [rwsemInit, writes]⟩
  · simp [rwsemInit, writes]
  · simp [rwsemInit, writes]
  · simp [rwsemInit]
  · rintro ⟨t, type⟩
    cases type <;> simp [rwsemInit, Rwsem.waits, waitsRead, waitsWrite]

section

variable (h : RwsemCore s)
include h

theorem writerLocked_iff : writerLocked s.count ↔ ∃ t, (s.pc t).writes := by
  obtain ⟨hand, x, hc, -, hx⟩ := h.word
  rw [hc, writerLocked_packed]
  exact hx

theorem flagWaiters_iff : flagWaiters s.count ↔ s.waitList ≠ [] := by
  obtain ⟨hand, x, hc, -, -⟩ := h.word
  rw [hc, flagWaiters_packed, decide_eq_true_iff]

theorem ne_nil_of_flagHandoff (hf : flagHandoff s.count) : s.waitList ≠ [] := by
  obtain ⟨hand, x, hc, hh, -⟩ := h.word
  rw [hc, flagHandoff_packed] at hf
  exact hh hf

/-- If the word says that nobody holds the semaphore then nobody does. -/
theorem not_reads_of_free (hfree : lockMask s.count = false) (u : T) :
    (s.pc u).writes = false ∧ s.reads u = false := by
  obtain ⟨hand, x, hc, -, hx⟩ := h.word
  rw [hc, lockMask_packed, Bool.or_eq_false_iff] at hfree
  obtain ⟨rfl, hr⟩ := hfree
  have hcard : s.biased = ∅ := by simpa using hr
  refine ⟨Bool.eq_false_iff.2 fun hu => ?_, Bool.eq_false_iff.2 fun hu => ?_⟩
  · exact absurd (hx.2 ⟨u, hu⟩) (by simp)
  · have : u ∈ s.biased := by simpa using Rwsem.bias_of_reads hu
    rw [hcard] at this
    cases this

/-- A step of `t`. The list may lose or gain `t`. -/
theorem of_step (hpc : ∀ u, u ≠ t → s'.pc u = s.pc u)
    (hgranted : ∀ u, u ≠ t → s'.granted u = s.granted u) (hnodup : (s'.waitList.map (·.task)).Nodup)
    (hmem : ∀ w, w.task ≠ t → (w ∈ s'.waitList ↔ w ∈ s.waitList))
    (hself : ∀ type, ⟨t, type⟩ ∈ s'.waitList ↔ s'.waits ⟨t, type⟩)
    (hword : ∃ h x, s'.count = packed s'.biased.card h (decide (s'.waitList ≠ [])) x ∧
      (h → s'.waitList ≠ []) ∧ (x ↔ ∃ t, (s'.pc t).writes))
    (hwrites : (s'.pc t).writes → (s.pc t).writes ∨ lockMask s.count = false)
    (hreads : s'.reads t → s.reads t ∨ writerLocked s.count = false ∨ (s.pc t).writes) :
    RwsemCore s' := by
  have hothers : ∀ u, u ≠ t → s'.reads u = s.reads u := fun u hu => by
    simp [Rwsem.reads, Rwsem.grantedRead, hpc u hu, hgranted u hu]
  have hfreeOf : (s'.pc t).writes → ∀ u, u ≠ t → (s.pc u).writes = false ∧ s.reads u = false := by
    intro ht u hu
    rcases hwrites ht with hold | hfree
    · exact ⟨Bool.eq_false_iff.2 fun hw => hu (h.unique u t hw hold), h.exclusion t u hold⟩
    · exact h.not_reads_of_free hfree u
  constructor
  case word => exact hword
  case unique =>
    intro u v
    by_cases eu : u = t <;> by_cases ev : v = t <;> grind -ring -linarith [h.unique]
  case exclusion =>
    have hself : (s'.pc t).writes → s'.reads t = false := fun ht => by
      simp [Rwsem.reads, Rwsem.grantedRead, not_reads_of_writes ht, not_waitsRead_of_writes ht]
    have hlocked := h.writerLocked_iff
    intro u v
    by_cases eu : u = t <;> by_cases ev : v = t <;> grind -ring -linarith [h.exclusion, h.unique]
  case nodup => exact hnodup
  case listed =>
    rintro ⟨u, type⟩
    by_cases e : u = t
    · subst e
      exact hself type
    · rw [hmem _ e, h.listed]
      cases type <;> simp [Rwsem.waits, hpc u e, hgranted u e]

section

variable (hpc : ∀ u, u ≠ t → s'.pc u = s.pc u) (hgranted : s'.granted = s.granted)
  (hlist : s'.waitList = s.waitList)
include hpc hgranted hlist

/-- A step of `t` that does not touch the list. -/
theorem of_count
    (hwaits : ∀ type, s'.waits ⟨t, type⟩ = s.waits ⟨t, type⟩)
    (hword : ∃ h x, s'.count = packed s'.biased.card h (decide (s.waitList ≠ [])) x ∧
      (h → s.waitList ≠ []) ∧ (x ↔ ∃ t, (s'.pc t).writes))
    (hwrites : (s'.pc t).writes → (s.pc t).writes ∨ lockMask s.count = false)
    (hreads : s'.reads t → s.reads t ∨ writerLocked s.count = false ∨ (s.pc t).writes) :
    RwsemCore s' :=
  h.of_step hpc (fun u _ => by rw [hgranted]) (by rw [hlist]; exact h.nodup)
    (fun w _ => by rw [hlist]) (fun type => by rw [hlist, hwaits, h.listed])
    (by rw [hlist]; exact hword) hwrites hreads

/-- A step of `t` that touches neither the list nor the word. -/
theorem quiet [DecidableEq T] (hcount : s'.count = s.count)
    (hwaits : ∀ type, s'.waits ⟨t, type⟩ = s.waits ⟨t, type⟩) (hbias : s'.bias t = s.bias t)
    (hwrites : (s'.pc t).writes = (s.pc t).writes)
    (hreads : s'.reads t → s.reads t ∨ writerLocked s.count = false) : RwsemCore s' := by
  have hbiased : s'.biased = s.biased := biased_congr fun u => by
    by_cases e : u = t
    · rw [e, hbias]
    · simp [Rwsem.bias, Rwsem.grantedRead, hpc u e, hgranted]
  have hsame : ∀ u, (s'.pc u).writes = (s.pc u).writes := fun u => by
    by_cases e : u = t
    · rw [e, hwrites]
    · rw [hpc u e]
  refine h.of_count hpc hgranted hlist hwaits ?_ (fun ht => .inl (by rwa [hwrites] at ht))
    fun hr => (hreads hr).imp_right .inl
  rw [hcount, hbiased]
  simp only [hsame]
  exact h.word

end

/-- A task goes on at a place where it counts for as much. -/
theorem goto [DecidableEq T] {q : RwPc T} (hp : s.pc t = p) (hq : p.same q) :
    RwsemCore (s.goto t q) := by
  subst hp
  simp only [same, Bool.and_eq_true, beq_iff_eq, Bool.or_eq_true, Bool.not_eq_eq_eq_not,
    Bool.not_true] at hq
  obtain ⟨⟨⟨⟨hread, hwrite⟩, hbias⟩, hwrites⟩, hreads⟩ := hq
  refine h.quiet (t := t) (fun u hu => Rwsem.goto_of_ne hu) rfl rfl rfl (fun type => ?_) ?_ ?_ ?_
  · cases type
    · simp [Rwsem.waits, Rwsem.goto_self, hwrite]
    · simp [Rwsem.waits, Rwsem.goto_self, hread]
      rfl
  · simp [Rwsem.bias, Rwsem.grantedRead, Rwsem.goto_self, hbias, hread]
    rfl
  · rw [Rwsem.goto_self, hwrites]
  · intro hr
    left
    simp only [Rwsem.reads, Rwsem.grantedRead, Rwsem.goto_self, hread, Bool.or_eq_true] at hr ⊢
    exact hr.imp_left fun hr => hreads.resolve_left (by rw [hr]; nofun)

theorem task_notMem (ht : (s.pc t).waitsRead = false ∧ (s.pc t).waitsWrite = false) :
    ∀ w ∈ s.waitList, w.task ≠ t := by
  rintro ⟨u, type⟩ hw rfl
  have := (h.listed _).1 hw
  cases type <;> simp [Rwsem.waits, ht.1, ht.2] at this

/-- A task queues itself. -/
theorem append (type : WaiterType) (hpc : ∀ u, u ≠ t → s'.pc u = s.pc u)
    (hgranted : ∀ u, u ≠ t → s'.granted u = s.granted u)
    (ht : (s.pc t).waitsRead = false ∧ (s.pc t).waitsWrite = false)
    (hlist : s'.waitList = s.waitList ++ [⟨t, type⟩])
    (hwaits : ∀ type', s'.waits ⟨t, type'⟩ = decide (type' = type))
    (hword : ∃ h x, s'.count = packed s'.biased.card h true x ∧ (x ↔ ∃ t, (s'.pc t).writes))
    (hwrites : (s'.pc t).writes = false) (hreads : s'.reads t = false) : RwsemCore s' := by
  have hnot := h.task_notMem ht
  refine h.of_step hpc hgranted ?_ (fun w hw => ?_) (fun type' => ?_) ?_ (fun hn => ?_) fun hn => ?_
  · rw [hlist, map_append, nodup_append]
    refine ⟨h.nodup, nodup_singleton _, ?_⟩
    simpa using hnot
  · rw [hlist, mem_append, mem_singleton]
    exact or_iff_left fun e => hw (by rw [e])
  · rw [hlist, hwaits, mem_append, mem_singleton, decide_eq_true_iff]
    refine ⟨fun hm => ?_, fun e => .inr (by rw [e])⟩
    exact congrArg (·.type) (hm.resolve_left fun hm => hnot _ hm rfl)
  · obtain ⟨hand, x, hc, hx⟩ := hword
    have hne : s'.waitList ≠ [] := by simp [hlist]
    exact ⟨hand, x, by rw [hc]; simp [hne], fun _ => hne, hx⟩
  · rw [hwrites] at hn
    cases hn
  · rw [hreads] at hn
    cases hn

/-- A waiter leaves the list. -/
theorem erase [DecidableEq T] (hw : w ∈ s.waitList)
    (hpc : ∀ u, u ≠ w.task → s'.pc u = s.pc u) (hgranted : s'.granted = s.granted)
    (hlist : s'.waitList = s.waitList.erase w) (hwaits : ∀ type, s'.waits ⟨w.task, type⟩ = false)
    (hword : ∃ h x, s'.count = packed s'.biased.card h (decide (s'.waitList ≠ [])) x ∧
      (h → s'.waitList ≠ []) ∧ (x ↔ ∃ t, (s'.pc t).writes))
    (hwrites : (s'.pc w.task).writes → lockMask s.count = false)
    (hreads : s'.reads w.task = false) : RwsemCore s' := by
  refine h.of_step hpc (fun u _ => by rw [hgranted]) ?_ (fun v hv => ?_) (fun type => ?_) hword
    (fun hn => .inr (hwrites hn)) fun hn => ?_
  · rw [hlist]
    exact h.nodup.sublist (erase_sublist.map _)
  · rw [hlist]
    exact mem_erase_of_ne fun e => hv (by rw [e])
  · rw [hlist, hwaits, (List.Nodup.of_map _ h.nodup).mem_erase_iff]
    simp only [Bool.false_eq_true, iff_false, not_and]
    intro hne hm
    exact hne (inj_on_of_nodup_map h.nodup hm hw rfl)
  · rw [hreads] at hn
    cases hn

end

end RwsemCore

/-! ### Granting the semaphore to readers -/

namespace Rwsem

/-- What is taken off the list are readers. -/
theorem takeReaders_perm : ∀ (n : ℕ) (l : List (RwsemWaiter T)),
    l.Perm ((takeReaders n l).2 ++ (takeReaders n l).1.map (RwsemWaiter.mk · .read))
  | 0, l => by simp [takeReaders]
  | _ + 1, [] => by simp [takeReaders]
  | n + 1, ⟨t, .write⟩ :: l => (takeReaders_perm (n + 1) l).cons _
  | n + 1, ⟨t, .read⟩ :: l =>
    ((takeReaders_perm n l).cons _).trans (perm_middle (a := RwsemWaiter.mk t .read)).symm

theorem takeReaders_ne_nil {n : ℕ} {l : List (RwsemWaiter T)} (hw : w.type = .read) :
    (takeReaders (n + 1) (w :: l)).1 ≠ [] := by
  simp [takeReaders, hw]

variable [DecidableEq T]

theorem grant_fst (ts : List T) : ∀ (s : Rwsem T) (q : List T), (s.grant q ts).1 =
    { s with
      granted := fun u => s.granted u || decide (u ∈ ts)
      onWakeQ := fun u => s.onWakeQ u || decide (u ∈ ts) } := by
  induction ts with
  | nil => intro s q; simp [grant]
  | cons t ts ih =>
    intro s q
    rw [grant, ih]
    have hgranted : ∀ u, (update s.granted t true u || decide (u ∈ ts)) =
        (s.granted u || decide (u ∈ t :: ts)) := by
      intro u
      by_cases e : u = t <;> simp [e]
    have hon : ∀ u,
        ((wakeQAdd { s with granted := update s.granted t true } q t).1.onWakeQ u ||
          decide (u ∈ ts)) = (s.onWakeQ u || decide (u ∈ t :: ts)) := by
      intro u
      simp only [wakeQAdd]
      split <;> rename_i ht <;> by_cases e : u = t <;> simp_all
    have hrest : ∀ s : Rwsem T, (s.wakeQAdd q t).1 =
        { s with onWakeQ := (s.wakeQAdd q t).1.onWakeQ } := by
      intro s
      simp only [wakeQAdd]
      split <;> rfl
    rw [hrest]
    simp only [hon, hgranted]

theorem mem_grant_snd (ts : List T) : ∀ (s : Rwsem T) (q : List T),
    f ∈ (s.grant q ts).2 ↔ f ∈ q ∨ f ∈ ts ∧ s.onWakeQ f = false := by
  induction ts with
  | nil => intro s q; simp [grant]
  | cons t ts ih =>
    intro s q
    rw [grant, ih]
    simp only [wakeQAdd]
    split <;> rename_i ht <;> by_cases e : f = t <;> simp_all

/-- The readers that are woken, and what remains of the list. -/
def taken (s : Rwsem T) : List T × List (RwsemWaiter T) := takeReaders maxReadersWakeup s.waitList

/-- The semaphore after readers have been taken off the list, counted and woken. -/
def granting (s : Rwsem T) (owned : Bool) (count : ℕ) : Rwsem T :=
  { s with
    readerOwned := owned
    count := count
    waitList := s.taken.2
    granted := fun u => s.granted u || decide (u ∈ s.taken.1)
    onWakeQ := fun u => s.onWakeQ u || decide (u ∈ s.taken.1) }

/-- The word after `wakeReaders`: the readers are counted, `bias` has been taken back, the handoff
is over and the flag of the waiters is as the list says. -/
theorem wakeReaders_fst {r : ℕ} {h x : Bool} (o : Bool) (bias : ℤ)
    (hc : s.count = packed r h true x) (hr : r + s.taken.1.length < 2 ^ 23) (hne : s.taken.1 ≠ [])
    (hb : flagHandoff (addCount s.count bias) = h) :
    ({ s with count := addCount s.count bias, readerOwned := o }.wakeReaders bias).1 =
      s.granting o (packed (r + s.taken.1.length) false (decide (s.taken.2 ≠ [])) x) := by
  have hcount : addCount (addCount s.count bias)
      (if s.taken.2 = [] then s.taken.1.length * rwsemReaderBias - bias - rwsemFlagWaiters -
          (if h then (rwsemFlagHandoff : ℤ) else 0)
        else s.taken.1.length * rwsemReaderBias - bias -
          (if h then (rwsemFlagHandoff : ℤ) else 0)) =
      packed (r + s.taken.1.length) false (decide (s.taken.2 ≠ [])) x := by
    rw [addCount_addCount, hc]
    refine addCount_packed hr ?_
    simp only [packed, rwsemReaderBias, rwsemFlagWaiters, rwsemFlagHandoff]
    by_cases hrest : s.taken.2 = [] <;> cases h <;> simp [hrest] <;> omega
  rw [wakeReaders, grant_fst, granting, ← hcount]
  simp only [hb, ← taken.eq_1, ne_eq, hne, not_false_eq_true, if_true]

theorem mem_wakeReaders_snd {bias : ℤ} :
    f ∈ (s.wakeReaders bias).2 ↔ f ∈ s.taken.1 ∧ s.onWakeQ f = false := by
  rw [wakeReaders, mem_grant_snd]
  simp [taken]

end Rwsem

namespace RwsemCore

variable {s : Rwsem T} {w : RwsemWaiter T} {l : List (RwsemWaiter T)}

theorem mem_waitList_iff :
    w ∈ s.waitList ↔ w ∈ s.taken.2 ∨ w.type = .read ∧ w.task ∈ s.taken.1 := by
  rw [(Rwsem.takeReaders_perm _ s.waitList).mem_iff, ← Rwsem.taken, mem_append, mem_map]
  refine or_congr_right ⟨?_, ?_⟩
  · rintro ⟨t, ht, rfl⟩
    exact ⟨rfl, ht⟩
  · rintro ⟨hw, ht⟩
    exact ⟨w.task, ht, by cases w; cases hw; rfl⟩

variable [Fintype T]

theorem nodup_taken (h : RwsemCore s) : (s.taken.2.map (·.task) ++ s.taken.1).Nodup := by
  have hperm := (Rwsem.takeReaders_perm Rwsem.maxReadersWakeup s.waitList).map (·.task)
  rw [map_append, map_map, ← Rwsem.taken] at hperm
  simpa [comp_def] using hperm.nodup_iff.1 h.nodup

/-- The flag of a handoff is set while there are waiters. -/
theorem setHandoff (h : RwsemCore s) (hf : flagHandoff s.count = false) (hne : s.waitList ≠ []) :
    RwsemCore { s with count := s.count + rwsemFlagHandoff } := by
  obtain ⟨hand, x, hc, -, hx⟩ := h.word
  rw [hc, flagHandoff_packed] at hf
  subst hf
  refine { h with word := ⟨true, x, ?_, fun _ => hne, hx⟩ }
  show s.count + rwsemFlagHandoff = _
  rw [hc, packed_add_flagHandoff]
  rfl

variable [DecidableEq T]

section

variable (h : RwsemCore s)
include h

/-- Readers that are taken off the list were not counted before. -/
theorem card_biased_granting (o : Bool) (c : ℕ) :
    (s.granting o c).biased.card = s.biased.card + s.taken.1.length := by
  have hwaits : ∀ t ∈ s.taken.1, (s.pc t).waitsRead ∧ s.granted t = false := by
    intro t ht
    have := (h.listed ⟨t, .read⟩).1 (mem_waitList_iff.2 (.inr ⟨rfl, ht⟩))
    simpa [Rwsem.waits] using this
  have hset : (s.granting o c).biased = s.biased ∪ s.taken.1.toFinset := by
    ext t
    simp only [Rwsem.mem_biased, Finset.mem_union, mem_toFinset, Rwsem.bias,
      Rwsem.grantedRead, Rwsem.granting, Bool.or_eq_true, Bool.and_eq_true, decide_eq_true_eq]
    grind -ring -linarith
  have hdisj : Disjoint s.biased s.taken.1.toFinset := by
    refine Finset.disjoint_left.2 fun t hb ht => ?_
    obtain ⟨hw, hg⟩ := hwaits t (mem_toFinset.1 ht)
    simp [Rwsem.bias, Rwsem.grantedRead, not_biased_of_waitsRead hw, hg] at hb
  rw [hset, Finset.card_union_of_disjoint hdisj,
    toFinset_card_of_nodup h.nodup_taken.of_append_right]

/-- Granting the semaphore to readers while there is no writer. -/
theorem granting (hx : writerLocked s.count = false) (o : Bool) :
    RwsemCore (s.granting o (packed (s.biased.card + s.taken.1.length) false
      (decide (s.taken.2 ≠ [])) false)) := by
  have hnone : ∀ t, (s.pc t).writes = false := fun t => Bool.eq_false_iff.2 fun ht => by
    rw [h.writerLocked_iff.2 ⟨t, ht⟩] at hx
    cases hx
  constructor
  · exact ⟨false, false, by rw [h.card_biased_granting]; rfl, nofun,
      by simp [Rwsem.granting, hnone]⟩
  · intro t u ht
    exact nomatch (hnone t).symm.trans ht
  · intro t u ht
    exact nomatch (hnone t).symm.trans ht
  · exact h.nodup_taken.of_append_left
  · rintro ⟨t, type⟩
    have hmem := mem_waitList_iff (s := s) (w := ⟨t, type⟩)
    have hlisted := h.listed ⟨t, type⟩
    have hdisj : ⟨t, type⟩ ∈ s.taken.2 → t ∉ s.taken.1 := fun hr ht =>
      (nodup_append.1 h.nodup_taken).2.2 t (mem_map_of_mem hr) t ht rfl
    show ⟨t, type⟩ ∈ s.taken.2 ↔ _
    cases type with
    | write =>
      rw [show (s.granting o _).waits ⟨t, .write⟩ = s.waits ⟨t, .write⟩ from rfl, ← hlisted, hmem]
      simp
    | read =>
      simp only [Rwsem.waits, Rwsem.granting, Bool.and_eq_true, Bool.not_eq_true',
        Bool.or_eq_false_iff, decide_eq_false_iff_not] at hlisted ⊢
      rw [← and_assoc, ← hlisted, hmem]
      grind -ring -linarith

/-- What `rwsem_mark_wake` does, by the first waiter. A writer is only woken; a reader is granted
the semaphore, with the readers behind it, unless there is a writer. -/
theorem markWake_cases (type : WakeType) (late : Bool)
    (hT : card T < 2 ^ 23) (hl : s.waitList = w :: l)
    (hown : type = .readOwned → writerLocked s.count = false) :
    (w.type = .write ∧ s.markWake type late =
      if type = .any then s.wakeQAdd [] w.task else (s, [])) ∨
    (w.type = .read ∧ writerLocked s.count ∧
      ∃ c, s.markWake type late = ({ s with count := c }, []) ∧
        (c = s.count ∨ flagHandoff s.count = false ∧ c = s.count + rwsemFlagHandoff)) ∨
    (w.type = .read ∧ writerLocked s.count = false ∧ ∃ o, (s.markWake type late).1 =
      s.granting o (packed (s.biased.card + s.taken.1.length) false
        (decide (s.taken.2 ≠ [])) false) ∧
      ∀ f, f ∈ (s.markWake type late).2 ↔ f ∈ s.taken.1 ∧ s.onWakeQ f = false) := by
  obtain ⟨hand, x, hc, -, -⟩ := h.word
  have hlt : s.biased.card + s.taken.1.length < 2 ^ 23 := by
    rw [← h.card_biased_granting false 0]
    exact card_biased_lt hT
  have hwaiters : decide (s.waitList ≠ []) = true := by simp [hl]
  rw [hwaiters] at hc
  have hfail : flagReadFail s.count = false := by
    rw [hc]
    exact flagReadFail_packed (card_biased_lt hT)
  rcases hw : w.type with _ | _
  · exact .inl ⟨rfl, by simp [Rwsem.markWake, hl, hw]⟩
  · have htaken : s.taken.1 ≠ [] := by
      rw [Rwsem.taken, hl]
      exact Rwsem.takeReaders_ne_nil hw
    refine .inr ?_
    cases hx : writerLocked s.count with
    | true =>
      have htype : type ≠ .readOwned := fun e => by simp [hown e] at hx
      refine .inl ⟨rfl, rfl, _, by simp [Rwsem.markWake, hl, hw, hfail, htype, hx]; rfl, ?_⟩
      rw [addCount_addCount]
      split
      · rename_i hlate
        refine .inr ⟨hlate.1, ?_⟩
        have hhand : hand = false := by rw [← hlate.1, hc, flagHandoff_packed]
        rw [hc, hhand, packed_add_flagHandoff, ← addCount_flagHandoff (card_biased_lt hT)]
        congr 1
      · left
        rw [hc, ← addCount_zero (card_biased_lt hT)]
        congr 1
        rw [addCount_zero (card_biased_lt hT)]
    | false =>
      refine .inr ⟨rfl, rfl, ?_⟩
      have hx' : x = false := by rwa [hc, writerLocked_packed] at hx
      subst hx'
      -- the readers are counted from the word, or from the word with one reader in front
      obtain ⟨b, o, hmark, hb⟩ : ∃ b o, s.markWake type late =
          { s with count := addCount s.count b, readerOwned := o }.wakeReaders b ∧
          flagHandoff (addCount s.count b) = hand := by
        by_cases htype : type = .readOwned
        · have hzero : addCount s.count 0 = s.count := by rw [hc, addCount_zero (card_biased_lt hT)]
          refine ⟨0, s.readerOwned, ?_, by rw [hzero, hc, flagHandoff_packed]⟩
          rw [hzero]
          show _ = s.wakeReaders 0
          simp [Rwsem.markWake, hl, hw, hfail, htype]
        · have hone : s.biased.card + 1 < 2 ^ 23 := by
            have := length_pos_iff.2 htaken
            omega
          exact ⟨rwsemReaderBias, true, by simp [Rwsem.markWake, hl, hw, hfail, htype, hx],
            by rw [hc, addCount_readerBias hone, flagHandoff_packed]⟩
      rw [hmark]
      exact ⟨o, Rwsem.wakeReaders_fst o b hc hlt htaken hb, fun f => Rwsem.mem_wakeReaders_snd⟩

/-- `rwsem_mark_wake` keeps the word and the list right. -/
theorem markWake {type : WakeType} (late : Bool) (hT : card T < 2 ^ 23)
    (hown : type = .readOwned → writerLocked s.count = false) :
    RwsemCore (s.markWake type late).1 := by
  cases hl : s.waitList with
  | nil => simpa [Rwsem.markWake, hl] using h
  | cons w l =>
    rcases h.markWake_cases type late hT hl hown with
      ⟨-, hmark⟩ | ⟨-, -, c, hmark, hc⟩ | ⟨-, hx, o, hmark, -⟩
    · rw [hmark]
      split
      · simp only [Rwsem.wakeQAdd]
        split
        · exact h
        · exact { h with }
      · exact h
    · rw [hmark]
      rcases hc with rfl | ⟨hf, rfl⟩
      · exact h
      · exact h.setHandoff hf (by simp [hl])
    · rw [hmark]
      exact h.granting hx o

end

end RwsemCore

/-! ### Wake queues -/

section WakeQueues

variable [DecidableEq T] {s : Rwsem T} {t : T} {q : List T} {type : WakeType} {late : Bool}

theorem WakeQOk.wakeQAdd (h : WakeQOk s q) (t : T) :
    WakeQOk (s.wakeQAdd q t).1 (s.wakeQAdd q t).2 := by
  intro f
  simp only [Rwsem.wakeQAdd]
  split
  · exact h f
  · intro hf
    by_cases e : f = t
    · exact .inl (by simp [e])
    · exact (h f (by simpa [e] using hf)).imp_left fun hm => mem_append_left _ hm

theorem WakeQOk.grant (ts : List T) : ∀ {s : Rwsem T} {q : List T}, WakeQOk s q →
    WakeQOk (s.grant q ts).1 (s.grant q ts).2 := by
  induction ts with
  | nil => exact fun h => h
  | cons t ts ih =>
    intro s q h
    exact ih (WakeQOk.wakeQAdd (s := { s with granted := update s.granted t true }) h t)

theorem WakeQOk.markWake (h : WakeQOk s []) :
    WakeQOk (s.markWake type late).1 (s.markWake type late).2 := by
  simp only [Rwsem.markWake]
  split
  · exact h
  · split
    · split
      · exact h.wakeQAdd _
      · exact h
    · split
      · exact h
      · split
        · exact WakeQOk.grant _ h
        · split
          · exact h
          · exact WakeQOk.grant _ h

theorem WakeQOk.condWakeWaiter (h : WakeQOk s []) (late : Bool) (c : ℕ) :
    WakeQOk (s.condWakeWaiter c late).1 (s.condWakeWaiter c late).2 := by
  simp only [Rwsem.condWakeWaiter]
  split
  · exact h
  · exact h.markWake

namespace Rwsem

theorem wakeQAdd_pc (u : T) : (s.wakeQAdd q u).1.pc = s.pc := by
  simp only [wakeQAdd]
  split <;> rfl

theorem markWake_pc : (s.markWake type late).1.pc = s.pc := by
  simp only [markWake]
  repeat' split
  all_goals simp [wakeReaders, grant_fst, wakeQAdd_pc]

end Rwsem

end WakeQueues

/-! ### Sections under `wait_lock` -/

/-- The invariant. -/
structure RwsemOk [Fintype T] (s : Rwsem T) : Prop where
  core : RwsemCore s
  wakeQ : WakeQOk s []
  progress : s.Progress
  sound : ∀ t, (s.pc t).sound

section Sections

variable {s s' : Rwsem T} {t : T} {q : List T} {late : Bool}

section

variable [DecidableEq T]

theorem Rwsem.onWakeQ_wakeQAdd (f : T) : (s.wakeQAdd q f).1.onWakeQ f := by
  simp only [Rwsem.wakeQAdd]
  split
  · assumption
  · simp

theorem Rwsem.condWakeWaiter_pc (c : ℕ) : (s.condWakeWaiter c late).1.pc = s.pc := by
  simp only [Rwsem.condWakeWaiter]
  split
  · rfl
  · exact Rwsem.markWake_pc

/-- Who is seen to stays so when another task goes on that was not to wake anybody. -/
theorem Rwsem.Served.goto (h : s.Served w) (hw : w.task ≠ t) (hp : (s.pc t).wakes = [])
    (hwill : (s.pc t).willWake = false) : (s.goto t p).Served w := by
  have hother : ∀ u, (s.pc u).willWake ∨ (∃ f, f ∈ (s.pc u).wakes) → u ≠ t := by
    rintro u hu rfl
    simp [hp, hwill] at hu
  rcases h with ⟨u, hu⟩ | ⟨htype, ⟨u, hu⟩ | hrunning | hretries⟩
  · exact .inl ⟨u, by rwa [Rwsem.goto_of_ne (hother u (.inl hu))]⟩
  · exact .inr ⟨htype, .inl ⟨u, by rwa [Rwsem.goto_of_ne (hother u (.inr ⟨_, hu⟩))]⟩⟩
  · exact .inr ⟨htype, .inr (.inl hrunning)⟩
  · exact .inr ⟨htype, .inr (.inr (by rwa [Rwsem.goto_of_ne hw]))⟩

theorem Rwsem.sound_goto (h : ∀ u, (s.pc u).sound) (hp : p.sound) (u : T) :
    ((s.goto t p).pc u).sound := by
  by_cases e : u = t
  · rwa [e, Rwsem.goto_self]
  · rw [Rwsem.goto_of_ne e]
    exact h u

theorem WakeQOk.goto (h : WakeQOk s q) (hp : (s.pc t).wakeQ = []) :
    WakeQOk (s.goto t p) q := fun f hf =>
  (h f hf).imp_right fun ⟨u, hu⟩ =>
    ⟨u, by rwa [Rwsem.goto_of_ne (by rintro rfl; rw [hp] at hu; cases hu)]⟩

end

variable [Fintype T]

theorem RwsemCore.lockMask_of_bias (h : RwsemCore s) (ht : s.bias t) : lockMask s.count := by
  obtain ⟨hand, x, hc, -, -⟩ := h.word
  have hpos : s.biased.card ≠ 0 := Finset.card_ne_zero_of_mem (Rwsem.mem_biased.2 ht)
  simp [hc, hpos]

theorem RwsemCore.not_writerLocked_of_reads (h : RwsemCore s) (ht : s.reads t) :
    writerLocked s.count = false := by
  refine Bool.eq_false_iff.2 fun hx => ?_
  obtain ⟨u, hu⟩ := h.writerLocked_iff.1 hx
  rw [h.exclusion u t hu] at ht
  cases ht

variable [DecidableEq T]

/-- If nobody holds the semaphore after `rwsem_mark_wake` then its first waiter is a writer, and
nothing has changed but its wake queue. -/
theorem RwsemCore.markWake_free (h : RwsemCore s) (type : WakeType) (late : Bool)
    (hT : card T < 2 ^ 23) (hown : type = .readOwned → writerLocked s.count = false)
    (hfree : lockMask (s.markWake type late).1.count = false)
    (hw : (s.markWake type late).1.waitList.head? = some w) :
    w.type = .write ∧ lockMask s.count = false ∧
      s.markWake type late = if type = .any then s.wakeQAdd [] w.task else (s, []) := by
  cases hl : s.waitList with
  | nil =>
    have : s.markWake type late = (s, []) := by simp [Rwsem.markWake, hl]
    rw [this, hl] at hw
    cases hw
  | cons v l =>
    rcases h.markWake_cases type late hT hl hown with
      ⟨hv, hmark⟩ | ⟨-, hx, c, hmark, hc⟩ | ⟨hv, -, o, hmark, -⟩
    · have hkeep : (s.markWake type late).1.waitList = s.waitList ∧
          (s.markWake type late).1.count = s.count := by
        rw [hmark]
        simp only [Rwsem.wakeQAdd]
        repeat' split
        all_goals exact ⟨rfl, rfl⟩
      rw [hkeep.2] at hfree
      rw [hkeep.1, hl] at hw
      obtain rfl : v = w := Option.some.inj hw
      exact ⟨hv, hfree, hmark⟩
    · rw [hmark] at hfree
      obtain ⟨hand, x, hcount, -, -⟩ := h.word
      rw [hcount, writerLocked_packed] at hx
      subst hx
      rcases hc with rfl | ⟨hf, rfl⟩
      · simp [hcount] at hfree
      · rw [hcount, flagHandoff_packed] at hf
        subst hf
        simp [hcount, packed_add_flagHandoff] at hfree
    · have htaken : s.taken.1 ≠ [] := by
        rw [Rwsem.taken, hl]
        exact Rwsem.takeReaders_ne_nil hv
      rw [hmark] at hfree
      simp [Rwsem.granting, htaken] at hfree

section

variable (h : RwsemCore s) (hT : card T < 2 ^ 23)
include h hT

/-- `rwsem_mark_wake(RWSEM_WAKE_ANY)` sees to the first waiter of a semaphore that nobody holds. -/
theorem RwsemCore.markWake_any (hfree : lockMask (s.markWake .any late).1.count = false)
    (hw : (s.markWake .any late).1.waitList.head? = some w) :
    w.type = .write ∧ (s.markWake .any late).1.onWakeQ w.task := by
  obtain ⟨hwrite, -, hmark⟩ := h.markWake_free .any late hT nofun hfree hw
  rw [if_pos rfl] at hmark
  exact ⟨hwrite, by rw [hmark]; exact Rwsem.onWakeQ_wakeQAdd _⟩

/-- `rwsem_cond_wake_waiter` likewise. -/
theorem RwsemCore.condWakeWaiter_free
    (hfree : lockMask (s.condWakeWaiter s.count late).1.count = false)
    (hw : (s.condWakeWaiter s.count late).1.waitList.head? = some w) :
    w.type = .write ∧ (s.condWakeWaiter s.count late).1.onWakeQ w.task := by
  simp only [Rwsem.condWakeWaiter] at hfree hw ⊢
  split at hfree
  · rename_i hx
    simp [lockMask, hx] at hfree
  · rename_i hx
    rw [if_neg hx] at hw ⊢
    by_cases hr : readerMask s.count
    · rw [if_pos hr] at hfree hw
      have := (h.markWake_free .readers late hT (absurd · (by decide)) hfree hw).2.1
      simp [lockMask, hr] at this
    · rw [if_neg hr] at hfree hw ⊢
      exact h.markWake_any hT hfree hw

theorem RwsemCore.condWakeWaiter (c : ℕ) : RwsemCore (s.condWakeWaiter c late).1 := by
  simp only [Rwsem.condWakeWaiter]
  split
  · exact h
  · exact h.markWake late hT fun e => by split at e <;> cases e

end

/-- The end of a section: the task goes on to `wake_up_q`. -/
theorem RwsemOk.wakeUpQ {after : AfterWake} (hcore : RwsemCore s) (hq : WakeQOk s q)
    (hsound : ∀ t, (s.pc t).sound) (hp : s.pc t = p) (hnone : p.wakeQ = [])
    (hsame : p.same (.wakeTake q after))
    (hserved : lockMask s.count = false → ∀ w, s.waitList.head? = some w →
      w.type = .write ∧ s.onWakeQ w.task) : RwsemOk (s.goto t (.wakeTake q after)) := by
  subst hp
  have hself : ((s.goto t (.wakeTake q after)).pc t) = .wakeTake q after := Rwsem.goto_self _
  have hwakes := hq.goto (p := .wakeTake q after) hnone
  refine ⟨hcore.goto rfl hsame, fun f hf => .inr ?_, fun hfree w hw => ?_,
    Rwsem.sound_goto hsound rfl⟩
  · exact (hwakes f hf).elim (fun hm => ⟨t, by rwa [hself]⟩) id
  · obtain ⟨htype, hon⟩ := hserved hfree w hw
    refine .inr ⟨htype, .inl ?_⟩
    rcases hwakes _ hon with hm | ⟨u, hu⟩
    · exact ⟨t, by rwa [hself]⟩
    · exact ⟨u, mem_wakes_of_mem_wakeQ hu⟩

end Sections

end MinimalKernel.Locking
