import MinimalKernel.Lib.Run
import Mathlib.Data.List.Nodup

/-!
# The sleeping mutex

`struct mutex` packs the owner and three flags into one word, which is only changed by atomic
operations, and keeps its waiters on a list under the spin lock `wait_lock`. The tasks that call
`mutex_lock`, `mutex_lock_killable`, `mutex_lock_interruptible`, `mutex_trylock` and `mutex_unlock`
are programs over this shared state. A step of a task is one access to the shared state: a read or
a compare-and-exchange of the word, taking or dropping `wait_lock`, a change of the list, of a task
state or of a wake queue.

There are any number of tasks, and nothing is assumed about which one takes the next step.

## Main definitions

* `Owner`, `tryTarget` — the word, and what `__mutex_trylock_common` wants to make of it
* `Pc` — where a task is in the code, with its local variables
* `Mutex`, `step` — the mutex with its tasks, and the next step of one of them
* `MutexOp`, `MutexStep` — a step of a task, a call, a signal, a wakeup from elsewhere
-/

namespace MinimalKernel.Locking

open Function

/-- The word `lock->owner`: a task and the flags `MUTEX_FLAG_WAITERS`, `MUTEX_FLAG_HANDOFF` and
`MUTEX_FLAG_PICKUP`. -/
structure Owner (T : Type*) where
  task : Option T
  waiters : Bool
  handoff : Bool
  pickup : Bool
deriving DecidableEq

/-- How a task sleeps in `__mutex_lock`. -/
inductive SleepState
  | uninterruptible
  | killable
  | interruptible
deriving DecidableEq

/-- The signals of a task, as far as a sleep is concerned. -/
inductive SignalState
  | quiet
  | pending
  | fatal
deriving DecidableEq

/-- `signal_pending_state`. -/
def signalPendingState : SleepState → SignalState → Bool
  | .uninterruptible, _ => false
  | _, .quiet => false
  | .interruptible, _ => true
  | .killable, sig => sig = .fatal

section Program

variable {T : Type*} [DecidableEq T]

/-- The places from which `__mutex_trylock_common` is called: `mutex_trylock`, and in
`__mutex_lock_common` before taking `wait_lock`, after taking it, at the head of the loop and
after a wakeup, there with the argument `handoff`. -/
inductive TrySite
  | trylock
  | entry
  | locked
  | loop
  | woken (first : Bool)
deriving DecidableEq

/-- The argument `handoff` of the call. -/
def TrySite.handoff : TrySite → Bool
  | .woken first => first
  | _ => false

/-- Where a task is, with its local variables: `owner` is the value it read last, `next` the task
that an unlock found at the head of the list, `queued` what it has put on its wake queue. -/
inductive Pc (T : Type*)
  | idle
  /- `__mutex_trylock_fast` -/
  | fast
  /- `__mutex_trylock_common` -/
  | tryRead (site : TrySite)
  | tryCas (site : TrySite) (owner : Owner T)
  /- `__mutex_lock_common` -/
  | lockWait
  | addList
  | addFlag
  | setState
  | signalCheck
  | unlockWait
  | schedule
  | readFirst
  | setStateAgain (first : Bool)
  | relock
  | breakLock
  | setRunning (acquired : Bool)
  | removeList (acquired : Bool)
  | removeFlag (acquired : Bool)
  | dropWait (acquired : Bool)
  /- between `mutex_lock` and `mutex_unlock` -/
  | held
  /- `__mutex_unlock_fast` and `__mutex_unlock_slowpath` -/
  | unlockFast
  | unlockRead
  | unlockCas (owner : Owner T)
  | unlockLock (owner : Owner T)
  | unlockPick (owner : Owner T)
  | handoffRead (next queued : Option T)
  | handoffCas (next queued : Option T) (owner : Owner T)
  | unlockDrop (queued : Option T)
  | wakeTake (queued : Option T)
  | wakeUp (task : T)
deriving DecidableEq

/-- The mutex and its tasks. -/
structure Mutex (T : Type*) where
  owner : Owner T
  waitLock : Option T
  waitList : List T
  /-- the task state is `TASK_RUNNING` -/
  running : T → Bool
  /-- `task->wake_q.next` is set -/
  onWakeQ : T → Bool
  /-- the argument `state` of the call the task is in -/
  sleep : T → SleepState
  signal : T → SignalState
  pc : T → Pc T

/-- After `__mutex_init`, with no task inside. -/
def mutexInit : Mutex T where
  owner := ⟨none, false, false, false⟩
  waitLock := none
  waitList := []
  running := fun _ => true
  onWakeQ := fun _ => false
  sleep := fun _ => .uninterruptible
  signal := fun _ => .quiet
  pc := fun _ => .idle

/-- The body of the loop of `__mutex_trylock_common`: the word to store, unless the loop ends. -/
def tryTarget (curr : T) (handoff : Bool) (owner : Owner T) : Option (Owner T) :=
  match owner.task with
  | some task =>
    if owner.pickup then
      if task = curr then some { owner with pickup := false } else none
    else if handoff then
      if owner.handoff then none else some { owner with handoff := true }
    else
      none
  | none => some { owner with task := some curr }

/-- Where the caller goes on if the attempt fails. -/
def TrySite.fail : TrySite → Pc T
  | .trylock => .idle
  | .entry => .lockWait
  | .locked => .addList
  | .loop => .signalCheck
  | .woken _ => .relock

/-- Where the caller goes on if the attempt succeeds. -/
def TrySite.success : TrySite → Pc T
  | .trylock => .held
  | .entry => .held
  | .locked => .dropWait true
  | .loop => .setRunning true
  | .woken _ => .breakLock

/-- The attempt after the word has been read. -/
def afterRead (t : T) (site : TrySite) (owner : Owner T) : Pc T :=
  if (tryTarget t site.handoff owner).isSome then .tryCas site owner else site.fail

/-- The loop of `__mutex_unlock_slowpath` after the word has been read. -/
def afterUnlockRead (owner : Owner T) : Pc T :=
  if owner.handoff then .unlockLock owner else .unlockCas owner

namespace Mutex

variable (s : Mutex T)

/-- Task `t` goes on at `p`. -/
def goto (t : T) (p : Pc T) : Mutex T := { s with pc := update s.pc t p }

/-- `raw_spin_lock(&lock->wait_lock)`, which waits until the lock is free. -/
def spinLock (t : T) (p : Pc T) : Option (Mutex T) :=
  if s.waitLock = none then some ({ s with waitLock := some t }.goto t p) else none

/-- `raw_spin_unlock(&lock->wait_lock)`. -/
def spinUnlock (t : T) (p : Pc T) : Mutex T := { s with waitLock := none }.goto t p

/-- The task state of `t` becomes `TASK_RUNNING`, or not. -/
def setRunning (t : T) (b : Bool) : Mutex T :=
  { s with running := update s.running t b }

/-- `wake_q_add`: the task is put on the queue unless it is on one already. -/
def wakeQAdd (next : T) : Mutex T :=
  { s with onWakeQ := update s.onWakeQ next true }

/-- The next step of task `t`, if it can take one. -/
def step (t : T) : Option (Mutex T) :=
  match s.pc t with
  | .idle => none
  | .fast =>
    if s.owner = ⟨none, false, false, false⟩ then
      some ({ s with owner := ⟨some t, false, false, false⟩ }.goto t .held)
    else
      some (s.goto t (.tryRead .entry))
  | .tryRead site => some (s.goto t (afterRead t site s.owner))
  | .tryCas site owner =>
    if s.owner = owner then
      match tryTarget t site.handoff owner with
      | some new =>
        some ({ s with owner := new }.goto t
          (if new.task = some t then site.success else site.fail))
      | none => none
    else
      some (s.goto t (afterRead t site s.owner))
  | .lockWait => s.spinLock t (.tryRead .locked)
  | .addList => some ({ s with waitList := s.waitList ++ [t] }.goto t .addFlag)
  | .addFlag =>
    if s.waitList.head? = some t then
      some ({ s with owner := { s.owner with waiters := true } }.goto t .setState)
    else
      some (s.goto t .setState)
  | .setState => some ((s.setRunning t false).goto t (.tryRead .loop))
  | .signalCheck =>
    if signalPendingState (s.sleep t) (s.signal t) then
      some (s.goto t (.setRunning false))
    else
      some (s.goto t .unlockWait)
  | .unlockWait => some (s.spinUnlock t .schedule)
  | .schedule =>
    -- `__schedule` does not put a task to sleep that has a signal for its state
    if s.running t || signalPendingState (s.sleep t) (s.signal t) then
      some ((s.setRunning t true).goto t .readFirst)
    else
      none
  | .readFirst => some (s.goto t (.setStateAgain (s.waitList.head? = some t)))
  | .setStateAgain first => some ((s.setRunning t false).goto t (.tryRead (.woken first)))
  | .relock => s.spinLock t (.tryRead .loop)
  | .breakLock => s.spinLock t (.setRunning true)
  | .setRunning acquired => some ((s.setRunning t true).goto t (.removeList acquired))
  | .removeList acquired =>
    some ({ s with waitList := s.waitList.erase t }.goto t (.removeFlag acquired))
  | .removeFlag acquired =>
    if s.waitList = [] then
      some ({ s with owner := ⟨s.owner.task, false, false, false⟩ }.goto t (.dropWait acquired))
    else
      some (s.goto t (.dropWait acquired))
  | .dropWait acquired => some (s.spinUnlock t (if acquired then .held else .idle))
  | .held => none
  | .unlockFast =>
    if s.owner = ⟨some t, false, false, false⟩ then
      some ({ s with owner := ⟨none, false, false, false⟩ }.goto t .idle)
    else
      some (s.goto t .unlockRead)
  | .unlockRead => some (s.goto t (afterUnlockRead s.owner))
  | .unlockCas owner =>
    if s.owner = owner then
      some ({ s with owner := { owner with task := none } }.goto t
        (if owner.waiters then .unlockLock owner else .idle))
    else
      some (s.goto t (afterUnlockRead s.owner))
  | .unlockLock owner => s.spinLock t (.unlockPick owner)
  | .unlockPick owner =>
    match s.waitList.head? with
    | some next =>
      let queued := if s.onWakeQ next then none else some next
      some ((s.wakeQAdd next).goto t
        (if owner.handoff then .handoffRead (some next) queued else .unlockDrop queued))
    | none => some (s.goto t (if owner.handoff then .handoffRead none none else .unlockDrop none))
  | .handoffRead next queued => some (s.goto t (.handoffCas next queued s.owner))
  | .handoffCas next queued owner =>
    if s.owner = owner then
      some ({ s with owner := ⟨next, owner.waiters, false, next.isSome⟩ }.goto t
        (.unlockDrop queued))
    else
      some (s.goto t (.handoffCas next queued s.owner))
  | .unlockDrop queued => some (s.spinUnlock t (.wakeTake queued))
  | .wakeTake queued =>
    match queued with
    | some task =>
      some ({ s with onWakeQ := update s.onWakeQ task false }.goto t (.wakeUp task))
    | none => some (s.goto t .idle)
  | .wakeUp task => some ((s.setRunning task true).goto t .idle)

end Mutex

/-- What can happen: a call, the next step of a task inside the code, a signal, a wakeup that has
nothing to do with this mutex. -/
inductive MutexOp (T : Type*)
  | lock (t : T) (state : SleepState)
  | trylock (t : T)
  | unlock (t : T)
  | step (t : T)
  | signal (t : T) (sig : SignalState)
  | wake (t : T)

/-- A task locks only what it does not hold and unlocks what it holds. A signal wakes a task that
sleeps in a state it interrupts. -/
inductive MutexStep : Mutex T → MutexOp T → Mutex T → Prop
  | lock {s : Mutex T} {t : T} {state : SleepState} (h : s.pc t = .idle) :
      MutexStep s (.lock t state)
        ({ s with sleep := update s.sleep t state }.goto t .fast)
  | trylock {s : Mutex T} {t : T} (h : s.pc t = .idle) :
      MutexStep s (.trylock t) (s.goto t (.tryRead .trylock))
  | unlock {s : Mutex T} {t : T} (h : s.pc t = .held) :
      MutexStep s (.unlock t) (s.goto t .unlockFast)
  | step {s s' : Mutex T} {t : T} (h : s.step t = some s') : MutexStep s (.step t) s'
  | signal {s : Mutex T} {t : T} {sig : SignalState} :
      MutexStep s (.signal t sig)
        { s with
          signal := update s.signal t sig
          running := update s.running t
            (s.running t || signalPendingState (s.sleep t) sig) }
  | wake {s : Mutex T} {t : T} : MutexStep s (.wake t) (s.setRunning t true)

end Program

end MinimalKernel.Locking
