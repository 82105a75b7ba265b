import MinimalKernel.Locking.Mutex
import Mathlib.Algebra.Ring.Int.Defs
import Mathlib.Algebra.Ring.Nat

/-!
# The reader-writer semaphore

`struct rw_semaphore` counts its readers, and flags a writer, waiters and a handoff, in the one
word `count`. The fast paths only touch that word. The slow paths queue the task on `wait_list`
under the spin lock `wait_lock`; whoever holds `wait_lock` may grant the semaphore to readers at
the head of the list (`rwsem_mark_wake`), while a writer takes it itself once it has been woken.

A step of a task is one access to the word or to another shared field, or a whole section under
`wait_lock`. The words are 32 bits wide.

What depends on the time or on the scheduling class, that is, whether a waiter has waited for too
long, is not computed: a step may find either answer.

## Main definitions

* `Rwsem`, `RwPc` — the semaphore with its tasks, and where a task is in the code
* `markWake`, `tryWriteLock`, `delWakeWaiter` — the functions that run under `wait_lock`
* `Rwsem.step` — the next step of one task
* `RwsemOp`, `RwsemStep` — a step of a task, a call, a signal, a wakeup from elsewhere
-/

namespace MinimalKernel.Locking

open Function

/-! ### The word -/

/-- `RWSEM_WRITER_LOCKED`. -/
def rwsemWriterLocked : ℕ := 1

/-- `RWSEM_FLAG_WAITERS`. -/
def rwsemFlagWaiters : ℕ := 2

/-- `RWSEM_FLAG_HANDOFF`. -/
def rwsemFlagHandoff : ℕ := 4

/-- `RWSEM_READER_BIAS`. -/
def rwsemReaderBias : ℕ := 256

variable (count : ℕ)

/-- `count & RWSEM_WRITER_MASK`. -/
def writerLocked : Bool := count.testBit 0

/-- `count & RWSEM_FLAG_WAITERS`. -/
def flagWaiters : Bool := count.testBit 1

/-- `count & RWSEM_FLAG_HANDOFF`. -/
def flagHandoff : Bool := count.testBit 2

/-- `count & RWSEM_FLAG_READFAIL`, which is also the sign of the word. -/
def flagReadFail : Bool := count.testBit 31

/-- `count & RWSEM_READER_MASK`. -/
def readerMask : Bool := count >>> 8 ≠ 0

/-- `count & RWSEM_READ_FAILED_MASK`. -/
def readFailedMask : Bool :=
  writerLocked count || flagWaiters count || flagHandoff count || flagReadFail count

/-- `count & RWSEM_LOCK_MASK`. -/
def lockMask : Bool := writerLocked count || readerMask count

/-- Adding to the word. -/
def addCount (i : ℤ) : ℕ := ((count + i) % 2 ^ 32).toNat

section Program

variable {T : Type*} [DecidableEq T]

inductive WaiterType
  | write
  | read
deriving DecidableEq

/-- `struct rwsem_waiter` on the list. The field `task` of a waiter is cleared when the semaphore
is granted to it, and that is when it leaves the list: see `Rwsem.granted`. -/
structure RwsemWaiter (T : Type*) where
  task : T
  type : WaiterType
deriving DecidableEq

inductive WakeType
  | any
  | readers
  | readOwned
deriving DecidableEq

/-- Where a task goes on after `wake_up_q`. -/
inductive AfterWake
  | readHeld
  | readWait
  | readAbort
  | writeEnter
  | idle
deriving DecidableEq

/-- Where a task is, with its local variables. -/
inductive RwPc (T : Type*)
  | idle
  /- `rwsem_read_trylock` -/
  | readAdd
  | readOwn
  /- `rwsem_down_read_slowpath` -/
  | readSlow (count : ℕ)
  | readSteal (count : ℕ)
  | readStealWake
  | readQueue
  | readSetState
  | readCheck
  | readSignalCheck
  | readSchedule
  | readSignal
  | readRun
  | readAbort
  /- `__down_read_trylock` -/
  | tryReadLoad
  | tryReadCas (count : ℕ)
  | readHeld
  /- `rwsem_write_trylock`, `rwsem_down_write_slowpath` -/
  | writeFast (block : Bool)
  | writeOwn
  | writeQueue
  | writeEnter
  | writeSignalCheck
  | writeSchedule
  | writeSetState
  | writeTry
  | writeAbortRun
  | writeAbort
  | writeHeld
  /- `__up_read`, `__up_write`, `__downgrade_write` -/
  | upRead
  | upWriteOwner
  | upWrite
  | wake
  | downgrade
  | downgradeOwn (count : ℕ)
  | downgradeWake
  /- `wake_up_q` -/
  | wakeTake (queue : List T) (after : AfterWake)
  | wakeUp (task : T) (queue : List T) (after : AfterWake)

/-- The place after `wake_up_q`. -/
def AfterWake.pc : AfterWake → RwPc T
  | .readHeld => .readHeld
  | .readWait => .readSetState
  | .readAbort => .readAbort
  | .writeEnter => .writeEnter
  | .idle => .idle

/-- The semaphore and its tasks. -/
structure Rwsem (T : Type*) where
  count : ℕ
  /-- `RWSEM_READER_OWNED` of the field `owner` -/
  readerOwned : Bool
  waitList : List (RwsemWaiter T)
  /-- the field `task` of the waiter of this task is `NULL` -/
  granted : T → Bool
  /-- the task state is `TASK_RUNNING` -/
  running : T → Bool
  /-- `task->wake_q.next` is set -/
  onWakeQ : T → Bool
  /-- the argument `state` of the call the task is in -/
  sleep : T → SleepState
  signal : T → SignalState
  pc : T → RwPc T

/-- After `__init_rwsem`, with no task inside. -/
def rwsemInit : Rwsem T where
  count := 0
  readerOwned := false
  waitList := []
  granted := fun _ => false
  running := fun _ => true
  onWakeQ := fun _ => false
  sleep := fun _ => .uninterruptible
  signal := fun _ => .quiet
  pc := fun _ => .idle

namespace Rwsem

variable (s : Rwsem T)

/-- Task `t` goes on at `p`. -/
def goto (t : T) (p : RwPc T) : Rwsem T := { s with pc := update s.pc t p }

/-- The task state of `t` becomes `TASK_RUNNING`, or not. -/
def setRunning (t : T) (b : Bool) : Rwsem T :=
  { s with running := update s.running t b }

/-- `wake_q_add`: the task is put on the queue unless it is on one already. -/
def wakeQAdd (q : List T) (t : T) : Rwsem T × List T :=
  if s.onWakeQ t then (s, q)
  else ({ s with onWakeQ := update s.onWakeQ t true }, q ++ [t])

/-- The readers that `rwsem_mark_wake` takes off the list, at most `n`, and what remains. Writers
are passed over. -/
def takeReaders : ℕ → List (RwsemWaiter T) → List T × List (RwsemWaiter T)
  | 0, l => ([], l)
  | _ + 1, [] => ([], [])
  | n + 1, w :: l =>
    match w.type with
    | .write => ((takeReaders (n + 1) l).1, w :: (takeReaders (n + 1) l).2)
    | .read => (w.task :: (takeReaders n l).1, (takeReaders n l).2)

/-- The last loop of `rwsem_mark_wake`: the semaphore is granted to each of the readers. -/
def grant (s : Rwsem T) (q : List T) : List T → Rwsem T × List T
  | [] => (s, q)
  | t :: ts =>
    let added := wakeQAdd { s with granted := update s.granted t true } q t
    grant added.1 added.2 ts

/-- `MAX_READERS_WAKEUP`. -/
def maxReadersWakeup : ℕ := 0x100

/-- The second half of `rwsem_mark_wake`: readers are taken off the list, counted and woken.
`bias` is what has been added to the word already. -/
def wakeReaders (bias : ℤ) : Rwsem T × List T :=
  let taken := takeReaders maxReadersWakeup s.waitList
  let handoff : ℤ := if flagHandoff s.count then rwsemFlagHandoff else 0
  let adjustment := taken.1.length * rwsemReaderBias - bias
  let adjustment :=
    if taken.2 = [] then adjustment - rwsemFlagWaiters - handoff
    else if taken.1 ≠ [] then adjustment - handoff
    else adjustment
  grant { s with waitList := taken.2, count := addCount s.count adjustment } [] taken.1

/-- `rwsem_mark_wake` with an empty wake queue; `late` is the answer of `time_after`. -/
def markWake (type : WakeType) (late : Bool) : Rwsem T × List T :=
  match s.waitList with
  | [] => (s, [])
  | waiter :: _ =>
    match waiter.type with
    | .write => if type = .any then s.wakeQAdd [] waiter.task else (s, [])
    | .read =>
      if flagReadFail s.count then (s, [])
      else if type = .readOwned then s.wakeReaders 0
      else
        let oldcount := s.count
        let s := { s with count := addCount s.count rwsemReaderBias }
        if writerLocked oldcount then
          let adjustment : ℤ :=
            if !flagHandoff oldcount && late then rwsemReaderBias - rwsemFlagHandoff
            else rwsemReaderBias
          ({ s with count := addCount s.count (-adjustment) }, [])
        else
          { s with readerOwned := true }.wakeReaders rwsemReaderBias

/-- `rwsem_cond_wake_waiter`. -/
def condWakeWaiter (count : ℕ) (late : Bool) : Rwsem T × List T :=
  if writerLocked count then (s, [])
  else s.markWake (if readerMask count then .readers else .any) late

/-- `rwsem_del_waiter`. -/
def delWaiter (w : RwsemWaiter T) : Rwsem T :=
  let s := { s with waitList := s.waitList.erase w }
  if s.waitList = [] then
    { s with
      count := s.count - (if flagHandoff s.count then rwsemFlagHandoff else 0) -
        (if flagWaiters s.count then rwsemFlagWaiters else 0) }
  else s

/-- `rwsem_del_wake_waiter` up to the release of `wait_lock`. -/
def delWakeWaiter (w : RwsemWaiter T) (late : Bool) : Rwsem T × List T :=
  let first : Bool := s.waitList.head? = some w
  let s := s.delWaiter w
  if s.waitList ≠ [] ∧ first then s.markWake .any late else (s, [])

/-- `rwsem_try_write_lock`: the semaphore, and whether it has been taken. `late` is the answer of
`rt_task` and `time_after` together. -/
def tryWriteLock (t : T) (late : Bool) : Rwsem T × Bool :=
  let waiter : RwsemWaiter T := ⟨t, .write⟩
  if flagHandoff s.count ∧ s.waitList.head? ≠ some waiter then (s, false)
  else if lockMask s.count then
    if flagHandoff s.count || !late then (s, false)
    else ({ s with count := s.count + rwsemFlagHandoff }, false)
  else
    ({ s with
        count := s.count + rwsemWriterLocked -
          (if flagHandoff s.count then rwsemFlagHandoff else 0) -
          (if s.waitList.length = 1 ∧ flagWaiters s.count then rwsemFlagWaiters else 0)
        waitList := s.waitList.erase waiter
        readerOwned := false }, true)

/-- The body of the loop of `rwsem_down_write_slowpath` up to the release of `wait_lock`. -/
def writeLoop (t : T) (late : Bool) : Rwsem T :=
  let tried := s.tryWriteLock t late
  if tried.2 then (tried.1.setRunning t true).goto t .writeHeld
  else tried.1.goto t .writeSignalCheck

/-- The next step of task `t`, if it can take one. -/
def step (t : T) (late : Bool) : Option (Rwsem T) :=
  match s.pc t with
  | .idle => none
  | .readAdd =>
    let count := addCount s.count rwsemReaderBias
    some ({ s with count := count }.goto t
      (if readFailedMask count then .readSlow count else .readOwn))
  | .readOwn => some ({ s with readerOwned := true }.goto t .readHeld)
  | .readSlow count =>
    if s.readerOwned ∧ !flagReadFail count ∧ 1 < count >>> 8 ∧ !writerLocked count then
      some (s.goto t .readQueue)
    else if !writerLocked count && !flagHandoff count then
      some (s.goto t (.readSteal count))
    else
      some (s.goto t .readQueue)
  | .readSteal count =>
    some ({ s with readerOwned := true }.goto t
      (if count >>> 8 = 1 ∧ flagWaiters count then .readStealWake else .readHeld))
  | .readStealWake =>
    let woken := if s.waitList ≠ [] then s.markWake .readOwned late else (s, [])
    some (woken.1.goto t (.wakeTake woken.2 .readHeld))
  | .readQueue =>
    if s.waitList = [] ∧ !writerLocked s.count then
      some (s.goto t .readOwn)
    else
      let adjustment : ℤ := if s.waitList = [] then -rwsemReaderBias + rwsemFlagWaiters
        else -rwsemReaderBias
      let count := addCount s.count adjustment
      let s := { s with
        count := count
        waitList := s.waitList ++ [RwsemWaiter.mk t .read]
        granted := update s.granted t false }.goto t .readSetState
      let woken := s.condWakeWaiter count late
      some (woken.1.goto t (.wakeTake woken.2 .readWait))
  | .readSetState => some ((s.setRunning t false).goto t .readCheck)
  | .readCheck => some (s.goto t (if s.granted t then .readRun else .readSignalCheck))
  | .readSignalCheck =>
    some (s.goto t (if signalPendingState (s.sleep t) (s.signal t) then .readSignal
      else .readSchedule))
  | .readSchedule =>
    if s.running t || signalPendingState (s.sleep t) (s.signal t) then
      some ((s.setRunning t true).goto t .readSetState)
    else
      none
  | .readSignal =>
    if s.granted t then
      some (s.goto t .readRun)
    else
      let woken := (s.goto t .readAbort).delWakeWaiter ⟨t, .read⟩ late
      some (woken.1.goto t (.wakeTake woken.2 .readAbort))
  | .readRun => some ((s.setRunning t true).goto t .readHeld)
  | .readAbort => some ((s.setRunning t true).goto t .idle)
  | .tryReadLoad =>
    some (s.goto t (if readFailedMask s.count then .idle else .tryReadCas s.count))
  | .tryReadCas count =>
    if s.count = count then
      some ({ s with count := addCount count rwsemReaderBias }.goto t .readOwn)
    else
      some (s.goto t (if readFailedMask s.count then .idle else .tryReadCas s.count))
  | .readHeld => none
  | .writeFast block =>
    if s.count = 0 then
      some ({ s with count := rwsemWriterLocked }.goto t .writeOwn)
    else
      some (s.goto t (if block then .writeQueue else .idle))
  | .writeOwn => some ({ s with readerOwned := false }.goto t .writeHeld)
  | .writeQueue =>
    let s := { s with waitList := s.waitList ++ [RwsemWaiter.mk t .write] }.goto t .writeEnter
    if s.waitList.head? ≠ some ⟨t, .write⟩ then
      let woken := s.condWakeWaiter s.count late
      if woken.2 ≠ [] then
        some (woken.1.goto t (.wakeTake woken.2 .writeEnter))
      else
        some ((woken.1.setRunning t false).writeLoop t late)
    else
      let s := if flagWaiters s.count then s else { s with count := s.count + rwsemFlagWaiters }
      some ((s.setRunning t false).writeLoop t late)
  | .writeEnter => some ((s.setRunning t false).writeLoop t late)
  | .writeSignalCheck =>
    some (s.goto t (if signalPendingState (s.sleep t) (s.signal t) then .writeAbortRun
      else .writeSchedule))
  | .writeSchedule =>
    if s.running t || signalPendingState (s.sleep t) (s.signal t) then
      some ((s.setRunning t true).goto t .writeSetState)
    else
      none
  | .writeSetState => some ((s.setRunning t false).goto t .writeTry)
  | .writeTry => some (s.writeLoop t late)
  | .writeAbortRun => some ((s.setRunning t true).goto t .writeAbort)
  | .writeAbort =>
    let woken := (s.goto t .idle).delWakeWaiter ⟨t, .write⟩ late
    some (woken.1.goto t (.wakeTake woken.2 .idle))
  | .writeHeld => none
  | .upRead =>
    let count := addCount s.count (-rwsemReaderBias)
    some ({ s with count := count }.goto t
      (if !lockMask count && flagWaiters count then .wake else .idle))
  | .upWriteOwner => some ({ s with readerOwned := false }.goto t .upWrite)
  | .upWrite =>
    some ({ s with count := addCount s.count (-rwsemWriterLocked) }.goto t
      (if flagWaiters s.count then .wake else .idle))
  | .wake =>
    let woken := if s.waitList ≠ [] then s.markWake .any late else (s, [])
    some (woken.1.goto t (.wakeTake woken.2 .idle))
  | .downgrade =>
    some ({ s with count := addCount s.count (-rwsemWriterLocked + rwsemReaderBias) }.goto t
      (.downgradeOwn s.count))
  | .downgradeOwn count =>
    some ({ s with readerOwned := true }.goto t
      (if flagWaiters count then .downgradeWake else .readHeld))
  | .downgradeWake =>
    let woken := if s.waitList ≠ [] then s.markWake .readOwned late else (s, [])
    some (woken.1.goto t (.wakeTake woken.2 .readHeld))
  | .wakeTake queue after =>
    match queue with
    | [] => some (s.goto t after.pc)
    | task :: queue =>
      some ({ s with onWakeQ := update s.onWakeQ task false }.goto t
        (.wakeUp task queue after))
  | .wakeUp task queue after => some ((s.setRunning task true).goto t (.wakeTake queue after))

end Rwsem

/-- What can happen: a call, the next step of a task inside the code, a signal, a wakeup that has
nothing to do with this semaphore. -/
inductive RwsemOp (T : Type*)
  | downRead (t : T) (state : SleepState)
  | downReadTrylock (t : T)
  | downWrite (t : T) (state : SleepState)
  | downWriteTrylock (t : T)
  | upRead (t : T)
  | upWrite (t : T)
  | downgradeWrite (t : T)
  | step (t : T) (late : Bool)
  | signal (t : T) (sig : SignalState)
  | wake (t : T)

/-- A task locks only what it does not hold and releases what it holds. -/
inductive RwsemStep : Rwsem T → RwsemOp T → Rwsem T → Prop
  | downRead {s : Rwsem T} {t : T} {state : SleepState} (h : s.pc t = .idle) :
      RwsemStep s (.downRead t state)
        ({ s with sleep := update s.sleep t state }.goto t .readAdd)
  | downReadTrylock {s : Rwsem T} {t : T} (h : s.pc t = .idle) :
      RwsemStep s (.downReadTrylock t) (s.goto t .tryReadLoad)
  | downWrite {s : Rwsem T} {t : T} {state : SleepState} (h : s.pc t = .idle) :
      RwsemStep s (.downWrite t state)
        ({ s with sleep := update s.sleep t state }.goto t (.writeFast true))
  | downWriteTrylock {s : Rwsem T} {t : T} (h : s.pc t = .idle) :
      RwsemStep s (.downWriteTrylock t) (s.goto t (.writeFast false))
  | upRead {s : Rwsem T} {t : T} (h : s.pc t = .readHeld) :
      RwsemStep s (.upRead t) (s.goto t .upRead)
  | upWrite {s : Rwsem T} {t : T} (h : s.pc t = .writeHeld) :
      RwsemStep s (.upWrite t) (s.goto t .upWriteOwner)
  | downgradeWrite {s : Rwsem T} {t : T} (h : s.pc t = .writeHeld) :
      RwsemStep s (.downgradeWrite t) (s.goto t .downgrade)
  | step {s s' : Rwsem T} {t : T} {late : Bool} (h : s.step t late = some s') :
      RwsemStep s (.step t late) s'
  | signal {s : Rwsem T} {t : T} {sig : SignalState} :
      RwsemStep s (.signal t sig)
        { s with
          signal := update s.signal t sig
          running := update s.running t
            (s.running t || signalPendingState (s.sleep t) sig) }
  | wake {s : Rwsem T} {t : T} : RwsemStep s (.wake t) (s.setRunning t true)

end Program

end MinimalKernel.Locking
