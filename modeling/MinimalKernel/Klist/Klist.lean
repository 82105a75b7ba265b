import MinimalKernel.Basic
import MinimalKernel.Lib.Run

/-!
# Lists that can be changed under an iterator

A `klist` is a list of nodes with reference counts. The list itself holds one reference, which
`klist_del` gives up; an iterator holds one on the node on which it stands. A deleted node is marked
dead and stays linked until its last reference is gone, so that an iterator always finds the next
node. `klist_next` passes over dead nodes.

All changes of the list are made under `k_lock`: a step is what a call does while it holds the lock.
Outside of it the calls touch only what belongs to the caller. A node is not known to anybody else
before it has been added. The links of a node that has been taken off the list are poisoned.

Each iterator carries a record of its pass over the list, in which nothing of the code looks: what
it has returned, and which nodes have been there all the time.

## Main definitions

* `Klist` — the list, the counts, the iterators
* `klistAddTail`, `klistDel`, `klistIterInitNode`, `klistNext`, `klistIterExit` — the calls
* `KlistOp`, `KlistStep` — a call that follows the rules: a node is added when it is not attached
  and deleted once, and an iterator is initialised when it stands nowhere
-/

namespace MinimalKernel

open Function

/-- A pass of an iterator: the nodes that it has returned, the nodes that have been on the list
from the beginning of the pass without being deleted, and whether the pass is over. -/
structure Pass (N : Type*) where
  seen : List N
  stay : N → Bool
  ended : Bool

/-- `struct klist`, its nodes and its iterators. -/
structure Klist (N I : Type*) where
  /-- `k_list` -/
  list : List N
  /-- `n_klist` is not `NULL` -/
  attached : N → Bool
  /-- `KNODE_DEAD` in `n_klist` -/
  dead : N → Bool
  /-- `n_ref` -/
  ref : N → ℕ
  /-- `i_cur` -/
  cur : I → Option N
  /-- `klist_remove_waiters`: a task in `klist_remove` and the node for which it waits -/
  waiters : List (N × ℕ)
  /-- `woken` of the waiter of a task -/
  woken : ℕ → Bool
  pass : I → Pass N

/-- After `klist_init`. -/
def klistInit {N I : Type*} : Klist N I where
  list := []
  attached := fun _ => false
  dead := fun _ => false
  ref := fun _ => 0
  cur := fun _ => none
  waiters := []
  woken := fun _ => false
  pass := fun _ => ⟨[], fun _ => false, false⟩

namespace Klist

variable {N I : Type*} [DecidableEq N] [DecidableEq I] (s : Klist N I) (n : N)

/-- The node is on the list and has not been deleted. -/
def Present : Prop := n ∈ s.list ∧ s.dead n = false

instance (s : Klist N I) (n : N) : Decidable (s.Present n) :=
  inferInstanceAs (Decidable (_ ∧ _))

/-- The nodes behind `n`. -/
def after (l : List N) (n : N) : List N := (l.dropWhile fun m => m ≠ n).tail

/-- `klist_add_tail`. -/
def klistAddTail : Klist N I :=
  { s with
    list := s.list ++ [n]
    attached := update s.attached n true
    dead := update s.dead n false
    ref := update s.ref n 1 }

/-- `knode_kill`. -/
def knodeKill : Klist N I :=
  { s with
    dead := update s.dead n true
    pass := fun i => { s.pass i with stay := update (s.pass i).stay n false } }

/-- `klist_release`: the node leaves the list, and the tasks that wait for this are woken. -/
def klistRelease : Klist N I :=
  { s with
    list := s.list.erase n
    attached := update s.attached n false
    dead := update s.dead n false
    waiters := s.waiters.filter fun w => w.1 ≠ n
    woken := fun t => s.woken t || (n, t) ∈ s.waiters }

/-- `klist_dec_and_del`: whether this was the last reference. -/
def klistDecAndDel : Bool × Klist N I :=
  let s' := { s with ref := update s.ref n (s.ref n - 1) }
  if s.ref n = 1 then (true, s'.klistRelease n) else (false, s')

/-- `klist_put`, with the node for which `k->put` is called. -/
def klistPut (kill : Bool) : Option N × Klist N I :=
  let r := (if kill then s.knodeKill n else s).klistDecAndDel n
  (if r.1 then some n else none, r.2)

/-- `klist_del`. -/
def klistDel : Option N × Klist N I := s.klistPut n true

/-- `klist_remove`, up to the call of `klist_del`, by task `t`. -/
def klistAwait (t : ℕ) : Klist N I :=
  { s with waiters := (n, t) :: s.waiters, woken := update s.woken t false }

variable (i : I)

/-- A pass over the nodes of `l` begins. -/
def beginPass (l : List N) : Klist N I :=
  { s with pass := update s.pass i ⟨[], fun n => decide (n ∈ l) && !s.dead n, false⟩ }

/-- `klist_iter_init_node`. -/
def klistIterInitNode : Option N → Klist N I
  | some n =>
    if s.ref n ≠ 0 then
      { s.beginPass i (after s.list n) with
        ref := update s.ref n (s.ref n + 1)
        cur := update s.cur i (some n) }
    else
      { s.beginPass i s.list with cur := update s.cur i none }
  | none => { s.beginPass i s.list with cur := update s.cur i none }

/-- `klist_iter_init`. -/
def klistIterInit : Klist N I := s.klistIterInitNode i none

/-- `klist_iter_exit`, which also ends the pass. -/
def klistIterExit : Option N × Klist N I :=
  match s.cur i with
  | some n =>
    let r := s.klistPut n false
    (r.1, { r.2 with
      cur := update r.2.cur i none
      pass := update r.2.pass i ⟨[], fun _ => false, true⟩ })
  | none => (none, s)

/-- The loop of `klist_next`: the first of the nodes that is not dead. -/
def advance (rest : List N) : Klist N I :=
  match rest.find? fun n => !s.dead n with
  | some n =>
    { s with
      ref := update s.ref n (s.ref n + 1)
      cur := update s.cur i (some n)
      pass := update s.pass i
        { s.pass i with seen := (s.pass i).seen ++ [n] } }
  | none =>
    { s with
      cur := update s.cur i none
      pass := update s.pass i { s.pass i with ended := true } }

/-- `klist_next`. An iterator whose pass is over begins a new one. -/
def klistNext : Except Oops (Klist N I) :=
  match s.cur i with
  | some last =>
    if last ∈ s.list then
      .ok ((s.klistDecAndDel last).2.advance i (after s.list last))
    else
      .error .wildAccess
  | none => .ok ((if (s.pass i).ended then s.beginPass i s.list else s).advance i s.list)

end Klist

/-- The calls. -/
inductive KlistOp (N I : Type*)
  | add (n : N)
  | del (n : N)
  | await (n : N) (t : ℕ)
  | init (i : I) (n : Option N)
  | next (i : I)
  | exit (i : I)

section Step

variable {N I : Type*} [DecidableEq N] [DecidableEq I]

/-- A call that follows the rules. -/
inductive KlistStep : Klist N I → KlistOp N I → Klist N I → Prop
  | add {s : Klist N I} {n : N} (h : s.attached n = false) :
      KlistStep s (.add n) (s.klistAddTail n)
  | del {s : Klist N I} {n : N} (h : s.attached n = true) (hd : s.dead n = false) :
      KlistStep s (.del n) (s.klistDel n).2
  | await {s : Klist N I} {n : N} {t : ℕ} (h : s.attached n = true) (hd : s.dead n = false) :
      KlistStep s (.await n t) (s.klistAwait n t)
  | init {s : Klist N I} {i : I} {n : Option N} (h : s.cur i = none) :
      KlistStep s (.init i n) (s.klistIterInitNode i n)
  | next {s s' : Klist N I} {i : I} (h : s.klistNext i = .ok s') : KlistStep s (.next i) s'
  | exit {s : Klist N I} {i : I} : KlistStep s (.exit i) (s.klistIterExit i).2

end Step

end MinimalKernel
