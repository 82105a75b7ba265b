import MinimalKernel.Lib.Returns
import MinimalKernel.Lib.Segment

/-!
# The tree of resources

The model of `kernel/resource.c`. A resource is a range of addresses. Its children are the list that
starts at `child` and goes on with `sibling`; every child points back to its `parent`.

The memory is one map for each field of `struct resource`. A pointer to a pointer, as the loops use
it, is a `Slot`: the field `child` or `sibling` of some resource. All calls run under
`resource_lock`, so that one call is one step, but for `__request_region`: while it waits for a
resource of flag `IORESOURCE_MUXED`, it gives the lock back. `Resources.waiting` are these calls.

`live` says which resources there are for a caller to name. The resource of a call that waits is not
yet one of them, and `__release_region` frees what it unlinks if that came from the slab.

## Main definitions

* `ResourceMem`, `Slot` — the memory
* `requestResourceConflict`, `insertResourceConflict`, `requestRegionLocked`, `releaseRegion`,
  `releaseResource` — the calls
* `Resources`, `ResourceOp`, `ResourceStep` — what can happen
* `ResourceGuard` — calls that are made with a resource that they are meant for
-/

namespace MinimalKernel.Resource

open Function Lib

/-- `struct resource`, one map for each field. `stop` is the field `end`. -/
structure ResourceMem where
  start : ℕ → ℕ
  stop : ℕ → ℕ
  flags : ℕ → ℕ
  parent : ℕ → Option ℕ
  sibling : ℕ → Option ℕ
  child : ℕ → Option ℕ

/-- The address of a field that points to a child. -/
inductive Slot
  | child (r : ℕ)
  | sibling (r : ℕ)

/-- `flags & IORESOURCE_BUSY`. -/
def busy (flags : ℕ) : Bool := flags.testBit 31

/-- `flags & IORESOURCE_MUXED`. -/
def muxed (flags : ℕ) : Bool := flags.testBit 22

/-- `resource_type(parent) | resource_ext_type(parent) | IORESOURCE_BUSY | flags`. -/
def regionFlags (parent flags : ℕ) : ℕ :=
  (parent &&& 0x1f00) ||| (parent &&& 0x01000000) ||| (0x80000000 ||| flags)

namespace ResourceMem

variable (m : ResourceMem)

def read : Slot → Option ℕ
  | .child r => m.child r
  | .sibling r => m.sibling r

def setParent (r : ℕ) (x : Option ℕ) : ResourceMem :=
  { m with parent := update m.parent r x }

def setSibling (r : ℕ) (x : Option ℕ) : ResourceMem :=
  { m with sibling := update m.sibling r x }

def setChild (r : ℕ) (x : Option ℕ) : ResourceMem :=
  { m with child := update m.child r x }

def setFlags (r : ℕ) (x : ℕ) : ResourceMem :=
  { m with flags := update m.flags r x }

def write : Slot → Option ℕ → ResourceMem
  | .child r, x => m.setChild r x
  | .sibling r, x => m.setSibling r x

/-- The three stores that link `new` where `p` points. -/
def link (root new : ℕ) (p : Slot) : ResourceMem :=
  ((m.setSibling new (m.read p)).write p (some new)).setParent new (some root)

/-- `alloc_resource`, and the range that `__request_region_locked` sets. -/
def zalloc (res start stop : ℕ) : ResourceMem where
  start := update m.start res start
  stop := update m.stop res stop
  flags := update m.flags res 0
  parent := update m.parent res none
  sibling := update m.sibling res none
  child := update m.child res none

/-- The loop of `__request_resource`. -/
def requestLoop (root new : ℕ) : ℕ → Slot → Except Oops (ResourceMem × Option ℕ)
  | 0, _ => .error .hang
  | fuel + 1, p =>
    match m.read p with
    | none => .ok (m.link root new p, none)
    | some tmp =>
      if m.stop new < m.start tmp then .ok (m.link root new p, none)
      else if m.stop tmp < m.start new then requestLoop root new fuel (.sibling tmp)
      else .ok (m, some tmp)

/-- `__request_resource`: what is in the way of `new`, if anything. -/
def requestResourceConflict (root new fuel : ℕ) : Except Oops (ResourceMem × Option ℕ) :=
  if m.stop new < m.start new then .ok (m, some root)
  else if m.start new < m.start root then .ok (m, some root)
  else if m.stop root < m.stop new then .ok (m, some root)
  else m.requestLoop root new fuel (.child root)

/-- The loop of `__release_resource` over the children of `old`, which go to `parent`. It returns
the last one. -/
def reparentLoop (parent : Option ℕ) : ℕ → ℕ → ResourceMem → Except Oops (ResourceMem × ℕ)
  | 0, _, _ => .error .hang
  | fuel + 1, chd, m =>
    let m := m.setParent chd parent
    match m.sibling chd with
    | none => .ok (m, chd)
    | some next => reparentLoop parent fuel next m

/-- The loop of `__release_resource`. -/
def releaseLoop (old : ℕ) (releaseChild : Bool) (fuel : ℕ) :
    ℕ → Slot → Except Oops (ResourceMem × Except Errno Unit)
  | 0, _ => .error .hang
  | n + 1, p =>
    match m.read p with
    | none => .ok (m, .error .EINVAL)
    | some tmp =>
      if tmp = old then
        match m.child tmp with
        | none => .ok ((m.write p (m.sibling tmp)).setParent old none, .ok ())
        | some first =>
          if releaseChild then .ok ((m.write p (m.sibling tmp)).setParent old none, .ok ())
          else do
            let (m, chd) ← reparentLoop (m.parent tmp) fuel first m
            .ok (((m.write p (m.child tmp)).setSibling chd (m.sibling tmp)).setParent old none,
              .ok ())
      else releaseLoop old releaseChild fuel n (.sibling tmp)

/-- `release_resource`, and `__release_resource`. -/
def releaseResource (old fuel : ℕ) : Except Oops (ResourceMem × Except Errno Unit) :=
  match m.parent old with
  | none => .error .nullDeref
  | some parent => m.releaseLoop old true fuel fuel (.child parent)

/-- The loop of `__insert_resource` over the siblings that overlap with `new`: the last of them, or
one that `new` does not cover. -/
def coverLoop (new : ℕ) : ℕ → ℕ → Except Oops (Except ℕ ℕ)
  | 0, _ => .error .hang
  | fuel + 1, next =>
    if m.start next < m.start new ∨ m.stop new < m.stop next then .ok (.error next)
    else
      match m.sibling next with
      | none => .ok (.ok next)
      | some sibling =>
        if m.stop new < m.start sibling then .ok (.ok next) else coverLoop new fuel sibling

/-- The loop that makes `new` the parent of its children. -/
def adoptLoop (new : ℕ) : ℕ → Option ℕ → ResourceMem → Except Oops ResourceMem
  | 0, _, _ => .error .hang
  | _ + 1, none, m => .ok m
  | fuel + 1, some next, m => adoptLoop new fuel (m.sibling next) (m.setParent next (some new))

/-- The loop that finds the sibling before `first`. -/
def beforeLoop (first : ℕ) : ℕ → Option ℕ → Except Oops ℕ
  | 0, _ => .error .hang
  | _ + 1, none => .error .nullDeref
  | fuel + 1, some next =>
    if m.sibling next = some first then .ok next else beforeLoop first fuel (m.sibling next)

/-- The second half of `__insert_resource`: `new` takes the place of the children from `first` on
that it covers. -/
def cover (parent new first fuel : ℕ) : Except Oops (ResourceMem × Option ℕ) := do
  match ← m.coverLoop new fuel first with
  | .error next => .ok (m, some next)
  | .ok next =>
    let m := (m.setParent new (some parent)).setSibling new (m.sibling next)
    let m := (m.setChild new (some first)).setSibling next none
    let m ← adoptLoop new fuel (some first) m
    if m.child parent = some first then .ok (m.setChild parent (some new), none)
    else do
      let next ← m.beforeLoop first fuel (m.child parent)
      .ok (m.setSibling next (some new), none)

/-- The first half of `__insert_resource`: down to the place of `new`. -/
def insertLoop (new fuel : ℕ) : ℕ → ℕ → Except Oops (ResourceMem × Option ℕ)
  | 0, _ => .error .hang
  | n + 1, parent =>
    match m.requestResourceConflict parent new fuel with
    | .error e => .error e
    | .ok (m', none) => .ok (m', none)
    | .ok (_, some first) =>
      if first = parent then .ok (m, some first)
      else if first = new then .ok (m, some first)
      else if m.start new < m.start first ∨ m.stop first < m.stop new then
        m.cover parent new first fuel
      else if m.start first = m.start new ∧ m.stop first = m.stop new then
        m.cover parent new first fuel
      else insertLoop new fuel n first

/-- `__insert_resource`. -/
def insertResourceConflict (parent new fuel : ℕ) : Except Oops (ResourceMem × Option ℕ) :=
  m.insertLoop new fuel fuel parent

end ResourceMem

/-- How a round of `__request_region_locked` ends. -/
inductive RegionOutcome
  | granted
  | busy
  /-- the call waits for a resource of flag `IORESOURCE_MUXED`, to go on with `parent` -/
  | wait (parent : ℕ)
  deriving DecidableEq

namespace ResourceMem

variable (m : ResourceMem)

/-- The loop of `__request_region_locked`, up to where it waits. -/
def requestRegionLoop (res flags fuel : ℕ) :
    ℕ → ℕ → ResourceMem → Except Oops (ResourceMem × RegionOutcome)
  | 0, _, _ => .error .hang
  | n + 1, parent, m =>
    let m := m.setFlags res (regionFlags (m.flags parent) flags)
    match m.requestResourceConflict parent res fuel with
    | .error e => .error e
    | .ok (m', none) => .ok (m', .granted)
    | .ok (_, some conflict) =>
      if conflict ≠ parent ∧ busy (m.flags conflict) = false then
        requestRegionLoop res flags fuel n conflict m
      else if muxed (m.flags conflict &&& flags) then .ok (m, .wait parent)
      else .ok (m, .busy)

/-- `__request_region_locked`, from the loop on. -/
def requestRegionLocked (res parent flags fuel : ℕ) : Except Oops (ResourceMem × RegionOutcome) :=
  requestRegionLoop res flags fuel fuel parent m

/-- The loop of `__release_region`: the resource that it unlinks, if any. -/
def releaseRegionLoop (start stop : ℕ) : ℕ → Slot → Except Oops (ResourceMem × Option ℕ)
  | 0, _ => .error .hang
  | fuel + 1, p =>
    match m.read p with
    | none => .ok (m, none)
    | some res =>
      if m.start res ≤ start ∧ stop ≤ m.stop res then
        if busy (m.flags res) = false then releaseRegionLoop start stop fuel (.child res)
        else if m.start res ≠ start ∨ m.stop res ≠ stop then .ok (m, none)
        else .ok (m.write p (m.sibling res), some res)
      else releaseRegionLoop start stop fuel (.sibling res)

end ResourceMem

/-- `start + n - 1`, as a `resource_size_t`. -/
def lastOf (start n : ℕ) : ℕ := wsub (wadd start n) 1

/-- A call of `__request_region`. -/
structure RegionCall where
  res : ℕ
  parent : ℕ
  flags : ℕ
  deriving DecidableEq

/-- The resources, and the calls of `__request_region` that wait. -/
structure Resources where
  mem : ResourceMem
  live : ℕ → Bool
  /-- `PageSlab(virt_to_head_page(res))` -/
  slab : ℕ → Bool
  waiting : List RegionCall

/-- What can happen to the resources. `res` is what `kzalloc` returns. -/
inductive ResourceOp
  | request (root new : ℕ)
  | insert (parent new : ℕ)
  | requestRegion (parent start n flags : ℕ) (res : Option ℕ)
  | resume (w : RegionCall)
  | releaseRegion (parent start n : ℕ)
  | release (old : ℕ)

namespace Resources

/-- The end of a round of `__request_region_locked`, and of `__request_region` unless it waits. -/
def finish (s : Resources) (w : RegionCall) (m : ResourceMem) : RegionOutcome → Resources
  | .granted =>
    { s with
      mem := m
      live := update s.live w.res true
      slab := update s.slab w.res true }
  | .busy => { s with mem := m }
  | .wait parent => { s with mem := m, waiting := { w with parent := parent } :: s.waiting }

/-- `free_resource`. -/
def freeResource (s : Resources) (res : ℕ) : Resources :=
  if s.slab res then { s with live := update s.live res false } else s

end Resources

/-- One call; a caller names resources that there are. -/
inductive ResourceStep : Resources → ResourceOp → Resources → Prop
  | request {s : Resources} {root new : ℕ} {m : ResourceMem} {c : Option ℕ}
      (hroot : s.live root) (hnew : s.live new)
      (h : Returns (s.mem.requestResourceConflict root new) (m, c)) :
      ResourceStep s (.request root new) { s with mem := m }
  | insert {s : Resources} {parent new : ℕ} {m : ResourceMem} {c : Option ℕ}
      (hparent : s.live parent) (hnew : s.live new)
      (h : Returns (s.mem.insertResourceConflict parent new) (m, c)) :
      ResourceStep s (.insert parent new) { s with mem := m }
  | noMemory {s : Resources} {parent start n flags : ℕ} :
      ResourceStep s (.requestRegion parent start n flags none) s
  | requestRegion {s : Resources} {parent start n flags res : ℕ} {m : ResourceMem}
      {o : RegionOutcome} (hparent : s.live parent) (hres : s.live res = false)
      (hwait : ∀ w ∈ s.waiting, w.res ≠ res)
      (h : Returns ((s.mem.zalloc res start (lastOf start n)).requestRegionLocked res parent flags)
        (m, o)) :
      ResourceStep s (.requestRegion parent start n flags (some res))
        (s.finish ⟨res, parent, flags⟩ m o)
  | resume {s : Resources} {w : RegionCall} {m : ResourceMem} {o : RegionOutcome}
      (hw : w ∈ s.waiting) (h : Returns (s.mem.requestRegionLocked w.res w.parent w.flags) (m, o)) :
      ResourceStep s (.resume w) ({ s with waiting := s.waiting.erase w }.finish w m o)
  | releaseRegion {s : Resources} {parent start n res : ℕ} {m : ResourceMem}
      (hparent : s.live parent)
      (h : Returns (fun fuel => s.mem.releaseRegionLoop start (lastOf start n) fuel (.child parent))
        (m, some res)) :
      ResourceStep s (.releaseRegion parent start n) ({ s with mem := m }.freeResource res)
  | noRegion {s : Resources} {parent start n : ℕ} {m : ResourceMem} (hparent : s.live parent)
      (h : Returns (fun fuel => s.mem.releaseRegionLoop start (lastOf start n) fuel (.child parent))
        (m, none)) :
      ResourceStep s (.releaseRegion parent start n) { s with mem := m }
  | release {s : Resources} {old : ℕ} {m : ResourceMem} {r : Except Errno Unit}
      (hold : s.live old) (h : Returns (s.mem.releaseResource old) (m, r)) :
      ResourceStep s (.release old) { s with mem := m }

/-- `c` is in the list of the children of `r`. -/
def Child (m : ResourceMem) (r c : ℕ) : Prop :=
  ∃ l, Segment m.sibling (m.child r) l none ∧ c ∈ l

/-- Resources that are requested or inserted are in no list of children, and are not put below
themselves; one that is inserted has no children of its own. A resource that is released has a
parent, or had one that is still there. A region that `__release_region` frees has no children, and
no call waits in it. -/
def ResourceGuard (s : Resources) : ResourceOp → Prop
  | .request root new =>
    (∀ p, s.live p → ¬Child s.mem p new) ∧ ¬Relation.ReflTransGen (Child s.mem) new root
  | .insert parent new =>
    (∀ p, s.live p → ¬Child s.mem p new) ∧ s.mem.child new = none ∧ new ≠ parent
  | .releaseRegion _ start n =>
    ∀ r, s.live r → s.slab r → busy (s.mem.flags r) → s.mem.start r = start →
      s.mem.stop r = lastOf start n → s.mem.child r = none ∧ ∀ w ∈ s.waiting, w.parent ≠ r
  | .release old => ∃ p, s.mem.parent old = some p ∧ s.live p
  | .requestRegion .. | .resume _ => True

/-- No resource is in a tree yet. -/
structure Unlinked (s : Resources) : Prop where
  child : ∀ r, s.live r → s.mem.child r = none
  waiting : s.waiting = []

end MinimalKernel.Resource
