import Mathlib.Data.Int.Basic

/-!
# The input buffers of a terminal

The model of `drivers/tty/tty_buffer.c`. A driver, the producer, puts characters with their flags
into the last of a chain of buffers, and a worker, the consumer, hands them to the line discipline
from the first. Neither takes a lock against the other: the producer owns `tail` and the part of a
buffer beyond `commit`, the consumer owns `head` and the part of a buffer up to `commit`.

A buffer of flag `TTYB_NORMAL` holds characters only, in all of its data; in the data of any other
buffer the characters come first and their flags follow at offset `size`.

A step is one access to a field that both sides use, together with what the same side does to its
own fields. `accepted` and `delivered` record what was put in and what the line discipline has
taken; `handedOut` records the buffers that `tty_buffer_alloc` has returned and `tty_buffer_free`
has not been given back, with the sentinel; `fault` records an access to a buffer that has been
freed, or to data beyond its end.

## Main definitions

* `TtyBuffer`, `TtyPort` — a buffer, and the port with its two sides
* `Insert` — a call that puts characters into the buffers
* `TtyPort.produce`, `TtyPort.consume` — the next step of either side
* `TtyOp`, `TtyStep` — what can happen
-/

namespace MinimalKernel.Tty

open Function

/-- `MIN_TTYB_SIZE`. -/
def minTtybSize : ℕ := 256

/-- `TTY_NORMAL`. -/
def ttyNormal : ℕ := 0

/-- `TTYB_DEFAULT_MEM_LIMIT`. -/
def ttybDefaultMemLimit : ℤ := 640 * 1024

/-- `TTY_BUFFER_PAGE`; a `struct tty_buffer` has 24 bytes in front of its data. -/
def ttyBufferPage : ℕ := (4096 - 24) / 2 / 256 * 256

/-- `__ALIGN_MASK(size, TTYB_ALIGN_MASK)`. -/
def ttybAlign (size : ℕ) : ℕ := (size + 255) / 256 * 256

/-- `struct tty_buffer`. `capacity` is the number of bytes that were allocated for `data`. -/
structure TtyBuffer where
  next : Option ℕ
  used : ℕ
  size : ℕ
  commit : ℕ
  read : ℕ
  /-- `flags & TTYB_NORMAL` -/
  normal : Bool
  capacity : ℕ
  data : ℕ → ℕ

namespace TtyBuffer

/-- `tty_buffer_reset`. -/
def reset (p : TtyBuffer) (size : ℕ) : TtyBuffer :=
  { p with used := 0, size := size, next := none, commit := 0, read := 0, normal := false }

/-- How many characters the buffer can hold. -/
def room (b : TtyBuffer) : ℕ := if b.normal then 2 * b.size else b.size

/-- The character at position `i` with its flag, as the line discipline sees it. -/
def pair (b : TtyBuffer) (i : ℕ) : ℕ × ℕ :=
  (b.data i, if b.normal then ttyNormal else b.data (b.size + i))

end TtyBuffer

/-- A call that puts characters into the buffers: what remains of them with their flags, whether it
asks for a buffer of flag `TTYB_NORMAL`, and whether it copies flags without looking at that of
the buffer. -/
structure Insert where
  rest : List (ℕ × ℕ)
  normal : Bool
  perChar : Bool

/-- `tty_insert_flip_string_fixed_flag`. -/
def ttyInsertFlipStringFixedFlag (chars : List ℕ) (flag : ℕ) : Insert :=
  ⟨chars.map (·, flag), flag = ttyNormal, false⟩

/-- `tty_insert_flip_string_flags`. -/
def ttyInsertFlipStringFlags (pairs : List (ℕ × ℕ)) : Insert := ⟨pairs, false, true⟩

/-- `__tty_insert_flip_char`, which does what a string of one character does. -/
def ttyInsertFlipChar (ch flag : ℕ) : Insert := ttyInsertFlipStringFixedFlag [ch] flag

/-- How many characters the loop asks for. -/
def Insert.goal (i : Insert) : ℕ := min i.rest.length ttyBufferPage

/-- A call of `__tty_buffer_request_room` that needs a new buffer. -/
structure Request where
  insert : Insert
  size : ℕ
  change : Bool
  left : ℕ

/-- Where the producer is. -/
inductive Producer
  | idle
  /-- `__tty_buffer_request_room` -/
  | room (insert : Insert)
  /-- `tty_buffer_alloc`: `llist_del_first`, `mem_used`, `kmalloc`, and with a buffer -/
  | delFirst (r : Request)
  | limit (r : Request)
  | kmalloc (r : Request)
  | found (p : ℕ) (r : Request)
  /-- the two stores to the buffer `b` that was the last one -/
  | commit (b n : ℕ) (r : Request)
  | link (b n : ℕ) (r : Request)
  /-- there is room for `space` characters -/
  | write (insert : Insert) (space : ℕ)

/-- Where the consumer is, in `flush_to_ldisc`. -/
inductive Consumer
  | idle
  | loop
  | gotNext (next : Option ℕ)
  | drop (next : ℕ)
  | free (b : ℕ)
  | receive (count : ℕ)

/-- The port with its buffers, which are named by their addresses, and its two sides. -/
structure TtyPort where
  allocated : ℕ → Bool
  buf : ℕ → TtyBuffer
  head : ℕ
  tail : ℕ
  free : List ℕ
  memUsed : ℤ
  producer : Producer
  consumer : Consumer
  accepted : List (ℕ × ℕ)
  delivered : List (ℕ × ℕ)
  handedOut : List ℕ
  fault : Bool

/-- The address of the field `sentinel`. -/
def sentinel : ℕ := 0

/-- `tty_buffer_init`; the other addresses hold anything. -/
def ttyBufferInit (mem : ℕ → TtyBuffer) : TtyPort where
  allocated := fun b => b = sentinel
  buf := update mem sentinel { (mem sentinel).reset 0 with capacity := 0 }
  head := sentinel
  tail := sentinel
  free := []
  memUsed := 0
  producer := .idle
  consumer := .idle
  accepted := []
  delivered := []
  handedOut := [sentinel]
  fault := false

namespace TtyPort

/-- The buffer `b` is written. -/
def setBuf (s : TtyPort) (b : ℕ) (x : TtyBuffer) : TtyPort :=
  { s with buf := update s.buf b x }

/-- The buffer `b` is accessed; `inside` says that the access is inside its data. -/
def access (s : TtyPort) (b : ℕ) (inside : Bool) : TtyPort :=
  { s with fault := s.fault || !(s.allocated b && inside) }

end TtyPort

/-- After `__tty_buffer_request_room` has returned `space`. -/
def Insert.afterRoom (i : Insert) (space : ℕ) : Producer :=
  if space = 0 then .idle else .write i space

/-- After `tty_buffer_alloc` has failed. -/
def Request.failed (r : Request) : Producer :=
  r.insert.afterRoom (if r.change then 0 else r.left)

/-- The copies into the data of the buffer `b`. -/
def Insert.copy (i : Insert) (space : ℕ) (b : TtyBuffer) : ℕ → ℕ := fun j =>
  if (!b.normal || i.perChar) ∧ b.size + b.used ≤ j ∧ j < b.size + b.used + space then
    (i.rest.getD (j - (b.size + b.used)) (0, 0)).2
  else if b.used ≤ j ∧ j < b.used + space then (i.rest.getD (j - b.used) (0, 0)).1
  else b.data j

namespace TtyPort

/-- The next step of the producer. `mem` is what `kmalloc` returns: an address and what is there. -/
def produce (s : TtyPort) (mem : Option (ℕ × TtyBuffer)) : Option TtyPort :=
  match s.producer with
  | .idle => none
  | .room i =>
    let b := s.buf s.tail
    let left := b.room - b.used
    let change := b.normal && !i.normal
    let size := i.goal
    let r : Request := ⟨i, size, change, left⟩
    some { s.access s.tail true with
      producer :=
        if change || left < size then
          if ttybAlign size ≤ minTtybSize then .delFirst r else .limit r
        else i.afterRoom size }
  | .delFirst r =>
    match s.free with
    | [] => some { s with producer := .limit r }
    | p :: free => some { s with free := free, producer := .found p r }
  | .limit r =>
    some { s with
      producer := if ttybDefaultMemLimit < s.memUsed then r.failed else .kmalloc r }
  | .kmalloc r =>
    match mem with
    | none => some { s with producer := r.failed }
    | some (p, x) =>
      some { s.setBuf p { x with capacity := 2 * ttybAlign r.size } with
        allocated := update s.allocated p true
        producer := .found p r }
  | .found p r =>
    let size := ttybAlign r.size
    some { (s.access p true).setBuf p { (s.buf p).reset size with normal := r.insert.normal } with
      memUsed := s.memUsed + size
      handedOut := p :: s.handedOut
      tail := p
      producer := .commit s.tail p r }
  | .commit b n r =>
    some { (s.access b true).setBuf b { s.buf b with commit := (s.buf b).used } with
      producer := .link b n r }
  | .link b n r =>
    some { (s.access b true).setBuf b { s.buf b with next := some n } with
      producer := r.insert.afterRoom r.size }
  | .write i space =>
    let b := s.buf s.tail
    let inside := b.used + space ≤ b.capacity ∧
      ((!b.normal || i.perChar) → b.size + b.used + space ≤ b.capacity)
    let rest := i.rest.drop space
    some { (s.access s.tail inside).setBuf s.tail
        { b with data := i.copy space b, used := b.used + space } with
      accepted := s.accepted ++ i.rest.take space
      producer := if rest = [] then .idle else .room { i with rest := rest } }

/-- The next step of the consumer. `stop` is the answer of `atomic_read(&buf->priority)`, and the
line discipline takes `accept` characters, or all that it is given. -/
def consume (s : TtyPort) (accept : ℕ) (stop : Bool) : Option TtyPort :=
  match s.consumer with
  | .idle => none
  | .loop =>
    if stop then some { s with consumer := .idle }
    else some { s.access s.head true with consumer := .gotNext (s.buf s.head).next }
  | .gotNext next =>
    let head := s.buf s.head
    let count := head.commit - head.read
    some { s.access s.head true with
      consumer :=
        if count = 0 then
          match next with
          | none => .idle
          | some n => .drop n
        else .receive count }
  | .drop n =>
    some { s.access s.head true with
      head := n
      memUsed := s.memUsed - (s.buf s.head).size
      handedOut := s.handedOut.erase s.head
      consumer := .free s.head }
  | .free b =>
    let s := s.access b true
    let size := (s.buf b).size
    if minTtybSize < size then
      some { s with allocated := update s.allocated b false, consumer := .loop }
    else if 0 < size then
      some { s with free := b :: s.free, consumer := .loop }
    else
      some { s with consumer := .loop }
  | .receive count =>
    let head := s.buf s.head
    let inside := head.read + count ≤ head.capacity ∧
      (!head.normal → head.size + head.read + count ≤ head.capacity)
    let n := min accept count
    let zeroed := fun j => if head.read ≤ j ∧ j < head.read + n then 0 else head.data j
    some { (s.access s.head inside).setBuf s.head
        { head with data := zeroed, read := head.read + n } with
      delivered := s.delivered ++ (List.range' head.read n).map head.pair
      consumer := if n = 0 then .idle else .loop }

/-- `tty_flip_buffer_push`, as far as the buffers go. -/
def push (s : TtyPort) : TtyPort :=
  (s.access s.tail true).setBuf s.tail { s.buf s.tail with commit := (s.buf s.tail).used }

end TtyPort

/-- What can happen to a port. -/
inductive TtyOp
  | insertFixedFlag (chars : List ℕ) (flag : ℕ)
  | insertFlags (pairs : List (ℕ × ℕ))
  | insertChar (ch flag : ℕ)
  | push
  | produce (mem : Option (ℕ × TtyBuffer))
  | flush
  | consume (accept : ℕ) (stop : Bool)

/-- One producer makes one call after the other, and one worker runs `flush_to_ldisc`. `kmalloc`
returns memory that is not in use. -/
inductive TtyStep : TtyPort → TtyOp → TtyPort → Prop
  | insertFixedFlag {s : TtyPort} {chars : List ℕ} {flag : ℕ} (h : s.producer = .idle) :
      TtyStep s (.insertFixedFlag chars flag)
        { s with producer := .room (ttyInsertFlipStringFixedFlag chars flag) }
  | insertFlags {s : TtyPort} {pairs : List (ℕ × ℕ)} (h : s.producer = .idle) :
      TtyStep s (.insertFlags pairs)
        { s with producer := .room (ttyInsertFlipStringFlags pairs) }
  | insertChar {s : TtyPort} {ch flag : ℕ} (h : s.producer = .idle) :
      TtyStep s (.insertChar ch flag) { s with producer := .room (ttyInsertFlipChar ch flag) }
  | push {s : TtyPort} (h : s.producer = .idle) : TtyStep s .push s.push
  | produce {s s' : TtyPort} {mem : Option (ℕ × TtyBuffer)}
      (hmem : ∀ p x, mem = some (p, x) → s.allocated p = false) (h : s.produce mem = some s') :
      TtyStep s (.produce mem) s'
  | flush {s : TtyPort} (h : s.consumer = .idle) : TtyStep s .flush { s with consumer := .loop }
  | consume {s s' : TtyPort} {accept : ℕ} {stop : Bool} (h : s.consume accept stop = some s') :
      TtyStep s (.consume accept stop) s'

end MinimalKernel.Tty
