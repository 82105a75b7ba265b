import MinimalKernel.Tty.FlipBuffer
import MinimalKernel.Lib.Run
import Mathlib.Algebra.BigOperators.Group.List.Basic
import Mathlib.Data.List.GetD
import Mathlib.Data.List.Nodup
import Mathlib.Algebra.Ring.Nat

/-!
# The input buffers of a terminal in every run

The buffers that can be reached from `head` form a chain. All but the last one are committed: the
producer sets `commit` before it links the next buffer, so that a consumer that sees a next buffer
and has read up to `commit` has read all that was put into the first. What is in the chain and has
not been read is what was accepted and not delivered (`TtyOk.data`).

A buffer is in the chain, on the free list, in the hands of the producer, who has not linked it yet,
or in those of the consumer, who is about to free it, and in one of these only (`TtyOk.nodup`).

## Main definitions

* `Queue` — buffers that are linked, all but the last one committed
* `TtyOk` — the invariant, for the chain of linked buffers

## Main results

* `TtyOk.produce`, `TtyOk.consume` — a step of either side keeps the invariant
* `ttyFlipBuffer_run` — what holds in every run
-/

namespace MinimalKernel.Tty

open Function (update update_apply update_of_ne update_self)

open Lib List Option Producer TtyPort

/-! ### The chain of buffers -/

/-- What is in the buffer and has not been delivered. -/
def unread (x : TtyBuffer) : List (ℕ × ℕ) := (range' x.read (x.used - x.read)).map x.pair

/-- The counters of a buffer are in order, and it holds no more than there is room for. -/
structure BufOk (x : TtyBuffer) : Prop where
  aligned : minTtybSize ∣ x.size
  capacity : 2 * x.size ≤ x.capacity
  read_le : x.read ≤ x.commit
  commit_le : x.commit ≤ x.used
  used_le : x.used ≤ x.room

/-- The buffers of `l` are linked, and all but the last one are committed. -/
def Queue (buf : ℕ → TtyBuffer) : List ℕ → Prop
  | [] => False
  | [b] => (buf b).next = none
  | b :: n :: l => (buf b).next = some n ∧ (buf b).commit = (buf b).used ∧ Queue buf (n :: l)

namespace Queue

variable {buf buf' : ℕ → TtyBuffer} {l : List ℕ} {b n : ℕ} {x : TtyBuffer}

section

variable (h : Queue buf l)
include h

theorem congr (hn : ∀ b ∈ l, (buf' b).next = (buf b).next)
    (hd : ∀ b ∈ l, (buf b).commit = (buf b).used → (buf' b).commit = (buf' b).used) :
    Queue buf' l := by
  fun_induction Queue buf l <;> grind [Queue]

theorem next_last (hb : l.getLast? = some b) : (buf b).next = none := by
  fun_induction Queue buf l <;> grind

/-- The last buffer may change as long as nothing follows it. -/
theorem update_last (hl : l.Nodup) (hb : l.getLast? = some b)
    (hx : x.next = none) : Queue (update buf b x) l := by
  fun_induction Queue buf l <;> grind [Queue, update_apply]

/-- A buffer is linked behind the last one. -/
theorem snoc (hl : (l ++ [n]).Nodup) (hb : l.getLast? = some b)
    (hdone : (buf b).commit = (buf b).used) (hn : (buf n).next = none) :
    Queue (update buf b { buf b with next := some n }) (l ++ [n]) := by
  fun_induction Queue buf l <;> grind [Queue, update_apply]

end

/-- If a buffer follows the first one then the first one is committed. -/
theorem of_next (h : Queue buf (b :: l)) (hn : (buf b).next = some n) :
    ∃ l', l = n :: l' ∧ (buf b).commit = (buf b).used ∧ Queue buf (n :: l') := by
  cases l <;> grind [Queue]

end Queue

/-! ### The invariant -/

/-- A buffer that is in the hands of the producer and not linked. -/
def Producer.own : Producer → List ℕ
  | .found p _ => [p]
  | .commit _ n _ | .link _ n _ => [n]
  | _ => []

/-- The last buffer that is linked. -/
def Producer.last (tail : ℕ) : Producer → ℕ
  | .commit b _ _ | .link b _ _ => b
  | _ => tail

/-- A buffer that is handed out and not yet linked. -/
def Producer.pending : Producer → List ℕ
  | .commit _ n _ | .link _ n _ => [n]
  | _ => []

/-- The producer holds no buffer of its own. -/
def Producer.bare : Producer → Bool
  | .found .. | .commit .. | .link .. => false
  | _ => true

section

variable {q : Producer}

theorem Producer.own_of_bare (h : q.bare) : q.own = [] := by
  cases q <;> first | rfl | cases h

theorem Producer.last_of_bare (h : q.bare) (tail : ℕ) : q.last tail = tail := by
  cases q <;> first | rfl | cases h

theorem Producer.pending_of_bare (h : q.bare) : q.pending = [] := by
  cases q <;> first | rfl | cases h

theorem Producer.pending_sublist (q : Producer) : q.pending.Sublist q.own := by
  cases q <;> first | exact .refl _ | exact nil_sublist _

end

/-- A buffer that the consumer is about to free. -/
def Consumer.own : Consumer → List ℕ
  | .free b => [b]
  | _ => []

namespace TtyPort

/-- The buffers outside of the chain that are in use. -/
def owned (s : TtyPort) : List ℕ := s.free ++ s.producer.own ++ s.consumer.own

end TtyPort

/-- The flags of a call are normal if it asks for a buffer of normal characters. -/
structure Insert.Ok (i : Insert) : Prop where
  normal : i.normal → ∀ p ∈ i.rest, p.2 = ttyNormal
  perChar : i.perChar → i.normal = false

/-- A request is about the last buffer `x`. -/
structure RequestOk (x : TtyBuffer) (r : Request) : Prop where
  insert : r.insert.Ok
  size : r.size ≤ r.insert.rest.length
  change : r.change = (x.normal && !r.insert.normal)
  left : r.left = x.room - x.used
  need : r.change ∨ r.left < r.size

/-- The buffer is new, and as requested. -/
structure NewBuf (x : TtyBuffer) (r : Request) : Prop where
  ok : BufOk x
  used : x.used = 0
  next : x.next = none
  normal : x.normal = r.insert.normal
  insert : r.insert.Ok
  size : r.size ≤ r.insert.rest.length
  room : r.size ≤ x.room

/-- There is room for what is to be written. -/
structure WriteOk (x : TtyBuffer) (i : Insert) (space : ℕ) : Prop where
  insert : i.Ok
  pos : 0 < space
  size : space ≤ i.rest.length
  room : x.used + space ≤ x.room
  normal : x.normal → i.normal

variable (buf : ℕ → TtyBuffer)

/-- What the producer knows. -/
def ProducerOk (tail : ℕ) : Producer → Prop
  | .idle => True
  | .room i => i.Ok
  | .delFirst r => RequestOk (buf tail) r ∧ ttybAlign r.size ≤ minTtybSize
  | .limit r | .kmalloc r => RequestOk (buf tail) r
  | .found p r => RequestOk (buf tail) r ∧ 2 * ttybAlign r.size ≤ (buf p).capacity
  | .commit _ n r => tail = n ∧ NewBuf (buf n) r
  | .link b n r => tail = n ∧ NewBuf (buf n) r ∧ (buf b).commit = (buf b).used
  | .write i space => WriteOk (buf tail) i space

/-- What the consumer knows. -/
def ConsumerOk (head : ℕ) : Consumer → Prop
  | .idle | .loop | .gotNext none => True
  | .gotNext (some n) => (buf head).next = some n
  | .drop n => (buf head).next = some n ∧ (buf head).read = (buf head).used
  | .free b => BufOk (buf b)
  | .receive count => (buf head).read + count ≤ (buf head).commit

/-- The buffers of the chain `l`. -/
structure ChainOk (buf : ℕ → TtyBuffer) (head last : ℕ) (l : List ℕ) : Prop where
  queue : Queue buf l
  head : l.head? = some head
  last : l.getLast? = some last
  nodup : l.Nodup
  bufs : ∀ b ∈ l, BufOk (buf b)

/-- The sizes of the buffers of a chain. -/
def sizes (l : List ℕ) : ℕ := (l.map fun b => (buf b).size).sum

/-- What is in the buffers of a chain. -/
def contents (l : List ℕ) : List (ℕ × ℕ) := l.flatMap fun b => unread (buf b)

variable {q : Producer}

section

variable {buf buf' : ℕ → TtyBuffer} {head last b : ℕ} {l : List ℕ} {x : TtyBuffer}
  {d : List (ℕ × ℕ)}

theorem BufOk.committed (h : BufOk x) : BufOk { x with commit := x.used } :=
  ⟨h.aligned, h.capacity, le_trans h.read_le h.commit_le, le_rfl, h.used_le⟩

theorem bufOk_update (h : ∀ c ∈ l, BufOk (buf c)) (hx : BufOk x) :
    ∀ c ∈ l, BufOk (update buf b x c) := by
  intro c hc
  rcases eq_or_ne c b with rfl | hne
  · rwa [update_self]
  · rw [update_of_ne hne]
    exact h c hc

theorem ChainOk.congr (h : ChainOk buf head last l) (hb : ∀ b ∈ l, buf' b = buf b) :
    ChainOk buf' head last l where
  __ := h
  queue := h.queue.congr (fun b hm => by rw [hb b hm]) fun b hm e => by rw [hb b hm, e]
  bufs := fun b hm => by
    rw [hb b hm]
    exact h.bufs b hm

theorem ChainOk.update_last (h : ChainOk buf head last l) (hnext : x.next = none)
    (hx : BufOk x) : ChainOk (update buf last x) head last l where
  __ := h
  queue := h.queue.update_last h.nodup h.last hnext
  bufs := bufOk_update h.bufs hx

theorem sizes_congr (h : ∀ b ∈ l, (buf' b).size = (buf b).size) : sizes buf' l = sizes buf l :=
  congrArg sum (map_congr_left h)

theorem contents_congr (h : ∀ b ∈ l, unread (buf' b) = unread (buf b)) :
    contents buf' l = contents buf l := by
  simp only [contents, flatMap_def]
  rw [map_congr_left h]

theorem update_eq_of_notMem {α : Type} {f : ℕ → α} {y : α} (h : b ∉ l) :
    ∀ c ∈ l, update f b y c = f c :=
  fun c hc => update_of_ne (fun e : c = b => h (e ▸ hc)) ..

theorem contents_update_of_notMem (h : b ∉ l) : contents (update buf b x) l = contents buf l :=
  contents_congr fun c hc => congrArg unread (update_eq_of_notMem h c hc)

theorem sizes_update_of_notMem (h : b ∉ l) : sizes (update buf b x) l = sizes buf l :=
  sizes_congr fun c hc => congrArg TtyBuffer.size (update_eq_of_notMem h c hc)

theorem sizes_update (h : x.size = (buf b).size) : sizes (update buf b x) l = sizes buf l :=
  sizes_congr fun c _ => by grind [update_apply]

theorem contents_update (h : unread x = unread (buf b)) :
    contents (update buf b x) l = contents buf l :=
  contents_congr fun c _ => by grind [update_apply]

/-- What is put into the last buffer comes last. -/
theorem contents_update_last (hl : l.Nodup) (hb : l.getLast? = some b)
    (hx : unread x = unread (buf b) ++ d) : contents (update buf b x) l = contents buf l ++ d := by
  obtain ⟨l', rfl⟩ := getLast?_eq_some_iff.1 hb
  have hinit : contents (update buf b x) l' = contents buf l' :=
    contents_update_of_notMem (nodup_cons.1 (nodup_append_comm.1 hl)).1
  simp only [contents, flatMap_append, flatMap_singleton, update_self] at hinit ⊢
  rw [hinit, hx, append_assoc]

/-- What is taken from the first buffer comes first. -/
theorem contents_update_head (hl : (b :: l).Nodup) (hx : unread (buf b) = d ++ unread x) :
    contents buf (b :: l) = d ++ contents (update buf b x) (b :: l) := by
  have hrest : contents (update buf b x) l = contents buf l :=
    contents_update_of_notMem (nodup_cons.1 hl).1
  simp only [contents, flatMap_cons, update_self] at hrest ⊢
  rw [hrest, hx, append_assoc]

/-- The producer changes the last buffer, or one that is not linked. -/
theorem ConsumerOk.update {q : Consumer} (h : ConsumerOk buf head q) (hown : b ∉ q.own)
    (hx : b = head → (buf b).next = none ∧ x.read = (buf b).read ∧ (buf b).commit ≤ x.commit) :
    ConsumerOk (Function.update buf b x) head q := by
  rcases eq_or_ne head b with rfl | hne
  · obtain ⟨hnext, hread, hcommit⟩ := hx rfl
    rcases q with _ | _ | _ | _ | _ | _ | _ <;>
      simp only [ConsumerOk, Consumer.own, update_apply] at h hown ⊢ <;> grind
  · rcases q with _ | _ | _ | _ | _ | _ | _ <;>
      simp only [ConsumerOk, Consumer.own, update_apply] at h hown ⊢ <;> grind

/-- The consumer changes the first buffer. -/
theorem ProducerOk.update {tail : ℕ} (h : ProducerOk buf tail q) (hown : b ∉ q.own)
    (hused : x.used = (buf b).used) (hsize : x.size = (buf b).size)
    (hnormal : x.normal = (buf b).normal) (hcommit : x.commit = (buf b).commit) :
    ProducerOk (Function.update buf b x) tail q := by
  have hroom : x.room = (buf b).room := by simp only [TtyBuffer.room, hnormal, hsize]
  have hreq : ∀ r, RequestOk (buf tail) r → RequestOk (Function.update buf b x tail) r := by
    intro r hr
    rcases eq_or_ne tail b with rfl | hne
    · rw [update_self]
      exact ⟨hr.insert, hr.size, hnormal ▸ hr.change, by rw [hroom, hused, hr.left], hr.need⟩
    · rwa [update_of_ne hne]
  cases q <;> simp only [ProducerOk, own, mem_singleton] at h hown ⊢ <;>
    grind [WriteOk, update_apply]

end

/-- The invariant, for the chain `l` of linked buffers. -/
structure TtyOk (s : TtyPort) (l : List ℕ) : Prop where
  chain : ChainOk s.buf s.head (s.producer.last s.tail) l
  nodup : (l ++ s.owned).Nodup
  live : ∀ b ∈ l ++ s.owned, s.allocated b
  spare : ∀ b ∈ s.free, 2 * minTtybSize ≤ (s.buf b).capacity
  out : s.handedOut.Perm (l ++ s.producer.pending)
  mem : s.memUsed = (sizes s.buf s.handedOut : ℕ)
  data : s.accepted = s.delivered ++ contents s.buf l
  producer : ProducerOk s.buf s.tail s.producer
  consumer : ConsumerOk s.buf s.head s.consumer
  fault : s.fault = false

variable {x : TtyBuffer}

namespace TtyOk

variable {s : TtyPort} {l : List ℕ} {b : ℕ}

theorem init (mem : ℕ → TtyBuffer) : TtyOk (ttyBufferInit mem) [sentinel] := by
  have hbuf : (ttyBufferInit mem).buf sentinel =
      { (mem sentinel).reset 0 with capacity := 0 } := by
    simp [ttyBufferInit]
  have hunread : unread ((ttyBufferInit mem).buf sentinel) = [] := by rw [hbuf]; rfl
  refine ⟨⟨?_, rfl, rfl, nodup_singleton _, fun b hb => ?_⟩, nodup_singleton _,
    fun b hb => ?_, nofun, .refl _, ?_, ?_, trivial, trivial, rfl⟩
  · rw [Queue, hbuf]
    rfl
  · rw [mem_singleton.1 hb, hbuf]
    exact ⟨Nat.dvd_zero _, le_rfl, le_rfl, le_rfl, le_rfl⟩
  · rw [mem_singleton.1 hb]
    rfl
  · show (0 : ℤ) = (sizes _ [sentinel] : ℕ)
    rfl
  · rw [contents, flatMap_singleton, hunread]
    rfl

section

variable (h : TtyOk s l)
include h

/-- An access to a buffer in use, and inside of it, is no fault. -/
theorem access_eq (hb : b ∈ l ++ s.owned) : s.access b true = s := by
  have : (s.fault || !(s.allocated b && true)) = s.fault := by rw [h.live b hb]; simp
  rw [access, this]

theorem head_mem : s.head ∈ l := mem_of_head? h.chain.head

theorem last_mem : s.producer.last s.tail ∈ l := mem_of_getLast? h.chain.last

/-- The producer goes on. -/
theorem setProducer (hlast : q.last s.tail = s.producer.last s.tail) (hown : q.own = s.producer.own)
    (hpending : q.pending = s.producer.pending) (hq : ProducerOk s.buf s.tail q) :
    TtyOk { s with producer := q } l := by
  obtain ⟨hchain, hnodup, hlive, hspare, hout, hmem, hdata, -, hconsumer, hfault⟩ := h
  rw [← hlast] at hchain
  rw [owned, ← hown] at hnodup hlive
  rw [← hpending] at hout
  exact ⟨hchain, hnodup, hlive, hspare, hout, hmem, hdata, hq, hconsumer, hfault⟩

/-- The consumer goes on. -/
theorem setConsumer {q : Consumer} (hown : q.own = s.consumer.own)
    (hq : ConsumerOk s.buf s.head q) : TtyOk { s with consumer := q } l := by
  obtain ⟨hchain, hnodup, hlive, hspare, hout, hmem, hdata, hproducer, -, hfault⟩ := h
  rw [owned, ← hown] at hnodup hlive
  exact ⟨hchain, hnodup, hlive, hspare, hout, hmem, hdata, hproducer, hq, hfault⟩

section

variable (hb : b ∈ l)
include hb

theorem notMem_owned : b ∉ s.owned :=
  fun hm => (nodup_append.1 h.nodup).2.2 b hb b hm rfl

theorem notMem_producer : b ∉ s.producer.own := fun hm =>
  h.notMem_owned hb (mem_append_left _ (mem_append_right _ hm))

theorem notMem_consumer : b ∉ s.consumer.own := fun hm =>
  h.notMem_owned hb (mem_append_right _ hm)

theorem notMem_free : b ∉ s.free := fun hm =>
  h.notMem_owned hb (mem_append_left _ (mem_append_left _ hm))

end

theorem spare_update (hb : b ∉ s.free) :
    ∀ c ∈ s.free, 2 * minTtybSize ≤ (update s.buf b x c).capacity := by
  intro c hc
  rw [update_eq_of_notMem hb c hc]
  exact h.spare c hc

/-- The producer changes the last buffer and puts `d` into it. -/
theorem updateLast {d : List (ℕ × ℕ)} (hb : s.producer.last s.tail = b) (hok : BufOk x)
    (hnext : x.next = (s.buf b).next) (hsize : x.size = (s.buf b).size)
    (hread : x.read = (s.buf b).read) (hcommit : (s.buf b).commit ≤ x.commit)
    (hdata : unread x = unread (s.buf b) ++ d) (hlast : q.last s.tail = b)
    (hown : q.own = s.producer.own) (hpending : q.pending = s.producer.pending)
    (hq : ProducerOk (update s.buf b x) s.tail q) :
    TtyOk { s.setBuf b x with accepted := s.accepted ++ d, producer := q } l := by
  have hmem : b ∈ l := hb ▸ h.last_mem
  have hchain := h.chain
  rw [hb] at hchain
  have hnone : (s.buf b).next = none := hchain.queue.next_last hchain.last
  have hnodup := h.nodup
  have hlive := h.live
  have hout := h.out
  rw [owned, ← hown] at hnodup hlive
  rw [← hpending] at hout
  exact {
    chain := hlast.symm ▸ hchain.update_last (hnext.trans hnone) hok
    nodup := hnodup
    live := hlive
    spare := h.spare_update (h.notMem_free hmem)
    out := hout
    mem := h.mem.trans (congrArg _ (sizes_update hsize).symm)
    data := by
      show s.accepted ++ d = s.delivered ++ contents (update s.buf b x) l
      rw [contents_update_last hchain.nodup hchain.last hdata, h.data, append_assoc]
    producer := hq
    consumer := h.consumer.update (h.notMem_consumer hmem) fun _ => ⟨hnone, hread, hcommit⟩
    fault := h.fault }

/-- A buffer is written that is in the hands of the producer. -/
theorem setBuf (hl : b ∉ l) (hfree : b ∉ s.free) (hcons : b ∉ s.consumer.own)
    (hout : b ∉ s.handedOut) (hq : ProducerOk (update s.buf b x) s.tail s.producer) :
    TtyOk (s.setBuf b x) l :=
  { h with
    chain := h.chain.congr (update_eq_of_notMem hl)
    spare := h.spare_update hfree
    mem := h.mem.trans (congrArg _ (sizes_update_of_notMem hout).symm)
    data := h.data.trans (congrArg _ (contents_update_of_notMem hl).symm)
    producer := hq
    consumer := h.consumer.update hcons fun e => absurd h.head_mem (e ▸ hl) }

end

end TtyOk

/-! ### The producer -/

namespace TtyOk

variable {s s' : TtyPort} {l : List ℕ} {b n p : ℕ} {i : Insert} {r : Request}

theorem unread_nil (h : x.used = 0) : unread x = [] := by
  rw [unread, h, Nat.zero_sub]
  rfl

theorem newBuf (hr : RequestOk (s.buf s.tail) r)
    (hcap : 2 * ttybAlign r.size ≤ (s.buf p).capacity) :
    NewBuf { (s.buf p).reset (ttybAlign r.size) with normal := r.insert.normal } r where
  __ := hr
  ok := by
    refine ⟨Dvd.intro_left _ rfl, hcap, le_rfl, le_rfl, Nat.zero_le _⟩
  used := rfl
  next := rfl
  normal := rfl
  room := by
    have hle : r.size ≤ ttybAlign r.size := by
      rw [ttybAlign]
      omega
    show r.size ≤ if r.insert.normal = true then 2 * ttybAlign r.size else ttybAlign r.size
    split <;> omega

section

variable (h : TtyOk s l)
include h

/-- The producer goes on, without a buffer of its own. -/
theorem setBare (hs : s.producer.bare) (hq : q.bare) (hok : ProducerOk s.buf s.tail q) :
    TtyOk { s with producer := q } l := by
  refine h.setProducer ?_ ?_ ?_ hok
  · rw [last_of_bare hq, last_of_bare hs]
  · rw [own_of_bare hq, own_of_bare hs]
  · rw [pending_of_bare hq, pending_of_bare hs]

theorem producer_of (hp : s.producer = q) : ProducerOk s.buf s.tail q := hp ▸ h.producer

theorem last_of_bare (hs : s.producer.bare) : ChainOk s.buf s.head s.tail l :=
  Producer.last_of_bare hs s.tail ▸ h.chain

theorem out_of_bare (hs : s.producer.bare) : s.handedOut.Perm (l ++ []) :=
  Producer.pending_of_bare hs ▸ h.out

theorem notMem_out (hl : b ∉ l) (hown : b ∉ s.producer.own) : b ∉ s.handedOut := by
  intro hm
  rcases mem_append.1 (h.out.mem_iff.1 hm) with hm | hm
  · exact hl hm
  · exact hown ((pending_sublist _).subset hm)

section

variable (hs : s.producer.bare)
include hs

theorem tail_mem : s.tail ∈ l :=
  mem_of_getLast? (h.last_of_bare hs).last

/-- After a request that needs no new buffer, or got none. -/
theorem afterRoom {space : ℕ} (hi : 0 < space → WriteOk (s.buf s.tail) i space) :
    TtyOk { s with producer := i.afterRoom space } l := by
  rw [Insert.afterRoom]
  split
  · exact h.setBare hs rfl trivial
  · exact h.setBare hs rfl (hi (by omega))

theorem failed (hr : RequestOk (s.buf s.tail) r) : TtyOk { s with producer := r.failed } l := by
  refine h.afterRoom hs fun hpos => ?_
  have hneed := hr.need
  have hleft := hr.left
  have hsize := hr.size
  cases hc : r.change
  · simp only [hc, Bool.false_eq_true, if_false, false_or] at hpos hneed ⊢
    refine ⟨hr.insert, hpos, by omega, by omega, fun hn => ?_⟩
    have hchange := hr.change
    rw [hc, hn] at hchange
    simpa using hchange.symm
  · simp [hc] at hpos

end

section

variable {mem : Option (ℕ × TtyBuffer)} (hs : s.produce mem = some s')
include hs

theorem room (hp : s.producer = .room i) : TtyOk s' l := by
  have hi : i.Ok := h.producer_of hp
  have hbare : s.producer.bare := by rw [hp]; rfl
  have hmem : s.tail ∈ l := h.tail_mem hbare
  have hgoal : i.goal ≤ i.rest.length := Nat.min_le_left ..
  simp only [produce, hp, h.access_eq (mem_append_left _ hmem), some.injEq] at hs
  subst hs
  split
  · next hneed =>
    have hr : RequestOk (s.buf s.tail) ⟨i, i.goal, (s.buf s.tail).normal && !i.normal,
        (s.buf s.tail).room - (s.buf s.tail).used⟩ :=
      ⟨hi, hgoal, rfl, rfl, by simpa using hneed⟩
    split
    · next hsmall => exact h.setBare hbare rfl ⟨hr, hsmall⟩
    · exact h.setBare hbare rfl hr
  · next hneed =>
    simp only [Bool.or_eq_true, Bool.and_eq_true, decide_eq_true_eq, not_or, not_and,
      Bool.not_eq_true, Bool.not_eq_false'] at hneed
    exact h.afterRoom hbare fun hpos => ⟨hi, hpos, hgoal, by omega, hneed.1⟩

theorem delFirst (hp : s.producer = .delFirst r) : TtyOk s' l := by
  have hr : RequestOk (s.buf s.tail) r ∧ ttybAlign r.size ≤ minTtybSize := h.producer_of hp
  have hbare : s.producer.bare := by rw [hp]; rfl
  simp only [produce, hp] at hs
  split at hs
  · cases hs
    exact h.setBare hbare rfl hr.1
  · next p free hfree =>
    cases hs
    have hperm : (l ++ (free ++ [p] ++ s.consumer.own)).Perm (l ++ s.owned) := by
      rw [owned, own_of_bare hbare, hfree, append_nil]
      exact List.Perm.append_left l (List.Perm.append_right _ (perm_append_singleton p free))
    exact {
      chain := h.last_of_bare hbare
      nodup := hperm.nodup_iff.2 h.nodup
      live := fun b hb => h.live b (hperm.mem_iff.1 hb)
      spare := fun b hb => h.spare b (hfree ▸ mem_cons_of_mem p hb)
      out := h.out_of_bare hbare
      mem := h.mem
      data := h.data
      producer := by
        have hcap := h.spare p (hfree ▸ mem_cons_self)
        exact ⟨hr.1, le_trans (Nat.mul_le_mul_left 2 hr.2) hcap⟩
      consumer := h.consumer
      fault := h.fault }

theorem limit (hp : s.producer = .limit r) : TtyOk s' l := by
  have hr : RequestOk (s.buf s.tail) r := h.producer_of hp
  have hbare : s.producer.bare := by rw [hp]; rfl
  simp only [produce, hp, some.injEq] at hs
  subst hs
  split
  · exact h.failed hbare hr
  · exact h.setBare hbare rfl hr

/-- New memory is none of the buffers in use. -/
theorem kmalloc (hp : s.producer = .kmalloc r)
    (hmem : ∀ p x, mem = some (p, x) → s.allocated p = false) : TtyOk s' l := by
  have hr : RequestOk (s.buf s.tail) r := h.producer_of hp
  have hbare : s.producer.bare := by rw [hp]; rfl
  simp only [produce, hp] at hs
  split at hs
  · cases hs
    exact h.failed hbare hr
  · next p x =>
    cases hs
    have hfresh : p ∉ l ++ s.owned := fun hm => by
      have := h.live p hm
      rw [hmem p x rfl] at this
      cases this
    have hl : p ∉ l := fun hm => hfresh (mem_append_left _ hm)
    have howned : p ∉ s.owned := fun hm => hfresh (mem_append_right _ hm)
    have hfree : p ∉ s.free := fun hm =>
      howned (mem_append_left _ (mem_append_left _ hm))
    have hout : p ∉ s.handedOut :=
      h.notMem_out hl (by rw [own_of_bare hbare]; exact not_mem_nil)
    have htail : s.tail ≠ p := fun e => hl (e ▸ h.tail_mem hbare)
    have hperm : (l ++ (s.free ++ [p] ++ s.consumer.own)).Perm (p :: (l ++ s.owned)) := by
      rw [owned, own_of_bare hbare, append_nil]
      refine List.Perm.trans (List.Perm.append_left l ?_) perm_middle
      exact List.Perm.append_right _ (perm_append_singleton p s.free)
    have hreq : RequestOk (update s.buf p
        { x with capacity := 2 * ttybAlign r.size } s.tail) r := by
      rwa [update_of_ne htail]
    have h' := h.setBuf hl hfree (fun hm => howned (mem_append_right _ hm)) hout
      (by rw [hp]; exact hreq)
    exact { h' with
      chain := h'.last_of_bare hbare
      nodup := hperm.nodup_iff.2 (nodup_cons.2 ⟨hfresh, h.nodup⟩)
      live := by
        intro b hb
        show update s.allocated p true b = true
        grind [hperm.mem_iff.1 hb, h.live b, update_apply]
      out := h.out_of_bare hbare
      producer := ⟨hreq, by simp [TtyPort.setBuf]⟩ }

/-- The buffer that was found becomes the last one, but the chain does not yet lead to it. -/
theorem found (hp : s.producer = .found p r) : TtyOk s' l := by
  obtain ⟨hr, hcap⟩ : RequestOk (s.buf s.tail) r ∧ 2 * ttybAlign r.size ≤ (s.buf p).capacity :=
    h.producer_of hp
  have howned : s.owned = s.free ++ [p] ++ s.consumer.own := by rw [owned, hp]; rfl
  have hmem : p ∈ s.owned := by rw [howned]; simp
  have hnodup := h.nodup
  rw [howned] at hnodup
  have hl : p ∉ l := fun hm => h.notMem_owned hm hmem
  have hfree : p ∉ s.free := by grind
  have hcons : p ∉ s.consumer.own := by grind
  simp only [produce, hp, h.access_eq (mem_append_right _ hmem), some.injEq]
    at hs
  subst hs
  have hchain := h.chain
  have hout := h.out
  rw [hp] at hchain hout
  have hout' : p ∉ s.handedOut := fun hm =>
    hl (by simpa [pending] using hout.mem_iff.1 hm)
  have htail : s.tail ≠ p := fun e => hl (e ▸ mem_of_getLast? hchain.last)
  have h' := h.setBuf (x := { (s.buf p).reset (ttybAlign r.size) with normal := r.insert.normal })
    hl hfree hcons hout' (by
      rw [hp, ProducerOk, update_of_ne htail, update_self]
      exact ⟨hr, hcap⟩)
  exact { h' with
    chain := hchain.congr (update_eq_of_notMem hl)
    nodup := hnodup
    live := fun b hb => h.live b (by rw [howned]; exact hb)
    out := by
      show (p :: s.handedOut).Perm (l ++ [p])
      refine ((hout.trans ?_).cons p).trans (perm_append_singleton p l).symm
      exact .of_eq (append_nil l)
    mem := by
      show s.memUsed + (ttybAlign r.size : ℤ) =
        ((update s.buf p _ p).size + sizes (update s.buf p _) s.handedOut : ℕ)
      rw [update_self, sizes_update_of_notMem hout', h.mem, Int.natCast_add, Int.add_comm]
      rfl
    producer := by
      refine ⟨rfl, ?_⟩
      show NewBuf (update s.buf p _ p) r
      rw [update_self]
      exact newBuf hr hcap }

theorem commit (hp : s.producer = .commit b n r) : TtyOk s' l := by
  obtain ⟨htail, hnew⟩ : s.tail = n ∧ NewBuf (s.buf n) r := h.producer_of hp
  have hlast : s.producer.last s.tail = b := by rw [hp]; rfl
  have hmem : b ∈ l := hlast ▸ h.last_mem
  have hown : n ∈ s.producer.own := by rw [hp]; exact mem_singleton_self n
  have hne : n ≠ b := fun e => h.notMem_producer hmem (e ▸ hown)
  simp only [produce, hp, h.access_eq (mem_append_left _ hmem), some.injEq] at hs
  subst hs
  have hok := h.chain.bufs b hmem
  have := h.updateLast (d := []) (q := .link b n r)
    (x := { s.buf b with commit := (s.buf b).used }) hlast hok.committed rfl rfl rfl
    hok.commit_le (append_nil _).symm rfl (by rw [hp]; rfl) (by rw [hp]; rfl) ⟨htail, by
      rw [update_of_ne hne]
      exact hnew, by rw [update_self]⟩
  rw [append_nil] at this
  exact this

/-- The chain leads to the new buffer. -/
theorem link (hp : s.producer = .link b n r) : TtyOk s' (l ++ [n]) := by
  obtain ⟨htail, hnew, hdone⟩ :
    s.tail = n ∧ NewBuf (s.buf n) r ∧ (s.buf b).commit = (s.buf b).used := h.producer_of hp
  have hlast : s.producer.last s.tail = b := by rw [hp]; rfl
  have hmem : b ∈ l := hlast ▸ h.last_mem
  have hchain := h.chain
  rw [hlast] at hchain
  have hown : n ∈ s.producer.own := by rw [hp]; exact mem_singleton_self n
  have hl : n ∉ l := fun hm => h.notMem_producer hm hown
  have hne : n ≠ b := fun e => hl (e ▸ hmem)
  have hnodup : (l ++ [n]).Nodup := nodup_append_comm.2 (nodup_cons.2 ⟨hl, hchain.nodup⟩)
  have hperm : (l ++ [n] ++ (s.free ++ [] ++ s.consumer.own)).Perm (l ++ s.owned) := by
    rw [owned, hp, append_assoc, append_nil]
    refine List.Perm.append_left l ?_
    show ([n] ++ (s.free ++ s.consumer.own)).Perm (s.free ++ [n] ++ s.consumer.own)
    rw [append_assoc]
    exact (@perm_middle _ n s.free s.consumer.own).symm
  simp only [produce, hp, h.access_eq (mem_append_left _ hmem), some.injEq] at hs
  subst hs
  set x : TtyBuffer := { s.buf b with next := some n }
  have hidle : TtyOk { s.setBuf b x with producer := .idle } (l ++ [n]) := {
    chain := {
      queue := hchain.queue.snoc hnodup hchain.last hdone hnew.next
      head := by
        rw [head?_append, hchain.head]
        rfl
      last := by
        show (l ++ [n]).getLast? = some s.tail
        rw [getLast?_append, htail]
        rfl
      nodup := hnodup
      bufs := bufOk_update (forall_mem_append.2 ⟨hchain.bufs, forall_mem_singleton.2 hnew.ok⟩)
        { hchain.bufs b hmem with } }
    nodup := hperm.nodup_iff.2 h.nodup
    live := fun c hc => h.live c (hperm.mem_iff.1 hc)
    spare := h.spare_update (h.notMem_free hmem)
    out := by
      have hout := h.out
      rw [hp] at hout
      exact hout.trans (.of_eq (append_nil _).symm)
    mem := h.mem.trans (congrArg _ (sizes_update (show x.size = _ from rfl)).symm)
    data := by
      have hcontents : contents s.buf (l ++ [n]) = contents s.buf l := by
        simp [contents, unread_nil hnew.used]
      have hunread : unread x = unread (s.buf b) := rfl
      exact h.data.trans (congrArg _ ((contents_update hunread).trans hcontents).symm)
    producer := trivial
    consumer := h.consumer.update (h.notMem_consumer hmem) fun _ =>
      ⟨hchain.queue.next_last hchain.last, rfl, le_rfl⟩
    fault := h.fault }
  refine hidle.afterRoom rfl fun hpos => ?_
  show WriteOk (update s.buf b _ s.tail) r.insert r.size
  rw [htail, update_of_ne hne]
  refine ⟨hnew.insert, hpos, hnew.size, ?_, fun hn => hnew.normal ▸ hn⟩
  rw [hnew.used, Nat.zero_add]
  exact hnew.room

end

end

end TtyOk

/-! ### The data of a buffer -/

section

variable {x : TtyBuffer} {i : Insert} {space : ℕ}

theorem room_le (x : TtyBuffer) : x.room ≤ 2 * x.size := by
  rw [TtyBuffer.room]
  split <;> omega

theorem room_of_not_normal (h : x.normal = false) : x.room = x.size := by simp [TtyBuffer.room, h]

section

variable (h : WriteOk x i space)
include h

/-- Flags are copied only into a buffer that has them. -/
theorem WriteOk.hasFlags : (!x.normal || i.perChar) = !x.normal := by
  cases hn : x.normal
  · rfl
  · cases hc : i.perChar
    · rfl
    · have := h.insert.perChar hc
      rw [h.normal hn] at this
      cases this

theorem WriteOk.pair_old {j : ℕ} (hj : j < x.used) :
    TtyBuffer.pair { x with data := i.copy space x, used := x.used + space } j = x.pair j := by
  have hroom := h.room
  simp only [TtyBuffer.pair, Insert.copy, h.hasFlags]
  cases hn : x.normal
  · rw [room_of_not_normal hn] at hroom
    simp only [Bool.not_false, Bool.false_eq_true, if_false, true_and, Prod.mk.injEq]
    constructor
    · rw [if_neg (by omega), if_neg (by omega)]
    · rw [if_neg (by omega), if_neg (by omega)]
  · simp only [Bool.not_true, Bool.false_eq_true, if_true, false_and, if_false, Prod.mk.injEq,
      and_true]
    rw [if_neg (by omega)]

theorem WriteOk.pair_new {k : ℕ} (hk : k < space) :
    TtyBuffer.pair { x with data := i.copy space x, used := x.used + space } (x.used + k) =
      i.rest.getD k (0, 0) := by
  have hroom := h.room
  have hlen : k < i.rest.length := lt_of_lt_of_le hk h.size
  simp only [TtyBuffer.pair, Insert.copy, h.hasFlags]
  cases hn : x.normal
  · rw [room_of_not_normal hn] at hroom
    simp only [Bool.not_false, Bool.false_eq_true, if_false, true_and]
    rw [if_neg (by omega), if_pos (by omega), if_pos (by omega), Nat.add_sub_cancel_left,
      Nat.add_sub_add_left, Nat.add_sub_cancel_left]
  · simp only [Bool.not_true, Bool.false_eq_true, if_true, false_and, if_false]
    rw [if_pos (by omega), Nat.add_sub_cancel_left]
    have hflag := h.insert.normal (h.normal hn) _ (getElem_mem hlen)
    rw [getD_eq_getElem _ _ hlen, ← hflag]

/-- What is copied is what can be read. -/
theorem WriteOk.unread_copy (hx : BufOk x) :
    unread { x with data := i.copy space x, used := x.used + space } =
      unread x ++ i.rest.take space := by
  have hle := le_trans hx.read_le hx.commit_le
  have hrange : range' x.read (x.used + space - x.read) =
      range' x.read (x.used - x.read) ++ range' x.used space := by
    have := range'_append_1 (s := x.read) (m := x.used - x.read) (n := space)
    rw [Nat.add_sub_cancel' hle] at this
    rw [this]
    congr 1
    omega
  simp only [unread, hrange, map_append]
  congr 1
  · refine map_congr_left fun j hj => h.pair_old ?_
    have := mem_range'_1.1 hj
    omega
  · have hlen : space ≤ i.rest.length := h.size
    refine ext_getElem (by simp [hlen]) fun k hk hk' => ?_
    have hks : k < space := by simpa using hk
    simp only [getElem_map, getElem_range', one_mul, getElem_take]
    rw [h.pair_new hks, getD_eq_getElem _ _ (lt_of_lt_of_le hks hlen)]

end

/-- What is taken is what could be read first. -/
theorem unread_take {n : ℕ} (hn : x.read + n ≤ x.used) :
    unread x = (range' x.read n).map x.pair ++ unread { x with
      data := fun j => if x.read ≤ j ∧ j < x.read + n then 0 else x.data j
      read := x.read + n } := by
  have hrange : range' x.read (x.used - x.read) =
      range' x.read n ++ range' (x.read + n) (x.used - (x.read + n)) := by
    rw [range'_append_1]
    congr 1
    omega
  simp only [unread, hrange, map_append]
  congr 1
  refine map_congr_left fun j hj => ?_
  have hj' := (mem_range'_1.1 hj).1
  have hchar : ¬(x.read ≤ j ∧ j < x.read + n) := by omega
  have hflag : ¬(x.read ≤ x.size + j ∧ x.size + j < x.read + n) := by omega
  simp only [TtyBuffer.pair]
  rw [if_neg hchar, if_neg hflag]

end

namespace TtyOk

variable {s s' : TtyPort} {l : List ℕ} {b n p : ℕ} {i : Insert} {r : Request}

section

variable (h : TtyOk s l)
include h

theorem access_of_inside (hb : b ∈ l ++ s.owned) {P : Prop} [Decidable P] (hP : P) :
    s.access b (decide P) = s := by
  rw [decide_eq_true hP]
  exact h.access_eq hb

theorem write {mem : Option (ℕ × TtyBuffer)} (hs : s.produce mem = some s')
    {space : ℕ} (hp : s.producer = .write i space) : TtyOk s' l := by
  have hw : WriteOk (s.buf s.tail) i space := h.producer_of hp
  have hbare : s.producer.bare := by rw [hp]; rfl
  have hmem : s.tail ∈ l := h.tail_mem hbare
  have hok := h.chain.bufs s.tail hmem
  have hcap := hok.capacity
  have hroom := hw.room
  have hle := room_le (s.buf s.tail)
  have hinside : (s.buf s.tail).used + space ≤ (s.buf s.tail).capacity ∧
      ((!(s.buf s.tail).normal || i.perChar) →
        (s.buf s.tail).size + (s.buf s.tail).used + space ≤ (s.buf s.tail).capacity) := by
    refine ⟨by omega, fun hflags => ?_⟩
    rw [hw.hasFlags, Bool.not_eq_true'] at hflags
    rw [room_of_not_normal hflags] at hroom
    omega
  simp only [produce, hp, h.access_of_inside (mem_append_left _ hmem) hinside, some.injEq] at hs
  subst hs
  set x : TtyBuffer := { s.buf s.tail with
    data := i.copy space (s.buf s.tail), used := (s.buf s.tail).used + space }
  have hx : BufOk x :=
    ⟨hok.aligned, hok.capacity, hok.read_le, le_trans hok.commit_le (Nat.le_add_right ..), hroom⟩
  have hnext : ∀ q : Producer, q.bare → ProducerOk (update s.buf s.tail x) s.tail q →
      TtyOk { s.setBuf s.tail x with
        accepted := s.accepted ++ i.rest.take space
        producer := q } l := fun q hq hqok =>
    h.updateLast (Producer.last_of_bare hbare _) hx rfl rfl rfl le_rfl (hw.unread_copy hok)
      (Producer.last_of_bare hq _)
      (by rw [Producer.own_of_bare hq, Producer.own_of_bare hbare])
      (by rw [Producer.pending_of_bare hq, Producer.pending_of_bare hbare]) hqok
  split
  · exact hnext _ rfl trivial
  · exact hnext _ rfl
      ⟨fun hn p hm => hw.insert.normal hn p (mem_of_mem_drop hm), hw.insert.perChar⟩

theorem push (hp : s.producer = .idle) : TtyOk s.push l := by
  have hbare : s.producer.bare := by rw [hp]; rfl
  have hmem : s.tail ∈ l := h.tail_mem hbare
  have hok := h.chain.bufs s.tail hmem
  have := h.updateLast (d := []) (q := .idle) (Producer.last_of_bare hbare _) hok.committed rfl rfl
    rfl hok.commit_le (append_nil _).symm rfl (by rw [hp]) (by rw [hp]) trivial
  rw [append_nil, ← hp] at this
  rw [TtyPort.push, h.access_eq (mem_append_left _ hmem)]
  exact this

/-- **A step of the producer keeps the invariant**; it may make the chain longer. -/
theorem produce {mem : Option (ℕ × TtyBuffer)}
    (hmem : ∀ p x, mem = some (p, x) → s.allocated p = false) (hs : s.produce mem = some s') :
    ∃ l', TtyOk s' l' := by
  cases hp : s.producer with
  | idle => simp [TtyPort.produce, hp] at hs
  | room i => exact ⟨l, h.room hs hp⟩
  | delFirst r => exact ⟨l, h.delFirst hs hp⟩
  | limit r => exact ⟨l, h.limit hs hp⟩
  | kmalloc r => exact ⟨l, h.kmalloc hs hp hmem⟩
  | found p r => exact ⟨l, h.found hs hp⟩
  | commit b n r => exact ⟨l, h.commit hs hp⟩
  | link b n r => exact ⟨l ++ [n], h.link hs hp⟩
  | write i space => exact ⟨l, h.write hs hp⟩

end

/-! ### The consumer -/

section

variable (h : TtyOk s l)
include h

theorem consumer_of {q : Consumer} (hc : s.consumer = q) :
    ConsumerOk s.buf s.head q := hc ▸ h.consumer

theorem access_head : s.access s.head true = s :=
  h.access_eq (mem_append_left _ h.head_mem)

section

variable {accept : ℕ} {stop : Bool} (hs : s.consume accept stop = some s')
include hs

theorem loop (hc : s.consumer = .loop) : TtyOk s' l := by
  have hown : s.consumer.own = [] := by rw [hc]; rfl
  simp only [consume, hc, h.access_head] at hs
  split at hs
  · cases hs
    exact h.setConsumer hown.symm trivial
  · cases hs
    refine h.setConsumer hown.symm ?_
    cases hn : (s.buf s.head).next with
    | none => trivial
    | some n => exact hn

/-- The first buffer is left only when it is used up: there is a next one, so that nothing more
is put into it, and all of it has been read. -/
theorem gotNext {next : Option ℕ} (hc : s.consumer = .gotNext next) : TtyOk s' l := by
  have hown : s.consumer.own = [] := by rw [hc]; rfl
  have hok := h.chain.bufs s.head h.head_mem
  have hread := hok.read_le
  simp only [consume, hc, h.access_head, some.injEq] at hs
  subst hs
  split
  · next hcount =>
    cases next with
    | none => exact h.setConsumer hown.symm trivial
    | some n =>
      have hnext : (s.buf s.head).next = some n := h.consumer_of hc
      refine h.setConsumer hown.symm ⟨hnext, ?_⟩
      obtain ⟨l', rfl⟩ : ∃ l', l = s.head :: l' := head?_eq_some_iff.1 h.chain.head
      obtain ⟨-, -, hdone, -⟩ := h.chain.queue.of_next hnext
      omega
  · next hcount =>
    refine h.setConsumer hown.symm ?_
    show (s.buf s.head).read + ((s.buf s.head).commit - (s.buf s.head).read) ≤
      (s.buf s.head).commit
    omega

theorem drop (hc : s.consumer = .drop n) : ∃ l', TtyOk s' l' := by
  obtain ⟨hnext, hread⟩ : (s.buf s.head).next = some n ∧
    (s.buf s.head).read = (s.buf s.head).used := h.consumer_of hc
  simp only [consume, hc, h.access_head, some.injEq] at hs
  subst hs
  obtain ⟨l', rfl⟩ : ∃ l', l = s.head :: l' := head?_eq_some_iff.1 h.chain.head
  obtain ⟨l', rfl, -, hqueue⟩ := h.chain.queue.of_next hnext
  have hempty : unread (s.buf s.head) = [] := by
    rw [unread, hread, Nat.sub_self]
    rfl
  have hperm : ((n :: l') ++ (s.free ++ s.producer.own ++ [s.head])).Perm
      ((s.head :: n :: l') ++ s.owned) := by
    have howned : s.owned = s.free ++ s.producer.own := by
      rw [owned, hc]
      exact append_nil _
    rw [howned, ← append_assoc]
    exact perm_append_singleton ..
  have hout : (s.head :: s.handedOut.erase s.head).Perm s.handedOut :=
    (perm_cons_erase (h.out.mem_iff.2 mem_cons_self)).symm
  exact ⟨n :: l', {
    chain := {
      queue := hqueue
      head := rfl
      last := h.chain.last
      nodup := (nodup_cons.1 h.chain.nodup).2
      bufs := fun b hb => h.chain.bufs b (mem_cons_of_mem _ hb) }
    nodup := hperm.nodup_iff.2 h.nodup
    live := fun b hb => h.live b (hperm.mem_iff.1 hb)
    spare := h.spare
    out := (hout.trans h.out).cons_inv
    mem := by
      have hsizes : sizes s.buf s.handedOut =
          (s.buf s.head).size + sizes s.buf (s.handedOut.erase s.head) :=
        (hout.symm.map _).sum_eq
      show s.memUsed - (s.buf s.head).size = (sizes s.buf (s.handedOut.erase s.head) : ℕ)
      rw [h.mem, hsizes, Int.natCast_add]
      omega
    data := by
      have hdata := h.data
      rw [contents, flatMap_cons, hempty] at hdata
      exact hdata
    producer := h.producer
    consumer := h.chain.bufs s.head h.head_mem
    fault := h.fault }⟩

/-- What the consumer frees is no longer in the chain. -/
theorem free (hc : s.consumer = .free b) : TtyOk s' l := by
  have hok : BufOk (s.buf b) := h.consumer_of hc
  have howned : s.owned = s.free ++ s.producer.own ++ [b] := by rw [owned, hc]; rfl
  have hperm : (b :: (l ++ (s.free ++ s.producer.own ++ []))).Perm (l ++ s.owned) := by
    rw [howned, append_nil, ← append_assoc l _ [b]]
    exact (perm_append_singleton ..).symm
  have hmem : b ∈ l ++ s.owned := hperm.mem_iff.1 mem_cons_self
  have hnodup := hperm.nodup_iff.2 h.nodup
  have hlive := fun c hc => h.live c (hperm.mem_iff.1 hc)
  have hloop : TtyOk { s with consumer := .loop } l :=
    { h with
      nodup := (nodup_cons.1 hnodup).2
      live := fun c hc => hlive c (mem_cons_of_mem b hc)
      consumer := trivial }
  simp only [consume, hc, h.access_eq hmem] at hs
  split at hs
  · cases hs
    exact { hloop with
      live := by
        intro c hc
        show update s.allocated b false c = true
        rw [update_eq_of_notMem (nodup_cons.1 hnodup).1 c hc]
        exact hlive c (mem_cons_of_mem b hc) }
  · split at hs
    · next hpos =>
      cases hs
      have hperm' : (l ++ (b :: s.free ++ s.producer.own ++ [])).Perm
          (b :: (l ++ (s.free ++ s.producer.own ++ []))) := perm_middle
      exact { hloop with
        nodup := hperm'.nodup_iff.2 hnodup
        live := fun c hc => hlive c (hperm'.mem_iff.1 hc)
        spare := by
          intro c hc
          rcases mem_cons.1 hc with rfl | hc
          · have hsize := Nat.le_of_dvd hpos hok.aligned
            exact le_trans (Nat.mul_le_mul_left 2 hsize) hok.capacity
          · exact h.spare c hc }
    · cases hs
      exact hloop

theorem receive {count : ℕ} (hc : s.consumer = .receive count) : TtyOk s' l := by
  have hcount : (s.buf s.head).read + count ≤ (s.buf s.head).commit := h.consumer_of hc
  have hmem := h.head_mem
  have hok := h.chain.bufs s.head hmem
  have hcap := hok.capacity
  have hcommit := hok.commit_le
  have hused := hok.used_le
  have hle := room_le (s.buf s.head)
  have hinside : (s.buf s.head).read + count ≤ (s.buf s.head).capacity ∧
      (!(s.buf s.head).normal →
        (s.buf s.head).size + (s.buf s.head).read + count ≤ (s.buf s.head).capacity) := by
    refine ⟨by omega, fun hflags => ?_⟩
    rw [Bool.not_eq_true'] at hflags
    rw [room_of_not_normal hflags] at hused
    omega
  have hn : min accept count ≤ count := Nat.min_le_right ..
  simp only [consume, hc, h.access_of_inside (mem_append_left _ hmem) hinside, some.injEq] at hs
  subst hs
  generalize min accept count = n at hn
  obtain ⟨l', rfl⟩ : ∃ l', l = s.head :: l' := head?_eq_some_iff.1 h.chain.head
  have hread : (s.buf s.head).read + n ≤ (s.buf s.head).commit := by omega
  have hdata := contents_update_head h.chain.nodup (unread_take (le_trans hread hcommit))
  have howned : (if n = 0 then Consumer.idle else .loop).own = s.consumer.own := by
    rw [hc]
    split <;> rfl
  exact {
    chain := {
      queue := by
        refine h.chain.queue.congr (fun b _ => ?_) fun b _ hd => ?_ <;>
          rcases eq_or_ne b s.head with rfl | hne <;>
          simp_all [TtyPort.setBuf, update_of_ne]
      head := h.chain.head
      last := h.chain.last
      nodup := h.chain.nodup
      bufs := bufOk_update h.chain.bufs
        ⟨hok.aligned, hok.capacity, hread, hok.commit_le, hok.used_le⟩ }
    nodup := by
      show (_ ++ (s.free ++ s.producer.own ++ Consumer.own _)).Nodup
      rw [howned]
      exact h.nodup
    live := by
      show ∀ b ∈ _ ++ (s.free ++ s.producer.own ++ Consumer.own _), s.allocated b
      rw [howned]
      exact h.live
    spare := h.spare_update (h.notMem_free hmem)
    out := h.out
    mem := by
      show s.memUsed = (sizes (update s.buf s.head _) s.handedOut : ℕ)
      rw [h.mem, sizes_update]
      rfl
    data := by
      show s.accepted = s.delivered ++ _ ++ contents (update s.buf s.head _) _
      rw [h.data, hdata, append_assoc]
    producer := h.producer.update (h.notMem_producer hmem) rfl rfl rfl rfl
    consumer := by
      show ConsumerOk _ _ (if n = 0 then Consumer.idle else .loop)
      split <;> trivial
    fault := h.fault }

/-- **A step of the consumer keeps the invariant**; it may make the chain shorter. -/
theorem consume : ∃ l', TtyOk s' l' := by
  cases hc : s.consumer with
  | idle => simp [TtyPort.consume, hc] at hs
  | loop => exact ⟨l, h.loop hs hc⟩
  | gotNext next => exact ⟨l, h.gotNext hs hc⟩
  | drop n => exact h.drop hs hc
  | free b => exact ⟨l, h.free hs hc⟩
  | receive count => exact ⟨l, h.receive hs hc⟩

end

end

end TtyOk

/-! ### Runs -/

theorem insertFixedFlag_ok (chars : List ℕ) (flag : ℕ) :
    (ttyInsertFlipStringFixedFlag chars flag).Ok where
  normal := by
    intro h p hp
    obtain ⟨c, -, rfl⟩ := mem_map.1 hp
    exact of_decide_eq_true h
  perChar := nofun

/-- **Every step keeps the invariant.** -/
theorem ttyOk_of_ttyStep {s s' : TtyPort} {o : TtyOp} (hs : TtyStep s o s')
    (h : ∃ l, TtyOk s l) : ∃ l, TtyOk s' l := by
  obtain ⟨l, h⟩ := h
  cases hs with
  | insertFixedFlag hp =>
    exact ⟨l, h.setBare (by rw [hp]; rfl) rfl (insertFixedFlag_ok _ _)⟩
  | insertFlags hp => exact ⟨l, h.setBare (by rw [hp]; rfl) rfl ⟨nofun, fun _ => rfl⟩⟩
  | insertChar hp => exact ⟨l, h.setBare (by rw [hp]; rfl) rfl (insertFixedFlag_ok _ _)⟩
  | push hp => exact ⟨l, h.push hp⟩
  | produce hmem hs => exact h.produce hmem hs
  | flush hc => exact ⟨l, h.setConsumer (by rw [hc]; rfl) trivial⟩
  | consume hs => exact h.consume hs

namespace TtyPort

/-- The producer is between two calls, and has pushed what it has put in. -/
def pushed (s : TtyPort) : Prop :=
  s.producer = .idle ∧ (s.buf s.tail).commit = (s.buf s.tail).used

/-- `flush_to_ldisc` finds nothing more to deliver. -/
def drained (s : TtyPort) : Prop :=
  (s.buf s.head).next = none ∧ (s.buf s.head).commit = (s.buf s.head).read

end TtyPort

/-- When the queue is drained, the first buffer is the last one and nothing is left in it. -/
theorem TtyOk.delivered_eq {s : TtyPort} {l : List ℕ} (h : TtyOk s l) (hpushed : s.pushed)
    (hdrained : s.drained) : s.delivered = s.accepted := by
  obtain ⟨hidle, hcommit⟩ := hpushed
  obtain ⟨hnext, hread⟩ := hdrained
  have hbare : s.producer.bare := by rw [hidle]; rfl
  obtain ⟨l', rfl⟩ : ∃ l', l = s.head :: l' := head?_eq_some_iff.1 h.chain.head
  obtain rfl : l' = [] := by
    cases l' with
    | nil => rfl
    | cons n l' =>
      have := h.chain.queue.1
      rw [hnext] at this
      cases this
  have htail : s.head = s.tail := by simpa using (h.last_of_bare hbare).last
  have hempty : unread (s.buf s.head) = [] := by
    rw [unread, ← hread, htail, hcommit, Nat.sub_self]
    rfl
  rw [h.data, contents, flatMap_singleton, hempty, append_nil]

/-- **The input buffers in every run.** What is delivered is a prefix of what was accepted, with
every flag, and all of it once the queue is drained. No access leaves a buffer, or goes to one that
has been freed, and `mem_used` is the size of the buffers that are handed out. -/
theorem ttyFlipBuffer_run {mem : ℕ → TtyBuffer} {ops : List TtyOp} {s : TtyPort}
    (h : Run TtyStep (ttyBufferInit mem) ops s) :
    s.delivered <+: s.accepted ∧ (s.pushed → s.drained → s.delivered = s.accepted) ∧
    s.fault = false ∧ s.handedOut.Nodup ∧
    s.memUsed = ((s.handedOut.map fun b => (s.buf b).size).sum : ℕ) := by
  obtain ⟨l, hok⟩ := h.invariant (fun _ _ _ hi hs => ttyOk_of_ttyStep hs hi) ⟨_, TtyOk.init mem⟩
  refine ⟨⟨_, hok.data.symm⟩, hok.delivered_eq, hok.fault, ?_, hok.mem⟩
  have hsub : s.producer.pending.Sublist s.owned := (pending_sublist _).trans
    ((sublist_append_right _ _).trans (sublist_append_left _ _))
  exact hok.out.nodup_iff.2 (hok.nodup.sublist (hsub.append_left l))

/-- Memory that is all zero. -/
def zeroBuffer : TtyBuffer := ⟨none, 0, 0, 0, 0, false, 0, fun _ => 0⟩

/-- A character is put into a new buffer, pushed and delivered. -/
def oneChar : List TtyOp :=
  [.insertChar 65 ttyNormal, .produce none, .produce none, .produce none,
    .produce (some (1, zeroBuffer)), .produce none, .produce none, .produce none, .produce none,
    .push, .flush, .consume 1 false, .consume 1 false, .consume 1 false, .consume 1 false,
    .consume 1 false, .consume 1 false, .consume 1 false]

theorem ttyFlipBuffer_run_oneChar : ∃ s,
    Run TtyStep (ttyBufferInit fun _ => zeroBuffer) oneChar s ∧ s.pushed ∧ s.drained ∧
      s.accepted = [(65, ttyNormal)] ∧ s.delivered = s.accepted := by
  have hrun : ∃ s, Run TtyStep (ttyBufferInit fun _ => zeroBuffer) oneChar s ∧ s.pushed ∧
      s.drained ∧ s.accepted = [(65, ttyNormal)] :=
    ⟨_, .cons (.insertChar rfl) <| .cons (.produce nofun rfl) <| .cons (.produce nofun rfl) <|
      .cons (.produce nofun rfl) <| .cons (.produce (by rintro p x ⟨⟩; rfl) rfl) <|
      .cons (.produce nofun rfl) <| .cons (.produce nofun rfl) <| .cons (.produce nofun rfl) <|
      .cons (.produce nofun rfl) <| .cons (.push rfl) <| .cons (.flush rfl) <|
      .cons (.consume rfl) <| .cons (.consume rfl) <| .cons (.consume rfl) <|
      .cons (.consume rfl) <| .cons (.consume rfl) <| .cons (.consume rfl) <|
      .cons (.consume rfl) .nil, ⟨rfl, rfl⟩, ⟨rfl, rfl⟩, rfl⟩
  obtain ⟨s, hrun, hpushed, hdrained, hacc⟩ := hrun
  exact ⟨s, hrun, hpushed, hdrained, hacc, (ttyFlipBuffer_run hrun).2.1 hpushed hdrained⟩

end MinimalKernel.Tty
