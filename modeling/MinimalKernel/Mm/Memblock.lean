import MinimalKernel.Align

/-!
# The boot memory allocator

`memblock` keeps two lists of physical ranges until the page allocator takes over: the memory of
the machine, and the parts of it that are reserved. Each list is an array of regions in ascending
order, with the number `cnt` of regions in use, the length `max` of the array and the sum
`total_size` of the sizes. A list without regions has one region of size 0.

An array that is full is replaced by one of twice the length. The new array is allocated from the
ranges that are free, so the call adds a reserved region, and it gives back the old array;
`memblock_add_range`, `memblock_remove_range` and `memblock_double_array` call each other. The
model counts the nesting of these calls, and `hang` stands for a nesting that is too deep.

The array is modelled by the list of its first `cnt` entries. `phys_addr_t` has 32 bits, and its
arithmetic wraps; but the size of an array is a natural number, since an array of 4 GiB would not
fit into memory.

## Main definitions

* `MemRegion`, `MemblockType`, `Memblock` — the state
* `addRange`, `isolateRange`, `removeRange`, `doubleArray` — the changes
* `trimMemory` — `memblock_trim_memory`
* `MemblockOp.run` — the calls from outside
-/

namespace MinimalKernel.Mm

open Nat

/-- `PHYS_ADDR_MAX`. -/
def physAddrMax : ℕ := wordSize - 1

/-- `round_up` of a 32-bit number. -/
def roundUp (x align : ℕ) : ℕ := wadd (wsub x 1 ||| wsub align 1) 1

/-- `round_down` of a 32-bit number. -/
def roundDown (x align : ℕ) : ℕ := x &&& (wordSize - 1 - wsub align 1)

variable {x k : ℕ}

/-- For a power of two it is the multiple below. -/
theorem roundDown_eq (hx : x < wordSize) (hk : k < 32) :
    roundDown x (2 ^ k) = x / 2 ^ k * 2 ^ k := by
  have hlt : 2 ^ k < wordSize := Nat.pow_lt_pow_right one_lt_two hk
  have hpos : 0 < 2 ^ k := Nat.two_pow_pos k
  rw [roundDown, wsub_of_le hpos hlt, show wordSize - 1 - (2 ^ k - 1) = wordSize - 2 ^ k by omega]
  exact and_highBits hx hk.le

/-- The low bits are filled up. -/
theorem or_lowBits (x k : ℕ) : x ||| (2 ^ k - 1) = x / 2 ^ k * 2 ^ k + (2 ^ k - 1) := by
  have hmod : x % 2 ^ k ||| (2 ^ k - 1) = 2 ^ k - 1 := by
    apply eq_of_testBit_eq
    intro i
    simp only [testBit_or, testBit_mod_two_pow, testBit_two_pow_sub_one]
    by_cases hi : i < k <;> simp [hi]
  have hx : x = 2 ^ k * (x / 2 ^ k) ||| x % 2 ^ k := by
    rw [← Nat.two_pow_add_eq_or_of_lt (Nat.mod_lt _ (Nat.two_pow_pos k)), Nat.div_add_mod]
  have hlow : 2 ^ k - 1 < 2 ^ k := Nat.sub_lt (Nat.two_pow_pos k) one_pos
  calc x ||| (2 ^ k - 1)
      = 2 ^ k * (x / 2 ^ k) ||| x % 2 ^ k ||| (2 ^ k - 1) := by rw [← hx]
    _ = 2 ^ k * (x / 2 ^ k) ||| (2 ^ k - 1) := by rw [Nat.or_assoc, hmod]
    _ = x / 2 ^ k * 2 ^ k + (2 ^ k - 1) := by
      rw [← two_pow_add_eq_or_of_lt hlow, mul_comm]

/-- For a power of two it is the multiple above, unless that is not a word. -/
theorem roundUp_eq (hx : x < wordSize) (hk : k < 32) :
    roundUp x (2 ^ k) = (x + (2 ^ k - 1)) / 2 ^ k * 2 ^ k % wordSize := by
  have hlt : 2 ^ k < wordSize := Nat.pow_lt_pow_right one_lt_two hk
  have hpos : 0 < 2 ^ k := Nat.two_pow_pos k
  rw [roundUp, wsub_of_le hpos hlt, or_lowBits, wadd, Nat.add_assoc, Nat.sub_add_cancel hpos]
  rcases Nat.eq_zero_or_pos x with rfl | hx0
  · -- the word before 0 is the last one, and the result wraps to 0
    obtain ⟨q, hq⟩ : 2 ^ k ∣ wordSize := pow_dvd_pow 2 hk.le
    have hdiv : wsub 0 1 / 2 ^ k + 1 = q := by
      have hlast : wsub 0 1 = wordSize - 1 := by decide
      have hle : 2 ^ k * 1 ≤ 2 ^ k * q := by omega
      obtain ⟨p, rfl⟩ := Nat.exists_eq_add_of_le' (Nat.le_of_mul_le_mul_left hle hpos)
      rw [hlast, hq, Nat.div_eq_of_lt_le (k := p)] <;> grind
    rw [← Nat.succ_mul, Nat.succ_eq_add_one, hdiv, Nat.mul_comm, ← hq, Nat.mod_self,
      Nat.div_eq_of_lt (by omega), Nat.zero_mul, Nat.zero_mod]
  · rw [wsub_of_le hx0 hx, show x + (2 ^ k - 1) = x - 1 + 2 ^ k by omega,
      Nat.add_div_right _ hpos, Nat.succ_mul]

theorem dvd_roundDown (hx : x < wordSize) (hk : k < 32) : 2 ^ k ∣ roundDown x (2 ^ k) := by
  rw [roundDown_eq hx hk]
  exact dvd_mul_left _ _

/-- The rounded word is the greatest multiple that is not larger. -/
theorem le_roundDown {x y k : ℕ} (hx : x < wordSize) (hk : k < 32) (hy : 2 ^ k ∣ y) (h : y ≤ x) :
    y ≤ roundDown x (2 ^ k) := by
  obtain ⟨m, rfl⟩ := hy
  rw [roundDown_eq hx hk, mul_comm]
  exact Nat.mul_le_mul_right _
    ((Nat.le_div_iff_mul_le (Nat.two_pow_pos k)).2 (by rwa [Nat.mul_comm]))

theorem dvd_roundUp (hx : x < wordSize) (hk : k < 32) : 2 ^ k ∣ roundUp x (2 ^ k) := by
  rw [roundUp_eq hx hk]
  have hdvd : 2 ^ k ∣ wordSize := pow_dvd_pow 2 hk.le
  exact (dvd_mod_iff hdvd).2 (dvd_mul_left _ _)

/-- Behind the last multiple it wraps. -/
theorem roundUp_of_lt (hx : x < wordSize) (hk : k < 32) (h : wordSize - 2 ^ k < x) :
    roundUp x (2 ^ k) = 0 := by
  obtain ⟨q, hq⟩ : 2 ^ k ∣ wordSize := pow_dvd_pow 2 hk.le
  have hdiv : (x + (2 ^ k - 1)) / 2 ^ k = q := by
    apply Nat.div_eq_of_lt_le
    · rw [Nat.mul_comm]
      omega
    · rw [succ_mul, mul_comm]
      omega
  rw [roundUp_eq hx hk, hdiv, mul_comm, ← hq, mod_self]

theorem roundUp_of_le (hk : k < 32) (h : x ≤ wordSize - 2 ^ k) :
    roundUp x (2 ^ k) = (x + (2 ^ k - 1)) / 2 ^ k * 2 ^ k := by
  have hlt : 2 ^ k < wordSize := Nat.pow_lt_pow_right one_lt_two hk
  have hpos : 0 < 2 ^ k := Nat.two_pow_pos k
  have hle := div_mul_le_self (x + (2 ^ k - 1)) (2 ^ k)
  rw [roundUp_eq (by omega) hk, mod_eq_of_lt (by omega)]

theorem le_roundUp (hk : k < 32) (h : x ≤ wordSize - 2 ^ k) : x ≤ roundUp x (2 ^ k) := by
  have hpos : 0 < 2 ^ k := Nat.two_pow_pos k
  rw [roundUp_of_le hk h]
  have := div_add_mod' (x + (2 ^ k - 1)) (2 ^ k)
  have := mod_lt (x + (2 ^ k - 1)) hpos
  omega

/-- The rounded word is the least multiple that is not smaller. -/
theorem roundUp_le {x y k : ℕ} (hx : x < wordSize) (hk : k < 32) (hy : 2 ^ k ∣ y) (h : x ≤ y) :
    roundUp x (2 ^ k) ≤ y := by
  have hpos : 0 < 2 ^ k := Nat.two_pow_pos k
  obtain ⟨m, rfl⟩ := hy
  rw [roundUp_eq hx hk]
  have hle : (x + (2 ^ k - 1)) / 2 ^ k ≤ m := by
    rw [div_le_iff_le_mul_add_pred hpos]
    omega
  calc _ ≤ (x + (2 ^ k - 1)) / 2 ^ k * 2 ^ k := mod_le _ _
    _ ≤ 2 ^ k * m := by rw [mul_comm]; exact mul_le_mul_left _ hle

/-- `struct memblock_region`. -/
structure MemRegion where
  base : ℕ
  size : ℕ
  flags : ℕ
  deriving DecidableEq, Repr

namespace MemRegion

/-- The end of a region, as it is computed. -/
def rend (r : MemRegion) : ℕ := wadd r.base r.size

/-- The region of an empty list. -/
def placeholder : MemRegion := ⟨0, 0, 0⟩

/-- `should_skip_region`, for `MEMBLOCK_NONE` and any node: the region has one of the flags
`MEMBLOCK_NOMAP` and `MEMBLOCK_DRIVER_MANAGED`. -/
def shouldSkip (r : MemRegion) : Bool := r.flags.testBit 2 || r.flags.testBit 3

end MemRegion

/-- `struct memblock_type`. -/
structure MemblockType where
  /-- The length of the array. -/
  max : ℕ
  totalSize : ℕ
  regions : List MemRegion
  /-- The physical address of the array, unless it is the one of the kernel image. -/
  array : Option ℕ
  deriving DecidableEq, Repr

/-- The list of memory or the list of reserved ranges. -/
inductive MemKind
  | memory
  | reserved
  deriving DecidableEq, Repr

/-- `struct memblock` with the static variables around it. -/
structure Memblock where
  bottomUp : Bool
  currentLimit : ℕ
  memory : MemblockType
  reserved : MemblockType
  canResize : Bool
  memoryInSlab : Bool
  reservedInSlab : Bool
  /-- `slab_is_available`. -/
  slab : Bool
  /-- The physical addresses that `kmalloc` returns next. -/
  kmalloc : List (Option ℕ)
  deriving DecidableEq, Repr

namespace MemblockType

variable (t : MemblockType)

def cnt : ℕ := t.regions.length

/-- `memblock_remove_region`. -/
def removeRegion (r : ℕ) : MemblockType :=
  let size := (t.regions.getD r .placeholder).size
  let regions := t.regions.eraseIdx r
  { t with
    totalSize := wsub t.totalSize size
    regions := if regions.isEmpty then [.placeholder] else regions }

/-- `memblock_insert_region`. -/
def insertRegion (idx base size flags : ℕ) : Except Oops MemblockType :=
  if t.max ≤ t.cnt then .error .bug
  else .ok { t with
    regions := t.regions.insertIdx idx ⟨base, size, flags⟩
    totalSize := wadd t.totalSize size }

/-- The loop of `memblock_merge_regions` at the region `this`. -/
def mergeLoop (this : MemRegion) : List MemRegion → Except Oops (List MemRegion)
  | [] => .ok [this]
  | next :: rest =>
    if this.rend ≠ next.base ∨ this.flags ≠ next.flags then
      if next.base < this.rend then .error .bug
      else (mergeLoop next rest).map (this :: ·)
    else mergeLoop { this with size := wadd this.size next.size } rest

/-- `memblock_merge_regions`. -/
def mergeRegions : Except Oops MemblockType :=
  match t.regions with
  | [] => .ok t
  | this :: rest => (mergeLoop this rest).map fun l => { t with regions := l }

end MemblockType

namespace Memblock

variable (s : Memblock)

def type : MemKind → MemblockType
  | .memory => s.memory
  | .reserved => s.reserved

def setType (k : MemKind) (t : MemblockType) : Memblock :=
  match k with
  | .memory => { s with memory := t }
  | .reserved => { s with reserved := t }

def inSlab : MemKind → Bool
  | .memory => s.memoryInSlab
  | .reserved => s.reservedInSlab

def setInSlab (k : MemKind) (b : Bool) : Memblock :=
  match k with
  | .memory => { s with memoryInSlab := b }
  | .reserved => { s with reservedInSlab := b }

/-! ### The free ranges -/

/-- The range between the reserved regions `i - 1` and `i`. -/
def gapBefore (i : ℕ) : ℕ × ℕ :=
  (if i = 0 then 0 else (s.reserved.regions.getD (i - 1) .placeholder).rend,
    if i < s.reserved.cnt then (s.reserved.regions.getD i .placeholder).base else physAddrMax)

/-- Where a search for a free range stands: the indices of a memory region and of a gap. -/
structure Cursor where
  a : ℤ
  b : ℤ

/-- The inner loop of `__next_mem_range` for the memory region `m`, with `n` gaps to go. It returns
the next cursor and the range that it has found, or the index of the gap at which it ends. -/
def nextMemRangeInner (s : Memblock) (m : MemRegion) (a : ℤ) : ℕ → ℤ → Cursor × ℕ × ℕ ⊕ ℤ
  | 0, b => .inr b
  | n + 1, b =>
    let gap := s.gapBefore b.toNat
    if m.rend ≤ gap.1 then .inr b
    else if m.base < gap.2 then
      .inl (if m.rend ≤ gap.2 then ⟨a + 1, b⟩ else ⟨a, b + 1⟩, max m.base gap.1, min m.rend gap.2)
    else s.nextMemRangeInner m a n (b + 1)

/-- `__next_mem_range` over the memory that is not reserved, with `n` memory regions to go. -/
def nextMemRange (s : Memblock) : ℕ → Cursor → Option (Cursor × ℕ × ℕ)
  | 0, _ => none
  | n + 1, c =>
    let m := s.memory.regions.getD c.a.toNat .placeholder
    if m.shouldSkip then s.nextMemRange n ⟨c.a + 1, c.b⟩
    else
      match s.nextMemRangeInner m c.a (s.reserved.cnt + 1 - c.b.toNat) c.b with
      | .inl found => some found
      | .inr b => s.nextMemRange n ⟨c.a + 1, b⟩

/-- The inner loop of `__next_mem_range_rev`, with `n` gaps to go. -/
def nextMemRangeRevInner (s : Memblock) (m : MemRegion) (a : ℤ) : ℕ → ℤ → Cursor × ℕ × ℕ ⊕ ℤ
  | 0, b => .inr b
  | n + 1, b =>
    let gap := s.gapBefore b.toNat
    if gap.2 ≤ m.base then .inr b
    else if gap.1 < m.rend then
      .inl (if gap.1 ≤ m.base then ⟨a - 1, b⟩ else ⟨a, b - 1⟩, max m.base gap.1, min m.rend gap.2)
    else s.nextMemRangeRevInner m a n (b - 1)

/-- `__next_mem_range_rev` over the memory that is not reserved, with `n` memory regions to go. -/
def nextMemRangeRev (s : Memblock) : ℕ → Cursor → Option (Cursor × ℕ × ℕ)
  | 0, _ => none
  | n + 1, c =>
    let m := s.memory.regions.getD c.a.toNat .placeholder
    if m.shouldSkip then s.nextMemRangeRev n ⟨c.a - 1, c.b⟩
    else
      match s.nextMemRangeRevInner m c.a (c.b + 1).toNat c.b with
      | .inl found => some found
      | .inr b => s.nextMemRangeRev n ⟨c.a - 1, b⟩

/-- `__memblock_find_range_bottom_up`, for at most `n` free ranges; 0 if there is none. -/
def findRangeBottomUp (s : Memblock) (start stop size align : ℕ) : ℕ → Cursor → ℕ
  | 0, _ => 0
  | n + 1, c =>
    match s.nextMemRange (s.memory.cnt - c.a.toNat) c with
    | none => 0
    | some (c', lo, hi) =>
      let lo := min (max lo start) stop
      let hi := min (max hi start) stop
      let cand := roundUp lo align
      if cand < hi ∧ size ≤ hi - cand then cand
      else s.findRangeBottomUp start stop size align n c'

/-- `__memblock_find_range_top_down`, for at most `n` free ranges; 0 if there is none. -/
def findRangeTopDown (s : Memblock) (start stop size align : ℕ) : ℕ → Cursor → ℕ
  | 0, _ => 0
  | n + 1, c =>
    match s.nextMemRangeRev (c.a + 1).toNat c with
    | none => 0
    | some (c', lo, hi) =>
      let lo := min (max lo start) stop
      let hi := min (max hi start) stop
      if hi < size then s.findRangeTopDown start stop size align n c'
      else
        let cand := roundDown (hi - size) align
        if lo ≤ cand then cand else s.findRangeTopDown start stop size align n c'

/-- `memblock_find_in_range` with `memblock_find_in_range_node`. There is no mirrored memory. Each
free range moves one of the two indices on. -/
def findInRange (start stop size align : ℕ) : ℕ :=
  let stop := if stop = 0 ∨ stop = 1 then s.currentLimit else stop
  let start := max start pageSize
  let stop := max start stop
  let n := s.memory.cnt + s.reserved.cnt + 1
  if s.bottomUp then s.findRangeBottomUp start stop size align n ⟨0, 0⟩
  else s.findRangeTopDown start stop size align n ⟨s.memory.cnt - 1, s.reserved.cnt⟩

/-! ### Larger arrays -/

/-- `memblock_phys_free` and `memblock_reserve`, as `memblock_double_array` calls them. The result
is the error code, if any. -/
structure Calls where
  physFree : ℕ → ℕ → Memblock → Except Oops (Option Errno × Memblock)
  reserve : ℕ → ℕ → Memblock → Except Oops (Option Errno × Memblock)

/-- `sizeof(struct memblock_region)`. -/
def regionBytes : ℕ := 12

/-- `PAGE_ALIGN` of the size of an array. -/
def allocSize (bytes : ℕ) : ℕ := (bytes + pageSize - 1) / pageSize * pageSize

/-- Room for an array, behind the area that is about to be reserved or else in front of it. -/
def findArray (areaStart areaSize bytes : ℕ) : ℕ :=
  let addr := s.findInRange (wadd areaStart areaSize) s.currentLimit (allocSize bytes) pageSize
  if addr = 0 ∧ areaSize ≠ 0 then
    s.findInRange 0 (min areaStart s.currentLimit) (allocSize bytes) pageSize
  else addr

/-- The address of a new array with `bytes` bytes, from `kmalloc` or from the free ranges; 0 if
there is none. -/
def newArray (k : MemKind) (areaStart areaSize bytes : ℕ) : ℕ × Memblock :=
  if s.slab then ((s.kmalloc.headD none).getD 0, { s with kmalloc := s.kmalloc.tail })
  else
    (match k with
      | .memory => s.findArray 0 0 bytes
      | .reserved => s.findArray areaStart areaSize bytes, s)

/-- The old array of `memblock_double_array` is given back, unless it is part of the kernel
image. -/
def freeOldArray (calls : Calls) (k : MemKind) (old : Option ℕ) (bytes : ℕ) (s : Memblock) :
    Except Oops Memblock :=
  match s.inSlab k, old with
  | false, some addr => (calls.physFree addr (allocSize bytes) s).map Prod.snd
  | _, _ => .ok s

/-- `BUG_ON(memblock_reserve(addr, new_alloc_size))`, without slab. -/
def reserveArray (calls : Calls) (addr bytes : ℕ) (s : Memblock) : Except Oops Memblock :=
  if s.slab then .ok s
  else do
    match ← calls.reserve addr (allocSize bytes) s with
    | (none, s) => .ok s
    | (some _, _) => .error .bug

/-- `memblock_double_array`; the result says whether there is a new array. -/
def doubleArray (calls : Calls) (k : MemKind) (areaStart areaSize : ℕ) (s : Memblock) :
    Except Oops (Bool × Memblock) :=
  if !s.canResize then .ok (false, s)
  else
    let t := s.type k
    let oldSize := t.max * regionBytes
    let newSize := oldSize * 2
    let new := s.newArray k areaStart areaSize newSize
    if new.1 = 0 then .ok (false, new.2)
    else do
      let s := new.2.setType k { t with array := some new.1, max := t.max * 2 }
      let s ← freeOldArray calls k t.array oldSize s
      let s ← reserveArray calls new.1 newSize s
      .ok (true, s.setInSlab k s.slab)

/-- The loop that makes room for `need` more regions. -/
def growLoop (calls : Calls) (k : MemKind) (need areaStart areaSize : ℕ) :
    ℕ → Memblock → Except Oops (Bool × Memblock)
  | 0, _ => .error .hang
  | n + 1, s =>
    if (s.type k).max < (s.type k).cnt + need then do
      match ← s.doubleArray calls k areaStart areaSize with
      | (false, s) => .ok (false, s)
      | (true, s) => growLoop calls k need areaStart areaSize n s
    else .ok (true, s)

/-! ### Adding a range -/

/-- The variables of `memblock_add_range`. -/
structure AddScan where
  idx : ℕ
  base : ℕ
  nrNew : ℕ
  type : MemblockType

/-- A part of the new range that no region covers, up to `stop`. -/
def AddScan.gap (v : AddScan) (insert : Bool) (stop flags : ℕ) : Except Oops AddScan :=
  if insert then do
    let t ← v.type.insertRegion v.idx v.base (wsub stop v.base) flags
    .ok { v with idx := v.idx + 1, nrNew := v.nrNew + 1, type := t }
  else .ok { v with nrNew := v.nrNew + 1 }

/-- The range is not covered in front of `stop`, if it begins before. -/
def AddScan.fill (v : AddScan) (insert : Bool) (stop flags : ℕ) : Except Oops AddScan :=
  if v.base < stop then v.gap insert stop flags else .ok v

/-- The loop of `memblock_add_range` over the regions from `idx` on. -/
def addRangeLoop (insert : Bool) (stop flags : ℕ) : List MemRegion → AddScan → Except Oops AddScan
  | [], v => .ok v
  | rgn :: rest, v =>
    if stop ≤ rgn.base then .ok v
    else if rgn.rend ≤ v.base then addRangeLoop insert stop flags rest { v with idx := v.idx + 1 }
    else do
      let v ← v.fill insert rgn.base flags
      addRangeLoop insert stop flags rest { v with idx := v.idx + 1, base := min rgn.rend stop }

/-- One pass of `memblock_add_range`, which counts or inserts what is missing. -/
def addRangePass (insert : Bool) (base stop flags : ℕ) (t : MemblockType) :
    Except Oops AddScan := do
  let v ← addRangeLoop insert stop flags t.regions ⟨0, base, 0, t⟩
  v.fill insert stop flags

/-- `memblock_add_range` behind its first pass. -/
def addRangeInsert (calls : Calls) (n : ℕ) (k : MemKind) (base size flags nrNew : ℕ)
    (s : Memblock) : Except Oops (Option Errno × Memblock) := do
  match ← growLoop calls k nrNew base size n s with
  | (false, s) => .ok (some .ENOMEM, s)
  | (true, s) =>
    let v ← addRangePass true base (wadd base size) flags (s.type k)
    if v.nrNew = 0 then .ok (none, s.setType k v.type)
    else do
      let t ← v.type.mergeRegions
      .ok (none, s.setType k t)

/-- `memblock_add_range`. -/
def addRange (calls : Calls) (n : ℕ) (k : MemKind) (base size flags : ℕ) (s : Memblock) :
    Except Oops (Option Errno × Memblock) :=
  let size := min size (physAddrMax - base)
  let t := s.type k
  if size = 0 then .ok (none, s)
  else if (t.regions.headD .placeholder).size = 0 then
    .ok (none, s.setType k
      { t with regions := ⟨base, size, flags⟩ :: t.regions.tail, totalSize := size })
  else do
    let v ← addRangePass false base (wadd base size) flags t
    if v.nrNew = 0 then .ok (none, s) else addRangeInsert calls n k base size flags v.nrNew s

/-! ### Removing a range -/

/-- The variables of `memblock_isolate_range`. -/
structure Isolated where
  idx : ℕ
  startRgn : ℕ
  endRgn : ℕ
  type : MemblockType

/-- The region `rgn` at `idx` is cut in two at `x`. -/
def Isolated.split (v : Isolated) (rgn : MemRegion) (x : ℕ) : Except Oops MemblockType :=
  let low := wsub x rgn.base
  let t := { v.type with
    regions := v.type.regions.set v.idx { rgn with base := x, size := wsub rgn.size low }
    totalSize := wsub v.type.totalSize low }
  t.insertRegion v.idx rgn.base low rgn.flags

/-- The loop of `memblock_isolate_range` over the regions from `idx` on. -/
def isolateLoop (base stop : ℕ) : ℕ → List MemRegion → Isolated → Except Oops Isolated
  | 0, _, _ => .error .hang
  | _ + 1, [], v => .ok v
  | n + 1, rgn :: rest, v =>
    if stop ≤ rgn.base then .ok v
    else if rgn.rend ≤ base then isolateLoop base stop n rest { v with idx := v.idx + 1 }
    else if rgn.base < base then do
      let t ← v.split rgn base
      let upper := { rgn with base := base, size := wsub rgn.size (wsub base rgn.base) }
      isolateLoop base stop n (upper :: rest) { v with idx := v.idx + 1, type := t }
    else if stop < rgn.rend then do
      -- the lower part is visited next
      let t ← v.split rgn stop
      let lower := { rgn with size := wsub stop rgn.base }
      let upper := { rgn with base := stop, size := wsub rgn.size (wsub stop rgn.base) }
      isolateLoop base stop n (lower :: upper :: rest) { v with type := t }
    else
      isolateLoop base stop n rest
        { v with
          startRgn := if v.endRgn = 0 then v.idx else v.startRgn
          endRgn := v.idx + 1
          idx := v.idx + 1 }

/-- `memblock_isolate_range`: the regions from `startRgn` to `endRgn` make up the range. -/
def isolateRange (calls : Calls) (n : ℕ) (k : MemKind) (base size : ℕ) (s : Memblock) :
    Except Oops (Option Isolated × Memblock) :=
  let size := min size (physAddrMax - base)
  if size = 0 then .ok (some ⟨0, 0, 0, s.type k⟩, s)
  else do
    match ← growLoop calls k 2 base size n s with
    | (false, s) => .ok (none, s)
    | (true, s) =>
      let t := s.type k
      let v ← isolateLoop base (wadd base size) (t.cnt + 3) t.regions ⟨0, 0, 0, t⟩
      .ok (some v, s.setType k v.type)

/-- The loop of `memblock_remove_range`, with `n` regions to go. -/
def removeLoop (start : ℕ) : ℕ → MemblockType → MemblockType
  | 0, t => t
  | n + 1, t => removeLoop start n (t.removeRegion (start + n))

/-- `memblock_remove_range`. -/
def removeRange (calls : Calls) (n : ℕ) (k : MemKind) (base size : ℕ) (s : Memblock) :
    Except Oops (Option Errno × Memblock) := do
  match ← isolateRange calls n k base size s with
  | (none, s) => .ok (some .ENOMEM, s)
  | (some v, s) =>
    .ok (none, s.setType k (removeLoop v.startRgn (v.endRgn - v.startRgn) (s.type k)))

/-! ### The calls from outside -/

/-- The calls at the nesting depth `n`. -/
def calls : ℕ → Calls
  | 0 => ⟨fun _ _ _ => .error .hang, fun _ _ _ => .error .hang⟩
  | n + 1 =>
    { physFree := fun base size s => removeRange (calls n) n .reserved base size s
      reserve := fun base size s => addRange (calls n) n .reserved base size 0 s }

/-- The loop of `memblock_trim_memory` at the region `i`, with `n` regions to go. -/
def trimLoop (align : ℕ) : ℕ → ℕ → MemblockType → MemblockType
  | 0, _, t => t
  | n + 1, i, t =>
    let r := t.regions.getD i .placeholder
    let start := roundUp r.base align
    let stop := roundDown r.rend align
    if start = r.base ∧ stop = r.rend then trimLoop align n (i + 1) t
    else if start < stop then
      trimLoop align n (i + 1)
        { t with regions := t.regions.set i { r with base := start, size := stop - start } }
    else trimLoop align n i (t.removeRegion i)

/-- `memblock_trim_memory`. Each turn of the loop passes a region or removes one; a removed last
region is replaced by the placeholder, which is aligned. -/
def trimMemory (align : ℕ) (s : Memblock) : Memblock :=
  { s with memory := trimLoop align s.memory.cnt 0 s.memory }

end Memblock

/-- The calls that change the lists. -/
inductive MemblockOp
  | add (base size : ℕ)
  | reserve (base size : ℕ)
  | remove (base size : ℕ)
  | physFree (base size : ℕ)
  | trim (align : ℕ)
  deriving DecidableEq, Repr

namespace MemblockOp

open Memblock in
/-- A call, with the nesting limited to `n`. -/
def run (n : ℕ) : MemblockOp → Memblock → Except Oops (Option Errno × Memblock)
  | add base size, s => addRange (calls n) n .memory base size 0 s
  | reserve base size, s => addRange (calls n) n .reserved base size 0 s
  | remove base size, s => removeRange (calls n) n .memory base size s
  | physFree base size, s => removeRange (calls n) n .reserved base size s
  | trim align, s => .ok (none, s.trimMemory align)

end MemblockOp

end MinimalKernel.Mm
