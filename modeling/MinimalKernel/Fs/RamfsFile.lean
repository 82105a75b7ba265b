import MinimalKernel.Fs.Ramfs
import MinimalKernel.Lib.ByteFile
import MinimalKernel.Lib.Run

/-!
# What a ramfs file holds

A ramfs file has no storage behind its page cache: a page that is not cached, or not up to date,
reads as zeros. `Inode.contents` is the byte array that an inode stands for, and `RamfsFile` an
inode whose array is zero behind its end.

A write replaces the bytes that it should if it starts on a page boundary and is not longer than a
page. From any other position it replaces the bytes at the start of the page, and a longer write
copies nothing at all.

## Main definitions

* `Inode.contents` — the byte array of an inode
* `RamfsFile` — an inode that is zero behind its end
* `WritesExactly` — a write that does to the byte array what it should
* `FileStep` — the steps of a run of writes and reads

## Main results

* `genericFileWriteIter_exact` — a write of at most a page to a page boundary
* `filemapRead_eq` — reading returns the bytes of the array
* `ramfs_writes_exactly_iff` — which writes are right, and what follows for runs
-/

namespace MinimalKernel.Fs

open Function Lib List Option

/-! ### The byte array of an inode -/

/-- The byte at `k`: a page that is not cached or not up to date reads as zeros. -/
def Inode.byteAt (ino : Inode) (k : ℕ) : BitVec 8 :=
  match ino.iPages (pageOf k) with
  | some pg => if pg.uptodate then pg.data (offsetInPage k) else 0
  | none => 0

def Inode.contents (ino : Inode) : ByteFile := ⟨ino.iSize, ino.byteAt⟩

/-- An inode whose bytes behind the end are zero. -/
structure RamfsFile extends Inode where
  zero_tail : ∀ k, iSize ≤ k → toInode.byteAt k = 0

variable {ino ino' : Inode} {pos n : ℕ} {buf : List (BitVec 8)} {fresh : ℕ → BitVec 8}
  {pg : CachePage} {k count i : ℕ}

theorem byteAt_of_page (h : ino.iPages (pageOf k) = some pg) (hu : pg.uptodate = true) :
    ino.byteAt k = pg.data (offsetInPage k) := by
  simp [Inode.byteAt, h, hu]

/-- A byte depends on its page only. -/
theorem byteAt_congr (h : ino'.iPages (pageOf k) = ino.iPages (pageOf k)) :
    ino'.byteAt k = ino.byteAt k := by
  simp only [Inode.byteAt, h]

/-- **A write that is right**: it returns the number of bytes, the byte array has the buffer in the
place of its old bytes, and no page but those of the range and no memory behind a page changes. -/
def WritesExactly (ino : Inode) (pos : ℕ) (buf : List (BitVec 8)) (fresh : ℕ → BitVec 8)
    (r : Except Oops (ℕ × Inode)) : Prop :=
  ∃ ino', r = .ok (buf.length, ino') ∧ ino'.contents = ino.contents.write pos buf ∧
    (∀ i, i < pageOf pos ∨ pageOf (pos + buf.length - 1) < i → ino'.iPages i = ino.iPages i) ∧
    ∀ i pg, ino'.iPages i = some pg →
      ∀ j, pageSize ≤ j → pg.data j = (grabCachePageWriteBegin ino i fresh).data j

/-! ### Writing -/

theorem pageCopySane_zero (hn : n < wordSize) : pageCopySane 0 n = decide (n ≤ pageSize) := by
  simp [pageCopySane, wadd_of_lt (show n + 0 < wordSize from hn)]

/-- The bytes of a page that `simple_write_begin` clears: everything but the range of the write,
unless the page is up to date or the length is that of a page. -/
def Cleared (pg : CachePage) (pos len j : ℕ) : Prop :=
  pg.uptodate = false ∧ len ≠ pageSize ∧
    (j < offsetInPage pos ∨ offsetInPage pos + len ≤ j ∧ j < pageSize)

instance (pg : CachePage) (pos len j : ℕ) : Decidable (Cleared pg pos len j) :=
  inferInstanceAs (Decidable (_ ∧ _ ∧ _))

/-- The page that `simple_write_begin` hands out. -/
def begunPage (pg : CachePage) (pos len : ℕ) : CachePage where
  data j := if Cleared pg pos len j then 0 else pg.data j
  uptodate := pg.uptodate

theorem simpleWriteBegin_eq (ino : Inode) (pos len : ℕ) (fresh : ℕ → BitVec 8) :
    simpleWriteBegin ino pos len fresh =
      .ok (begunPage (grabCachePageWriteBegin ino (pageOf pos) fresh) pos len) := by
  have hoff : offsetInPage pos < pageSize := Nat.mod_lt _ (by decide)
  unfold simpleWriteBegin
  generalize grabCachePageWriteBegin ino (pageOf pos) fresh = pg
  dsimp only
  split
  · rename_i hold
    simp only [Bool.and_eq_true, Bool.not_eq_true', bne_iff_ne] at hold
    rw [zeroUserSegments, if_neg (by omega)]
    simp only [begunPage, Cleared, hold, Nat.zero_le, true_and, ne_eq, not_false_eq_true]
  · rename_i hnew
    have hclear : ∀ j, ¬ Cleared pg pos len j := fun j h => hnew (by simp [h.1, h.2.1])
    simp only [begunPage, hclear, if_false]

/-- The page after a write of at most a page: the buffer is at its start, wherever the write was
to go. -/
def writtenPage (pg : CachePage) (pos : ℕ) (buf : List (BitVec 8)) : CachePage where
  data j := if j < buf.length then buf.getD j 0 else (begunPage pg pos buf.length).data j
  uptodate := true

/-- **A write of at most a page**, from any position on. -/
theorem genericFileWriteIter_of_le (hn : 0 < buf.length) (hle : buf.length ≤ pageSize) :
    genericFileWriteIter ino pos buf fresh = .ok (buf.length,
      { ino with iSize := max ino.iSize (pos + buf.length) }.setPage (pageOf pos)
        (writtenPage (grabCachePageWriteBegin ino (pageOf pos) fresh) pos buf)) := by
  have hword : buf.length < wordSize := hle.trans_lt (by decide)
  have hsize : (if ino.iSize < pos + buf.length then pos + buf.length else ino.iSize) =
      max ino.iSize (pos + buf.length) := by
    split <;> omega
  have hend : ∀ pg,
      writeEndPage pg pos buf.length buf.length = .ok { pg with uptodate := true } := by
    intro pg
    unfold writeEndPage
    split
    · rename_i hu
      rw [← hu]
    · rw [if_neg (lt_irrefl _)]
      rfl
  rw [genericFileWriteIter, if_pos hn, genericPerformWrite, simpleWriteBegin_eq]
  simp only [bind, Except.bind, pure, Except.pure, copyPageFromIterAtomic, pageCopySane_zero hword,
    hle, decide_true, if_true, simpleWriteEnd, hend, Except.map, hsize, writtenPage, Nat.zero_le,
    true_and, Nat.zero_add, Nat.sub_zero]

/-- **A longer write** copies nothing, if it comes back. -/
theorem genericFileWriteIter_of_lt {w : ℕ} (hlt : pageSize < buf.length)
    (hword : buf.length < wordSize)
    (h : genericFileWriteIter ino pos buf fresh = .ok (w, ino')) : w = 0 := by
  have hn : 0 < buf.length := (Nat.zero_le _).trans_lt hlt
  rw [genericFileWriteIter, if_pos hn, genericPerformWrite, simpleWriteBegin_eq] at h
  simp only [bind, Except.bind, pure, Except.pure, copyPageFromIterAtomic, pageCopySane_zero hword,
    not_le.2 hlt, decide_false, Bool.false_eq_true, if_false] at h
  split at h
  · cases h
  · cases h
    rfl

/-- **A longer write to a page that is not up to date** does not come back: `simple_write_end`
clears a range that reaches out of the page. -/
theorem genericFileWriteIter_crash (hlt : pageSize < buf.length) (hword : buf.length < wordSize)
    (hu : (grabCachePageWriteBegin ino (pageOf pos) fresh).uptodate = false) :
    genericFileWriteIter ino pos buf fresh = .error .bug := by
  have hn : 0 < buf.length := (Nat.zero_le _).trans_lt hlt
  rw [genericFileWriteIter, if_pos hn, genericPerformWrite, simpleWriteBegin_eq]
  generalize grabCachePageWriteBegin ino (pageOf pos) fresh = pg at hu ⊢
  have hclear : pageSize < offsetInPage pos + 0 + (buf.length - 0) := by omega
  simp only [bind, Except.bind, copyPageFromIterAtomic, pageCopySane_zero hword, not_le.2 hlt,
    decide_false, Bool.false_eq_true, if_false, simpleWriteEnd, writeEndPage, begunPage, hu, hn,
    if_true, zeroUser, zeroUserSegments, hclear, true_or, Except.map]

/-- What `simple_write_begin` leaves behind a short write is what reads as the old contents. -/
theorem begunPage_data (hoff : offsetInPage pos = 0) (hk : pageOf k = pageOf pos)
    (hn : n ≤ offsetInPage k) :
    (begunPage (grabCachePageWriteBegin ino (pageOf pos) fresh) pos n).data (offsetInPage k) =
      ino.byteAt k := by
  have hlt : offsetInPage k < pageSize := Nat.mod_lt _ (by decide)
  have hclear : ∀ pg, Cleared pg pos n (offsetInPage k) ↔ pg.uptodate = false := by
    intro pg
    simp only [Cleared, hoff, Nat.zero_add, hn, hlt]
    constructor
    · exact fun h => h.1
    · exact fun h => ⟨h, by omega, .inr ⟨trivial, trivial⟩⟩
  simp only [begunPage, hclear, grabCachePageWriteBegin, Inode.byteAt, hk]
  cases ino.iPages (pageOf pos) with
  | none => rfl
  | some pg =>
    cases hu : pg.uptodate <;> simp [hu]

/-- From a page boundary on, the page holds the buffer and behind it what was there before. -/
theorem contents_writtenPage (hpos : pageSize ∣ pos) (hle : buf.length ≤ pageSize) :
    ({ ino with iSize := max ino.iSize (pos + buf.length) }.setPage (pageOf pos)
      (writtenPage (grabCachePageWriteBegin ino (pageOf pos) fresh) pos buf)).contents =
        ino.contents.write pos buf := by
  have hoff : offsetInPage pos = 0 := Nat.mod_eq_zero_of_dvd hpos
  refine ByteFile.ext rfl (funext fun k => ?_)
  have hk : pageSize * pageOf k + offsetInPage k = k := Nat.div_add_mod k pageSize
  have hp : pageSize * pageOf pos = pos := Nat.mul_div_cancel' hpos
  by_cases hpage : pageOf k = pageOf pos
  · rw [hpage, hp] at hk
    have hnew : ∀ pg, ({ ino with iSize := max ino.iSize (pos + buf.length) }.setPage
        (pageOf pos) (writtenPage pg pos buf)).byteAt k =
          (writtenPage pg pos buf).data (offsetInPage k) := fun pg =>
      byteAt_of_page (by rw [hpage]; exact update_self ..) rfl
    have hsub : k - pos = offsetInPage k := by omega
    have hrange : (pos ≤ k ∧ k < pos + buf.length) ↔ offsetInPage k < buf.length := by omega
    simp only [Inode.contents, ByteFile.write, hnew, hsub, hrange]
    dsimp only [writtenPage]
    by_cases hin : offsetInPage k < buf.length
    · rw [if_pos hin, if_pos hin]
    · rw [if_neg hin, if_neg hin]
      exact begunPage_data hoff hpage (not_lt.1 hin)
  · have hout : ¬ (pos ≤ k ∧ k < pos + buf.length) := by
      rintro ⟨hlo, hhi⟩
      refine hpage (Nat.div_eq_of_lt_le ?_ ?_)
      · rw [mul_comm]
        omega
      · rw [mul_comm, mul_add, hp]
        omega
    simp only [Inode.contents, ByteFile.write, hout, if_false]
    exact byteAt_congr (update_of_ne hpage _ _)

/-- **A write of at most a page to a page boundary is right.** -/
theorem genericFileWriteIter_exact (hpos : pageSize ∣ pos) (hn : 0 < buf.length)
    (hle : buf.length ≤ pageSize) :
    WritesExactly ino pos buf fresh (genericFileWriteIter ino pos buf fresh) := by
  refine ⟨_, genericFileWriteIter_of_le hn hle, contents_writtenPage hpos hle, ?_, ?_⟩
  · intro i hi
    have hlast : pageOf pos ≤ pageOf (pos + buf.length - 1) := Nat.div_le_div_right (by omega)
    exact update_of_ne (by omega) _ _
  · intro i pg hpg j hj
    by_cases hi : i = pageOf pos
    · subst hi
      rw [Inode.setPage_iPages, update_self, some.injEq] at hpg
      subst hpg
      have hoff : offsetInPage pos < pageSize := Nat.mod_lt _ (by decide)
      have hclear : ∀ pg, ¬ Cleared pg pos buf.length j := by
        rintro pg ⟨-, -, h⟩
        omega
      simp only [writtenPage, begunPage, hclear, if_false, if_neg (show ¬ j < buf.length by omega)]
    · rw [Inode.setPage_iPages, update_of_ne hi] at hpg
      rw [grabCachePageWriteBegin, hpg]
      rfl

/-- A write of at most a page puts the first byte of the buffer at the start of the page. -/
theorem byteAt_pageMask_of_write {w : ℕ} (hn : 0 < buf.length) (hle : buf.length ≤ pageSize)
    (h : genericFileWriteIter ino pos buf fresh = .ok (w, ino')) :
    ino'.byteAt (pageMask pos) = buf.getD 0 0 := by
  rw [genericFileWriteIter_of_le hn hle] at h
  cases h
  have hpage : pageOf (pageMask pos) = pageOf pos := Nat.mul_div_cancel _ (by decide)
  have hoff : offsetInPage (pageMask pos) = 0 := Nat.mul_mod_left _ _
  rw [byteAt_of_page (by rw [hpage]; exact update_self ..) rfl, hoff]
  simp only [writtenPage, hn, if_true]

/-- **Which writes are right**, whatever the buffer and whatever is left in a new page. -/
theorem writesExactly_iff (ino : Inode) (pos : ℕ) {n : ℕ} (hn : 0 < n) (hword : n < wordSize) :
    (∀ buf : List (BitVec 8), buf.length = n → ∀ fresh,
      WritesExactly ino pos buf fresh (genericFileWriteIter ino pos buf fresh)) ↔
        pageSize ∣ pos ∧ n ≤ pageSize := by
  constructor
  · intro h
    -- a buffer whose first byte is not the one at the start of the page
    obtain ⟨ino', hok, hcontents, -⟩ := h (replicate n (ino.byteAt (pageMask pos) + 1))
      length_replicate fun _ => 0
    rw [length_replicate] at hok
    have hle : n ≤ pageSize := by
      by_contra hlt
      have hzero := genericFileWriteIter_of_lt
        (by rw [length_replicate]; omega) (by rw [length_replicate]; omega) hok
      omega
    refine ⟨?_, hle⟩
    by_contra hpos
    have hne : pageMask pos ≠ pos := fun heq => hpos (heq ▸ pageSize_dvd_pageMask pos)
    have hbelow : pageMask pos < pos := lt_of_le_of_ne (pageMask_le pos) hne
    have hbyte := congrArg (fun b : ByteFile => b.byte (pageMask pos)) hcontents
    simp only [Inode.contents, ByteFile.write, not_le.2 hbelow, false_and, if_false] at hbyte
    rw [byteAt_pageMask_of_write (by simpa using hn) (by simpa using hle) hok] at hbyte
    rw [getD_eq_getElem?_getD, getElem?_replicate, if_pos hn, getD_some] at hbyte
    exact absurd hbyte ((by decide : ∀ x : BitVec 8, x + 1 ≠ x) _)
  · rintro ⟨hpos, hle⟩ buf rfl fresh
    exact genericFileWriteIter_exact hpos hn hle

/-! ### Reading -/

/-- The pages of a batch are cached and up to date. -/
def AllUptodate (ino : Inode) (batch : List ℕ) : Prop :=
  ∀ i ∈ batch, ∃ pg, ino.iPages i = some pg ∧ pg.uptodate = true

/-- A batch is a row of cached pages, of which only the last may not be up to date. -/
theorem filemapGetReadBatch_spec (ino : Inode) (last n i : ℕ) :
    (∃ k, filemapGetReadBatch ino last n i = range' i k) ∧
      ∀ j ∈ filemapGetReadBatch ino last n i, ∃ pg, ino.iPages j = some pg ∧
        (pg.uptodate = true ∨ (filemapGetReadBatch ino last n i).getLast? = some j) := by
  induction n generalizing i with
  | zero => exact ⟨⟨0, rfl⟩, fun j hj => absurd hj not_mem_nil⟩
  | succ n ih =>
    simp only [filemapGetReadBatch]
    cases hpg : ino.iPages i with
    | none => exact ⟨⟨0, rfl⟩, fun j hj => absurd hj not_mem_nil⟩
    | some pg =>
      dsimp only
      split_ifs with hlast hu
      · exact ⟨⟨0, rfl⟩, fun j hj => absurd hj not_mem_nil⟩
      · obtain ⟨⟨k, hk⟩, hrest⟩ := ih (i + 1)
        refine ⟨⟨k + 1, by rw [hk, range'_succ]⟩, fun j hj => ?_⟩
        rcases mem_cons.1 hj with rfl | hj
        · exact ⟨pg, hpg, .inl hu⟩
        · obtain ⟨pg', hpg', h⟩ := hrest j hj
          refine ⟨pg', hpg', h.imp_right fun hlast => ?_⟩
          rw [getLast?_cons, hlast]
          rfl
      · refine ⟨⟨1, rfl⟩, fun j hj => ?_⟩
        obtain rfl : j = i := mem_singleton.1 hj
        exact ⟨pg, hpg, .inr rfl⟩

theorem filemapGetReadBatch_eq_nil {last : ℕ} (hi : i ≤ last)
    (h : filemapGetReadBatch ino last pagevecSize i = []) : ino.iPages i = none := by
  rw [show pagevecSize = 14 + 1 from rfl, filemapGetReadBatch] at h
  cases hpg : ino.iPages i with
  | none => rfl
  | some pg =>
    rw [hpg] at h
    dsimp only at h
    rw [if_neg (not_lt.2 hi)] at h
    split_ifs at h

/-- A page that was read in is zero, which is what the inode held there before. -/
theorem contents_setPage_zero (hold : ∀ pg, ino.iPages i = some pg → pg.uptodate = false)
    (hzero : ∀ j < pageSize, pg.data j = 0) : (ino.setPage i pg).contents = ino.contents := by
  refine ByteFile.ext rfl (funext fun k => ?_)
  by_cases hk : pageOf k = i
  · subst hk
    have hlt : offsetInPage k < pageSize := Nat.mod_lt _ (by decide)
    have hbefore : ino.byteAt k = 0 := by
      unfold Inode.byteAt
      cases hpg : ino.iPages (pageOf k) with
      | none => rfl
      | some pg => simp [hold pg hpg]
    show (ino.setPage (pageOf k) pg).byteAt k = ino.byteAt k
    rw [hbefore]
    simp [Inode.byteAt, hzero _ hlt]
  · exact byteAt_congr (update_of_ne hk _ _)

/-- The page that `simple_read_folio` leaves. -/
theorem simpleReadFolio_spec (pg : CachePage) : ∃ pg', simpleReadFolio pg = .ok pg' ∧
    pg'.uptodate = true ∧ ∀ j < pageSize, pg'.data j = 0 := by
  unfold simpleReadFolio
  rw [zeroUserSegments, if_neg (by decide)]
  exact ⟨_, rfl, rfl, fun j hj => if_pos (.inl ⟨Nat.zero_le j, hj⟩)⟩

/-- After `filemap_update_page` of its last page a batch is up to date. -/
theorem filemapUpdatePage_spec {batch : List ℕ}
    (hbatch : ∀ j ∈ batch, ∃ pg, ino.iPages j = some pg ∧
      (pg.uptodate = true ∨ batch.getLast? = some j)) (hlast : batch.getLast? = some i) :
    ∃ ino', filemapUpdatePage ino i = .ok ino' ∧ ino'.contents = ino.contents ∧
      AllUptodate ino' batch := by
  obtain ⟨pg, hpg, -⟩ := hbatch i (mem_of_getLast? hlast)
  simp only [filemapUpdatePage, hpg]
  split_ifs with hu
  · refine ⟨ino, rfl, rfl, fun j hj => ?_⟩
    obtain ⟨pg', hpg', h⟩ := hbatch j hj
    rcases h with h | h
    · exact ⟨pg', hpg', h⟩
    · obtain rfl : i = j := by rwa [hlast, some.injEq] at h
      exact ⟨pg, hpg, hu⟩
  · obtain ⟨pg', hread, hu', hzero⟩ := simpleReadFolio_spec pg
    rw [hread]
    refine ⟨_, rfl, contents_setPage_zero (fun p hp => ?_) hzero, fun j hj => ?_⟩
    · rw [hpg, some.injEq] at hp
      exact hp ▸ Bool.not_eq_true _ ▸ hu
    · by_cases hji : j = i
      · exact ⟨pg', by rw [hji]; exact update_self .., hu'⟩
      · obtain ⟨p, hp, h⟩ := hbatch j hj
        refine ⟨p, by rw [Inode.setPage_iPages, update_of_ne hji, hp], ?_⟩
        refine h.resolve_right fun h => hji ?_
        rwa [hlast, some.injEq, eq_comm] at h

/-- **`filemap_get_pages`** finds a row of pages from the position on, all up to date, and does
not change what the inode holds. -/
theorem filemapGetPages_spec (ino : Inode) (hmax : pos + count ≤ maxLfsFilesize)
    (fresh : ℕ → BitVec 8) :
    ∃ k ino', filemapGetPages ino pos count fresh = .ok (range' (pageOf pos) (k + 1), ino') ∧
      ino'.contents = ino.contents ∧ AllUptodate ino' (range' (pageOf pos) (k + 1)) := by
  have hlast : (pos + count + (pageSize - 1)) / pageSize % wordSize =
      (pos + count + (pageSize - 1)) / pageSize := by
    refine Nat.mod_eq_of_lt (Nat.div_lt_of_lt_mul ?_)
    have hbound : maxLfsFilesize + (pageSize - 1) < pageSize * wordSize := by decide
    omega
  have hle : pageOf pos ≤ (pos + count + (pageSize - 1)) / pageSize :=
    Nat.div_le_div_right (by omega)
  obtain ⟨⟨k, hrange⟩, hbatch⟩ := filemapGetReadBatch_spec ino
    ((pos + count + (pageSize - 1)) / pageSize) pagevecSize (pageOf pos)
  rw [hrange] at hbatch
  unfold filemapGetPages
  simp only [hlast, hrange]
  cases k with
  | zero =>
    -- the batch is empty only if the page is not cached
    have hnone : ino.iPages (pageOf pos) = none := filemapGetReadBatch_eq_nil hle hrange
    obtain ⟨pg, hread, hu, hzero⟩ := simpleReadFolio_spec ⟨fresh, false⟩
    refine ⟨0, ino.setPage (pageOf pos) pg, ?_, contents_setPage_zero ?_ hzero, ?_⟩
    · simp only [range'_zero, getLast?_nil, filemapCreateFolio, hnone, hread]
      rfl
    · intro p hp
      rw [hnone] at hp
      cases hp
    · intro j hj
      obtain rfl : j = pageOf pos := mem_singleton.1 hj
      exact ⟨pg, update_self .., hu⟩
  | succ k =>
    obtain ⟨i, hi⟩ : ∃ i, (range' (pageOf pos) (k + 1)).getLast? = some i :=
      isSome_iff_exists.1 (by simp [range'_succ])
    obtain ⟨ino', hupdate, hcontents, hall⟩ := filemapUpdatePage_spec hbatch hi
    refine ⟨k, ino', ?_, hcontents, hall⟩
    rw [hi]
    simp only [hupdate]
    rfl

/-- The bytes that are copied from a page that is up to date. -/
theorem copyFolioToIter_eq {bytes : ℕ} (hpg : ino.iPages (pageOf pos) = some pg)
    (hu : pg.uptodate = true) (hle : offsetInPage pos + bytes ≤ pageSize) :
    copyFolioToIter ino (pageOf pos) (offsetInPage pos) bytes =
      ino.contents.slice pos (pos + bytes) := by
  rw [copyFolioToIter, hpg, ByteFile.slice, Nat.add_sub_cancel_left]
  refine map_congr_left fun i hi => ?_
  have hi : i < bytes := mem_range.1 hi
  have hdiv : pageSize * pageOf pos + offsetInPage pos = pos := Nat.div_add_mod pos pageSize
  have hsplit : pos + i = offsetInPage pos + i + pageSize * pageOf pos := by omega
  have hlt : offsetInPage pos + i < pageSize := by omega
  have hpage : pageOf (pos + i) = pageOf pos := by
    rw [hsplit, pageOf, Nat.add_mul_div_left _ _ (by decide), Nat.div_eq_of_lt hlt, Nat.zero_add]
  have hoff : offsetInPage (pos + i) = offsetInPage pos + i := by
    rw [hsplit, offsetInPage, Nat.add_mul_mod_self_left, Nat.mod_eq_of_lt hlt]
  show pg.data (offsetInPage pos + i) = ino.byteAt (pos + i)
  rw [byteAt_of_page (hpage ▸ hpg) hu, hoff]

/-- **The loop over a batch** copies the bytes up to where it stops, and at least one if there are
any. -/
theorem copyFolios_spec {endOffset : ℕ} (hall : AllUptodate ino (range' i k))
    (hpos : pos ≤ endOffset) (hi : i = pageOf pos ∨ pos = endOffset) :
    let r := copyFolios ino endOffset (range' i k) pos
    (pos ≤ r.1 ∧ r.1 ≤ endOffset ∧ r.2 = ino.contents.slice pos r.1) ∧
      (0 < k → pos < endOffset → pos < r.1) := by
  induction k generalizing i pos with
  | zero => exact ⟨⟨le_rfl, hpos, (ByteFile.slice_eq_nil le_rfl).symm⟩, fun h => absurd h (by simp)⟩
  | succ k ih =>
    have hrest : AllUptodate ino (range' (i + 1) k) :=
      fun j hj => hall j (by rw [range'_succ]; exact mem_cons_of_mem _ hj)
    have hoff : offsetInPage pos < pageSize := Nat.mod_lt _ (by decide)
    have hdiv : pageSize * pageOf pos + offsetInPage pos = pos := Nat.div_add_mod pos pageSize
    rw [range'_succ]
    simp only [copyFolios]
    split_ifs with hbreak
    · refine ⟨⟨le_rfl, hpos, (ByteFile.slice_eq_nil le_rfl).symm⟩, fun _ hlt => ?_⟩
      have hi' : i = pageOf pos := hi.resolve_right (by omega)
      rw [hi', mul_comm] at hbreak
      omega
    · set bytes := min (endOffset - pos) (pageSize - offsetInPage pos) with hbytes
      have hnext : i + 1 = pageOf (pos + bytes) ∨ pos + bytes = endOffset := by
        rcases hi with rfl | rfl
        · rcases Nat.le_total (endOffset - pos) (pageSize - offsetInPage pos) with hle | hle
          · exact .inr (by omega)
          · left
            have hsum : pos + bytes = pageSize * (pageOf pos + 1) := by rw [mul_add]; omega
            rw [hsum]
            exact (Nat.mul_div_cancel_left _ (by decide)).symm
        · exact .inr (by omega)
      obtain ⟨⟨hlo, hhi, hslice⟩, -⟩ := ih hrest (by omega) hnext
      have hcopy : copyFolioToIter ino i (offsetInPage pos) bytes =
          ino.contents.slice pos (pos + bytes) := by
        obtain ⟨pg, hpg, hu⟩ := hall i (by simp [range'_succ])
        rcases hi with rfl | rfl
        · exact copyFolioToIter_eq hpg hu (by omega)
        · have hzero : bytes = 0 := by omega
          rw [hzero, copyFolioToIter, hpg, ByteFile.slice_eq_nil (by omega)]
          rfl
      refine ⟨⟨by omega, hhi, ?_⟩, fun _ hlt => by omega⟩
      rw [hcopy, hslice, ByteFile.slice_append (by omega) hlo]

theorem filemapReadLoop_eq {fuel : ℕ} (hcount : 0 < count) (hfuel : count ≤ fuel)
    (hmax : pos + count ≤ maxLfsFilesize) :
    ∃ ino', filemapReadLoop fresh fuel ino pos count = .ok (ino.contents.read pos count, ino') ∧
      ino'.contents = ino.contents := by
  induction fuel generalizing ino pos count with
  | zero => omega
  | succ fuel ih =>
    simp only [filemapReadLoop]
    split_ifs with hsize
    · have hend : min ino.contents.size (pos + count) ≤ pos := min_le_of_left_le hsize
      refine ⟨ino, ?_, rfl⟩
      rw [ByteFile.read, ByteFile.slice_eq_nil hend]
    · obtain ⟨k, ino₁, hget, hcontents, hall⟩ := filemapGetPages_spec ino hmax fresh
      have hsz : ino₁.iSize = ino.iSize := congrArg ByteFile.size hcontents
      have hpos : pos ≤ min ino₁.iSize (pos + count) := by omega
      obtain ⟨⟨hlo, hhi, hslice⟩, hprogress⟩ := copyFolios_spec hall hpos (.inl rfl)
      simp only [hget, bind, Except.bind, pure, Except.pure]
      generalize copyFolios ino₁ (min ino₁.iSize (pos + count))
        (range' (pageOf pos) (k + 1)) pos = r at hlo hhi hslice hprogress ⊢
      have hstep : pos < r.1 := hprogress (Nat.succ_pos k) (by omega)
      rw [hcontents] at hslice
      split_ifs with hmore
      · have hmax' : r.1 + (count - (r.1 - pos)) ≤ maxLfsFilesize := by omega
        obtain ⟨ino₂, hloop, hcontents₂⟩ := ih hmore.1 (by omega) hmax'
        rw [hloop]
        refine ⟨ino₂, ?_, hcontents₂.trans hcontents⟩
        have hhi' : r.1 ≤ min ino.contents.size (pos + count) := by rwa [hsz] at hhi
        rw [hcontents, hslice, ByteFile.read_eq_append hlo hhi']
      · refine ⟨ino₁, ?_, hcontents⟩
        have hend : r.1 = min ino.iSize (pos + count) := by omega
        rw [hslice, hend]
        rfl

/-- **Reading returns the bytes of the array** and does not change it. -/
theorem filemapRead_eq (hmax : pos + count ≤ maxLfsFilesize) :
    ∃ ino', filemapRead ino pos count fresh = .ok (ino.contents.read pos count, ino') ∧
      ino'.contents = ino.contents := by
  rw [filemapRead]
  split_ifs with hnone
  · have hcount : count = 0 := by omega
    refine ⟨ino, ?_, rfl⟩
    rw [hcount, ByteFile.read, ByteFile.slice_eq_nil (by omega)]
  · rw [min_eq_left (by omega)]
    exact filemapReadLoop_eq (by omega) le_rfl hmax

/-! ### Runs -/

inductive FileOp
  | write (pos : ℕ) (buf : List (BitVec 8))
  | read (pos count : ℕ)

/-- What an operation does to a byte array. -/
def FileOp.apply (b : ByteFile) : FileOp → ByteFile
  | write pos buf => b.write pos buf
  | read _ _ => b

/-- The steps of a run, with whatever a new page may hold. -/
inductive FileStep : Inode → FileOp → Inode → Prop
  | write {ino ino' : Inode} {pos w : ℕ} {buf : List (BitVec 8)} {fresh : ℕ → BitVec 8}
      (result : kernelWrite ino pos buf fresh = .ok (w, ino')) : FileStep ino (.write pos buf) ino'
  | read {ino ino' : Inode} {pos count : ℕ} {bytes : List (BitVec 8)} {fresh : ℕ → BitVec 8}
      (result : filemapRead ino pos count fresh = .ok (bytes, ino')) :
      FileStep ino (.read pos count) ino'

/-- The operations after which a file still is the byte array that it should be. -/
def FileOp.Paged : FileOp → Prop
  | write pos buf => pageSize ∣ pos ∧ 0 < buf.length ∧ buf.length ≤ pageSize
  | read pos count => pos + count ≤ maxLfsFilesize

theorem kernelWrite_eq (hle : buf.length ≤ pageSize) :
    kernelWrite ino pos buf fresh = genericFileWriteIter ino pos buf fresh := by
  have hmax : pageSize ≤ maxRwCount := by decide
  rw [kernelWrite, take_of_length_le (hle.trans hmax)]

/-- **Step lemma.** -/
theorem FileStep.contents {op : FileOp} (h : FileStep ino op ino') (hop : op.Paged) :
    ino'.contents = op.apply ino.contents := by
  cases h with
  | write result =>
    obtain ⟨hpos, hn, hle⟩ := hop
    rw [kernelWrite_eq hle, genericFileWriteIter_of_le hn hle] at result
    cases result
    exact contents_writtenPage hpos hle
  | read result =>
    obtain ⟨ino₁, hread, hcontents⟩ := filemapRead_eq hop
    rw [hread] at result
    cases result
    exact hcontents

/-- **Run lemma.** The inode holds what the operations make of a byte array. -/
theorem contents_of_run {ops : List FileOp}
    (h : Run (guarded (fun _ op => op.Paged) FileStep) ino ops ino') :
    ino'.contents = ops.foldl FileOp.apply ino.contents := by
  induction h with
  | nil => rfl
  | cons first _ ih => rw [ih, first.2.contents first.1, foldl_cons]

/-- A file that behaves as the byte array `b`: it is zero behind the end, every read returns the
bytes of `b`, and every write of at most a page to a page boundary is right. -/
structure BehavesAs (ino : Inode) (b : ByteFile) : Prop where
  contents : ino.contents = b
  zero_tail : ∀ k, b.size ≤ k → b.byte k = 0
  reads : ∀ pos count fresh, pos + count ≤ maxLfsFilesize →
    ∃ ino', filemapRead ino pos count fresh = .ok (b.read pos count, ino')
  writes : ∀ pos buf fresh, pageSize ∣ pos → 0 < buf.length → buf.length ≤ pageSize →
    WritesExactly ino pos buf fresh (kernelWrite ino pos buf fresh)

theorem behavesAs_of_run {ops : List FileOp} (f : RamfsFile)
    (h : Run (guarded (fun _ op => op.Paged) FileStep) f.toInode ops ino') :
    BehavesAs ino' (ops.foldl FileOp.apply f.contents) := by
  have hcontents := contents_of_run h
  refine ⟨hcontents, ?_, fun pos count fresh hmax => ?_, fun pos buf fresh hpos hn hle => ?_⟩
  · -- zeros behind the end are an invariant of the array
    have hfold : ∀ (ops : List FileOp) (b : ByteFile), (∀ k, b.size ≤ k → b.byte k = 0) →
        ∀ k, (ops.foldl FileOp.apply b).size ≤ k → (ops.foldl FileOp.apply b).byte k = 0 := by
      intro ops
      induction ops with
      | nil => exact fun b hb => hb
      | cons op ops ih =>
        intro b hb
        refine ih _ ?_
        cases op with
        | write pos buf => exact ByteFile.write_zero_tail hb
        | read pos count => exact hb
    exact hfold ops _ f.zero_tail
  · obtain ⟨ino₁, hread, -⟩ := filemapRead_eq hmax
    exact ⟨ino₁, hcontents ▸ hread⟩
  · rw [kernelWrite_eq hle]
    exact genericFileWriteIter_exact hpos hn hle

/-- **Which writes to a ramfs file are right.** A write of `n` bytes at `pos` does what it should,
for every buffer and whatever is left in a new page, if and only if it starts on a page boundary
and is not longer than a page. A file that is written only in this way behaves as a byte array. -/
theorem ramfs_writes_exactly_iff (f : RamfsFile) :
    (∀ pos n, 0 < n → n < wordSize →
      ((∀ buf : List (BitVec 8), buf.length = n → ∀ fresh,
        WritesExactly f.toInode pos buf fresh (genericFileWriteIter f.toInode pos buf fresh)) ↔
          pageSize ∣ pos ∧ n ≤ pageSize)) ∧
      ∀ ops ino', Run (guarded (fun _ op => op.Paged) FileStep) f.toInode ops ino' →
        BehavesAs ino' (ops.foldl FileOp.apply f.contents) :=
  ⟨fun pos _ hn hword => writesExactly_iff f.toInode pos hn hword,
    fun _ _ h => behavesAs_of_run f h⟩

/-- A file without any pages. -/
def emptyFile : RamfsFile where
  iSize := 0
  iPages _ := none
  zero_tail _ _ := rfl

theorem ramfs_writes_exactly_page :
    (∀ buf : List (BitVec 8), buf.length = 3 → ∀ fresh,
      WritesExactly emptyFile.toInode pageSize buf fresh
        (genericFileWriteIter emptyFile.toInode pageSize buf fresh)) ∧
      BehavesAs emptyFile.toInode emptyFile.contents :=
  ⟨((ramfs_writes_exactly_iff emptyFile).1 pageSize 3 (by decide) (by decide)).2
    ⟨dvd_rfl, by decide⟩, (ramfs_writes_exactly_iff emptyFile).2 [] _ .nil⟩

/-- One byte written at position `100` of an empty file is at position `0` afterwards, and a write
of a page and a byte does not come back. -/
theorem ramfs_write_misplaced :
    (∃ ino', genericFileWriteIter emptyFile.toInode 100 [7] (fun _ => 0) = .ok (1, ino') ∧
      ino'.byteAt 100 = 0 ∧ ino'.byteAt 0 = 7) ∧
      genericFileWriteIter emptyFile.toInode 0 (replicate (pageSize + 1) 1) (fun _ => 0) =
        .error .bug := by
  refine ⟨⟨_, genericFileWriteIter_of_le (by decide) (by decide), by decide, by decide⟩, ?_⟩
  exact genericFileWriteIter_crash (by simp) (by rw [length_replicate]; decide) rfl

end MinimalKernel.Fs
