import MinimalKernel.Basic

/-!
# Reading and writing ramfs files

The model of the write path `generic_file_write_iter`, `generic_perform_write`,
`simple_write_begin`, `copy_page_from_iter_atomic`, `simple_write_end`, and of the read path
`filemap_read`, on an inode whose contents are the pages of its page cache.

`generic_perform_write` calls `write_begin` once for the whole length, copies to the offset `0` of
the page it gets, and calls `write_end`. Pages are single pages, and no allocation fails; the bytes
of a page that is newly allocated are a parameter, since the page allocator does not clear them.
There are no other tasks, so that a page is never found locked or truncated.

## Main definitions

* `CachePage`, `Inode` — pages of the page cache, and inodes
* `simpleWriteBegin`, `simpleWriteEnd`, `genericFileWriteIter`, `kernelWrite` — the write path
* `filemapGetPages`, `filemapRead` — the read path
-/

namespace MinimalKernel.Fs

/-! ### Inodes and their pages -/

/-- A page of the page cache. Only the first `pageSize` bytes are the page; what lies behind them
is other memory. -/
structure CachePage where
  data : ℕ → BitVec 8
  uptodate : Bool

/-- `i_size` and `i_mapping->i_pages`. -/
structure Inode where
  iSize : ℕ
  iPages : ℕ → Option CachePage

/-- `MAX_LFS_FILESIZE`, which is `s_maxbytes` of ramfs. -/
def maxLfsFilesize : ℕ := (wordSize - 1) * pageSize

/-- `MAX_RW_COUNT`. -/
def maxRwCount : ℕ := 0x7ffff000

/-- `PAGEVEC_SIZE`. -/
def pagevecSize : ℕ := 15

variable (ino : Inode) (index : ℕ)

def Inode.setPage (pg : CachePage) : Inode :=
  { ino with iPages := Function.update ino.iPages index (some pg) }

@[simp] theorem Inode.setPage_iPages (pg : CachePage) :
    (ino.setPage index pg).iPages = Function.update ino.iPages index (some pg) := rfl

variable (pg : CachePage)

/-- `zero_user_segments`. -/
def zeroUserSegments (start1 end1 start2 end2 : ℕ) : Except Oops CachePage :=
  if pageSize < end1 ∨ pageSize < end2 then .error .bug
  else
    .ok { pg with data := fun j =>
            if start1 ≤ j ∧ j < end1 ∨ start2 ≤ j ∧ j < end2 then 0 else pg.data j }

/-- `zero_user`. -/
def zeroUser (start size : ℕ) : Except Oops CachePage :=
  zeroUserSegments pg start (start + size) 0 0

/-! ### Writing -/

/-- `page_copy_sane`, for a single page. -/
def pageCopySane (offset n : ℕ) : Bool := n ≤ wadd n offset && wadd n offset ≤ pageSize

/-- `copy_page_from_iter_atomic`: the number of bytes that were copied, and the page. -/
def copyPageFromIterAtomic (offset : ℕ) (buf : List (BitVec 8)) : ℕ × CachePage :=
  if pageCopySane offset buf.length then
    (buf.length, { pg with data := fun j =>
                     if offset ≤ j ∧ j < offset + buf.length then buf.getD (j - offset) 0
                     else pg.data j })
  else (0, pg)

/-- `grab_cache_page_write_begin`: the page of the cache, or a new one. -/
def grabCachePageWriteBegin (fresh : ℕ → BitVec 8) : CachePage :=
  (ino.iPages index).getD ⟨fresh, false⟩

/-- `simple_write_begin`: the page that it hands out. -/
def simpleWriteBegin (pos len : ℕ) (fresh : ℕ → BitVec 8) : Except Oops CachePage :=
  let pg := grabCachePageWriteBegin ino (pageOf pos) fresh
  if !pg.uptodate && len != pageSize then
    let off := offsetInPage pos
    zeroUserSegments pg 0 off (off + len) pageSize
  else .ok pg

/-- The part of `simple_write_end` that is skipped for a page that is up to date. -/
def writeEndPage (pos len copied : ℕ) : Except Oops CachePage :=
  if pg.uptodate then .ok pg
  else
    (if copied < len then zeroUser pg (offsetInPage pos + copied) (len - copied) else .ok pg).map
      fun pg => { pg with uptodate := true }

/-- `simple_write_end`, for the page `pg` of the inode. -/
def simpleWriteEnd (pos len copied : ℕ) (pg : CachePage) : Except Oops Inode :=
  (writeEndPage pg pos len copied).map fun pg =>
    let size := if ino.iSize < pos + copied then pos + copied else ino.iSize
    { ino with iSize := size }.setPage (pageOf pos) pg

/-- `generic_perform_write`. -/
def genericPerformWrite (pos : ℕ) (buf : List (BitVec 8)) (fresh : ℕ → BitVec 8) :
    Except Oops (ℕ × Inode) := do
  let pg ← simpleWriteBegin ino pos buf.length fresh
  let (written, pg) := copyPageFromIterAtomic pg 0 buf
  let ino ← simpleWriteEnd ino pos buf.length written pg
  return (written, ino)

/-- `generic_file_write_iter`, with `__generic_file_write_iter`. -/
def genericFileWriteIter (pos : ℕ) (buf : List (BitVec 8))
    (fresh : ℕ → BitVec 8) : Except Oops (ℕ × Inode) :=
  if 0 < buf.length then genericPerformWrite ino pos buf fresh else .ok (0, ino)

/-- `kernel_write`. -/
def kernelWrite (pos : ℕ) (buf : List (BitVec 8)) (fresh : ℕ → BitVec 8) :
    Except Oops (ℕ × Inode) :=
  genericFileWriteIter ino pos (buf.take maxRwCount) fresh

/-! ### Reading -/

/-- The indices that `filemap_get_read_batch` finds with room for `n` more: cached pages in a row,
up to the first that is not up to date. -/
def filemapGetReadBatch (ino : Inode) (last : ℕ) : ℕ → ℕ → List ℕ
  | 0, _ => []
  | n + 1, index =>
    match ino.iPages index with
    | none => []
    | some pg =>
      if last < index then []
      else if pg.uptodate then index :: filemapGetReadBatch ino last n (index + 1)
      else [index]

/-- `simple_read_folio`. -/
def simpleReadFolio : Except Oops CachePage :=
  (zeroUserSegments pg 0 pageSize 0 0).map fun pg => { pg with uptodate := true }

/-- `filemap_create_folio`; for a page that is cached already the caller would try again and
again. -/
def filemapCreateFolio (fresh : ℕ → BitVec 8) : Except Oops (List ℕ × Inode) :=
  if (ino.iPages index).isSome then .error .hang
  else (simpleReadFolio ⟨fresh, false⟩).map fun pg => ([index], ino.setPage index pg)

/-- `filemap_update_page`, for the last page of a batch. -/
def filemapUpdatePage : Except Oops Inode :=
  match ino.iPages index with
  | none => .ok ino
  | some pg =>
    if pg.uptodate then .ok ino else (simpleReadFolio pg).map fun pg => ino.setPage index pg

/-- `filemap_get_pages`. -/
def filemapGetPages (pos count : ℕ) (fresh : ℕ → BitVec 8) : Except Oops (List ℕ × Inode) :=
  let lastIndex := (pos + count + (pageSize - 1)) / pageSize % wordSize
  let batch := filemapGetReadBatch ino lastIndex pagevecSize (pageOf pos)
  match batch.getLast? with
  | none => filemapCreateFolio ino (pageOf pos) fresh
  | some index => (filemapUpdatePage ino index).map fun ino => (batch, ino)

/-- The bytes that `copy_folio_to_iter` copies. -/
def copyFolioToIter (index offset bytes : ℕ) : List (BitVec 8) :=
  match ino.iPages index with
  | none => []
  | some pg => (List.range bytes).map fun i => pg.data (offset + i)

/-- The loop of `filemap_read` over a batch: the position at which it stops, and the bytes. -/
def copyFolios (ino : Inode) (endOffset : ℕ) : List ℕ → ℕ → ℕ × List (BitVec 8)
  | [], pos => (pos, [])
  | index :: batch, pos =>
    if endOffset < index * pageSize then (pos, [])
    else
      let offset := offsetInPage pos
      let bytes := min (endOffset - pos) (pageSize - offset)
      let r := copyFolios ino endOffset batch (pos + bytes)
      (r.1, copyFolioToIter ino index offset bytes ++ r.2)

/-- The outer loop of `filemap_read`, for at most `fuel` rounds. -/
def filemapReadLoop (fresh : ℕ → BitVec 8) :
    ℕ → Inode → ℕ → ℕ → Except Oops (List (BitVec 8) × Inode)
  | 0, _, _, _ => .error .hang
  | fuel + 1, ino, pos, count =>
    if ino.iSize ≤ pos then .ok ([], ino)
    else do
      let (batch, ino) ← filemapGetPages ino pos count fresh
      let (next, bytes) := copyFolios ino (min ino.iSize (pos + count)) batch pos
      let left := count - (next - pos)
      if 0 < left ∧ next < ino.iSize then
        let (more, ino) ← filemapReadLoop fresh fuel ino next left
        return (bytes ++ more, ino)
      else return (bytes, ino)

/-- `filemap_read`: every round copies a byte, so that `count` rounds are enough. -/
def filemapRead (pos count : ℕ) (fresh : ℕ → BitVec 8) : Except Oops (List (BitVec 8) × Inode) :=
  if maxLfsFilesize ≤ pos ∨ count = 0 then .ok ([], ino)
  else
    let count := min count maxLfsFilesize
    filemapReadLoop fresh count ino pos count

end MinimalKernel.Fs
