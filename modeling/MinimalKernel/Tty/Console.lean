import Mathlib.Data.Nat.Bitwise

/-!
# The virtual console

The model of the output of `drivers/tty/vt/vt.c`: kernel messages are printed by `vt_console_print`,
and what processes write to the terminal goes through `do_con_write`. Both store characters in the
screen buffer and move the cursor.

`unsigned int` and `unsigned long` have 32 bits, and their arithmetic is written out as `wrap32`.
The screen buffer is a part of memory; a cell is named by its address. Next to the memory a
`Console` keeps the addresses of all the cells that have been stored.

The display driver does not scroll by itself. Of its other functions only `con_putcs` is called with
data of the write, and its calls are part of the results. The attributes of characters stay as they
are, and no function of the file leaves the state `ESnormal` of the escape sequences.

## Main definitions

* `VcData`, `Console` — the state of a console, and the memory behind it
* `conScroll`, `lf`, `cr`, `gotoxy` — the movements of the cursor
* `vcTranslate`, `vcIsControl`, `vcConWriteNormal`, `doConWrite` — writing
* `vtConsolePrint` — printing
* `vcInit`, `conInit` — the console after boot
-/

namespace MinimalKernel.Tty

/-! ### The state -/

/-- The value of an unsigned expression of 32 bits. -/
def wrap32 (n : ℕ) : ℕ := n % 2 ^ 32

/-- `a - b` on unsigned operands of 32 bits. -/
def sub32 (a b : ℕ) : ℕ := wrap32 (a + 2 ^ 32 - b)

/-- The values of `vc_state`. -/
inductive EscState
  | normal | esc | square | getpars | funckey | hash | setG0 | setG1 | percent | csiignore | nonstd
  | palette | osc | apc | pm | dcs
  deriving DecidableEq, Repr

/-- `struct vc_data`, as far as output reads it; `x` and `y` are fields of its `state`. -/
structure VcData where
  x : ℕ
  y : ℕ
  cols : ℕ
  rows : ℕ
  sizeRow : ℕ
  origin : ℕ
  scrEnd : ℕ
  top : ℕ
  bottom : ℕ
  screenbuf : ℕ
  screenbufSize : ℕ
  attr : ℕ
  pos : ℕ
  hiFontMask : ℕ
  videoEraseChar : ℕ
  state : EscState
  npar : ℕ
  dispCtrl : Bool
  decom : Bool
  decawm : Bool
  needWrap : Bool
  utf : Bool
  utfCount : ℕ
  utfChar : ℕ
  deriving DecidableEq, Repr

/-- A console, the memory, and the addresses of the cells that were stored, the last one first. -/
structure Console where
  vc : VcData
  mem : ℕ → ℕ
  stores : List ℕ

variable (s : Console)

/-- `scr_writew`. -/
def scrWritew (v a : ℕ) : Console :=
  { s with mem := Function.update s.mem a (v % 2 ^ 16), stores := a :: s.stores }

/-- The cells of `count` bytes from `a` on. -/
def cells (a count : ℕ) : List ℕ := (List.range (count / 2)).map fun i => a + 2 * i

/-- `scr_memsetw`. -/
def scrMemsetw (a v count : ℕ) : Console :=
  { s with
    mem := fun b => if b ∈ cells a count then v % 2 ^ 16 else s.mem b
    stores := cells a count ++ s.stores }

/-- `scr_memmovew`. -/
def scrMemmovew (d a count : ℕ) : Console :=
  { s with
    mem := fun b => if b ∈ cells d count then s.mem (a + (b - d)) else s.mem b
    stores := cells d count ++ s.stores }

/-! ### Movements of the cursor -/

inductive ScrollDir
  | up | down
  deriving DecidableEq, Repr

/-- `con_scroll`. -/
def conScroll (t b : ℕ) (dir : ScrollDir) (nr : ℕ) : Console :=
  let nr := if b ≤ wrap32 (t + nr) then sub32 (sub32 b t) 1 else nr
  if s.vc.rows < b ∨ b ≤ t ∨ nr < 1 then s
  else
    let upper := wrap32 (s.vc.origin + s.vc.sizeRow * t)
    let lower := wrap32 (s.vc.origin + s.vc.sizeRow * wrap32 (t + nr))
    let kept := sub32 (sub32 b t) nr
    match dir with
    | .up =>
      scrMemsetw (scrMemmovew s upper lower (wrap32 (kept * s.vc.sizeRow)))
        (wrap32 (upper + 2 * (kept * s.vc.cols))) s.vc.videoEraseChar (wrap32 (s.vc.sizeRow * nr))
    | .down =>
      scrMemsetw (scrMemmovew s lower upper (wrap32 (kept * s.vc.sizeRow)))
        upper s.vc.videoEraseChar (wrap32 (s.vc.sizeRow * nr))

def lf : Console :=
  let s :=
    if wrap32 (s.vc.y + 1) = s.vc.bottom then conScroll s s.vc.top s.vc.bottom .up 1
    else if s.vc.y < sub32 s.vc.rows 1 then
      { s with vc := { s.vc with
          y := wrap32 (s.vc.y + 1), pos := wrap32 (s.vc.pos + s.vc.sizeRow) } }
    else s
  { s with vc := { s.vc with needWrap := false } }

def cr : Console :=
  { s with vc := { s.vc with
      pos := sub32 s.vc.pos (wrap32 (2 * s.vc.x)), needWrap := false, x := 0 } }

def gotoxy (newX newY : ℤ) : Console :=
  let v := s.vc
  let x := if newX < 0 then 0 else if (v.cols : ℤ) ≤ newX then sub32 v.cols 1 else newX.toNat
  let minY : ℤ := if v.decom then v.top else 0
  let maxY : ℤ := if v.decom then v.bottom else v.rows
  let y := if newY < minY then minY.toNat else if maxY ≤ newY then (maxY - 1).toNat else newY.toNat
  { s with vc := { v with
      x := x, y := y, pos := wrap32 (v.origin + y * v.sizeRow + 2 * x), needWrap := false } }

/-! ### Writing -/

/-- `utf8_length_changes`. -/
def utf8LengthChanges : List ℕ :=
  [0x0000007f, 0x000007ff, 0x0000ffff, 0x001fffff, 0x03ffffff, 0x7fffffff]

/-- `vc_sanitize_unicode`. -/
def vcSanitizeUnicode (c : ℕ) : ℕ :=
  if 0xd800 ≤ c ∧ c ≤ 0xdfff ∨ c = 0xfffe ∨ c = 0xffff then 0xfffd else c

/-- `vc_translate_unicode`: the character, or `-1` when more bytes are needed. The caller passes no
place for `rescan`, so that a sequence that is broken off makes the kernel fault: the result is then
`none`. -/
def vcTranslateUnicode (v : VcData) (c : ℕ) : Option (ℤ × VcData) :=
  if c &&& 0xc0 = 0x80 then
    if v.utfCount = 0 then some (0xfffd, v)
    else
      let v := { v with
        utfChar := (v.utfChar <<< 6) ||| (c &&& 0x3f)
        npar := wrap32 (v.npar + 1)
        utfCount := v.utfCount - 1 }
      if v.utfCount ≠ 0 then some (-1, v)
      else if v.utfChar ≤ utf8LengthChanges.getD (sub32 v.npar 1) 0 ∨
          utf8LengthChanges.getD v.npar 0 < v.utfChar then some (0xfffd, v)
      else some (vcSanitizeUnicode v.utfChar, v)
  else if v.utfCount ≠ 0 then none
  else if c ≤ 0x7f then some (c, v)
  else
    let v := { v with npar := 0 }
    if c &&& 0xe0 = 0xc0 then some (-1, { v with utfCount := 1, utfChar := c &&& 0x1f })
    else if c &&& 0xf0 = 0xe0 then some (-1, { v with utfCount := 2, utfChar := c &&& 0x0f })
    else if c &&& 0xf8 = 0xf0 then some (-1, { v with utfCount := 3, utfChar := c &&& 0x07 })
    else if c &&& 0xfc = 0xf8 then some (-1, { v with utfCount := 4, utfChar := c &&& 0x03 })
    else if c &&& 0xfe = 0xfc then some (-1, { v with utfCount := 5, utfChar := c &&& 0x01 })
    else some (0xfffd, v)

/-- `vc_translate`, without `CONFIG_CONSOLE_TRANSLATIONS`: the results are `tc` and the new `c`. -/
def vcTranslate (v : VcData) (c : ℕ) : Option (ℤ × ℤ × VcData) :=
  if v.state ≠ .normal then some (c, c, v)
  else if v.utf && !v.dispCtrl then
    (vcTranslateUnicode v c).map fun res => (res.1, res.1, res.2)
  else some (c, c, v)

/-- `vc_is_control`. -/
def vcIsControl (v : VcData) (tc c : ℤ) : Bool :=
  if v.state ≠ .normal then true
  else if tc = 0 then true
  else if c < 32 then
    if v.dispCtrl then (0x0800f501 : ℕ).testBit c.toNat
    else v.utf || (0x0d00ff81 : ℕ).testBit c.toNat
  else if c = 127 ∧ !v.dispCtrl then true
  else if c = 128 + 27 then true
  else false

/-- `conv_uni_to_pc`, without `CONFIG_CONSOLE_TRANSLATIONS`. -/
def convUniToPc (ucs : ℤ) : ℤ := if ucs < 0x100 then ucs else -1

/-- `struct vc_draw_region`; the `x` of an empty region is `-1`. -/
structure DrawRegion where
  start : ℕ
  stop : ℕ
  x : ℤ
  deriving DecidableEq, Repr

/-- A call of `con_putcs`. -/
structure Putcs where
  start : ℕ
  count : ℤ
  y : ℕ
  x : ℕ
  deriving DecidableEq, Repr

/-- `con_flush`. -/
def conFlush (draw : DrawRegion) : List Putcs :=
  if draw.x < 0 then []
  else [⟨draw.start, ((draw.stop : ℤ) - draw.start) / 2, s.vc.y, draw.x.toNat⟩]

/-- The value that `vc_con_write_normal` stores. -/
def cellValue (v : VcData) (tc c : ℤ) : ℕ :=
  let tc := convUniToPc tc
  let tc := (if tc < 0 then c else tc).toNat
  let tc :=
    if v.hiFontMask ≠ 0 then (if tc.testBit 8 then v.hiFontMask else 0) ||| (tc &&& 0xff) else tc
  tc ||| ((v.attr <<< 8) &&& (0xffff ^^^ v.hiFontMask))

/-- `vc_con_write_normal`; `update` is `con_should_update`. -/
def vcConWriteNormal (update : Bool) (s : Console) (tc c : ℤ) (draw : DrawRegion) :
    Console × DrawRegion :=
  let s := if s.vc.needWrap then lf (cr s) else s
  let s := scrWritew s (cellValue s.vc tc c) s.vc.pos
  let v := s.vc
  let draw := if update ∧ draw.x < 0 then { draw with x := v.x, start := v.pos } else draw
  if v.x = sub32 v.cols 1 then
    ({ s with vc := { v with needWrap := v.decawm } }, { draw with stop := wrap32 (v.pos + 2) })
  else
    ({ s with vc := { v with x := wrap32 (v.x + 1), pos := wrap32 (v.pos + 2) } },
      { draw with stop := wrap32 (v.pos + 2) })

/-- The loop of `do_con_write`. -/
def conWriteLoop (update : Bool) : List UInt8 → Console → DrawRegion → Option (Console × DrawRegion)
  | [], s, draw => some (s, draw)
  | c :: buf, s, draw =>
    match vcTranslate s.vc c.toNat with
    | none => none
    | some (tc, c, v) =>
      let s := { s with vc := v }
      if tc ≠ -1 ∧ !vcIsControl s.vc tc c then
        let (s, draw) := vcConWriteNormal update s tc c draw
        conWriteLoop update buf s draw
      else conWriteLoop update buf s draw

/-- What the caller and the rest of the system are like during a write. -/
structure WriteContext where
  /-- `in_interrupt()`. -/
  inInterrupt : Bool
  /-- The terminal has a console, which is allocated. -/
  allocated : Bool
  /-- `tty->flow.stopped`. -/
  stopped : Bool
  /-- `con_should_update`. -/
  update : Bool
  deriving DecidableEq, Repr

/-- `do_con_write`: the result, the console and the calls of `con_putcs`. -/
def doConWrite (w : WriteContext) (s : Console) (buf : List UInt8) :
    Option (ℕ × Console × List Putcs) :=
  if w.inInterrupt then some (buf.length, s, [])
  else if !w.allocated then some (0, s, [])
  else if w.stopped then some (0, s, [])
  else
    (conWriteLoop w.update buf s ⟨0, 0, -1⟩).map fun res =>
      (buf.length, res.1, conFlush res.1 res.2)

/-! ### Printing -/

/-- A byte of `vt_console_print`. -/
def printByte (c : UInt8) : Console :=
  if c = 10 then cr (lf s)
  else
    let s := scrWritew s ((s.vc.attr <<< 8) + c.toNat) s.vc.pos
    { s with vc := { s.vc with pos := wrap32 (s.vc.pos + 2), x := wrap32 (s.vc.x + 1) } }

/-- What the rest of the system is like when the kernel prints. -/
structure PrintContext where
  printable : Bool
  /-- `spin_trylock(&printing_lock)`. -/
  locked : Bool
  allocated : Bool
  visible : Bool
  deriving DecidableEq, Repr

/-- `vt_console_print`. After its loop `count` is `-1`, and `con_putcs` is called with it. -/
def vtConsolePrint (p : PrintContext) (s : Console) (b : List UInt8) : Console × List Putcs :=
  if !p.printable || !p.locked then (s, [])
  else if !p.allocated then (s, [])
  else
    let s' := b.foldl printByte s
    (s', if p.visible then [⟨s.vc.pos, -1, s'.vc.y, s.vc.x % 2 ^ 16⟩] else [])

/-! ### The console after boot -/

/-- `set_origin`; a display driver with a buffer of its own passes the address of it. -/
def setOrigin (driver : Option ℕ) : Console :=
  let origin := driver.getD s.vc.screenbuf
  { s with vc := { s.vc with
      origin := origin
      scrEnd := wrap32 (origin + s.vc.screenbufSize)
      pos := wrap32 (origin + s.vc.sizeRow * s.vc.y + 2 * s.vc.x) } }

/-- `csi_J`, without the update of the display and the flush of the scrollback. -/
def csiJ (vpar : ℕ) : Console :=
  let clear (start count : ℕ) : Console :=
    { scrMemsetw s start s.vc.videoEraseChar (wrap32 (2 * count)) with
      vc := { s.vc with needWrap := false } }
  match vpar with
  | 0 => clear s.vc.pos (sub32 s.vc.scrEnd s.vc.pos / 2)
  | 1 => clear s.vc.origin (wrap32 (sub32 s.vc.pos s.vc.origin / 2 + 1))
  | 2 => clear s.vc.origin (wrap32 (s.vc.cols * s.vc.rows))
  | 3 => clear s.vc.origin (wrap32 (s.vc.cols * s.vc.rows))
  | _ => s

/-- `reset_terminal`, without the attributes, the tab stops and the keyboard. -/
def resetTerminal (doClear : Bool) : Console :=
  let s := { s with vc := { s.vc with
    top := 0, bottom := s.vc.rows, state := .normal, needWrap := false, utf := true, utfCount := 0
    dispCtrl := false, decom := false, decawm := true } }
  let s := gotoxy s 0 0
  if doClear then csiJ s 2 else s

/-- `vc_init`. -/
def vcInit (rows cols : ℕ) (doClear : Bool) (driver : Option ℕ) : Console :=
  let s := { s with vc := { s.vc with
    cols := cols, rows := rows, sizeRow := wrap32 (2 * cols)
    screenbufSize := wrap32 (rows * wrap32 (2 * cols)) } }
  let s := setOrigin s driver
  let s := { s with vc := { s.vc with pos := s.vc.origin } }
  resetTerminal s doClear

/-- The part of `con_init` for the first console. The driver may leave the cursor where the boot
loader has put it, at `x` and `y`; `update_screen` sets the origin once more. -/
def conInit (rows cols : ℕ) (doClear : Bool) (driver : Option ℕ) (x y : ℕ) : Console :=
  let s := vcInit s rows cols doClear driver
  let s := setOrigin s driver
  let s := { s with vc := { s.vc with x := x, y := y } }
  let s := gotoxy s s.vc.x s.vc.y
  let s := csiJ s 0
  setOrigin s driver

end MinimalKernel.Tty
