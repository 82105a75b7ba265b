import Mathlib.Tactic.Ring
import Mathlib.Tactic.Linarith
import MinimalKernel.Lib.Run
import MinimalKernel.Tty.Console

/-!
# The cursor of the console

`do_con_write` keeps the cursor on the screen: at the end of a line it notes that the next character
needs a wrap, and the wrap scrolls when the last row is reached. `vt_console_print` has no such
check. It moves the cursor to the right with every character, and a line that does not fit runs into
the next row, and from the last row over the end of the screen.

The invariant is `OnScreen`. A write keeps it, whatever the bytes are; a print keeps it after each
of its bytes exactly when its lines fit.

## Main definitions

* `Geometry` — the parts of a console that output leaves alone
* `OnScreen` — the cursor is on the screen, and so are the cells that were stored
* `Fits` — the lines of a string fit into the rows

## Main results

* `Booted.onScreen` — the console after boot
* `OnScreen.conWriteLoop` — writing keeps the invariant
* `OnScreen.prints`, `OnScreen.fits_of_prints` — printing keeps it when the lines fit, and only then
* `console_cursor_iff` — runs of prints and writes
-/

namespace MinimalKernel.Tty

open List Nat

variable {s s' : Console} {v : VcData} {c : UInt8} {b : List UInt8} {n : ℕ}

/-! ### Arithmetic -/

theorem wrap32_of_lt (h : n < 2 ^ 32) : wrap32 n = n := mod_eq_of_lt h

theorem sub32_of_le {m : ℕ} (hn : n ≤ m) (hm : m < 2 ^ 32) : sub32 m n = m - n := by
  unfold sub32 wrap32
  rw [Nat.sub_add_comm hn, Nat.add_mod_right, Nat.mod_eq_of_lt (by omega)]

theorem mem_cells {a k count : ℕ} (h : k ∈ cells a count) : a ≤ k ∧ k + 2 ≤ a + count := by
  obtain ⟨i, hi, rfl⟩ := mem_map.1 h
  have := mem_range.1 hi
  omega

/-! ### The screen -/

/-- The screen: the margins are its first and its last row, and it lies in the address space. -/
structure Geometry (v : VcData) : Prop where
  cols_pos : 0 < v.cols
  rows_pos : 0 < v.rows
  sizeRow : v.sizeRow = 2 * v.cols
  scrEnd : v.scrEnd = v.origin + v.rows * v.sizeRow
  fits : v.scrEnd < 2 ^ 32
  top : v.top = 0
  bottom : v.bottom = v.rows

/-- The cursor is on the screen, and `vc_pos` is the address of its cell. -/
structure CursorOk (v : VcData) : Prop where
  x : v.x ≤ v.cols - 1
  y : v.y ≤ v.rows - 1
  pos : v.pos = v.origin + v.y * v.sizeRow + 2 * v.x

/-- All the cells that were stored are cells of the screen. -/
def StoresOk (s : Console) : Prop := ∀ a ∈ s.stores, s.vc.origin ≤ a ∧ a + 2 ≤ s.vc.scrEnd

/-- **The invariant.** -/
structure OnScreen (s : Console) : Prop where
  geometry : Geometry s.vc
  cursor : CursorOk s.vc
  stores : StoresOk s

namespace Geometry

variable (g : Geometry v)

include g

theorem rows_lt : v.rows < 2 ^ 32 := by
  have hle : v.rows * 1 ≤ v.rows * v.sizeRow :=
    mul_le_mul_left _ (by rw [g.sizeRow]; have := g.cols_pos; omega)
  have := g.scrEnd
  have := g.fits
  omega

theorem sizeRow_lt : v.sizeRow < 2 ^ 32 := by
  have hle : 1 * v.sizeRow ≤ v.rows * v.sizeRow := mul_le_mul_right _ g.rows_pos
  have := g.scrEnd
  have := g.fits
  omega

theorem x_lt (hc : CursorOk v) : v.x < v.cols := by
  have := hc.x
  have := g.cols_pos
  omega

theorem y_lt (hc : CursorOk v) : v.y < v.rows := by
  have := hc.y
  have := g.rows_pos
  omega

/-- The rows above `y` and the row `y` are on the screen. -/
theorem row_le {y : ℕ} (hy : y < v.rows) : v.origin + y * v.sizeRow + v.sizeRow ≤ v.scrEnd := by
  have hle : (y + 1) * v.sizeRow ≤ v.rows * v.sizeRow := mul_le_mul_right _ hy
  rw [succ_mul] at hle
  rw [g.scrEnd]
  omega

/-- The cell of a cursor on the screen. -/
theorem cell_le {x y : ℕ} (hx : x < v.cols) (hy : y < v.rows) :
    v.origin + y * v.sizeRow + 2 * x + 2 ≤ v.scrEnd := by
  have := g.row_le hy
  have := g.sizeRow
  omega

end Geometry

/-- Storing to cells of the screen. -/
theorem StoresOk.append {l : List ℕ} (h : StoresOk s) (hvc : s'.vc.origin = s.vc.origin)
    (hend : s'.vc.scrEnd = s.vc.scrEnd) (hs : s'.stores = l ++ s.stores)
    (hl : ∀ a ∈ l, s.vc.origin ≤ a ∧ a + 2 ≤ s.vc.scrEnd) : StoresOk s' := fun a ha => by
  rw [hs] at ha
  rw [hvc, hend]
  rcases mem_append.1 ha with ha | ha
  · exact hl a ha
  · exact h a ha

/-! ### Movements of the cursor -/

/-- **Scrolling** by a line stores to the screen only. -/
theorem StoresOk.conScroll (h : StoresOk s) (g : Geometry s.vc) :
    StoresOk (conScroll s s.vc.top s.vc.bottom .up 1) ∧
      (conScroll s s.vc.top s.vc.bottom .up 1).vc = s.vc := by
  have hrows := g.rows_lt
  have hpos := g.rows_pos
  have hrow := g.sizeRow_lt
  have hend := g.scrEnd
  have hfits := g.fits
  unfold Tty.conScroll
  rw [g.top, g.bottom]
  by_cases hone : s.vc.rows = 1
  · -- a screen of one row stays as it is
    have hnr : sub32 (sub32 s.vc.rows 0) 1 = 0 := by rw [hone]; decide
    have hle : s.vc.rows ≤ wrap32 (0 + 1) := by rw [hone]; decide
    dsimp only
    rw [if_pos hle, hnr, if_pos (.inr (.inr zero_lt_one))]
    exact ⟨h, rfl⟩
  · have hle : ¬ s.vc.rows ≤ wrap32 (0 + 1) := by
      rw [show wrap32 (0 + 1) = 1 from rfl]
      omega
    have hcond : ¬ (s.vc.rows < s.vc.rows ∨ s.vc.rows ≤ 0 ∨ 1 < 1) := by omega
    have hkept : sub32 (sub32 s.vc.rows 0) 1 = s.vc.rows - 1 := by
      rw [sub32_of_le (Nat.zero_le _) hrows, Nat.sub_zero, sub32_of_le hpos hrows]
    have hmul : (s.vc.rows - 1) * s.vc.sizeRow + s.vc.sizeRow = s.vc.rows * s.vc.sizeRow := by
      rw [← Nat.succ_mul, Nat.succ_eq_add_one, Nat.sub_add_cancel hpos]
    have hclear : 2 * ((s.vc.rows - 1) * s.vc.cols) = (s.vc.rows - 1) * s.vc.sizeRow := by
      rw [g.sizeRow]
      ring
    dsimp only
    rw [if_neg hle, if_neg hcond, hkept]
    have hupper : wrap32 (s.vc.origin + s.vc.sizeRow * 0) = s.vc.origin := by
      rw [mul_zero, add_zero, wrap32_of_lt (by omega)]
    rw [hupper, hclear, mul_one, wrap32_of_lt (n := (s.vc.rows - 1) * s.vc.sizeRow) (by omega),
      wrap32_of_lt (n := s.vc.origin + (s.vc.rows - 1) * s.vc.sizeRow) (by omega),
      wrap32_of_lt hrow]
    refine ⟨h.append rfl rfl (append_assoc _ _ _).symm fun a ha => ?_, rfl⟩
    rcases mem_append.1 ha with ha | ha
    · have := mem_cells ha
      omega
    · have := mem_cells ha
      omega

section

variable (h : OnScreen s)
include h

theorem OnScreen.lf : OnScreen (lf s) ∧ (lf s).vc.x = s.vc.x ∧
    (lf s).vc.cols = s.vc.cols := by
  obtain ⟨g, hc, hs⟩ := h
  have hrows := g.rows_lt
  have hpos := g.rows_pos
  have hy := hc.y
  unfold Tty.lf
  rw [wrap32_of_lt (by omega : s.vc.y + 1 < 2 ^ 32), sub32_of_le hpos hrows]
  dsimp only
  split_ifs with hlast hnext
  · obtain ⟨hstores, hvc⟩ := hs.conScroll g
    refine ⟨⟨?_, ?_, ?_⟩, ?_⟩
    · rw [hvc]
      exact { g with }
    · rw [hvc]
      exact { hc with }
    · exact hstores.append (l := []) rfl rfl rfl (by simp)
    · rw [hvc]
      exact ⟨rfl, rfl⟩
  · have hlt : s.vc.y + 1 < s.vc.rows := by omega
    have hcell := g.cell_le (g.x_lt hc) hlt
    have hfits := g.fits
    have hnext : s.vc.pos + s.vc.sizeRow
        = s.vc.origin + (s.vc.y + 1) * s.vc.sizeRow + 2 * s.vc.x := by
      rw [hc.pos, add_mul, one_mul]
      omega
    refine ⟨⟨{ g with }, ⟨hc.x, ?_, ?_⟩, hs⟩, rfl, rfl⟩
    · show s.vc.y + 1 ≤ s.vc.rows - 1
      omega
    · show wrap32 (s.vc.pos + s.vc.sizeRow) = s.vc.origin + (s.vc.y + 1) * s.vc.sizeRow + 2 * s.vc.x
      rw [hnext, wrap32_of_lt (by omega)]
  · have := g.bottom
    omega

theorem OnScreen.cr : OnScreen (cr s) ∧ (cr s).vc.x = 0 ∧
    (cr s).vc.cols = s.vc.cols := by
  obtain ⟨g, hc, hs⟩ := h
  have hcell := g.cell_le (g.x_lt hc) (g.y_lt hc)
  have hfits := g.fits
  refine ⟨⟨{ g with }, ⟨zero_le _, hc.y, ?_⟩, hs⟩, rfl, rfl⟩
  show sub32 s.vc.pos (wrap32 (2 * s.vc.x)) = s.vc.origin + s.vc.y * s.vc.sizeRow + 2 * 0
  rw [wrap32_of_lt (by omega), hc.pos, sub32_of_le (by omega) (by omega)]
  omega

/-- The character under the cursor is stored. -/
theorem OnScreen.scrWritew (k : ℕ) : OnScreen (scrWritew s k s.vc.pos) := by
  obtain ⟨g, hc, hs⟩ := h
  refine ⟨g, hc, hs.append (l := [s.vc.pos]) rfl rfl rfl fun a ha => ?_⟩
  have hcell := g.cell_le (g.x_lt hc) (g.y_lt hc)
  rw [mem_singleton.1 ha, hc.pos]
  omega

/-- The cursor moves to the right. -/
theorem OnScreen.advance (hx : s.vc.x + 1 < s.vc.cols) :
    OnScreen { s with vc := { s.vc with
      x := wrap32 (s.vc.x + 1), pos := wrap32 (s.vc.pos + 2) } } ∧
    wrap32 (s.vc.x + 1) = s.vc.x + 1 := by
  obtain ⟨g, hc, hs⟩ := h
  have hcell := g.cell_le hx (g.y_lt hc)
  have hfits := g.fits
  have hwrap : wrap32 (s.vc.x + 1) = s.vc.x + 1 := wrap32_of_lt (by omega)
  refine ⟨⟨{ g with }, ⟨?_, hc.y, ?_⟩, hs⟩, hwrap⟩
  · show wrap32 (s.vc.x + 1) ≤ s.vc.cols - 1
    omega
  · show wrap32 (s.vc.pos + 2) = s.vc.origin + s.vc.y * s.vc.sizeRow + 2 * wrap32 (s.vc.x + 1)
    rw [hwrap, hc.pos, wrap32_of_lt (by omega)]
    omega

end

/-! ### Writing -/

theorem vcTranslateUnicode_same {v' : VcData} {k : ℤ} (h : vcTranslateUnicode v n = some (k, v')) :
    ∃ npar utfCount utfChar,
      v' = { v with npar := npar, utfCount := utfCount, utfChar := utfChar } := by
  unfold vcTranslateUnicode at h
  dsimp only at h
  split_ifs at h <;> cases h <;> exact ⟨_, _, _, rfl⟩

/-- Decoding changes the fields of the decoder only. -/
theorem vcTranslate_same {tc k : ℤ} {v' : VcData} (h : vcTranslate v n = some (tc, k, v')) :
    ∃ npar utfCount utfChar,
      v' = { v with npar := npar, utfCount := utfCount, utfChar := utfChar } := by
  unfold vcTranslate at h
  split_ifs at h
  · cases h
    exact ⟨_, _, _, rfl⟩
  · obtain ⟨res, hres, heq⟩ := Option.map_eq_some_iff.1 h
    cases heq
    exact vcTranslateUnicode_same hres
  · cases h
    exact ⟨_, _, _, rfl⟩

section

variable (h : OnScreen s)
include h

theorem OnScreen.of_decoder (npar utfCount utfChar : ℕ) :
    OnScreen { s with vc := { s.vc with
      npar := npar, utfCount := utfCount, utfChar := utfChar } } := by
  obtain ⟨g, hc, hs⟩ := h
  exact ⟨{ g with }, { hc with }, hs⟩

theorem OnScreen.vcConWriteNormal (update : Bool) (tc k : ℤ) (draw : DrawRegion) :
    OnScreen (vcConWriteNormal update s tc k draw).1 := by
  unfold Tty.vcConWriteNormal
  dsimp only
  have hwrapped : OnScreen (if s.vc.needWrap then Tty.lf (Tty.cr s) else s) := by
    split_ifs
    · exact h.cr.1.lf.1
    · exact h
  generalize (if s.vc.needWrap then Tty.lf (Tty.cr s) else s) = t at hwrapped ⊢
  have hstored := hwrapped.scrWritew (cellValue t.vc tc k)
  generalize Tty.scrWritew t (cellValue t.vc tc k) t.vc.pos = u at hstored ⊢
  rw [sub32_of_le hstored.geometry.cols_pos (by
    have := hstored.geometry.sizeRow_lt
    have := hstored.geometry.sizeRow
    omega)]
  by_cases hlast : u.vc.x = u.vc.cols - 1
  · rw [if_pos hlast]
    obtain ⟨g, hc, hs⟩ := hstored
    exact ⟨{ g with }, { hc with }, hs⟩
  · rw [if_neg hlast]
    refine (hstored.advance ?_).1
    have := hstored.cursor.x
    have := hstored.geometry.cols_pos
    omega

/-- **Writing** keeps the cursor and the stores on the screen. -/
theorem OnScreen.conWriteLoop {update : Bool} {buf : List UInt8} {draw : DrawRegion}
    {res : Console × DrawRegion}
    (hres : conWriteLoop update buf s draw = some res) : OnScreen res.1 := by
  induction buf generalizing s draw with
  | nil =>
    cases hres
    exact h
  | cons c buf ih =>
    rw [Tty.conWriteLoop] at hres
    rcases htr : vcTranslate s.vc c.toNat with _ | ⟨tc, k, v⟩
    · rw [htr] at hres
      cases hres
    · rw [htr] at hres
      obtain ⟨npar, utfCount, utfChar, rfl⟩ := vcTranslate_same htr
      have hdec := h.of_decoder npar utfCount utfChar
      dsimp only at hres
      split_ifs at hres
      · exact ih (hdec.vcConWriteNormal update tc k draw) hres
      · exact ih hdec hres

theorem OnScreen.doConWrite {w : WriteContext} {buf : List UInt8} {res : ℕ × Console × List Putcs}
    (hres : doConWrite w s buf = some res) : OnScreen res.2.1 := by
  unfold Tty.doConWrite at hres
  split_ifs at hres
  · cases hres
    exact h
  · cases hres
    exact h
  · cases hres
    exact h
  · obtain ⟨loop, hloop, rfl⟩ := Option.map_eq_some_iff.1 hres
    exact h.conWriteLoop hloop

/-! ### Printing -/

/-- The lines of the string fit into rows of `cols` characters, the first one from the column `x`
on: no character is printed to the last column. -/
def Fits (cols : ℕ) : ℕ → List UInt8 → Prop
  | _, [] => True
  | x, c :: b => if c = 10 then Fits cols 0 b else x + 1 < cols ∧ Fits cols (x + 1) b

theorem OnScreen.printByte_newline (hc : c = 10) : OnScreen (printByte s c) ∧
    (printByte s c).vc.x = 0 ∧ (printByte s c).vc.cols = s.vc.cols := by
  rw [printByte, if_pos hc]
  obtain ⟨hlf, -, hcols⟩ := h.lf
  obtain ⟨hcr, hx, hcols'⟩ := hlf.cr
  exact ⟨hcr, hx, hcols'.trans hcols⟩

theorem OnScreen.printByte_char (hc : c ≠ 10) (hx : s.vc.x + 1 < s.vc.cols) :
    OnScreen (printByte s c) ∧ (printByte s c).vc.x = s.vc.x + 1 ∧
      (printByte s c).vc.cols = s.vc.cols := by
  rw [printByte, if_neg hc]
  obtain ⟨hon, hwrap⟩ := (h.scrWritew ((s.vc.attr <<< 8) + c.toNat)).advance hx
  exact ⟨hon, hwrap, rfl⟩

/-- A character in the last column takes the cursor off the screen. -/
theorem OnScreen.printByte_last (hc : c ≠ 10) (hx : ¬ s.vc.x + 1 < s.vc.cols) :
    ¬ CursorOk (printByte s c).vc := by
  intro hcursor
  rw [printByte, if_neg hc] at hcursor
  have hle : wrap32 (s.vc.x + 1) ≤ s.vc.cols - 1 := hcursor.x
  have hpos := h.geometry.cols_pos
  have hlt := h.geometry.sizeRow_lt
  have hrow := h.geometry.sizeRow
  have hcur := h.cursor.x
  rw [wrap32_of_lt (by omega)] at hle
  omega

/-- What a console is checked for. -/
def ConsoleOk (s : Console) : Prop := CursorOk s.vc ∧ StoresOk s

theorem OnScreen.consoleOk : ConsoleOk s := ⟨h.cursor, h.stores⟩

theorem OnScreen.prints (hfits : Fits s.vc.cols s.vc.x b) : OnScreen (b.foldl printByte s) := by
  induction b generalizing s with
  | nil => exact h
  | cons c b ih =>
    rw [Fits] at hfits
    split_ifs at hfits with hc
    · obtain ⟨hon, hx, hcols⟩ := h.printByte_newline hc
      exact ih hon (by rwa [hx, hcols])
    · obtain ⟨hon, hx, hcols⟩ := h.printByte_char hc hfits.1
      exact ih hon (by rw [hx, hcols]; exact hfits.2)

end

theorem Fits.take {cols x : ℕ} (h : Fits cols x b) : Fits cols x (b.take n) := by
  induction b generalizing x n with
  | nil => simpa using h
  | cons c b ih =>
    cases n with
    | zero => exact trivial
    | succ n =>
      rw [take_succ_cons]
      rw [Fits] at h ⊢
      split_ifs at h ⊢
      · exact ih h
      · exact ⟨h.1, ih h.2⟩

/-- A string that does not fit takes the cursor off the screen at one of its bytes. -/
theorem OnScreen.fits_of_prints (h : OnScreen s)
    (hall : ∀ n, CursorOk ((b.take n).foldl printByte s).vc) : Fits s.vc.cols s.vc.x b := by
  induction b generalizing s with
  | nil => exact trivial
  | cons c b ih =>
    have hrest : ∀ n, CursorOk ((b.take n).foldl printByte (printByte s c)).vc :=
      fun n => hall (n + 1)
    rw [Fits]
    split_ifs with hc
    · obtain ⟨hon, hx, hcols⟩ := h.printByte_newline hc
      rw [← hx, ← hcols]
      exact ih hon hrest
    · have hfit : s.vc.x + 1 < s.vc.cols := by
        by_contra hno
        exact h.printByte_last hc hno (hrest 0)
      obtain ⟨hon, hx, hcols⟩ := h.printByte_char hc hfit
      refine ⟨hfit, ?_⟩
      rw [← hx, ← hcols]
      exact ih hon hrest

/-! ### The console after boot -/

/-- The console while it is set up: the origin is where the driver and the buffer have it. -/
structure Settled (driver : Option ℕ) (s : Console) : Prop where
  onScreen : OnScreen s
  decom : s.vc.decom = false
  origin : driver.getD s.vc.screenbuf = s.vc.origin
  size : s.vc.screenbufSize = s.vc.rows * s.vc.sizeRow

/-- `gotoxy` puts the cursor on the screen, wherever it has been. -/
theorem OnScreen.of_gotoxy (g : Geometry s.vc) (hs : StoresOk s) (hdecom : s.vc.decom = false)
    (newX newY : ℤ) : OnScreen (gotoxy s newX newY) := by
  have hpos := g.cols_pos
  have hrows := g.rows_pos
  have hfits := g.fits
  have hsize := g.sizeRow
  have hlt := g.sizeRow_lt
  unfold Tty.gotoxy
  simp only [hdecom, Bool.false_eq_true, if_false]
  rw [sub32_of_le hpos (by omega)]
  generalize hx : (if newX < 0 then 0 else if (s.vc.cols : ℤ) ≤ newX then s.vc.cols - 1
    else newX.toNat) = x
  generalize hy : (if newY < 0 then (0 : ℤ).toNat else if (s.vc.rows : ℤ) ≤ newY then
    ((s.vc.rows : ℤ) - 1).toNat else newY.toNat) = y
  have hxlt : x < s.vc.cols := by
    rw [← hx]
    split_ifs <;> omega
  have hylt : y < s.vc.rows := by
    rw [← hy]
    split_ifs <;> omega
  have hcell := g.cell_le hxlt hylt
  refine ⟨{ g with }, ⟨?_, ?_, ?_⟩, hs⟩
  · show x ≤ s.vc.cols - 1
    omega
  · show y ≤ s.vc.rows - 1
    omega
  · exact wrap32_of_lt (by omega)

theorem OnScreen.csiJ (h : OnScreen s) (vpar : ℕ) : OnScreen (csiJ s vpar) := by
  obtain ⟨g, hc, hs⟩ := h
  have hclear : ∀ start count, s.vc.origin ≤ start → start + 2 * count ≤ s.vc.scrEnd →
      OnScreen { scrMemsetw s start s.vc.videoEraseChar (wrap32 (2 * count)) with
        vc := { s.vc with needWrap := false } } := fun start count hlo hhi => by
    have hfits := g.fits
    rw [wrap32_of_lt (by omega)]
    refine ⟨{ g with }, { hc with }, hs.append rfl rfl rfl fun a ha => ?_⟩
    have := mem_cells ha
    omega
  have hcell := g.cell_le (g.x_lt hc) (g.y_lt hc)
  have hpos := hc.pos
  have hfits := g.fits
  have hall : wrap32 (s.vc.cols * s.vc.rows) = s.vc.cols * s.vc.rows ∧
      s.vc.origin + 2 * (s.vc.cols * s.vc.rows) ≤ s.vc.scrEnd := by
    have hmul : s.vc.rows * s.vc.sizeRow = 2 * (s.vc.cols * s.vc.rows) := by
      rw [g.sizeRow]
      ring
    have hend := g.scrEnd
    rw [hmul] at hend
    exact ⟨wrap32_of_lt (by omega), hend.ge⟩
  unfold Tty.csiJ
  split
  · refine hclear _ _ (by omega) ?_
    rw [sub32_of_le (by omega) hfits]
    omega
  · refine hclear _ _ le_rfl ?_
    rw [sub32_of_le (by omega) (by omega), wrap32_of_lt (by omega)]
    omega
  · rw [hall.1]
    exact hclear _ _ le_rfl hall.2
  · rw [hall.1]
    exact hclear _ _ le_rfl hall.2
  · exact ⟨g, hc, hs⟩

namespace Settled

variable {driver : Option ℕ} (h : Settled driver s)

include h

/-- The driver may move the cursor, when `gotoxy` follows. -/
theorem gotoxy_of_moved (x y : ℕ) (newX newY : ℤ) :
    Settled driver (Tty.gotoxy { s with vc := { s.vc with x := x, y := y } } newX newY) := by
  exact ⟨.of_gotoxy (s := { s with vc := { s.vc with x := x, y := y } })
    { h.onScreen.geometry with } h.onScreen.stores h.decom newX newY, h.decom, h.origin, h.size⟩

theorem csiJ (vpar : ℕ) : Settled driver (csiJ s vpar) := by
  refine ⟨h.onScreen.csiJ vpar, ?_, ?_, ?_⟩
  · unfold Tty.csiJ
    split <;> exact h.decom
  · unfold Tty.csiJ
    split <;> exact h.origin
  · unfold Tty.csiJ
    split <;> exact h.size

theorem setOrigin : Settled driver (setOrigin s driver) := by
  obtain ⟨⟨g, hc, hs⟩, hdecom, horigin, hsize⟩ := h
  have hcell := g.cell_le (g.x_lt hc) (g.y_lt hc)
  have hfits := g.fits
  have hend : wrap32 (s.vc.origin + s.vc.screenbufSize) = s.vc.scrEnd := by
    rw [hsize, ← g.scrEnd, wrap32_of_lt g.fits]
  have hpos : wrap32 (s.vc.origin + s.vc.sizeRow * s.vc.y + 2 * s.vc.x)
      = s.vc.origin + s.vc.y * s.vc.sizeRow + 2 * s.vc.x := by
    rw [mul_comm s.vc.sizeRow, wrap32_of_lt (by omega)]
  unfold Tty.setOrigin
  dsimp only
  rw [horigin, hend, hpos]
  exact ⟨⟨{ g with }, ⟨hc.x, hc.y, rfl⟩, hs⟩, hdecom, horigin, hsize⟩

end Settled

/-- **The console after boot** is in order, for every size of the screen and every place of its
buffer. -/
theorem settled_vcInit {rows cols : ℕ} {doClear : Bool} {driver : Option ℕ} (hs : s.stores = [])
    (hrows : 0 < rows) (hcols : 0 < cols)
    (hfits : driver.getD s.vc.screenbuf + rows * (2 * cols) < 2 ^ 32) :
    Settled driver (vcInit s rows cols doClear driver) := by
  have hsize : rows * (2 * cols) < 2 ^ 32 := by omega
  have hrow : 2 * cols < 2 ^ 32 :=
    (Nat.le_mul_of_pos_left (2 * cols) hrows).trans_lt hsize
  unfold vcInit Tty.setOrigin resetTerminal
  rw [wrap32_of_lt hrow, wrap32_of_lt hsize]
  dsimp only
  rw [wrap32_of_lt hfits]
  have hstart : ∀ t : Console, Geometry t.vc ∧ t.stores = [] ∧ t.vc.decom = false ∧
      driver.getD t.vc.screenbuf = t.vc.origin ∧ t.vc.screenbufSize = t.vc.rows * t.vc.sizeRow →
      Settled driver (Tty.gotoxy t 0 0) := fun t ⟨g, hs, hdecom, horigin, hsize⟩ =>
    ⟨.of_gotoxy g (fun a ha => by rw [hs] at ha; cases ha) hdecom 0 0, hdecom, horigin, hsize⟩
  split_ifs
  · refine (hstart _ ?_).csiJ 2
    exact ⟨⟨hcols, hrows, rfl, rfl, hfits, rfl, rfl⟩, hs, rfl, rfl, rfl⟩
  · refine hstart _ ?_
    exact ⟨⟨hcols, hrows, rfl, rfl, hfits, rfl, rfl⟩, hs, rfl, rfl, rfl⟩

/-- The consoles after boot. -/
inductive Booted : Console → Prop
  | conInit {s : Console} {rows cols x y : ℕ} {doClear : Bool} {driver : Option ℕ}
      (stores : s.stores = []) (rows_pos : 0 < rows) (cols_pos : 0 < cols)
      (fits : driver.getD s.vc.screenbuf + rows * (2 * cols) < 2 ^ 32) :
      Booted (conInit s rows cols doClear driver x y)

theorem Booted.onScreen (h : Booted s) : OnScreen s := by
  cases h with
  | @conInit s rows cols x y doClear driver stores rows_pos cols_pos fits =>
    have hinit : Settled driver (vcInit s rows cols doClear driver) :=
      settled_vcInit stores rows_pos cols_pos fits
    exact ((hinit.setOrigin.gotoxy_of_moved _ _ _ _).csiJ 0).setOrigin.onScreen

/-! ### Runs -/

/-- The kernel prints a string, or a process writes one. -/
inductive ConsoleOp
  | print (p : PrintContext) (b : List UInt8)
  | write (w : WriteContext) (buf : List UInt8)

inductive ConsoleStep : Console → ConsoleOp → Console → Prop
  | print {s : Console} {p : PrintContext} {b : List UInt8} :
      ConsoleStep s (.print p b) (vtConsolePrint p s b).1
  | write {s : Console} {w : WriteContext} {buf : List UInt8} {res : ℕ × Console × List Putcs}
      (result : doConWrite w s buf = some res) : ConsoleStep s (.write w buf) res.2.1

/-- The lines of a string that is printed fit. -/
def LinesFit (s : Console) : ConsoleOp → Prop
  | .print p b => p.printable → p.locked → p.allocated → Fits s.vc.cols s.vc.x b
  | .write _ _ => True

theorem vtConsolePrint_fst (p : PrintContext) (s : Console) (b : List UInt8) :
    (vtConsolePrint p s b).1 =
      if p.printable ∧ p.locked ∧ p.allocated then b.foldl printByte s else s := by
  rcases p with ⟨_ | _, _ | _, _ | _, _⟩ <;> rfl

theorem OnScreen.step {op : ConsoleOp} (h : OnScreen s) (hfits : LinesFit s op)
    (hstep : ConsoleStep s op s') : OnScreen s' := by
  cases hstep with
  | @print p b =>
    rw [vtConsolePrint_fst]
    split_ifs with hp
    · exact h.prints (hfits hp.1 hp.2.1 hp.2.2)
    · exact h
  | write result => exact h.doConWrite result

/-- **The cursor stays on the screen** in every run in which the lines that are printed fit. In
every state of such a run, the next string keeps it there after each of its bytes, if it is written;
if it is printed, exactly when its lines fit. -/
theorem console_cursor_iff {s₀ : Console} {ops : List ConsoleOp} (h : Booted s₀)
    (hrun : Lib.Run (Lib.guarded LinesFit ConsoleStep) s₀ ops s) :
    ConsoleOk s ∧
      (∀ w (buf : List UInt8) n res, doConWrite w s (buf.take n) = some res → ConsoleOk res.2.1) ∧
      ∀ p (b : List UInt8),
        (∀ n, ConsoleOk (vtConsolePrint p s (b.take n)).1) ↔ LinesFit s (.print p b) := by
  have hon : OnScreen s :=
    hrun.invariant (I := OnScreen) (fun _ _ _ hI hstep => hI.step hstep.1 hstep.2) h.onScreen
  refine ⟨hon.consoleOk, fun w buf n res hres => (hon.doConWrite hres).consoleOk, fun p b => ?_⟩
  simp only [vtConsolePrint_fst, LinesFit]
  by_cases hp : p.printable ∧ p.locked ∧ p.allocated
  · simp only [hp, forall_const]
    exact ⟨fun hall => hon.fits_of_prints fun n => (hall n).1,
      fun hfits n => (hon.prints hfits.take).consoleOk⟩
  · simp only [if_neg hp]
    exact iff_of_true (fun _ => hon.consoleOk) fun h1 h2 h3 => absurd ⟨h1, h2, h3⟩ hp

/-! ### A small screen -/

/-- A console with one row of two columns after boot. -/
def smallConsole : Console :=
  conInit
    { vc := ⟨0, 0, 0, 0, 0, 0, 0, 0, 0, 0x1000, 0, 7, 0, 0, 0x720, .normal, 0, false, false, false,
        false, false, 0, 0⟩
      mem := fun _ => 0
      stores := [] }
    1 2 true none 0 0

theorem smallConsole_booted : Booted smallConsole :=
  .conInit rfl (by decide) (by decide) (by decide)

theorem smallConsole_fits : LinesFit smallConsole (.print ⟨true, true, true, true⟩ [65]) := by
  intro _ _ _
  have hcols : smallConsole.vc.cols = 2 := by decide +kernel
  have hx : smallConsole.vc.x = 0 := by decide +kernel
  rw [hcols, hx]
  simp [Fits]

/-- A message of one character fits. -/
theorem console_cursor_fits :
    ConsoleOk (vtConsolePrint ⟨true, true, true, true⟩ smallConsole [65]).1 :=
  (console_cursor_iff smallConsole_booted (.cons ⟨smallConsole_fits, .print⟩ .nil)).1

/-- A message of three characters takes the cursor off the screen, and its last character is stored
behind the end of the screen. -/
theorem console_print_overruns :
    Booted smallConsole ∧
    ¬ CursorOk (vtConsolePrint ⟨true, true, true, true⟩ smallConsole [65, 66, 67]).1.vc ∧
    smallConsole.vc.scrEnd ∈
      (vtConsolePrint ⟨true, true, true, true⟩ smallConsole [65, 66, 67]).1.stores := by
  refine ⟨smallConsole_booted, fun h => ?_, by decide +kernel⟩
  exact absurd h.x (by decide +kernel)

end MinimalKernel.Tty
