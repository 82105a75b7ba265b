import Mathlib.Tactic.IntervalCases
import MinimalKernel.Tty.Cursor

/-!
# UTF-8 on the console

`vc_translate_unicode` is given the bytes of a stream one by one. A leading byte says how many
bytes follow, each of these adds six bits to `vc_utf_char`, and only the last one compares the
character with the limits for the length of the sequence. Well-formed text is decoded, and overlong
sequences and surrogates become U+FFFD.

A byte that breaks a sequence off is reported through `rescan`, so that the caller can look at it
again. But `do_con_write` passes a null pointer there: such a byte makes the kernel fault.

## Main definitions

* `decode` — the characters that `vc_translate_unicode` returns for a stream
* `form` — the sequence with `k` bytes behind the leading one that carries `n`
* `mendedWrite` — writing, with the second look at a byte that breaks a sequence off
* `unbroken` — no byte of a stream does this

## Main results

* `decode_utf8` — well-formed text, overlong sequences and surrogates
* `doConWrite_mended_iff` — writing is as it should be exactly for the streams without such a byte
-/

namespace MinimalKernel.Tty

open List Option

variable {v v' : VcData} {n k : ℕ}

/-! ### The decoder -/

/-- The characters that `vc_translate_unicode` returns for a stream, and the decoder behind it. -/
def decode : VcData → List UInt8 → Option (List ℤ × VcData)
  | v, [] => some ([], v)
  | v, c :: bytes =>
    (vcTranslateUnicode v c.toNat).bind fun res =>
      (decode res.2 bytes).map fun out =>
        (if res.1 = -1 then out.1 else res.1 :: out.1, out.2)

theorem decode_append {out out' : List ℤ} {b b' : List UInt8} {v'' : VcData}
    (h : decode v b = some (out, v')) (h' : decode v' b' = some (out', v'')) :
    decode v (b ++ b') = some (out ++ out', v'') := by
  induction b generalizing v out with
  | nil =>
    cases h
    exact h'
  | cons c b ih =>
    obtain ⟨res, hres, hrest⟩ := bind_eq_some_iff.1 h
    obtain ⟨tail, htail, heq⟩ := map_eq_some_iff.1 hrest
    cases heq
    rw [cons_append, decode, hres, bind_some, ih htail, map_some]
    split_ifs <;> rfl

/-- The bytes behind the leading one. -/
def tailBytes : ℕ → ℕ → List UInt8
  | 0, _ => []
  | k + 1, n => .ofNat (n / 64 ^ k % 64 + 0x80) :: tailBytes k n

/-- What marks the leading byte of a sequence with `k` bytes behind it. -/
def leadMark : ℕ → ℕ
  | 1 => 0xc0
  | 2 => 0xe0
  | 3 => 0xf0
  | 4 => 0xf8
  | _ => 0xfc

/-- The sequence with `k` bytes behind the leading one that carries `n`. -/
def form (k n : ℕ) : List UInt8 := .ofNat (n / 64 ^ k + leadMark k) :: tailBytes k n

/-- The number of characters that have a sequence with `k` bytes behind the leading one. -/
def capacity (k : ℕ) : ℕ := if k = 0 then 2 ^ 7 else 2 ^ (5 * k + 6)

/-- What the last of `p + 1` bytes behind the leading one makes of the character. -/
def verdict (p char : ℕ) : ℤ :=
  if char ≤ utf8LengthChanges.getD p 0 ∨ utf8LengthChanges.getD (p + 1) 0 < char then 0xfffd
  else vcSanitizeUnicode char

theorem lead_step (hv : v.utfCount = 0) (hk : 1 ≤ k) (hk5 : k ≤ 5) (hn : n < 2 ^ (6 - k)) :
    vcTranslateUnicode v (n + leadMark k)
      = some (-1, { v with npar := 0, utfCount := k, utfChar := n }) := by
  cases v
  cases hv
  interval_cases k <;> norm_num at hn <;> interval_cases n <;> rfl

theorem toNat_byte (hn : n < 2 ^ 8) : (UInt8.ofNat n).toNat = n := UInt8.toNat_ofNat_of_lt' hn

theorem tail_masks : ∀ x < 64, (x + 0x80) &&& 0xc0 = 0x80 ∧ (x + 0x80) &&& 0x3f = x := by
  decide

/-- A byte behind the leading one adds six bits. -/
theorem tail_step {x j : ℕ} (hx : x < 64) (hv : v.utfCount = j + 1) (hp : v.npar + 1 < 2 ^ 32) :
    vcTranslateUnicode v (x + 0x80) = some
      (if j = 0 then verdict v.npar (v.utfChar * 64 + x) else -1,
        { v with utfChar := v.utfChar * 64 + x, npar := v.npar + 1, utfCount := j }) := by
  obtain ⟨hmark, hbits⟩ := tail_masks x hx
  have hchar : v.utfChar <<< 6 ||| x = v.utfChar * 64 + x := by
    rw [← Nat.shiftLeft_add_eq_or_of_lt hx, Nat.shiftLeft_eq]
  have hsub : sub32 (v.npar + 1) 1 = v.npar := by
    rw [sub32_of_le (by omega) hp, Nat.add_sub_cancel]
  simp only [vcTranslateUnicode, if_pos hmark, hbits, hchar, hv, wrap32_of_lt hp, hsub,
    Nat.add_sub_cancel, Nat.succ_ne_zero, if_false, verdict, ite_not]
  split_ifs <;> rfl

/-- The rest of a sequence completes the character. -/
theorem decode_tail {j : ℕ} (hv : v.utfCount = j + 1) (hp : v.npar + j < 5) :
    decode v (tailBytes (j + 1) n) = some
      ([verdict (v.npar + j) (v.utfChar * 64 ^ (j + 1) + n % 64 ^ (j + 1))],
        { v with
          utfChar := v.utfChar * 64 ^ (j + 1) + n % 64 ^ (j + 1)
          npar := v.npar + j + 1
          utfCount := 0 }) := by
  induction j generalizing v with
  | zero =>
    have hstep := tail_step (x := n % 64) (Nat.mod_lt _ (by decide)) hv (by omega)
    rw [tailBytes, pow_zero, Nat.div_one, decode, toNat_byte (by omega), hstep]
    have hne : verdict v.npar (v.utfChar * 64 + n % 64) ≠ -1 := by
      unfold verdict
      split_ifs <;> omega
    simp [decode, tailBytes, hne]
  | succ j ih =>
    have hx : n / 64 ^ (j + 1) % 64 < 64 := Nat.mod_lt _ (by decide)
    have hstep := tail_step hx hv (by omega)
    have hchar : (v.utfChar * 64 + n / 64 ^ (j + 1) % 64) * 64 ^ (j + 1) + n % 64 ^ (j + 1)
        = v.utfChar * 64 ^ (j + 2) + n % 64 ^ (j + 2) := by
      rw [Nat.mod_pow_succ (k := j + 1)]
      ring
    rw [tailBytes, decode, toNat_byte (by omega), hstep, bind_some, ih rfl (by dsimp only; omega)]
    simp only [hchar, Nat.succ_ne_zero, if_false, map_some, if_true,
      add_right_comm v.npar 1 j, add_assoc v.npar j 1]

theorem verdict_eq {j : ℕ} (hj : j < 5) (hn : n < capacity (j + 1)) :
    verdict j n = if n < capacity j then 0xfffd else (vcSanitizeUnicode n : ℤ) := by
  have hlow : n ≤ utf8LengthChanges.getD j 0 ↔ n < capacity j := by
    interval_cases j <;> exact (Nat.lt_succ_iff).symm
  have hhigh : ¬ utf8LengthChanges.getD (j + 1) 0 < n := by
    interval_cases j <;> exact not_lt.2 (Nat.le_of_lt_succ hn)
  simp only [verdict, hlow, hhigh, or_false]

/-- **A sequence of two to six bytes**: it is an overlong one when a shorter one has room for the
character. -/
theorem decode_form (hv : v.utfCount = 0) (hk : 1 ≤ k) (hk5 : k ≤ 5) (hn : n < capacity k) :
    decode v (form k n) = some
      ([if n < capacity (k - 1) then 0xfffd else (vcSanitizeUnicode n : ℤ)],
        { v with npar := k, utfCount := 0, utfChar := n }) := by
  have hlead : n / 64 ^ k < 2 ^ (6 - k) := by
    refine Nat.div_lt_of_lt_mul (hn.trans_eq ?_)
    interval_cases k <;> rfl
  have hbyte : n / 64 ^ k + leadMark k < 2 ^ 8 := by
    refine (Nat.add_lt_add_right hlead _).trans_le ?_
    interval_cases k <;> decide
  obtain ⟨j, rfl⟩ := Nat.exists_eq_succ_of_ne_zero (Nat.one_le_iff_ne_zero.1 hk)
  rw [form, decode, toNat_byte hbyte, lead_step hv hk hk5 hlead, bind_some,
    decode_tail rfl (by dsimp only; omega)]
  simp only [Nat.div_add_mod', Nat.zero_add, map_some, if_true, Nat.succ_eq_add_one,
    Nat.add_sub_cancel, verdict_eq (Nat.lt_of_succ_le hk5) hn]

/-- The encoding of a character is the shortest sequence that has room for it. -/
theorem utf8EncodeChar_eq (c : Char) :
    c.toNat < 0x80 ∧ String.utf8EncodeChar c = [.ofNat c.toNat] ∨
      ∃ k, 1 ≤ k ∧ k ≤ 5 ∧ capacity (k - 1) ≤ c.toNat ∧ c.toNat < capacity k ∧
        String.utf8EncodeChar c = form k c.toNat := by
  have hc : c.toNat < 0x110000 := by
    rcases c.valid with h | h
    · exact h.trans (by decide)
    · exact h.2
  have hmod : ∀ {a b : ℕ}, a < b → a % b = a := Nat.mod_eq_of_lt
  unfold String.utf8EncodeChar
  rw [show c.val.toNat = c.toNat from rfl]
  dsimp only
  split_ifs with h1 h2 h3
  · exact .inl ⟨by omega, rfl⟩
  · refine .inr ⟨1, by decide, by decide, Nat.lt_of_not_le h1, Nat.lt_succ_of_le h2, ?_⟩
    rw [hmod (by omega)]
    simp [form, tailBytes, leadMark]
  · refine .inr ⟨2, by decide, by decide, Nat.lt_of_not_le h2, Nat.lt_succ_of_le h3, ?_⟩
    rw [hmod (by omega)]
    simp [form, tailBytes, leadMark]
  · refine .inr ⟨3, by decide, by decide, Nat.lt_of_not_le h3, hc.trans (by decide), ?_⟩
    rw [hmod (by omega)]
    simp [form, tailBytes, leadMark]

theorem decode_char (hv : v.utfCount = 0) (c : Char) :
    ∃ v', v'.utfCount = 0 ∧
      decode v (String.utf8EncodeChar c) = some ([(vcSanitizeUnicode c.toNat : ℤ)], v') := by
  rcases utf8EncodeChar_eq c with ⟨hc, heq⟩ | ⟨k, hk, hk5, hlow, hhigh, heq⟩
  · have hstep : vcTranslateUnicode v c.toNat = some ((c.toNat : ℤ), v) := by
      have hmark : c.toNat &&& 0xc0 ≠ 0x80 :=
        (by decide : ∀ n < 0x80, n &&& 0xc0 ≠ 0x80) c.toNat hc
      rw [vcTranslateUnicode, if_neg hmark, if_neg (not_not.2 hv), if_pos (by omega)]
    have hsane : vcSanitizeUnicode c.toNat = c.toNat := if_neg (by omega)
    refine ⟨v, hv, ?_⟩
    rw [heq, decode, toNat_byte (by omega), hstep, hsane, bind_some, decode,
      map_some, if_neg (by dsimp only; omega)]
  · exact ⟨_, rfl, by rw [heq, decode_form hv hk hk5 hhigh, if_neg (not_lt.2 hlow)]⟩

/-- **UTF-8.** From a decoder without an unfinished sequence, the encoding of every text is decoded
to its characters, and every overlong sequence and every surrogate to U+FFFD; there is no unfinished
sequence afterwards. -/
theorem decode_utf8 (v : VcData) (hv : v.utfCount = 0) :
    (∀ text : List Char, ∃ v', v'.utfCount = 0 ∧
      decode v (text.flatMap String.utf8EncodeChar)
        = some (text.map fun c => (vcSanitizeUnicode c.toNat : ℤ), v')) ∧
    (∀ k n, 1 ≤ k → k ≤ 5 → n < capacity (k - 1) → ∃ v', v'.utfCount = 0 ∧
      decode v (form k n) = some ([0xfffd], v')) ∧
    ∀ n, 0xd800 ≤ n → n ≤ 0xdfff → ∃ v', v'.utfCount = 0 ∧
      decode v (form 2 n) = some ([0xfffd], v') := by
  refine ⟨fun text => ?_, fun k n hk hk5 hn => ?_, fun n hlow hhigh => ?_⟩
  · induction text generalizing v with
    | nil => exact ⟨v, hv, rfl⟩
    | cons c text ih =>
      obtain ⟨v₁, hv₁, hchar⟩ := decode_char hv c
      obtain ⟨v₂, hv₂, htext⟩ := ih v₁ hv₁
      exact ⟨v₂, hv₂, decode_append hchar htext⟩
  · have hroom : n < capacity k := hn.trans (by interval_cases k <;> decide)
    exact ⟨_, rfl, by rw [decode_form hv hk hk5 hroom, if_pos hn]⟩
  · have hroom : n < capacity 2 := hhigh.trans_lt (by decide)
    have hshortest : ¬ n < capacity (2 - 1) := not_lt.2 (hlow.trans' (by decide))
    have hsane : vcSanitizeUnicode n = 0xfffd := if_pos (.inl ⟨hlow, hhigh⟩)
    refine ⟨{ v with npar := 2, utfCount := 0, utfChar := n }, rfl, ?_⟩
    rw [decode_form hv (by decide) (by decide) hroom, if_neg hshortest, hsane]
    rfl

/-- From the decoder after boot, `é` and the overlong `/`. -/
theorem decode_utf8_boot :
    smallConsole.vc.utfCount = 0 ∧
      (∃ v', v'.utfCount = 0 ∧
        decode smallConsole.vc (['é'].flatMap String.utf8EncodeChar) = some ([0xe9], v')) ∧
      ∃ v', v'.utfCount = 0 ∧ decode smallConsole.vc [0xc0, 0xaf] = some ([0xfffd], v') := by
  have hv : smallConsole.vc.utfCount = 0 := by decide +kernel
  have hutf8 := decode_utf8 smallConsole.vc hv
  exact ⟨hv, hutf8.1 ['é'], hutf8.2.1 1 0x2f (by decide) (by decide) (by decide)⟩

/-! ### Sequences that are broken off -/

variable {s : Console} {tc : ℤ}

/-- The byte breaks an unfinished sequence off. -/
def breaks (v : VcData) (c : ℕ) : Bool := v.utfCount ≠ 0 ∧ c &&& 0xc0 ≠ 0x80

/-- The end of a round of `do_con_write`: the character goes to the screen. -/
def putChar (update : Bool) (s : Console) (tc c : ℤ) (draw : DrawRegion) : Console × DrawRegion :=
  if tc ≠ -1 ∧ !vcIsControl s.vc tc c then vcConWriteNormal update s tc c draw else (s, draw)

/-- The loop of `do_con_write` as it should be: for a sequence that is broken off U+FFFD is put out,
and the byte is looked at again as the beginning of a new one. -/
def mendedLoop (update : Bool) : List UInt8 → Console → DrawRegion → Console × DrawRegion
  | [], s, draw => (s, draw)
  | c :: buf, s, draw =>
    let (s, draw) :=
      if breaks s.vc c.toNat then
        putChar update { s with vc := { s.vc with utfCount := 0 } } 0xfffd 0xfffd draw
      else (s, draw)
    match vcTranslate s.vc c.toNat with
    | none => (s, draw)
    | some (tc, c, v) =>
      let (s, draw) := putChar update { s with vc := v } tc c draw
      mendedLoop update buf s draw

/-- `do_con_write` with this loop. -/
def mendedWrite (w : WriteContext) (s : Console) (buf : List UInt8) : ℕ × Console × List Putcs :=
  let res := mendedLoop w.update buf s ⟨0, 0, -1⟩
  (buf.length, res.1, conFlush res.1 res.2)

/-- How many bytes are missing behind the byte `c`, if `count` were missing in front of it. -/
def missing (count c : ℕ) : ℕ :=
  if c &&& 0xc0 = 0x80 then count - 1
  else if c ≤ 0x7f then 0
  else if c &&& 0xe0 = 0xc0 then 1
  else if c &&& 0xf0 = 0xe0 then 2
  else if c &&& 0xf8 = 0xf0 then 3
  else if c &&& 0xfc = 0xf8 then 4
  else if c &&& 0xfe = 0xfc then 5
  else 0

/-- No byte of the stream breaks a sequence off; `count` bytes are missing in front of it. -/
def unbroken : ℕ → List UInt8 → Bool
  | _, [] => true
  | count, c :: buf => (count = 0 ∨ c.toNat &&& 0xc0 = 0x80) && unbroken (missing count c.toNat) buf

/-- A console in UTF-8 mode. The last byte of an unfinished sequence finds its limits in
`utf8_length_changes`. -/
structure Utf8Console (s : Console) : Prop extends OnScreen s where
  state : s.vc.state = .normal
  utf : s.vc.utf = true
  dispCtrl : s.vc.dispCtrl = false
  decoder : s.vc.utfCount ≠ 0 → s.vc.npar + s.vc.utfCount < utf8LengthChanges.length

theorem vcTranslateUnicode_of_breaks (h : breaks v n) : vcTranslateUnicode v n = none := by
  obtain ⟨hcount, hmark⟩ := of_decide_eq_true h
  rw [vcTranslateUnicode, if_neg hmark, if_pos hcount]

/-- A byte that breaks nothing off. -/
theorem vcTranslateUnicode_of_not_breaks (h : ¬ breaks v n)
    (hdec : v.utfCount ≠ 0 → v.npar + v.utfCount < utf8LengthChanges.length) :
    ∃ tc v', vcTranslateUnicode v n = some (tc, v') ∧ v'.utfCount = missing v.utfCount n ∧
      (v'.utfCount ≠ 0 → v'.npar + v'.utfCount < utf8LengthChanges.length) := by
  have hlen : utf8LengthChanges.length = 6 := rfl
  unfold vcTranslateUnicode missing
  by_cases hmark : n &&& 0xc0 = 0x80
  · simp only [if_pos hmark]
    by_cases hcount : v.utfCount = 0
    · exact ⟨_, _, if_pos hcount, by omega, hdec⟩
    · have hroom := hdec hcount
      have hnpar : wrap32 (v.npar + 1) = v.npar + 1 := wrap32_of_lt (by omega)
      rw [if_neg hcount, hnpar]
      have hnext : v.npar + 1 + (v.utfCount - 1) < utf8LengthChanges.length := by omega
      split_ifs
      all_goals exact ⟨_, _, rfl, rfl, fun _ => hnext⟩
  · have hcount : v.utfCount = 0 := by
      by_contra hne
      exact h (decide_eq_true ⟨hne, hmark⟩)
    simp only [if_neg hmark, if_neg (not_not.2 hcount)]
    split_ifs
    all_goals exact ⟨_, _, rfl, by simp [hcount], by simp [hcount, hlen]⟩

/-! ### The screen -/

theorem OnScreen.lf_same (h : OnScreen s) :
    ∃ y pos, (Tty.lf s).vc = { s.vc with y := y, pos := pos, needWrap := false } := by
  have hscroll := (h.stores.conScroll h.geometry).2
  simp only [Tty.lf]
  split_ifs
  · exact ⟨s.vc.y, s.vc.pos, by rw [hscroll]⟩
  · exact ⟨wrap32 (s.vc.y + 1), wrap32 (s.vc.pos + s.vc.sizeRow), rfl⟩
  · exact ⟨s.vc.y, s.vc.pos, rfl⟩

/-- A character on the screen moves the cursor only. -/
theorem OnScreen.vcConWriteNormal_same (h : OnScreen s) (update : Bool) (tc k : ℤ)
    (draw : DrawRegion) : ∃ x y pos wrap, (Tty.vcConWriteNormal update s tc k draw).1.vc
      = { s.vc with x := x, y := y, pos := pos, needWrap := wrap } := by
  obtain ⟨x, y, pos, wrap, hvc⟩ : ∃ x y pos wrap,
      (if s.vc.needWrap then Tty.lf (Tty.cr s) else s).vc
        = { s.vc with x := x, y := y, pos := pos, needWrap := wrap } := by
    split_ifs
    · obtain ⟨y, pos, hlf⟩ := h.cr.1.lf_same
      exact ⟨0, y, pos, false, hlf⟩
    · exact ⟨s.vc.x, s.vc.y, s.vc.pos, s.vc.needWrap, rfl⟩
  simp only [Tty.vcConWriteNormal]
  generalize (if s.vc.needWrap then Tty.lf (Tty.cr s) else s) = t at hvc ⊢
  simp only [Tty.scrWritew, hvc]
  split_ifs <;> exact ⟨_, _, _, _, rfl⟩

/-- The console with another state of the decoder. -/
theorem Utf8Console.of_decoder (h : Utf8Console s) (hv : vcTranslateUnicode s.vc n = some (tc, v))
    (hdec : v.utfCount ≠ 0 → v.npar + v.utfCount < utf8LengthChanges.length) :
    Utf8Console { s with vc := v } := by
  obtain ⟨npar, utfCount, utfChar, rfl⟩ := vcTranslateUnicode_same hv
  exact { h.toOnScreen.of_decoder npar utfCount utfChar, h with decoder := hdec }

theorem Utf8Console.putChar (h : Utf8Console s) (update : Bool) (tc k : ℤ) (draw : DrawRegion) :
    Utf8Console (putChar update s tc k draw).1 ∧
      (Tty.putChar update s tc k draw).1.vc.utfCount = s.vc.utfCount := by
  unfold Tty.putChar
  split_ifs
  · have hon := h.toOnScreen.vcConWriteNormal update tc k draw
    obtain ⟨x, y, pos, wrap, hvc⟩ := h.toOnScreen.vcConWriteNormal_same update tc k draw
    refine ⟨⟨hon, ?_, ?_, ?_, ?_⟩, ?_⟩ <;> rw [hvc]
    exacts [h.state, h.utf, h.dispCtrl, h.decoder]
  · exact ⟨h, rfl⟩

theorem conWriteLoop_cons (update : Bool) (c : UInt8) (buf : List UInt8) (draw : DrawRegion) :
    conWriteLoop update (c :: buf) s draw = (vcTranslate s.vc c.toNat).bind fun res =>
      let put := putChar update { s with vc := res.2.2 } res.1 res.2.1 draw
      conWriteLoop update buf put.1 put.2 := by
  rw [conWriteLoop]
  rcases vcTranslate s.vc c.toNat with _ | ⟨tc, k, v⟩
  · rfl
  · simp only [putChar, bind_some]
    split_ifs <;> rfl

theorem Utf8Console.vcTranslate_eq (h : Utf8Console s) (n : ℕ) :
    vcTranslate s.vc n = (vcTranslateUnicode s.vc n).map fun res => (res.1, res.1, res.2) := by
  simp [vcTranslate, h.state, h.utf, h.dispCtrl]

/-- The loop of `do_con_write` ends with a fault, or does what it should do. -/
theorem Utf8Console.conWriteLoop_eq (h : Utf8Console s) (update : Bool) (buf : List UInt8)
    (draw : DrawRegion) :
    conWriteLoop update buf s draw
        = (if unbroken s.vc.utfCount buf then some (mendedLoop update buf s draw) else none) ∧
      (unbroken s.vc.utfCount buf → Utf8Console (mendedLoop update buf s draw).1) := by
  induction buf generalizing s draw with
  | nil => exact ⟨rfl, fun _ => h⟩
  | cons c buf ih =>
    rw [conWriteLoop_cons, h.vcTranslate_eq]
    by_cases hb : breaks s.vc c.toNat
    · have hno : unbroken s.vc.utfCount (c :: buf) = false := by
        obtain ⟨hcount, hmark⟩ := of_decide_eq_true hb
        simp [unbroken, hcount, hmark]
      rw [vcTranslateUnicode_of_breaks hb, hno]
      exact ⟨rfl, nofun⟩
    · obtain ⟨tc, v, hv, hcount, hdec⟩ := vcTranslateUnicode_of_not_breaks hb h.decoder
      obtain ⟨hput, hsame⟩ := (h.of_decoder hv hdec).putChar update tc tc draw
      have hyes : unbroken s.vc.utfCount (c :: buf) = unbroken v.utfCount buf := by
        have hkeep : s.vc.utfCount = 0 ∨ c.toNat &&& 0xc0 = 0x80 := by
          simpa [breaks, or_iff_not_imp_left] using hb
        rw [unbroken, decide_eq_true hkeep, Bool.true_and, hcount]
      obtain ⟨hloop, hkept⟩ := ih hput (Tty.putChar update { s with vc := v } tc tc draw).2
      rw [hsame] at hloop hkept
      have hmended : mendedLoop update (c :: buf) s draw =
          let put := Tty.putChar update { s with vc := v } tc tc draw
          mendedLoop update buf put.1 put.2 := by
        rw [mendedLoop, if_neg hb]
        dsimp only
        rw [h.vcTranslate_eq, hv]
        rfl
      rw [hyes, hv, hmended]
      exact ⟨hloop, hkept⟩

/-- **Writing in UTF-8 mode** is as it should be exactly for the streams in which no byte breaks an
unfinished sequence off, and the console is then one in UTF-8 mode again. -/
theorem doConWrite_mended_iff {w : WriteContext} (h : Utf8Console s)
    (hw : w.inInterrupt = false ∧ w.allocated = true ∧ w.stopped = false) (buf : List UInt8) :
    doConWrite w s buf = some (mendedWrite w s buf) ∧ Utf8Console (mendedWrite w s buf).2.1 ↔
      unbroken s.vc.utfCount buf := by
  obtain ⟨hloop, hkept⟩ := h.conWriteLoop_eq w.update buf ⟨0, 0, -1⟩
  rw [doConWrite, hloop]
  simp only [hw, Bool.not_true, Bool.false_eq_true, if_false]
  by_cases hb : unbroken s.vc.utfCount buf
  · rw [if_pos hb]
    exact iff_of_true ⟨rfl, hkept hb⟩ hb
  · rw [if_neg hb]
    exact iff_of_false (fun hres => nomatch hres.1) hb

theorem smallConsole_utf8 : Utf8Console smallConsole where
  toOnScreen := smallConsole_booted.onScreen
  state := by decide +kernel
  utf := by decide +kernel
  dispCtrl := by decide +kernel
  decoder := by decide +kernel

/-- A write of `é` to the console after boot. -/
theorem doConWrite_mended_boot :
    doConWrite ⟨false, true, false, true⟩ smallConsole [0xc3, 0xa9]
      = some (mendedWrite ⟨false, true, false, true⟩ smallConsole [0xc3, 0xa9]) :=
  ((doConWrite_mended_iff smallConsole_utf8 ⟨rfl, rfl, rfl⟩ [0xc3, 0xa9]).2 (by decide +kernel)).1

/-- A letter behind the first byte of a sequence of two makes the kernel fault. -/
theorem doConWrite_faults :
    Utf8Console smallConsole ∧
      doConWrite ⟨false, true, false, true⟩ smallConsole [0xc3, 0x41] = none := by
  refine ⟨smallConsole_utf8, ?_⟩
  have hloop := (smallConsole_utf8.conWriteLoop_eq true [0xc3, 0x41] ⟨0, 0, -1⟩).1
  rw [if_neg (by decide +kernel)] at hloop
  simp [doConWrite, hloop]

end MinimalKernel.Tty
