import MinimalKernel.Basic

/-!
# Unmapping a range of the page tables

The two-level page tables of x86-32 and the walkers of `mm/memory.c` that are to clear the entries
of a range: `unmap_page_range`, `zap_p4d_range`, `zap_pud_range`, `zap_pmd_range` and
`zap_pte_range`. Three of the five levels are folded into the page directory, so that the four
outer walkers run over the same directory entries.

`zap_pte_range` clears nothing and returns the address at which it was called. The loop of
`zap_pmd_range` therefore makes no progress in the address: it moves on from directory entry to
directory entry, up to the first one that is not a page table. If that entry is empty, the walk
ends and nothing has changed; if it is a large page, such as those of the kernel mapping, it is
taken for a corrupt entry and cleared; and if there is none, the walk leaves the directory.

## Main definitions

* `Pte`, `Pde`, `Pgd` — page table entries, directory entries, page directories
* `walkRange` — the loop that the four outer walkers share
* `unmapPageRange` — the model of `unmap_page_range`
* `ZapSafe dir addr endAddr` — there is nothing to clear, and every walk ends at an empty entry

## Main results

* `unmapPageRange_exact_iff` — the range is unmapped exactly if `ZapSafe` holds
-/

namespace MinimalKernel.Mm

open Function Nat

/-! ### Page tables -/

def ptrsPerPgd : ℕ := 1024
def ptrsPerPte : ℕ := 1024

/-- `PGDIR_SIZE`, the memory that a directory entry covers. -/
def pgdirSize : ℕ := 2 ^ 22

/-- A page table entry: empty, not empty but not present, or present. -/
inductive Pte
  | none
  | swap
  | present (pfn : ℕ) (write dirty accessed : Bool)
  deriving DecidableEq, Repr

/-- `pte_present`. -/
def Pte.isPresent : Pte → Bool
  | present _ _ _ _ => true
  | _ => false

/-- A directory entry: empty, a page table, or anything else that is not empty, such as a large
page of the kernel mapping. -/
inductive Pde
  | none
  | table (entries : ℕ → Pte)
  | bad

def Pde.isTable : Pde → Bool
  | table _ => true
  | _ => false

/-- A page directory with its page tables; only the first `ptrsPerPgd` entries count, and of a page
table the first `ptrsPerPte`. -/
abbrev Pgd := ℕ → Pde

/-- The entry for the page `k` of the address space. -/
def pteOf (dir : Pgd) (k : ℕ) : Pte :=
  match dir (k / ptrsPerPte) with
  | .table entries => entries (k % ptrsPerPte)
  | _ => .none

/-! ### The walkers -/

/-- The loop of a walker over the last `rest` entries of the directory: each turn handles the part
of the range up to `addrEnd` and goes on where `inner` has stopped. -/
def walkRange (addrEnd : ℕ → ℕ → ℕ) (inner : Pgd → ℕ → ℕ → ℕ → Except Oops (ℕ × Pgd)) :
    ℕ → Pgd → ℕ → ℕ → Except Oops (ℕ × Pgd)
  | 0, _, _, _ => .error .wildAccess
  | rest + 1, dir, addr, endAddr =>
    match inner dir (ptrsPerPgd - (rest + 1)) addr (addrEnd addr endAddr) with
    | .error e => .error e
    | .ok (next, dir) =>
      if next = endAddr then .ok (next, dir) else walkRange addrEnd inner rest dir next endAddr

/-- `zap_pte_range`, which leaves the page table as it is. -/
def zapPteRange (_entries : ℕ → Pte) (addr _endAddr : ℕ) : ℕ := addr

/-- One turn of `zap_pmd_range`: an entry that is neither empty nor a page table is cleared
(`pmd_clear_bad`). -/
def zapPmdEntry (dir : Pgd) (i addr next : ℕ) : Except Oops (ℕ × Pgd) :=
  match dir i with
  | .none => .ok (next, dir)
  | .bad => .ok (next, update dir i .none)
  | .table entries => .ok (zapPteRange entries addr next, dir)

/-- `pmd_addr_end`, `pud_addr_end` and `p4d_addr_end` of the folded levels. -/
def foldedAddrEnd (_addr endAddr : ℕ) : ℕ := endAddr

/-- `zap_pmd_range`, from the directory entry `i` on. -/
def zapPmdRange (dir : Pgd) (i addr endAddr : ℕ) : Except Oops (ℕ × Pgd) :=
  walkRange foldedAddrEnd zapPmdEntry (ptrsPerPgd - i) dir addr endAddr

/-- `zap_pud_range`; a folded entry is never empty. -/
def zapPudRange (dir : Pgd) (i addr endAddr : ℕ) : Except Oops (ℕ × Pgd) :=
  walkRange foldedAddrEnd zapPmdRange (ptrsPerPgd - i) dir addr endAddr

/-- `zap_p4d_range`. -/
def zapP4dRange (dir : Pgd) (i addr endAddr : ℕ) : Except Oops (ℕ × Pgd) :=
  walkRange foldedAddrEnd zapPudRange (ptrsPerPgd - i) dir addr endAddr

/-- `pgd_addr_end`: the end of the range, or the next boundary of a directory entry before it. -/
def pgdAddrEnd (addr endAddr : ℕ) : ℕ :=
  let boundary := wadd addr pgdirSize / pgdirSize * pgdirSize
  if wsub boundary 1 < wsub endAddr 1 then boundary else endAddr

/-- `unmap_page_range`. -/
def unmapPageRange (dir : Pgd) (addr endAddr : ℕ) : Except Oops Pgd :=
  if endAddr ≤ addr then .error .bug
  else
    (walkRange pgdAddrEnd zapP4dRange (ptrsPerPgd - addr / pgdirSize) dir addr endAddr).map Prod.snd

/-! ### One walk over the directory -/

variable {dir dir' : Pgd} {addr endAddr i j k rest : ℕ}

/-- The entries from `i` up to `j` are page tables. -/
def TablesTo (dir : Pgd) (i j : ℕ) : Prop := ∀ k, i ≤ k → k < j → (dir k).isTable

/-- What the walk of `zap_pmd_range` that starts at `i` comes to. -/
inductive PmdWalk (dir : Pgd) (i endAddr : ℕ) : Except Oops (ℕ × Pgd) → Prop
  /-- It ends at an empty entry. -/
  | empty {j : ℕ} (le : i ≤ j) (lt : j < ptrsPerPgd) (tables : TablesTo dir i j)
      (none : dir j = .none) : PmdWalk dir i endAddr (.ok (endAddr, dir))
  /-- It ends at an entry that it clears. -/
  | clears {j : ℕ} (le : i ≤ j) (lt : j < ptrsPerPgd) (tables : TablesTo dir i j)
      (bad : dir j = .bad) : PmdWalk dir i endAddr (.ok (endAddr, update dir j .none))
  /-- It leaves the directory. -/
  | leaves (tables : TablesTo dir i ptrsPerPgd) : PmdWalk dir i endAddr (.error .wildAccess)

theorem TablesTo.cons (hi : (dir i).isTable) (h : TablesTo dir (i + 1) j) : TablesTo dir i j := by
  intro k hik hkj
  rcases hik.eq_or_lt with rfl | hlt
  · exact hi
  · exact h k hlt hkj

theorem PmdWalk.cons {r : Except Oops (ℕ × Pgd)} (hi : (dir i).isTable)
    (h : PmdWalk dir (i + 1) endAddr r) : PmdWalk dir i endAddr r := by
  cases h with
  | empty hle hlt htables hnone => exact .empty (by omega) hlt (htables.cons hi) hnone
  | clears hle hlt htables hbad => exact .clears (by omega) hlt (htables.cons hi) hbad
  | leaves htables => exact .leaves (htables.cons hi)

/-- **The walk of `zap_pmd_range`.** -/
theorem zapPmdRange_walk (dir : Pgd) (hi : i ≤ ptrsPerPgd) (haddr : addr ≠ endAddr) :
    PmdWalk dir i endAddr (zapPmdRange dir i addr endAddr) := by
  obtain ⟨rest, hrest⟩ : ∃ rest, rest = ptrsPerPgd - i := ⟨_, rfl⟩
  unfold zapPmdRange
  rw [← hrest]
  induction rest generalizing i with
  | zero => exact .leaves fun k hik hk => by omega
  | succ rest ih =>
    have hidx : ptrsPerPgd - (rest + 1) = i := by omega
    unfold walkRange
    rw [hidx, zapPmdEntry, foldedAddrEnd]
    rcases hdir : dir i with _ | entries | _ <;> dsimp only
    · rw [if_pos rfl]
      exact .empty le_rfl (by omega) (fun k hik hki => absurd hik (by omega)) hdir
    · rw [zapPteRange, if_neg haddr]
      exact (ih (by omega) (by omega)).cons (by rw [hdir]; rfl)
    · rw [if_pos rfl]
      exact .clears le_rfl (by omega) (fun k hik hki => absurd hik (by omega)) hdir

/-- A folded level makes one turn. -/
theorem walkRange_folded {inner : Pgd → ℕ → ℕ → ℕ → Except Oops (ℕ × Pgd)} (hi : i < ptrsPerPgd)
    (hinner : ∀ next dir', inner dir i addr endAddr = .ok (next, dir') → next = endAddr) :
    walkRange foldedAddrEnd inner (ptrsPerPgd - i) dir addr endAddr = inner dir i addr endAddr := by
  obtain ⟨rest, hrest⟩ : ∃ rest, ptrsPerPgd - i = rest + 1 := ⟨ptrsPerPgd - i - 1, by omega⟩
  have hidx : ptrsPerPgd - (rest + 1) = i := by omega
  rw [hrest, walkRange, hidx, foldedAddrEnd]
  rcases hr : inner dir i addr endAddr with e | ⟨next, dir'⟩
  · rfl
  · dsimp only
    rw [if_pos (hinner next dir' hr)]

/-- The inner walkers together come to what `zap_pmd_range` comes to. -/
theorem zapP4dRange_eq (hi : i < ptrsPerPgd) (haddr : addr ≠ endAddr) :
    zapP4dRange dir i addr endAddr = zapPmdRange dir i addr endAddr := by
  have hpmd : ∀ next dir', zapPmdRange dir i addr endAddr = .ok (next, dir') → next = endAddr := by
    intro next dir' hr
    have hw := zapPmdRange_walk dir hi.le haddr
    rw [hr] at hw
    cases hw <;> rfl
  have hpud : zapPudRange dir i addr endAddr = zapPmdRange dir i addr endAddr :=
    walkRange_folded hi hpmd
  rw [zapP4dRange, walkRange_folded hi (hpud ▸ hpmd), hpud]

/-! ### The whole range -/

/-- The user part of the directory is that of a two-level page table: empty entries and page
tables. -/
def UserTables (dir : Pgd) : Prop := ∀ i, i * pgdirSize < taskSize → dir i ≠ .bad

/-- Above the entry `i` there are page tables up to an empty entry. -/
def Gap (dir : Pgd) (i : ℕ) : Prop :=
  ∃ j, i < j ∧ j < ptrsPerPgd ∧ dir j = .none ∧ TablesTo dir (i + 1) j

/-- The walk from every page table of the range ends at an empty entry. -/
def Gaps (dir : Pgd) (addr endAddr : ℕ) : Prop :=
  ∀ i, addr / pgdirSize ≤ i → i * pgdirSize < endAddr → (dir i).isTable → Gap dir i

theorem pgdAddrEnd_eq (hlt : addr < endAddr) (hle : endAddr ≤ taskSize) :
    pgdAddrEnd addr endAddr = min ((addr / pgdirSize + 1) * pgdirSize) endAddr := by
  have htask : taskSize + pgdirSize < wordSize := by decide
  have hpos : 0 < pgdirSize := by decide
  have hb : (addr / pgdirSize + 1) * pgdirSize ≤ addr + pgdirSize := by
    rw [add_mul, one_mul]
    exact Nat.add_le_add_right (Nat.div_mul_le_self _ _) _
  have hb' : 1 ≤ (addr / pgdirSize + 1) * pgdirSize := mul_pos (succ_pos _) hpos
  unfold pgdAddrEnd
  dsimp only
  rw [wadd_of_lt (by omega), add_div_right _ hpos, wsub_of_le hb' (by omega),
    wsub_of_le (by omega) (by omega)]
  split_ifs with h <;> omega

/-- The condition splits into that of the first directory entry and that of the others. -/
theorem gaps_iff (dir : Pgd) (haddr : addr / pgdirSize = i) (hlt : addr < endAddr) :
    Gaps dir addr endAddr ↔
      ((dir i).isTable → Gap dir i) ∧ Gaps dir ((i + 1) * pgdirSize) endAddr := by
  have hdiv : (i + 1) * pgdirSize / pgdirSize = i + 1 := Nat.mul_div_cancel _ (by decide)
  have hle : i * pgdirSize ≤ addr := haddr ▸ div_mul_le_self addr pgdirSize
  constructor
  · intro h
    exact ⟨h i haddr.le (hle.trans_lt hlt), fun k hk => h k (by omega)⟩
  · rintro ⟨h₁, h₂⟩ k hk hkend ht
    rcases (haddr ▸ hk).eq_or_lt with rfl | hik
    · exact h₁ ht
    · exact h₂ k (by omega) hkend ht

theorem gaps_of_le (hle : endAddr ≤ addr) (hdvd : pgdirSize ∣ addr) : Gaps dir addr endAddr := by
  intro k hk hlt
  have hmul := mul_le_mul_right pgdirSize hk
  rw [Nat.div_mul_cancel hdvd] at hmul
  omega

/-- What a walk over a range comes to: it leaves the directory as it is; or it clears an entry, or
does not come back, and then the condition is violated. An empty entry stays empty. -/
structure RangeWalk (dir : Pgd) (addr endAddr : ℕ) (r : Except Oops (ℕ × Pgd)) : Prop where
  quiet : Gaps dir addr endAddr → r = .ok (endAddr, dir)
  harm : ¬ Gaps dir addr endAddr → ∀ a dir', r = .ok (a, dir') →
    ∃ j, j < ptrsPerPgd ∧ dir j = .bad ∧ dir' j = .none
  keeps : ∀ a dir' j, r = .ok (a, dir') → dir j = .none → dir' j = .none

theorem Gap.of_walk (hle : i ≤ j) (hlt : j < ptrsPerPgd) (htables : TablesTo dir i j)
    (hnone : dir j = .none) (hi : (dir i).isTable) : Gap dir i := by
  refine ⟨j, lt_of_le_of_ne hle ?_, hlt, hnone, fun k hik hkj => htables k (by omega) hkj⟩
  rintro rfl
  rw [hnone] at hi
  cases hi

/-- Where the walk clears an entry, there was no gap. -/
theorem not_gap_of_bad (hlt : i < j) (htables : TablesTo dir i j) (hbad : dir j = .bad) :
    ¬ Gap dir i := by
  rintro ⟨k, hik, -, hnone, hk⟩
  rcases lt_trichotomy j k with hjk | rfl | hkj
  · have := hk j hlt hjk
    rw [hbad] at this
    cases this
  · rw [hbad] at hnone
    cases hnone
  · have := htables k hik.le hkj
    rw [hnone] at this
    cases this

theorem not_gap_of_leaves (htables : TablesTo dir i ptrsPerPgd) : ¬ Gap dir i := by
  rintro ⟨k, hik, hk, hnone, -⟩
  have := htables k hik.le hk
  rw [hnone] at this
  cases this

theorem update_none_of_none (h : dir k = .none) : update dir j .none k = .none := by
  by_cases hkj : k = j
  · rw [hkj, update_self]
  · rw [update_of_ne hkj, h]

theorem UserTables.update (h : UserTables dir) : UserTables (update dir j .none) := by
  intro k hk
  by_cases hkj : k = j
  · rw [hkj, update_self]
    exact Pde.noConfusion
  · rw [update_of_ne hkj]
    exact h k hk

/-- **The loop of `unmap_page_range`**, by induction on the directory entries that are left. -/
theorem unmapLoop_walk (hrest : addr / pgdirSize + rest = ptrsPerPgd) (hlt : addr < endAddr)
    (hle : endAddr ≤ taskSize) (hdir : UserTables dir) :
    RangeWalk dir addr endAddr (walkRange pgdAddrEnd zapP4dRange rest dir addr endAddr) := by
  induction rest generalizing dir addr with
  | zero =>
    have htask : taskSize < ptrsPerPgd * pgdirSize := by decide
    have hmul := div_mul_le_self addr pgdirSize
    rw [add_zero] at hrest
    rw [hrest] at hmul
    omega
  | succ rest ih =>
    obtain ⟨i, hi⟩ : ∃ i, i = addr / pgdirSize := ⟨_, rfl⟩
    rw [← hi] at hrest
    have hidx : ptrsPerPgd - (rest + 1) = i := by omega
    set next := min ((i + 1) * pgdirSize) endAddr with hnext
    have haddr : addr < (i + 1) * pgdirSize := by
      rw [hi]
      exact lt_mul_of_div_lt (lt_succ_self _) (by decide)
    have hne : addr ≠ next := by omega
    have hiuser : i * pgdirSize < taskSize := by
      have := div_mul_le_self addr pgdirSize
      rw [← hi] at this
      omega
    have hgaps := gaps_iff dir hi.symm hlt
    have hdvd : pgdirSize ∣ (i + 1) * pgdirSize := dvd_mul_left _ _
    -- where the walk goes on, it goes on at the next directory entry
    have hmore : next ≠ endAddr → ∀ dir₁, UserTables dir₁ → next = (i + 1) * pgdirSize ∧
        RangeWalk dir₁ ((i + 1) * pgdirSize) endAddr
          (walkRange pgdAddrEnd zapP4dRange rest dir₁ next endAddr) := by
      intro hn dir₁ hdir₁
      have heq : next = (i + 1) * pgdirSize := by omega
      rw [heq]
      refine ⟨rfl, ih ?_ (by omega) hdir₁⟩
      rw [Nat.mul_div_cancel _ (by decide)]
      omega
    have hstop : next = endAddr → ∀ dir₁, Gaps dir₁ ((i + 1) * pgdirSize) endAddr := fun hn dir₁ =>
      gaps_of_le (by omega) hdvd
    rw [walkRange, hidx, pgdAddrEnd_eq hlt hle, ← hi, ← hnext, zapP4dRange_eq (by omega) hne]
    have hw := zapPmdRange_walk dir (i := i) (by omega) hne
    generalize zapPmdRange dir i addr next = r at hw
    cases hw with
    | empty hij hj htables hnone =>
      have hfirst : (dir i).isTable → Gap dir i := Gap.of_walk hij hj htables hnone
      dsimp only
      split_ifs with hn
      · have hall : Gaps dir addr endAddr := hgaps.2 ⟨hfirst, hstop hn dir⟩
        refine ⟨fun _ => by rw [hn], fun h => absurd hall h, fun a dir' k hr hk => ?_⟩
        cases hr
        exact hk
      · obtain ⟨-, hrec⟩ := hmore hn dir hdir
        exact ⟨fun h => hrec.quiet (hgaps.1 h).2,
          fun h => hrec.harm fun h' => h (hgaps.2 ⟨hfirst, h'⟩), hrec.keeps⟩
    | @clears j hij hj htables hbad =>
      have hlt' : i < j := by
        refine lt_of_le_of_ne hij ?_
        rintro rfl
        exact hdir i hiuser hbad
      have hnot : ¬ Gaps dir addr endAddr := fun h =>
        not_gap_of_bad hlt' htables hbad ((hgaps.1 h).1 (htables i le_rfl hlt'))
      have hcleared : update dir j .none j = .none := update_self ..
      dsimp only
      split_ifs with hn
      · refine ⟨fun h => absurd h hnot, fun _ a dir' hr => ?_, fun a dir' k hr hk => ?_⟩ <;>
          cases hr
        · exact ⟨j, hj, hbad, hcleared⟩
        · exact update_none_of_none hk
      · obtain ⟨-, hrec⟩ := hmore hn _ hdir.update
        refine ⟨fun h => absurd h hnot, fun _ a dir' hr => ?_, fun a dir' k hr hk => ?_⟩
        · exact ⟨j, hj, hbad, hrec.keeps a dir' j hr hcleared⟩
        · exact hrec.keeps a dir' k hr (update_none_of_none hk)
    | leaves htables =>
      have hnot : ¬ Gaps dir addr endAddr := fun h =>
        not_gap_of_leaves htables ((hgaps.1 h).1 (htables i le_rfl (by omega)))
      refine ⟨fun h => absurd h hnot, fun _ a dir' hr => ?_, fun a dir' k hr => ?_⟩ <;> cases hr

/-! ### When the range is unmapped -/

/-- The entries outside of the range are as before, in the page tables and in the directory. -/
def SameOutside (dir dir' : Pgd) (addr endAddr : ℕ) : Prop :=
  ∀ i < ptrsPerPgd, match dir i, dir' i with
    | .none, .none => True
    | .bad, .bad => True
    | .table entries, .table entries' => ∀ j < ptrsPerPte,
        ¬ (addr ≤ i * pgdirSize + j * pageSize ∧ i * pgdirSize + j * pageSize < endAddr) →
          entries' j = entries j
    | _, _ => False

/-- Exactly the range has been unmapped. -/
structure UnmapsExactly (dir dir' : Pgd) (addr endAddr : ℕ) : Prop where
  /-- No page of the range is present any more. -/
  inside : ∀ x, addr ≤ x → x < endAddr → (pteOf dir' (pageOf x)).isPresent = false
  outside : SameOutside dir dir' addr endAddr

/-- No page of the range is present, and the walk from every page table of the range ends at an
empty entry. -/
def ZapSafe (dir : Pgd) (addr endAddr : ℕ) : Prop :=
  (∀ x, addr ≤ x → x < endAddr → (pteOf dir (pageOf x)).isPresent = false) ∧ Gaps dir addr endAddr

theorem SameOutside.refl (dir : Pgd) (addr endAddr : ℕ) : SameOutside dir dir addr endAddr := by
  intro i _
  rcases dir i with _ | entries | _
  · trivial
  · exact fun _ _ _ => rfl
  · trivial

/-- **Unmapping a range of a two-level page table.** The call comes back and has removed the entries
of the range, and no others, if and only if there was no entry to remove and every walk ends at an
empty directory entry. -/
theorem unmapPageRange_exact_iff (hdir : UserTables dir) (hlt : addr < endAddr)
    (hle : endAddr ≤ taskSize) :
    (∃ dir', unmapPageRange dir addr endAddr = .ok dir' ∧ UnmapsExactly dir dir' addr endAddr) ↔
      ZapSafe dir addr endAddr := by
  have hrest : addr / pgdirSize + (ptrsPerPgd - addr / pgdirSize) = ptrsPerPgd := by
    have htask : taskSize < ptrsPerPgd * pgdirSize := by decide
    have : addr / pgdirSize < ptrsPerPgd := Nat.div_lt_of_lt_mul (by rw [Nat.mul_comm]; omega)
    omega
  have hw := unmapLoop_walk hrest hlt hle hdir
  unfold unmapPageRange
  rw [if_neg (not_le.2 hlt)]
  constructor
  · rintro ⟨dir', hr, hin, hout⟩
    rcases hloop : walkRange pgdAddrEnd zapP4dRange (ptrsPerPgd - addr / pgdirSize) dir addr endAddr
      with e | ⟨a, d⟩ <;> rw [hloop] at hr hw <;> cases hr
    by_cases hg : Gaps dir addr endAddr
    · cases hw.quiet hg
      exact ⟨hin, hg⟩
    · obtain ⟨j, hj, hbad, hnone⟩ := hw.harm hg a d rfl
      have hout : SameOutside dir d addr endAddr := hout
      have hj' := hout j hj
      rw [hbad, hnone] at hj'
      exact hj'.elim
  · rintro ⟨hin, hg⟩
    rw [hw.quiet hg]
    exact ⟨dir, rfl, hin, .refl dir addr endAddr⟩

/-- A directory with one page table that is empty but for the entry `0`. -/
def onePage (pte : Pte) : Pgd := fun i =>
  if i = 2 then .table fun j => if j = 0 then pte else .none else .none

theorem userTables_onePage (pte : Pte) : UserTables (onePage pte) := by
  intro i _
  unfold onePage
  split_ifs <;> exact Pde.noConfusion

/-- A range that was never touched. -/
theorem unmapPageRange_untouched :
    ∃ dir', unmapPageRange (onePage .none) 0x800000 0x801000 = .ok dir' ∧
      UnmapsExactly (onePage .none) dir' 0x800000 0x801000 := by
  refine (unmapPageRange_exact_iff (userTables_onePage _) (by decide) (by decide)).2
    ⟨fun x _ _ => ?_, fun i hi hlt ht => ?_⟩
  · unfold pteOf onePage
    split_ifs <;> simp [Pte.isPresent]
  · obtain rfl : i = 2 := by
      by_contra hne
      simp [onePage, hne, Pde.isTable] at ht
    exact ⟨3, by omega, by decide, rfl, fun k hk hk3 => by omega⟩

/-- **A page that stays.** The page at `0x800000` is still present after it has been unmapped. -/
theorem unmapPageRange_keeps_page :
    UserTables (onePage (.present 7 true true true)) ∧
      ∃ dir', unmapPageRange (onePage (.present 7 true true true)) 0x800000 0x801000 = .ok dir' ∧
        pteOf dir' (pageOf 0x800000) = .present 7 true true true ∧
        ¬ UnmapsExactly (onePage (.present 7 true true true)) dir' 0x800000 0x801000 := by
  refine ⟨userTables_onePage _, _, rfl, rfl, fun h => ?_⟩
  exact absurd (h.inside 0x800000 le_rfl (by decide)) (by decide)

end MinimalKernel.Mm
