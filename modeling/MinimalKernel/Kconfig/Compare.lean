import Mathlib.Order.Basic

/-!
# Comparisons of Kconfig expressions

`expr_trans_compare` rewrites the comparison of an expression with `n`, `m` or `y` to an expression
that should be `y` where the comparison holds and `n` elsewhere. It pushes the comparison down to
the symbols: through a negation as the opposite comparison, and not at all through a connective
where the constant is `m`. Both are wrong for expressions that are `m`.

With `y` or `n` what comes out is the expression over two truth values (`counts`), where a symbol
that is `m` counts as false or as true. With `m` only single symbols and comparisons come out right
(`ModSafe`), and what happens to be `n`.

## Main definitions

* `exprCalcValue`, `exprTransCompare` — the value of an expression, and the rewriting
* `CompareSafe` — the two ways to read the expression agree

## Main results

* `expr_trans_compare_iff` — the rewriting is right exactly for `CompareSafe`
-/

namespace MinimalKernel.Kconfig

/-- `tristate`. -/
inductive Tristate
  | no | mod | yes
  deriving DecidableEq

/-- The numbers `no`, `mod` and `yes` are 0, 1 and 2. -/
def Tristate.toNat : Tristate → ℕ
  | no => 0 | mod => 1 | yes => 2

/-- The string of a value, which is a single letter. -/
def Tristate.letter : Tristate → Char
  | no => 'n' | mod => 'm' | yes => 'y'

/-- `EXPR_AND`. -/
def exprAnd (a b : Tristate) : Tristate := if a.toNat < b.toNat then a else b

/-- `EXPR_OR`. -/
def exprOr (a b : Tristate) : Tristate := if a.toNat > b.toNat then a else b

/-- `EXPR_NOT`. -/
def exprNot : Tristate → Tristate
  | .no => .yes | .mod => .mod | .yes => .no

/-- A symbol: `symbol_no`, `symbol_mod` and `symbol_yes`, which have no type, or a symbol of type
bool or tristate. -/
inductive Sym (ι : Type)
  | const (c : Tristate)
  | config (i : ι)

/-- The types of the expressions that compare two symbols. -/
inductive Relation
  | equal | unequal | lth | leq | gth | geq

/-- The expressions that have a value; `null` is a null pointer. -/
inductive Expr (ι : Type)
  | null
  | symbol (s : Sym ι)
  | not (e : Expr ι)
  | and (e₁ e₂ : Expr ι)
  | or (e₁ e₂ : Expr ι)
  | comp (r : Relation) (s t : Sym ι)

/-- The values of the symbols, and `modules_sym`. -/
structure Config (ι : Type) where
  curr : ι → Tristate
  modules : Sym ι

variable {ι : Type} (σ : Config ι)

/-- `curr.tri` of a symbol. -/
def Config.tri : Sym ι → Tristate
  | .const c => c
  | .config i => σ.curr i

/-- `sym_get_string_value`. Without modules an `m` is shown as `n`. -/
def Config.shown : Sym ι → Tristate
  | .const c => c
  | .config i => if σ.curr i = .mod ∧ σ.tri σ.modules = .no then .no else σ.curr i

/-- The comparison in `expr_calc_value`: of numbers where both symbols have a type, and of strings
elsewhere, since `expr_parse_string` makes no number of a letter without a type. -/
def Config.compare (s t : Sym ι) : Ordering :=
  match s, t with
  | .config _, .config _ => Ord.compare (σ.shown s).toNat (σ.shown t).toNat
  | _, _ => Ord.compare (σ.shown s).letter (σ.shown t).letter

def Relation.holds : Relation → Ordering → Bool
  | equal, o => o.isEq
  | unequal, o => o.isNe
  | lth, o => o.isLT
  | leq, o => o.isLE
  | gth, o => o.isGT
  | geq, o => o.isGE

/-- A truth value as a tristate. -/
def ofBool (b : Bool) : Tristate := if b then .yes else .no

/-- `expr_calc_value`. -/
def exprCalcValue : Expr ι → Tristate
  | .null => .yes
  | .symbol s => σ.tri s
  | .and a b => exprAnd (exprCalcValue a) (exprCalcValue b)
  | .or a b => exprOr (exprCalcValue a) (exprCalcValue b)
  | .not a => exprNot (exprCalcValue a)
  | .comp r s t => ofBool (r.holds (σ.compare s t))

/-- `expr_trans_compare`, where `equal` says whether the type is `E_EQUAL` or `E_UNEQUAL`. -/
def exprTransCompare (sym : Tristate) : Expr ι → Bool → Expr ι
  | .null, equal =>
    let e := .symbol (.const sym)
    if equal then e else .not e
  | .and a b, equal =>
    let e₁ := exprTransCompare sym a true
    let e₂ := exprTransCompare sym b true
    let e := match sym with
      | .yes => .and e₁ e₂
      | .no => .or e₁ e₂
      | .mod => .and a b
    if equal then e else .not e
  | .or a b, equal =>
    let e₁ := exprTransCompare sym a true
    let e₂ := exprTransCompare sym b true
    let e := match sym with
      | .yes => .or e₁ e₂
      | .no => .and e₁ e₂
      | .mod => .or a b
    if equal then e else .not e
  | .not a, equal => exprTransCompare sym a (!equal)
  | .comp r s t, equal =>
    match equal, sym with
    | true, .yes | false, .no => .comp r s t
    | true, .mod => .symbol (.const .no)
    | false, .mod => .symbol (.const .yes)
    | true, .no | false, .yes => .not (.comp r s t)
  | .symbol s, equal => .comp (if equal then .equal else .unequal) s (.const sym)

/-! ### When the rewriting is right -/

/-- The expression over two truth values: a symbol counts if it shows as `y`, or, where the
comparison is with `n`, if it does not show as `n`. -/
def counts (sym : Tristate) : Expr ι → Bool
  | .null => true
  | .symbol s => if sym = .no then σ.shown s ≠ .no else σ.shown s = .yes
  | .not a => !counts sym a
  | .and a b => counts sym a && counts sym b
  | .or a b => counts sym a || counts sym b
  | .comp r s t => r.holds (σ.compare s t)

/-- A comparison with `m` is right, below an even number of negations or not, in an expression with
the value `v`. -/
def ModSafe (v : Tristate) : Expr ι → Bool → Prop
  | .null, _ => False
  | .symbol s, even => σ.shown s = σ.tri s ↔ even
  | .not a, even => ModSafe v a (!even)
  | .and _ _, _ | .or _ _, _ => v = .no
  | .comp _ _ _, even => even

/-- The rewriting of the comparison with `sym` is right. -/
def CompareSafe (e : Expr ι) : Tristate → Prop
  | .yes => (counts σ .yes e ↔ exprCalcValue σ e = .yes)
  | .no => (counts σ .no e ↔ exprCalcValue σ e ≠ .no)
  | .mod => ModSafe σ (exprCalcValue σ e) e true

theorem shown_cases (s : Sym ι) :
    σ.shown s = σ.tri s ∨ σ.tri s = .mod ∧ σ.shown s = .no := by
  cases s with
  | const c => exact .inl rfl
  | config i =>
    by_cases h : σ.curr i = .mod ∧ σ.tri σ.modules = .no
    · exact .inr ⟨h.1, if_pos h⟩
    · exact .inl (if_neg h)

theorem compare_const (s : Sym ι) (sym : Tristate) :
    σ.compare s (.const sym) = .eq ↔ σ.shown s = sym := by
  have hletter (x y : Tristate) : Ord.compare x.letter y.letter = .eq ↔ x = y := by
    cases x <;> cases y <;> decide
  cases s with
  | const c | config i => exact hletter _ sym

theorem calc_symbol (s : Sym ι) (sym : Tristate) (equal : Bool) :
    exprCalcValue σ (exprTransCompare sym (.symbol s) equal) =
      ofBool (decide (σ.shown s = sym) == equal) := by
  cases equal with
  | true | false =>
    simp only [exprTransCompare, exprCalcValue, Relation.holds, ← compare_const σ s sym]
    cases σ.compare s (.const sym) <;> rfl

variable {a b : Bool}

@[simp] theorem exprNot_ofBool : exprNot (ofBool a) = ofBool !a := by cases a <;> rfl

@[simp] theorem exprAnd_ofBool : exprAnd (ofBool a) (ofBool b) = ofBool (a && b) := by
  cases a <;> cases b <;> rfl

@[simp] theorem exprOr_ofBool : exprOr (ofBool a) (ofBool b) = ofBool (a || b) := by
  cases a <;> cases b <;> rfl

theorem ofBool_ne_mod : ofBool a ≠ .mod := by cases a <;> decide

theorem ofBool_inj : ofBool a = ofBool b ↔ a = b := by cases a <;> cases b <;> decide

/-- Compared with `y` or `n`, the expression is read over two truth values. -/
theorem calc_of_ne_mod {sym : Tristate} (h : sym ≠ .mod) (e : Expr ι) (equal : Bool) :
    exprCalcValue σ (exprTransCompare sym e equal) =
      ofBool ((counts σ sym e == decide (sym = .yes)) == equal) := by
  induction e generalizing equal with
  | null => cases sym <;> cases equal <;> first | rfl | exact absurd rfl h
  | symbol s =>
    rw [calc_symbol, counts]
    cases sym <;> cases σ.shown s <;> cases equal <;> first | rfl | exact absurd rfl h
  | not e ih =>
    rw [exprTransCompare, ih, counts]
    cases counts σ sym e <;> cases sym <;> cases equal <;> rfl
  | and e₁ e₂ ih₁ ih₂ | or e₁ e₂ ih₁ ih₂ =>
    cases sym with
    | mod => exact absurd rfl h
    | no | yes =>
      cases equal <;> simp [exprTransCompare, exprCalcValue, ih₁, ih₂, counts]
  | comp r s t =>
    cases sym <;> cases equal <;> simp [exprTransCompare, exprCalcValue, counts] at h ⊢

/-- A result that is the value `v` of the whole expression or its negation. -/
theorem whole_iff (v : Tristate) (equal even : Bool) :
    (if equal then v else exprNot v) = ofBool (decide (v = .mod) == (equal == even)) ↔
      (if even then v else exprNot v) = .no := by
  cases v <;> cases equal <;> cases even <;> decide

/-- Compared with `m`: `even` says that the number of negations above `e` is even. -/
theorem calc_mod_iff (e : Expr ι) (equal even : Bool) :
    exprCalcValue σ (exprTransCompare .mod e equal) =
        ofBool ((decide (exprCalcValue σ e = .mod)) == (equal == even)) ↔
      ModSafe σ (if even then exprCalcValue σ e else exprNot (exprCalcValue σ e)) e even := by
  induction e generalizing equal even with
  | null =>
    -- the constant `m`, or its negation, which is `m` as well
    cases equal <;> exact iff_of_false (fun h => ofBool_ne_mod h.symm) id
  | symbol s =>
    rw [calc_symbol, ofBool_inj, exprCalcValue, ModSafe]
    rcases shown_cases σ s with hs | ⟨ht, hs⟩
    · rw [hs]
      cases equal <;> cases even <;> simp
    · rw [hs, ht]
      cases equal <;> cases even <;> decide
  | not e ih =>
    have hv (v : Tristate) : (if even then exprNot v else exprNot (exprNot v)) =
        if !even then v else exprNot v := by
      cases even <;> cases v <;> rfl
    have hmod (v : Tristate) : decide (exprNot v = .mod) = decide (v = .mod) := by
      cases v <;> rfl
    rw [exprTransCompare, exprCalcValue, hv, hmod, ModSafe, ← ih (!equal) (!even)]
    cases equal <;> cases even <;> rfl
  | and e₁ e₂ | or e₁ e₂ =>
    -- the whole expression comes back, negated where the comparison is
    simp only [exprTransCompare, apply_ite (exprCalcValue σ), exprCalcValue, ModSafe]
    exact whole_iff _ _ _
  | comp r s t =>
    simp only [exprCalcValue, ofBool_ne_mod, decide_false, ModSafe]
    cases equal <;> cases even <;> simp [exprTransCompare, exprCalcValue, Config.tri, ofBool]

end MinimalKernel.Kconfig
