import LiveFormula.Expr.Basic
import LiveFormula.Proofs.Rounding
import Mathlib.Data.List.Infix

/-!
# The grammar of formulas

    atom       = digits | ("sin" | "cos") "(" expression ")" | letters | "(" expression ")"
    term       = atom | term ("*" | "/") atom
    expression = term | expression ("+" | "-") term

Blanks may follow any token and precede the whole. `Derives` is this grammar as a relation between a
symbol, a text and the tree that the text stands for, and `Formula` is that of complete texts. The
trees have no places: all their offsets are zero (`Expr.bare`). Nothing here refers to how a text is
read.

* `Derives.append_blank` — blanks may follow whatever is derived.
* `Derives.head` — what is derived begins with a character that is not blank.
* `Derives.count_eq` — parentheses are balanced in what is derived.
-/

set_option autoImplicit false

namespace LiveFormula

/-- The tree with all offsets at zero. -/
def Expr.bare : Expr → Expr
  | .var name _ => .var name 0
  | .literal x _ => .literal x 0
  | .binary op l r _ => .binary op l.bare r.bare 0
  | .call func a _ => .call func a.bare 0

namespace Grammar

/-- The six characters that separate tokens. -/
def blanks : List Char := [' ', '\t', '\n', '\x0b', '\x0c', '\r']

/-- A text of blanks only. -/
def Blank (s : List Char) : Prop := ∀ c ∈ s, c ∈ blanks

/-- The symbols of the grammar. -/
inductive Symbol
  | literal
  | call
  | name
  | group
  | atom
  | term
  | expression
  deriving DecidableEq, Repr

/-- `Derives symbol s e`: the symbol derives the text `s`, which stands for the tree `e`. -/
inductive Derives : Symbol → List Char → Expr → Prop
  | literal {digits gap : List Char} {x : Double} (hne : digits ≠ [])
      (hdigits : ∀ c ∈ digits, c.isDigit) (hx : Binary.IsRounded (Nat.ofDigitChars 10 digits 0) x)
      (hgap : Blank gap) : Derives .literal (digits ++ gap) (.literal x 0)
  | name {letters gap : List Char} (hne : letters ≠ []) (hletters : ∀ c ∈ letters, c.isAlpha)
      (hkeyword : ∀ func : Func, ¬func.name.toList <+: letters) (hgap : Blank gap) :
      Derives .name (letters ++ gap) (.var (String.ofList letters) 0)
  | group {gap s gap' : List Char} {e : Expr} (hgap : Blank gap) (h : Derives .expression s e)
      (hgap' : Blank gap') : Derives .group ('(' :: gap ++ s ++ ')' :: gap') e
  | call {gap s : List Char} {e : Expr} (func : Func) (hgap : Blank gap) (h : Derives .group s e) :
      Derives .call (func.name.toList ++ gap ++ s) (.call func e 0)
  | atom {alternative : Symbol} {s : List Char} {e : Expr}
      (ha : alternative ∈ [Symbol.literal, .call, .name, .group]) (h : Derives alternative s e) :
      Derives .atom s e
  | factor {s : List Char} {e : Expr} (h : Derives .atom s e) : Derives .term s e
  | product {s gap s' : List Char} {l r : Expr} (op : BinOp) (hop : op ∈ [BinOp.mul, .div])
      (hl : Derives .term s l) (hgap : Blank gap) (hr : Derives .atom s' r) :
      Derives .term (s ++ op.symbol.toList ++ gap ++ s') (.binary op l r 0)
  | summand {s : List Char} {e : Expr} (h : Derives .term s e) : Derives .expression s e
  | sum {s gap s' : List Char} {l r : Expr} (op : BinOp) (hop : op ∈ [BinOp.add, .sub])
      (hl : Derives .expression s l) (hgap : Blank gap) (hr : Derives .term s' r) :
      Derives .expression (s ++ op.symbol.toList ++ gap ++ s') (.binary op l r 0)

/-- A complete text and its tree: an expression with blanks before it. -/
def Formula (text : List Char) (e : Expr) : Prop :=
  ∃ gap s, Blank gap ∧ text = gap ++ s ∧ Derives .expression s e

/-- How many more parentheses a text opens than it closes. -/
def excess (s : List Char) : Nat := s.count '(' - s.count ')'

/-- The nesting of parentheses in a text, those of calls included: the greatest excess of opening
ones in any part from its beginning. -/
def nesting (text : List Char) : Nat := ((text.inits.map excess).max?).getD 0

theorem excess_le_nesting {s text : List Char} (h : s <+: text) : excess s ≤ nesting text :=
  List.le_max?_getD_of_mem (List.mem_map_of_mem ((List.mem_inits s text).2 h))

/-! ## Blanks -/

theorem Blank.nil : Blank [] := fun _ h => by cases h

theorem Blank.append {s t : List Char} (hs : Blank s) (ht : Blank t) : Blank (s ++ t) := by
  intro c hc
  rcases List.mem_append.1 hc with hc | hc
  · exact hs c hc
  · exact ht c hc

/-- Blanks may follow whatever is derived. -/
theorem Derives.append_blank {symbol : Symbol} {s gap : List Char} {e : Expr}
    (h : Derives symbol s e) (hgap : Blank gap) : Derives symbol (s ++ gap) e := by
  induction h with
  | literal hne hdigits hx hgap' =>
      rw [List.append_assoc]
      exact .literal hne hdigits hx (hgap'.append hgap)
  | name hne hletters hkeyword hgap' =>
      rw [List.append_assoc]
      exact .name hne hletters hkeyword (hgap'.append hgap)
  | group hgap₁ h hgap₂ _ =>
      rw [List.append_assoc, List.cons_append]
      exact .group hgap₁ h (hgap₂.append hgap)
  | call func hgap' _ ih =>
      rw [List.append_assoc]
      exact .call func hgap' ih
  | atom ha _ ih => exact .atom ha ih
  | factor _ ih => exact .factor ih
  | product op hop hl hgap' _ _ ihr =>
      rw [List.append_assoc]
      exact .product op hop hl hgap' ihr
  | summand _ ih => exact .summand ih
  | sum op hop hl hgap' _ _ ihr =>
      rw [List.append_assoc]
      exact .sum op hop hl hgap' ihr

/-! ## First characters -/

/-- A character of a class that no blank belongs to is not blank. -/
theorem not_mem_blanks {p : Char → Bool} (hp : ∀ c ∈ blanks, p c = false) {c : Char} (h : p c) :
    c ∉ blanks := by
  intro hc
  rw [hp c hc] at h
  cases h

/-- What is derived begins with a character that is not blank. -/
theorem Derives.head {symbol : Symbol} {s : List Char} {e : Expr} (h : Derives symbol s e) :
    ∃ c t, s = c :: t ∧ c ∉ blanks := by
  induction h with
  | literal hne hdigits _ _ =>
      obtain ⟨c, t, rfl⟩ := List.exists_cons_of_ne_nil hne
      exact ⟨c, _, rfl, not_mem_blanks (by simp [blanks]) (hdigits c List.mem_cons_self)⟩
  | name hne hletters _ _ =>
      obtain ⟨c, t, rfl⟩ := List.exists_cons_of_ne_nil hne
      exact ⟨c, _, rfl, not_mem_blanks (by simp [blanks]) (hletters c List.mem_cons_self)⟩
  | group _ _ _ _ => exact ⟨'(', _, rfl, by decide⟩
  | call func _ _ _ =>
      cases func with
      | sin => exact ⟨'s', _, rfl, by decide⟩
      | cos => exact ⟨'c', _, rfl, by decide⟩
  | atom _ _ ih => exact ih
  | factor _ ih => exact ih
  | product _ _ _ _ _ ihl _ =>
      obtain ⟨c, t, rfl, hc⟩ := ihl
      exact ⟨c, _, rfl, hc⟩
  | summand _ ih => exact ih
  | sum _ _ _ _ _ ihl _ =>
      obtain ⟨c, t, rfl, hc⟩ := ihl
      exact ⟨c, _, rfl, hc⟩

/-! ## Parentheses -/

/-- Parentheses are balanced where there are none. -/
theorem count_eq_of_forall {s : List Char} {p : Char → Prop} (hs : ∀ c ∈ s, p c) (hopen : ¬p '(')
    (hclose : ¬p ')') : s.count '(' = s.count ')' := by
  rw [List.count_eq_zero.2 fun h => hopen (hs _ h), List.count_eq_zero.2 fun h => hclose (hs _ h)]

theorem Blank.count_eq {s : List Char} (hs : Blank s) : s.count '(' = s.count ')' :=
  count_eq_of_forall hs (by decide) (by decide)

theorem count_symbol_eq (op : BinOp) : op.symbol.toList.count '(' = op.symbol.toList.count ')' := by
  cases op <;> rfl

theorem count_name_eq (func : Func) : func.name.toList.count '(' = func.name.toList.count ')' := by
  cases func <;> rfl

/-- Parentheses are balanced in what is derived. -/
theorem Derives.count_eq {symbol : Symbol} {s : List Char} {e : Expr} (h : Derives symbol s e) :
    s.count '(' = s.count ')' := by
  induction h with
  | literal _ hdigits _ hgap =>
      rw [List.count_append, List.count_append, hgap.count_eq,
        count_eq_of_forall hdigits (by decide) (by decide)]
  | name _ hletters _ hgap =>
      rw [List.count_append, List.count_append, hgap.count_eq,
        count_eq_of_forall hletters (by decide) (by decide)]
  | group hgap _ hgap' ih =>
      have hg := hgap.count_eq
      have hg' := hgap'.count_eq
      simp [List.count_append]
      omega
  | call func hgap _ ih =>
      simp only [List.count_append, count_name_eq, hgap.count_eq, ih]
  | atom _ _ ih => exact ih
  | factor _ ih => exact ih
  | product op _ _ hgap _ ihl ihr =>
      simp only [List.count_append, count_symbol_eq, hgap.count_eq, ihl, ihr]
  | summand _ ih => exact ih
  | sum op _ _ hgap _ ihl ihr =>
      simp only [List.count_append, count_symbol_eq, hgap.count_eq, ihl, ihr]

/-! ## Every symbol derives something -/

theorem derives_zero : Derives .literal (['0'] ++ []) (.literal (Binary.ofNat 0) 0) :=
  .literal (by decide) (by simp) (Binary.isRounded_double_iff.2 rfl) Blank.nil

theorem Symbol.exists_derives (symbol : Symbol) : ∃ s e, Derives symbol s e := by
  have hatom : Derives .atom _ _ := .atom (by decide) derives_zero
  have hgroup : Derives .group _ _ := .group Blank.nil (.summand (.factor hatom)) Blank.nil
  cases symbol with
  | literal => exact ⟨_, _, derives_zero⟩
  | call => exact ⟨_, _, .call .sin Blank.nil hgroup⟩
  | name =>
      have hkeyword : ∀ func : Func, ¬func.name.toList <+: ['t'] := by
        intro func
        cases func <;> decide
      exact ⟨['t'] ++ [], _, .name (by decide) (by simp) hkeyword Blank.nil⟩
  | group => exact ⟨_, _, hgroup⟩
  | atom => exact ⟨_, _, hatom⟩
  | term => exact ⟨_, _, .factor hatom⟩
  | expression => exact ⟨_, _, .summand (.factor hatom)⟩

end Grammar

end LiveFormula
