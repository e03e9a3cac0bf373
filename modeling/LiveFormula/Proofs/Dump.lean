import LiveFormula.Proofs.Encoding
import LiveFormula.Proofs.Grammar
import LiveFormula.Proofs.SexpReading
import LiveFormula.Sexp.Tree

/-!
# Dumps of trees

The dump of a tree spells one S-expression (`Expr.sexp`), and that S-expression loads as the tree with
all offsets at zero. Conversely a loaded tree has only leaves that a dump can have: variables with
names of letters, and literals that are not below zero.

* `Expr.spells_dump` — the dump of a tree spells its S-expression.
* `Sexp.loadAll_sexp` — the S-expression of a tree is loaded as the tree.
* `Expr.load_dump` — the two together.
* `Expr.loadable_of_load` — what the leaves of a loaded tree are.
-/

set_option autoImplicit false

namespace LiveFormula

namespace Expr

/-- The most operations on the way from the root to a leaf. -/
def height : Expr → Nat
  | var _ _ => 0
  | literal _ _ => 0
  | binary _ l r _ => Nat.max l.height r.height + 1
  | call _ a _ => a.height + 1

/-- A leaf of a loaded tree: a variable with a name of letters, or a literal that is not below
zero. -/
def Loadable : Expr → Prop
  | var name _ => name ≠ "" ∧ ∀ c ∈ name.toList, c.isAlpha = true
  | literal x _ => x.below (Binary.zero false) = false
  | _ => True

/-- A leaf with a value: a literal must be a number. -/
def HasValue : Expr → Prop
  | literal x _ => x.isNaN = false
  | _ => True

/-- The S-expression of a tree. -/
def sexp : Expr → Sexp
  | var name _ => .list [.symbol "var", .string name]
  | literal x _ => .list [.symbol "lit", .float x]
  | binary op l r _ => .list [.symbol (Sexp.Branch.binary op).tag, l.sexp, r.sexp]
  | call func a _ => .list [.symbol (Sexp.Branch.call func).tag, a.sexp]

/-! ## Reading a dump -/

/-- The tag of the form of a node. -/
def tag : Expr → String
  | var _ _ => "var"
  | literal _ _ => "lit"
  | binary op _ _ _ => (Sexp.Branch.binary op).tag
  | call func _ _ => (Sexp.Branch.call func).tag

section

variable (K : Sexp.Codec)

/-- What stands behind the tag of a node. -/
def operandText : Expr → List Char
  | var name _ => (K.string name).toList
  | literal x _ => (K.number x).toList
  | binary _ l r _ => (l.dump K).toList ++ ' ' :: (r.dump K).toList
  | call _ a _ => (a.dump K).toList

theorem toList_dump (e : Expr) :
    (e.dump K).toList = '(' :: (e.tag.toList ++ ' ' :: e.operandText K) ++ [')'] := by
  cases e <;>
    simp [dump, Algebra.fold_eq_recurse, Algebra.recurse, dumpAlgebra, tag, operandText]

end

open Sexp Numeral

/-- A tag is a word of letters that is not a number. -/
theorem spells_tag (e : Expr) (levels : Nat) : Spells levels e.tag.toList [.symbol e.tag] := by
  obtain ⟨hne, hletters, hinteger, hdouble⟩ :
      e.tag.toList ≠ [] ∧ (∀ c ∈ e.tag.toList, c.isAlpha = true) ∧
        integer? e.tag.toList = none ∧ double? e.tag.toList = none := by
    rcases e with _ | _ | ⟨_ | _ | _ | _, _, _⟩ | ⟨_ | _, _⟩ <;>
      (simp only [tag, Branch.tag]; exact ⟨by simp, by simp, rfl, rfl⟩)
  have hspells : Spells levels _ _ := .symbol hne hletters hinteger hdouble
  rwa [String.ofList_toList] at hspells

/-- A node is spelled once its operands are. -/
theorem spells_node {K : Codec} {e : Expr} {levels : Nat} {items : List Sexp}
    (h : Spells levels (e.operandText K) items) :
    Spells (levels + 1) (e.dump K).toList [.list (.symbol e.tag :: items)] := by
  rw [toList_dump]
  exact .list (.append (e.spells_tag levels) h)

variable {K : Codec} {levels : Nat}

/-- **The dump of a tree spells its S-expression.** It takes one level of brackets more than the
height of the tree. -/
theorem spells_dump (hK : K.Lawful levels) {e : Expr}
    (he : ∀ leaf ∈ e.leaves, leaf.Loadable ∧ leaf.HasValue) :
    Spells (e.height + 1) (e.dump K).toList [e.sexp] := by
  induction e with
  | var name offset =>
      obtain ⟨⟨-, hname⟩, -⟩ := he _ List.mem_cons_self
      have hstring : Spells 0 _ _ := .string hname
      rw [String.ofList_toList, ← hK.string_eq name hname] at hstring
      exact spells_node hstring
  | literal x offset =>
      obtain ⟨-, hx⟩ := he _ List.mem_cons_self
      obtain ⟨-, -, hdouble⟩ := text_reads hx
      have hnumber : Spells 0 _ _ := .float hx hdouble
      rw [← hK.number_eq x] at hnumber
      exact spells_node hnumber
  | binary op l r offset ihl ihr =>
      have hl : l.height ≤ Nat.max l.height r.height := Nat.le_max_left _ _
      have hr : r.height ≤ Nat.max l.height r.height := Nat.le_max_right _ _
      have hleft := (ihl fun leaf h => he leaf (List.mem_append_left _ h)).mono (Nat.succ_le_succ hl)
      have hright := (ihr fun leaf h => he leaf (List.mem_append_right _ h)).mono (Nat.succ_le_succ hr)
      exact spells_node (.append hleft hright)
  | call func a offset ih => exact spells_node (ih he)

theorem read_dump (hK : K.Lawful levels) {e : Expr}
    (he : ∀ leaf ∈ e.leaves, leaf.Loadable ∧ leaf.HasValue) (hheight : e.height < levels) :
    K.read (e.dump K) = .ok e.sexp :=
  hK.read_eq _ _ ((spells_dump hK he).mono hheight)

end Expr

/-! ## Loading -/

namespace Sexp

section Steps

variable {value : Sexp} {tasks : List Task} {done : List Expr}

theorem loadAll_leaf {e : Expr} (h : value.toForm = .ok (.leaf e)) :
    loadAll (.load value :: tasks) done = loadAll tasks (e :: done) := by
  rw [loadAll]
  split
  next h' => rw [h] at h'; cases h'
  next h' => rw [h] at h'; cases h'; rfl
  next h' => rw [h] at h'; cases h'

theorem loadAll_branch {b : Branch} {operands : List Sexp}
    (h : value.toForm = .ok (.branch b operands)) :
    loadAll (.load value :: tasks) done =
      loadAll (operands.map .load ++ .build b :: tasks) done := by
  rw [loadAll]
  split
  next h' => rw [h] at h'; cases h'
  next h' => rw [h] at h'; cases h'
  next h' => rw [h] at h'; cases h'; rfl

end Steps

theorem toForm_sexp_var {name : String} (offset : Int) (h : (Expr.var name offset).Loadable) :
    (Expr.var name offset).sexp.toForm = .ok (.leaf (.var name 0)) := by
  have hname : (!name.isEmpty && name.toList.all Char.isAlpha) = true := by
    simpa [Expr.Loadable] using h
  rw [Expr.sexp, toForm, formOf, if_pos rfl, loadVar, if_pos hname]
  rfl

theorem toForm_sexp_literal {x : Double} (offset : Int) (h : (Expr.literal x offset).Loadable) :
    (Expr.literal x offset).sexp.toForm = .ok (.leaf (.literal x 0)) := by
  have hbelow : x.below (Binary.zero false) = false := h
  simp [Expr.sexp, toForm, formOf, loadLiteral, hbelow, Except.map]

theorem toForm_sexp_binary (op : BinOp) (l r : Expr) (offset : Int) :
    (Expr.binary op l r offset).sexp.toForm = .ok (.branch (.binary op) [l.sexp, r.sexp]) := by
  cases op <;> rfl

theorem toForm_sexp_call (func : Func) (a : Expr) (offset : Int) :
    (Expr.call func a offset).sexp.toForm = .ok (.branch (.call func) [a.sexp]) := by
  cases func <;> rfl

/-- **The S-expression of a tree is loaded as the tree**, which goes to the trees that are done. -/
theorem loadAll_sexp {e : Expr} (he : ∀ leaf ∈ e.leaves, leaf.Loadable) (tasks : List Task)
    (done : List Expr) : loadAll (.load e.sexp :: tasks) done = loadAll tasks (e.bare :: done) := by
  induction e generalizing tasks done with
  | var name offset => exact loadAll_leaf (toForm_sexp_var offset (he _ List.mem_cons_self))
  | literal x offset => exact loadAll_leaf (toForm_sexp_literal offset (he _ List.mem_cons_self))
  | binary op l r offset ihl ihr =>
      rw [loadAll_branch (toForm_sexp_binary op l r offset), List.map_cons, List.map_cons,
        List.map_nil, List.cons_append, List.cons_append, List.nil_append,
        ihl fun leaf h => he leaf (List.mem_append_left _ h),
        ihr fun leaf h => he leaf (List.mem_append_right _ h), loadAll, Expr.bare]
  | call func a offset ih =>
      rw [loadAll_branch (toForm_sexp_call func a offset), List.map_cons, List.map_nil,
        List.cons_append, List.nil_append, ih he, loadAll, Expr.bare]

end Sexp

/-! ## The leaves of a loaded tree -/

namespace Binary

variable {F : Format} {x : Binary F}

/-- A datum without a sign is not below zero. -/
theorem below_zero_of_nonneg (h : x.negative = false) : x.below (zero false) = false := by
  have hplace : ¬x.place < (zero false : Binary F).place := by simp [place, zero, h]
  simp [below, hplace]

theorem below_zero_of_ofInt? {n : Int} (hn : 0 ≤ n) (h : ofInt? n = some x) :
    x.below (zero false) = false := by
  refine below_zero_of_nonneg ?_
  simp only [ofInt?] at h
  split at h
  · cases h
  · rw [← Option.some.inj h]
    exact decide_eq_false (Int.not_lt.2 hn)

end Binary

namespace Sexp

theorem loadable_of_loadVar {operands : List Sexp} {e : Expr} (h : loadVar operands = .ok e) :
    ∀ leaf ∈ e.leaves, leaf.Loadable := by
  unfold loadVar at h
  split at h
  next name =>
    split at h
    next hname =>
      cases h
      intro leaf hleaf
      obtain rfl := List.mem_singleton.1 hleaf
      simpa [Expr.Loadable] using hname
    next => cases h
  next => cases h
  next => cases h

theorem loadable_of_loadLiteral {operands : List Sexp} {e : Expr}
    (h : loadLiteral operands = .ok e) : ∀ leaf ∈ e.leaves, leaf.Loadable := by
  unfold loadLiteral at h
  split at h
  next n =>
    split at h
    next => cases h
    next hn =>
      split at h
      next x hx =>
        cases h
        intro leaf hleaf
        obtain rfl := List.mem_singleton.1 hleaf
        exact Binary.below_zero_of_ofInt? (Int.not_lt.1 hn) hx
      next => cases h
  next x =>
    split at h
    next => cases h
    next hbelow =>
      cases h
      intro leaf hleaf
      obtain rfl := List.mem_singleton.1 hleaf
      exact Bool.eq_false_iff.2 hbelow
  next => cases h
  next => cases h

theorem loadable_of_toForm {value : Sexp} {e : Expr} (h : value.toForm = .ok (.leaf e)) :
    ∀ leaf ∈ e.leaves, leaf.Loadable := by
  unfold toForm formOf at h
  split at h
  next tag operands =>
    split at h
    next =>
      cases hvar : loadVar operands <;> rw [hvar] at h <;> cases h
      exact loadable_of_loadVar hvar
    next =>
      split at h
      next =>
        cases hliteral : loadLiteral operands <;> rw [hliteral] at h <;> cases h
        exact loadable_of_loadLiteral hliteral
      next =>
        split at h
        · cases h
        · split at h <;> cases h
  all_goals cases h

/-- Loading keeps to the leaves that forms allow. -/
theorem loadable_of_loadAll {tasks : List Task} {done : List Expr} {e : Expr}
    (hdone : ∀ d ∈ done, ∀ leaf ∈ d.leaves, leaf.Loadable) (h : loadAll tasks done = .ok e) :
    ∀ leaf ∈ e.leaves, leaf.Loadable := by
  fun_induction loadAll tasks done with
  | case1 x =>
      cases h
      exact hdone e List.mem_cons_self
  | case2 => cases h
  | case3 op tasks y x done ih =>
      rw [List.forall_mem_cons, List.forall_mem_cons] at hdone
      obtain ⟨hy, hx, hdone⟩ := hdone
      refine ih (List.forall_mem_cons.2 ⟨fun leaf hleaf => ?_, hdone⟩) h
      exact (List.mem_append.1 hleaf).elim (hx leaf) (hy leaf)
  | case4 f tasks x done ih =>
      rw [List.forall_mem_cons] at hdone
      exact ih (List.forall_mem_cons.2 hdone) h
  | case5 => cases h
  | case6 => cases h
  | case7 value tasks done x hform ih =>
      exact ih (List.forall_mem_cons.2 ⟨loadable_of_toForm hform, hdone⟩) h
  | case8 value tasks done b operands hform ih => exact ih hdone h

end Sexp

namespace Expr

variable {K : Sexp.Codec}

/-- A tree is loaded from its dump, with all offsets at zero. -/
theorem load_dump {levels : Nat} (hK : K.Lawful levels) {e : Expr}
    (he : ∀ leaf ∈ e.leaves, leaf.Loadable ∧ leaf.HasValue) (hheight : e.height < levels) :
    load K (e.dump K) = .ok e.bare := by
  have hload : e.sexp.load = .ok e.bare := by
    rw [Sexp.load, Sexp.loadAll_sexp fun leaf hleaf => (he leaf hleaf).1, Sexp.loadAll]
  rw [load, read_dump hK he hheight]
  simp only [hload]

/-- A literal is written with the fewest digits that read back, and offsets are not written. -/
example : (binary .div (var "t" 4) (literal (Binary.ofBits 0x3FB999999999999A) 8) 4).dump .standard =
    "(div (var \"t\") (lit 0.1))" := by
  decide +kernel

/-- A text that is loaded gives only leaves that a dump can have, whatever the codec. -/
theorem loadable_of_load {text : String} {e : Expr} (h : load K text = .ok e) :
    ∀ leaf ∈ e.leaves, leaf.Loadable := by
  unfold load at h
  split at h
  next => cases h
  next value hread =>
    split at h
    next => cases h
    next tree hload =>
      cases h
      exact Sexp.loadable_of_loadAll (by simp) hload

end Expr

end LiveFormula
