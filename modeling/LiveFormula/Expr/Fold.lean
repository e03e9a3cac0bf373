import LiveFormula.Expr.Postorder

/-!
# Folding a tree

Model of `livexpr.visitor.FoldingVisitor`.

A `Visitor` says what to make of each kind of node from the results for its operands; it may fail.
`Visitor.fold` runs over the nodes in postorder and keeps the results on a stack, where every node
replaces the results of its operands by its own. `Visitor.recurse` is the same by recursion on the
tree. `Visitor.fold_eq_recurse` says that the two agree: no operand is ever missing from the stack,
one result remains at the end, and a failure is that of the first node that fails.

An `Algebra` is a visitor that never fails; `Algebra.fold` is its result.
-/

set_option autoImplicit false

namespace LiveFormula

/-- What to make of each kind of node. -/
structure Visitor (ε α : Type) where
  var : (name : String) → (offset : Int) → Except ε α
  literal : (value : Double) → (offset : Int) → Except ε α
  binary : (op : BinOp) → (left right : Expr) → (offset : Int) → α → α → Except ε α
  call : (func : Func) → (argument : Expr) → (offset : Int) → α → Except ε α

/-- Why a fold fails: a visit failed, or the results on the stack do not fit the nodes. -/
inductive FoldError (ε : Type)
  | visit (error : ε)
  | operands
  deriving DecidableEq, Repr

namespace Visitor

variable {ε α : Type}

/-- Puts a result on the stack. -/
def push (results : List α) : Except ε α → Except (FoldError ε) (List α)
  | .ok x => .ok (x :: results)
  | .error e => .error (.visit e)

/-- Visits one node: takes the results of its operands off the stack and puts its own on. -/
def visit (v : Visitor ε α) : Expr → List α → Except (FoldError ε) (List α)
  | .var n o, results => push results (v.var n o)
  | .literal x o, results => push results (v.literal x o)
  | .binary op l r o, y :: x :: results => push results (v.binary op l r o x y)
  | .call f a o, x :: results => push results (v.call f a o x)
  | _, _ => .error .operands

/-- Visits nodes in order. -/
def visitAll (v : Visitor ε α) : List Expr → List α → Except (FoldError ε) (List α)
  | [], results => .ok results
  | e :: es, results =>
    match v.visit e results with
    | .ok results' => v.visitAll es results'
    | .error err => .error err

/-- The result for the root. -/
def fold (v : Visitor ε α) (e : Expr) : Except (FoldError ε) α :=
  match v.visitAll e.postorder [] with
  | .ok [x] => .ok x
  | .ok _ => .error .operands
  | .error err => .error err

/-- The result for the root by recursion on the tree. -/
def recurse (v : Visitor ε α) : Expr → Except ε α
  | .var n o => v.var n o
  | .literal x o => v.literal x o
  | .binary op l r o =>
    match v.recurse l with
    | .error err => .error err
    | .ok x =>
      match v.recurse r with
      | .error err => .error err
      | .ok y => v.binary op l r o x y
  | .call f a o =>
    match v.recurse a with
    | .error err => .error err
    | .ok x => v.call f a o x

theorem visitAll_append (v : Visitor ε α) (es fs : List Expr) (results : List α) :
    v.visitAll (es ++ fs) results = (v.visitAll es results).bind (v.visitAll fs) := by
  induction es generalizing results with
  | nil => rfl
  | cons e es ih =>
      simp only [List.cons_append, visitAll]
      cases v.visit e results with
      | ok results' => exact ih results'
      | error err => rfl

theorem visitAll_listing (v : Visitor ε α) (e : Expr) (results : List α) :
    v.visitAll e.listing results = push results (v.recurse e) := by
  induction e generalizing results with
  | var n o => simp only [Expr.listing, visitAll, visit, recurse]; cases v.var n o <;> rfl
  | literal x o => simp only [Expr.listing, visitAll, visit, recurse]; cases v.literal x o <;> rfl
  | binary op l r o ihl ihr =>
      simp only [Expr.listing, visitAll_append, ihl, recurse]
      cases v.recurse l with
      | error err => rfl
      | ok x =>
          simp only [push, Except.bind, ihr]
          cases v.recurse r with
          | error err => rfl
          | ok y =>
              simp only [push, visitAll, visit]
              cases v.binary op l r o x y <;> rfl
  | call f a o ih =>
      simp only [Expr.listing, visitAll_append, ih, recurse]
      cases v.recurse a with
      | error err => rfl
      | ok x =>
          simp only [push, Except.bind, visitAll, visit]
          cases v.call f a o x <;> rfl

theorem fold_eq_recurse (v : Visitor ε α) (e : Expr) :
    v.fold e = (v.recurse e).mapError FoldError.visit := by
  rw [fold, Expr.postorder_eq_listing, visitAll_listing]
  cases v.recurse e <;> rfl

end Visitor

/-- A visitor that never fails. -/
structure Algebra (α : Type) where
  var : (name : String) → (offset : Int) → α
  literal : (value : Double) → (offset : Int) → α
  binary : (op : BinOp) → (left right : Expr) → (offset : Int) → α → α → α
  call : (func : Func) → (argument : Expr) → (offset : Int) → α → α

namespace Algebra

variable {α : Type}

def toVisitor (a : Algebra α) : Visitor Empty α where
  var n o := .ok (a.var n o)
  literal x o := .ok (a.literal x o)
  binary op l r o x y := .ok (a.binary op l r o x y)
  call f arg o x := .ok (a.call f arg o x)

/-- The result for the root by recursion on the tree. -/
def recurse (a : Algebra α) : Expr → α
  | .var n o => a.var n o
  | .literal x o => a.literal x o
  | .binary op l r o => a.binary op l r o (a.recurse l) (a.recurse r)
  | .call f arg o => a.call f arg o (a.recurse arg)

theorem toVisitor_recurse (a : Algebra α) (e : Expr) : a.toVisitor.recurse e = .ok (a.recurse e) := by
  induction e with
  | var n o => rfl
  | literal x o => rfl
  | binary op l r o ihl ihr => simp only [Visitor.recurse, ihl, ihr]; rfl
  | call f arg o ih => simp only [Visitor.recurse, ih]; rfl

theorem toVisitor_fold (a : Algebra α) (e : Expr) : a.toVisitor.fold e = .ok (a.recurse e) := by
  rw [Visitor.fold_eq_recurse, toVisitor_recurse]; rfl

/-- The result for the root, computed over the nodes in postorder. -/
def fold (a : Algebra α) (e : Expr) : α :=
  match h : a.toVisitor.fold e with
  | .ok x => x
  | .error _ => nomatch (a.toVisitor_fold e).symm.trans h

theorem fold_eq_recurse (a : Algebra α) (e : Expr) : a.fold e = a.recurse e := by
  unfold fold
  split
  · rename_i h; rw [toVisitor_fold] at h; exact (Except.ok.inj h).symm
  · rename_i h; rw [toVisitor_fold] at h; cases h

end Algebra

end LiveFormula
