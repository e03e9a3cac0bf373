import LiveFormula.Expr.Basic

/-!
# Structural equality

Model of `livexpr.ast_nodes.structurally_equal`.

`Expr.same` compares two trees node by node with a list of the pairs that are still to compare, and
stops at the first pair that differs. Literals are compared as numbers, so a tree with a literal that
is not a number differs from itself, and the two zeros are the same. Offsets are ignored.
`Expr.agrees` is the same by recursion on the trees (`Expr.same_eq_agrees`).
-/

set_option autoImplicit false

namespace LiveFormula

namespace Expr

/-- Whether two nodes are of one kind and have the same label. -/
def sameNode : Expr → Expr → Bool
  | var n _, var m _ => n == m
  | literal x _, literal y _ => x.equals y
  | binary op _ _ _, binary op' _ _ _ => op == op'
  | call f _ _, call f' _ _ => f == f'
  | _, _ => false

/-- The size of the first trees of a list of pairs. -/
def pendingSize : List (Expr × Expr) → Nat
  | [] => 0
  | (x, _) :: rest => x.size + pendingSize rest

theorem pendingSize_append (ps qs : List (Expr × Expr)) :
    pendingSize (ps ++ qs) = pendingSize ps + pendingSize qs := by
  induction ps with
  | nil => simp [pendingSize]
  | cons p ps ih => simp [pendingSize, ih, Nat.add_assoc]

theorem pendingSize_children (x y : Expr) :
    pendingSize (x.children.zip y.children).reverse < x.size := by
  cases x <;> cases y <;>
    simp only [children, List.zip_nil_left, List.zip_nil_right, List.zip_cons_cons, List.reverse_nil,
      List.reverse_cons, List.nil_append, List.cons_append, pendingSize, size] <;>
    omega

/-- Compares all pairs, the last operands first. -/
def samePairs : List (Expr × Expr) → Bool
  | [] => true
  | (x, y) :: rest =>
    if sameNode x y then samePairs ((x.children.zip y.children).reverse ++ rest) else false
termination_by pending => pendingSize pending
decreasing_by
  rw [pendingSize_append]
  have := pendingSize_children x y
  simp only [pendingSize]
  omega

/-- Whether two trees are the same up to offsets. -/
def same (a b : Expr) : Bool := samePairs [(a, b)]

/-- Structural equality by recursion on the trees. -/
def agrees : Expr → Expr → Bool
  | binary op l r _, binary op' l' r' _ => op == op' && (l.agrees l' && r.agrees r')
  | call f a _, call f' a' _ => f == f' && a.agrees a'
  | x, y => sameNode x y

/-- Two trees agree if their roots do, and the operands one by one. -/
theorem agrees_eq (x y : Expr) :
    x.agrees y = (sameNode x y && (x.children.zip y.children).all fun p => p.1.agrees p.2) := by
  cases x <;> cases y <;> simp [agrees, sameNode, children]

/-- All pending pairs are compared. -/
theorem samePairs_eq_all (pending : List (Expr × Expr)) :
    samePairs pending = pending.all fun p => p.1.agrees p.2 := by
  fun_induction samePairs pending with
  | case1 => rfl
  | case2 x y rest hnode ih =>
      rw [ih, List.all_append, List.all_reverse, List.all_cons, agrees_eq x y, hnode, Bool.true_and]
  | case3 x y rest hnode =>
      rw [List.all_cons, agrees_eq x y, Bool.eq_false_iff.2 hnode, Bool.false_and, Bool.false_and]

theorem same_eq_agrees (x y : Expr) : x.same y = x.agrees y := by
  rw [same, samePairs_eq_all, List.all_cons, List.all_nil, Bool.and_true]

end Expr

end LiveFormula
