import LiveFormula.Expr.Basic

/-!
# Postorder

Model of `livexpr.ast_nodes.postorder` and `node_count`.

`Expr.postorder` lists the nodes of a tree, operands before their operator and left before right. The
walk keeps the work that is still to do on a stack of its own, so a chain of operators of any length
is listed without nesting. `Expr.listing` is the same list by recursion on the tree, and
`Expr.postorder_eq_listing` says so.
-/

set_option autoImplicit false

namespace LiveFormula

namespace Expr

/-- Work of the walk: to enter a tree, or to leave a node whose operands are done. -/
inductive Visit
  | enter (e : Expr)
  | leave (e : Expr)

/-- A bound for the steps that a piece of work takes. -/
def Visit.weight : Visit → Nat
  | .enter e => 2 * e.size
  | .leave _ => 1

/-- The bound for all the work on a stack. -/
def Visit.total : List Visit → Nat
  | [] => 0
  | v :: rest => v.weight + total rest

theorem total_expand (e : Expr) (rest : List Visit) :
    Visit.total (e.children.map Visit.enter ++ Visit.leave e :: rest) <
      Visit.total (Visit.enter e :: rest) := by
  cases e <;> simp [children, Visit.total, Visit.weight, size] <;> omega

/-- Does all the work on the stack and lists the nodes in the order in which they are left. -/
def walk : List Visit → List Expr
  | [] => []
  | .leave e :: rest => e :: walk rest
  | .enter e :: rest => walk (e.children.map .enter ++ .leave e :: rest)
termination_by stack => Visit.total stack
decreasing_by
  · simp [Visit.total, Visit.weight]
  · exact total_expand e rest

/-- The nodes, operands first and from left to right. -/
def postorder (e : Expr) : List Expr := walk [.enter e]

/-- The number of nodes in the walk. -/
def nodeCount (e : Expr) : Nat := e.postorder.length

/-- The nodes by recursion: those of the operands from left to right, then the node itself. -/
def listing : Expr → List Expr
  | var n o => [var n o]
  | literal x o => [literal x o]
  | binary op l r o => l.listing ++ r.listing ++ [binary op l r o]
  | call f a o => a.listing ++ [call f a o]

theorem walk_enter (e : Expr) (rest : List Visit) :
    walk (.enter e :: rest) = e.listing ++ walk rest := by
  induction e generalizing rest with
  | var n o => rw [walk]; simp [children, listing, walk]
  | literal x o => rw [walk]; simp [children, listing, walk]
  | binary op l r o ihl ihr =>
      rw [walk]
      simp [children, listing, ihl, ihr, walk]
  | call f a o ih =>
      rw [walk]
      simp [children, listing, ih, walk]

theorem postorder_eq_listing (e : Expr) : e.postorder = e.listing := by
  rw [postorder, walk_enter, walk, List.append_nil]

end Expr

end LiveFormula
