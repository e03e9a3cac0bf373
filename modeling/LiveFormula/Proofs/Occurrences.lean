import LiveFormula.Expr.Postorder
import Mathlib.Algebra.Ring.Nat
import Mathlib.Data.List.Basic

/-!
# The occurrences of nodes in postorder

Equal nodes may stand in several places of a tree, so a node is known by its *route*: the numbers of
the operands that are entered on the way to it from the root. Postorder is an order of routes. What
is below a node comes before it, and what is in an operand comes before what is in a later one
(`Expr.Route.Before`). The walk lists the nodes of a tree in exactly this order, and each once.

* `Expr.walk_append` — the work on a stack is done from its top to its bottom.
* `Expr.postorder_eq_flatMap` — the recursion that the walk comes to.
* `Expr.mem_routes_iff`, `Expr.pairwise_routes` — the routes of all nodes, in order.
* `Expr.postorder_lists_occurrences` — the nodes in postorder, and their number.
-/

set_option autoImplicit false

namespace LiveFormula

namespace Expr

/-! ## The walk as a recursion -/

/-- The work on a stack is done from its top to its bottom, whatever it is. -/
theorem walk_append (stack rest : List Visit) : walk (stack ++ rest) = walk stack ++ walk rest := by
  induction stack with
  | nil => simp [walk]
  | cons visit stack ih =>
      cases visit with
      | leave e => simp [walk, ih]
      | enter e => rw [List.cons_append, walk_enter, walk_enter, ih, List.append_assoc]

/-- Trees that are to be entered are listed one after the other. -/
theorem walk_map_enter (trees : List Expr) :
    walk (trees.map .enter) = trees.flatMap postorder := by
  induction trees with
  | nil => simp [walk]
  | cons e trees ih =>
      rw [List.map_cons, ← List.singleton_append, walk_append, ih, List.flatMap_cons]
      rfl

/-- **The walk is a recursion**: the operands from left to right, then the node itself. -/
theorem postorder_eq_flatMap (e : Expr) :
    e.postorder = e.children.flatMap postorder ++ [e] := by
  rw [postorder, walk, walk_append, walk_map_enter]
  simp [walk]

theorem nodeCount_eq_sum (e : Expr) : e.nodeCount = 1 + (e.children.map nodeCount).sum := by
  have hlength : (e.children.flatMap postorder).length = (e.children.map nodeCount).sum :=
    List.length_flatMap
  rw [nodeCount, postorder_eq_flatMap, List.length_append, hlength, List.length_singleton,
    Nat.add_comm]

/-- Induction over trees by their operands, whatever kinds of nodes there are. -/
theorem children_induction {motive : Expr → Prop}
    (h : ∀ e : Expr, (∀ child ∈ e.children, motive child) → motive e) (e : Expr) : motive e := by
  induction e with
  | var name offset => exact h _ (by simp [children])
  | literal x offset => exact h _ (by simp [children])
  | binary op l r offset ihl ihr => exact h _ (by simp [children, ihl, ihr])
  | call func a offset ih => exact h _ (by simp [children, ih])

/-! ## Routes -/

/-- The numbers of the operands on the way from the root to a node. -/
abbrev Route := List Nat

/-- The node at the end of a route. -/
def at? : Expr → Route → Option Expr
  | e, [] => some e
  | e, i :: route => e.children[i]?.bind fun child => child.at? route

/-- The first route comes before the second one in postorder. -/
inductive Route.Before : Route → Route → Prop
  /-- What is below the root comes before the root. -/
  | descendant (i : Nat) (route : Route) : Before (i :: route) []
  /-- What is in an operand comes before what is in a later one. -/
  | left {i j : Nat} (h : i < j) (route route' : Route) : Before (i :: route) (j :: route')
  /-- Within an operand the order is that of the operand. -/
  | inside (i : Nat) {route route' : Route} (h : Before route route') :
      Before (i :: route) (i :: route')

theorem Route.Before.asymm {r s : Route} (h : Before r s) : ¬Before s r := by
  induction h with
  | descendant i route =>
      intro h
      cases h
  | left hlt route route' =>
      intro h
      cases h with
      | left hgt => omega
      | inside => omega
  | inside i _ ih =>
      intro h
      cases h with
      | left hlt => omega
      | inside _ h => exact ih h

theorem Route.Before.irrefl (r : Route) : ¬Before r r := fun h => h.asymm h

/-- The routes to all nodes: those into the operands from left to right, then the one that ends at
the root. -/
def routes : Expr → List Route
  | var _ _ => [[]]
  | literal _ _ => [[]]
  | binary _ l r _ => l.routes.map (0 :: ·) ++ r.routes.map (1 :: ·) ++ [[]]
  | call _ a _ => a.routes.map (0 :: ·) ++ [[]]

/-- The routes by the operands, each with its number. -/
theorem routes_eq (e : Expr) :
    e.routes = (e.children.zipIdx.flatMap fun c => c.1.routes.map (c.2 :: ·)) ++ [[]] := by
  cases e <;> simp [routes, children]

theorem mem_routes_cons {e : Expr} {i : Nat} {route : Route} :
    i :: route ∈ e.routes ↔ ∃ child, e.children[i]? = some child ∧ route ∈ child.routes := by
  rw [routes_eq]
  constructor
  · intro h
    simp only [List.mem_append, List.mem_flatMap, List.mem_map, List.mem_singleton, reduceCtorEq,
      or_false, List.cons.injEq] at h
    obtain ⟨⟨child, number⟩, hchild, _, hroute, rfl, rfl⟩ := h
    exact ⟨child, List.mem_zipIdx_iff_getElem?.1 hchild, hroute⟩
  · rintro ⟨child, hchild, hroute⟩
    apply List.mem_append_left
    rw [List.mem_flatMap]
    exact ⟨(child, i), List.mem_zipIdx_iff_getElem?.2 hchild, List.mem_map_of_mem hroute⟩

/-- The routes are those that end at a node. -/
theorem mem_routes_iff {e : Expr} {route : Route} :
    route ∈ e.routes ↔ (e.at? route).isSome = true := by
  induction route generalizing e with
  | nil => simp [routes_eq e, at?]
  | cons i route ih =>
      rw [mem_routes_cons, at?]
      cases e.children[i]? with
      | none => simp
      | some child => simp [ih]

/-- The nodes at the ends of the routes are those of the listing. -/
theorem map_at?_routes (e : Expr) : e.routes.map e.at? = e.postorder.map some := by
  induction e using children_induction with
  | h e ih =>
      have hchild : ∀ c ∈ e.children.zipIdx,
          (c.1.routes.map (c.2 :: ·)).map e.at? = c.1.postorder.map some := by
        intro c hc
        have hget := List.mem_zipIdx_iff_getElem?.1 hc
        rw [← ih c.1 (List.mem_of_getElem? hget), List.map_map]
        apply List.map_congr_left
        intro route _
        simp [at?, hget]
      rw [routes_eq, postorder_eq_flatMap, List.map_append, List.map_append, List.map_flatMap,
        List.map_flatMap, List.flatMap_congr hchild]
      -- the numbers of the operands play no part any more
      conv_rhs => rw [← List.zipIdx_map_fst 0 e.children, List.flatMap_map]
      rfl

/-- The routes are listed in postorder. -/
theorem pairwise_routes (e : Expr) : e.routes.Pairwise Route.Before := by
  induction e using children_induction with
  | h e ih =>
      rw [routes_eq, List.pairwise_append, List.pairwise_flatMap]
      refine ⟨⟨?_, ?_⟩, List.pairwise_singleton _ _, ?_⟩
      · intro c hc
        have hget := List.mem_zipIdx_iff_getElem?.1 hc
        rw [List.pairwise_map]
        exact (ih c.1 (List.mem_of_getElem? hget)).imp (.inside c.2)
      · have hnumbers : e.children.zipIdx.Pairwise fun c d => c.2 < d.2 := by
          rw [← List.pairwise_map (f := Prod.snd) (R := (· < ·)), List.zipIdx_map_snd]
          exact List.pairwise_lt_range'
        refine hnumbers.imp fun {c d} hlt x hx y hy => ?_
        obtain ⟨route, -, rfl⟩ := List.mem_map.1 hx
        obtain ⟨route', -, rfl⟩ := List.mem_map.1 hy
        exact .left hlt route route'
      · intro x hx y hy
        obtain rfl := List.mem_singleton.1 hy
        obtain ⟨c, -, hx⟩ := List.mem_flatMap.1 hx
        obtain ⟨route, -, rfl⟩ := List.mem_map.1 hx
        exact .descendant c.2 route

/-- In a list of routes in postorder, the place says which of two routes comes first. -/
theorem lt_iff_before {routes : List Route} (h : routes.Pairwise Route.Before) {i j : Nat}
    {r s : Route} (hi : routes[i]? = some r) (hj : routes[j]? = some s) :
    i < j ↔ Route.Before r s := by
  rw [List.pairwise_iff_getElem] at h
  obtain ⟨hilt, rfl⟩ := List.getElem?_eq_some_iff.1 hi
  obtain ⟨hjlt, rfl⟩ := List.getElem?_eq_some_iff.1 hj
  refine ⟨h i j hilt hjlt, fun hbefore => ?_⟩
  rcases Nat.lt_trichotomy i j with hlt | rfl | hgt
  · exact hlt
  · exact absurd hbefore (Route.Before.irrefl _)
  · exact absurd hbefore (h j i hjlt hilt hgt).asymm

/-! ## The listing -/

/-- The nodes are those of the tree in postorder: the place of a node is that of its route, each
route to a node has one place, and of two routes the one that comes before the other has the earlier
place. -/
structure InPostorder (e : Expr) (nodes : List Expr) (routes : List Route) : Prop where
  node : routes.map e.at? = nodes.map some
  once : routes.Nodup
  complete : ∀ route, route ∈ routes ↔ (e.at? route).isSome = true
  order : ∀ (i j : Nat) (r s : Route), routes[i]? = some r → routes[j]? = some s →
    (i < j ↔ Route.Before r s)

theorem inPostorder_routes (e : Expr) : e.InPostorder e.postorder e.routes where
  node := e.map_at?_routes
  once := e.pairwise_routes.imp fun {r s} hbefore heq => by
    subst heq
    exact Route.Before.irrefl r hbefore
  complete _ := mem_routes_iff
  order _ _ _ _ := lt_iff_before e.pairwise_routes

/-- **The walk lists every occurrence of a node once, in postorder.** It gives what the recursion
gives: the listings of the operands from left to right, followed by the node itself. So every
occurrence stands in one place, behind all that is below it, and the left operand before the right
one. The number of nodes is one more than those of the operands together. -/
theorem postorder_lists_occurrences (e : Expr) :
    e.postorder = e.children.flatMap postorder ++ [e] ∧
      (∃ routes, e.InPostorder e.postorder routes) ∧
      e.nodeCount = 1 + (e.children.map nodeCount).sum :=
  ⟨e.postorder_eq_flatMap, ⟨e.routes, e.inPostorder_routes⟩, e.nodeCount_eq_sum⟩

end Expr

end LiveFormula
