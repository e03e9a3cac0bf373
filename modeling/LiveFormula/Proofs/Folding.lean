import LiveFormula.Expr.Printer
import Mathlib.Data.List.Forall2

/-!
# Folding is recursion

A fold runs over the nodes in postorder with a stack of results. What it gives is what the recursion
on the tree gives (`Visitor.fold_eq_recurse`). Here is what happens on the way: whenever a node is
visited, the results for its own operands are on top of the stack, whatever lies below them; and a
fold that fails does so at the first node in postorder whose visit fails.

* `Visitor.operandsReady_of_visitAll` — what is on the stack when a node is visited.
* `Visitor.recurse_eq_error_iff` — the recursion fails as the first node does that fails.
* `Visitor.fold_is_recursion` — both for the fold, and for the record form of a tree.
-/

set_option autoImplicit false

namespace LiveFormula

namespace Visitor

variable {ε α : Type} (v : Visitor ε α)

/-- On top of the stack are the results for the operands of the node, the last one first. -/
def OperandsReady (node : Expr) (results : List α) : Prop :=
  ∃ operands rest, results = operands.reverse ++ rest ∧
    List.Forall₂ (fun child x => v.recurse child = .ok x) node.children operands

/-- The operands of the node have results, and the visit of the node itself fails on them. -/
inductive FailsAt : Expr → ε → Prop
  | var {name : String} {offset : Int} {failure : ε} (h : v.var name offset = .error failure) :
      FailsAt (.var name offset) failure
  | literal {x : Double} {offset : Int} {failure : ε} (h : v.literal x offset = .error failure) :
      FailsAt (.literal x offset) failure
  | binary {op : BinOp} {l r : Expr} {offset : Int} {x y : α} {failure : ε}
      (hl : v.recurse l = .ok x) (hr : v.recurse r = .ok y)
      (h : v.binary op l r offset x y = .error failure) : FailsAt (.binary op l r offset) failure
  | call {func : Func} {a : Expr} {offset : Int} {x : α} {failure : ε} (ha : v.recurse a = .ok x)
      (h : v.call func a offset x = .error failure) : FailsAt (.call func a offset) failure

/-- The first node in postorder whose visit fails does so with `failure`. -/
def FirstFailure (e : Expr) (failure : ε) : Prop :=
  ∃ done node todo, e.listing = done ++ node :: todo ∧ v.FailsAt node failure ∧
    ∀ before ∈ done, ∃ x, v.recurse before = .ok x

variable {v}

/-! ## The stack when a node is visited -/

/-- A node in two lists one after the other is in the first list, or behind it in the second. -/
theorem split_append {s t done todo : List Expr} {node : Expr}
    (h : s ++ t = done ++ node :: todo) :
    (∃ rest, s = done ++ node :: rest) ∨ ∃ more, done = s ++ more ∧ t = more ++ node :: todo := by
  rcases List.append_eq_append_iff.1 h with ⟨more, hdone, ht⟩ | ⟨rest, hs, htodo⟩
  · exact .inr ⟨more, hdone, ht⟩
  · cases rest with
    | nil => exact .inr ⟨[], by simpa using hs.symm, htodo.symm⟩
    | cons x rest =>
        cases htodo
        exact .inl ⟨rest, hs⟩

theorem split_singleton {e node : Expr} {done todo : List Expr} (h : [e] = done ++ node :: todo) :
    done = [] ∧ e = node := by
  rcases List.singleton_eq_append_iff.1 h with ⟨hdone, hnode⟩ | ⟨-, hnode⟩
  · cases hnode
    exact ⟨hdone, rfl⟩
  · cases hnode

/-- Once all nodes of a tree have been visited, its result is on the stack. -/
theorem visitAll_listing_append {e : Expr} {more : List Expr} {results results' : List α}
    (h : v.visitAll (e.listing ++ more) results = .ok results') :
    ∃ x, v.recurse e = .ok x ∧ v.visitAll more (x :: results) = .ok results' := by
  rw [visitAll_append, visitAll_listing] at h
  cases hx : v.recurse e with
  | ok x =>
      rw [hx] at h
      exact ⟨x, rfl, h⟩
  | error failure =>
      rw [hx] at h
      cases h

/-- **The operands are on the stack.** When the nodes before it have been visited, the results for
the operands of a node are on top, whatever was on the stack at the beginning. -/
theorem operandsReady_of_visitAll {e node : Expr} {done todo : List Expr} {start results : List α}
    (hsplit : e.listing = done ++ node :: todo) (h : v.visitAll done start = .ok results) :
    v.OperandsReady node results := by
  induction e generalizing done todo start with
  | var name offset =>
      obtain ⟨-, rfl⟩ := split_singleton hsplit
      exact ⟨[], results, rfl, .nil⟩
  | literal x offset =>
      obtain ⟨-, rfl⟩ := split_singleton hsplit
      exact ⟨[], results, rfl, .nil⟩
  | binary op l r offset ihl ihr =>
      rw [Expr.listing, List.append_assoc] at hsplit
      rcases split_append hsplit with ⟨rest, hl⟩ | ⟨more, rfl, hmore⟩
      · exact ihl hl h
      · obtain ⟨x, hx, h⟩ := visitAll_listing_append h
        rcases split_append hmore with ⟨rest, hr⟩ | ⟨last, rfl, hlast⟩
        · exact ihr hr h
        · -- both operands are behind, so the node is the root
          obtain ⟨rfl, rfl⟩ := split_singleton hlast
          obtain ⟨y, hy, h⟩ := visitAll_listing_append h
          cases h
          exact ⟨[x, y], start, rfl, .cons hx (.cons hy .nil)⟩
  | call func a offset ih =>
      rcases split_append hsplit with ⟨rest, ha⟩ | ⟨last, rfl, hlast⟩
      · exact ih ha h
      · obtain ⟨rfl, rfl⟩ := split_singleton hlast
        obtain ⟨x, hx, h⟩ := visitAll_listing_append h
        cases h
        exact ⟨[x], start, rfl, .cons hx .nil⟩

theorem OperandsReady.length_le {node : Expr} {results : List α}
    (h : v.OperandsReady node results) : node.children.length ≤ results.length := by
  obtain ⟨operands, rest, rfl, hoperands⟩ := h
  rw [hoperands.length_eq, List.length_append, List.length_reverse]
  omega

/-! ## The first failure -/

theorem FailsAt.recurse_eq {node : Expr} {failure : ε} (h : v.FailsAt node failure) :
    v.recurse node = .error failure := by
  cases h with
  | var h => exact h
  | literal h => exact h
  | binary hl hr h => simp only [recurse, hl, hr, h]
  | call ha h => simp only [recurse, ha, h]

/-- If a tree has a result, then so have all its nodes. -/
theorem exists_recurse_of_mem_listing {e node : Expr} {x : α} (h : v.recurse e = .ok x)
    (hnode : node ∈ e.listing) : ∃ y, v.recurse node = .ok y := by
  induction e generalizing x with
  | var name offset =>
      obtain rfl := List.mem_singleton.1 hnode
      exact ⟨x, h⟩
  | literal z offset =>
      obtain rfl := List.mem_singleton.1 hnode
      exact ⟨x, h⟩
  | binary op l r offset ihl ihr =>
      have hroot := h
      simp only [recurse] at h
      split at h
      next => cases h
      next y hl =>
        split at h
        next => cases h
        next z hr =>
          rcases List.mem_append.1 hnode with hnode | hnode
          · exact (List.mem_append.1 hnode).elim (ihl hl) (ihr hr)
          · obtain rfl := List.mem_singleton.1 hnode
            exact ⟨x, hroot⟩
  | call func a offset ih =>
      have hroot := h
      simp only [recurse] at h
      split at h
      next => cases h
      next y ha =>
        rcases List.mem_append.1 hnode with hnode | hnode
        · exact ih ha hnode
        · obtain rfl := List.mem_singleton.1 hnode
          exact ⟨x, hroot⟩

/-- A first failure among some nodes is the first one among all if the nodes before them succeed. -/
theorem firstFailure_of_append (before : List Expr) {e : Expr} {nodes after : List Expr}
    {failure : ε} (hlisting : e.listing = before ++ (nodes ++ after))
    (hbefore : ∀ node ∈ before, ∃ x, v.recurse node = .ok x)
    (h : ∃ done node todo, nodes = done ++ node :: todo ∧ v.FailsAt node failure ∧
      ∀ node ∈ done, ∃ x, v.recurse node = .ok x) : v.FirstFailure e failure := by
  obtain ⟨done, node, todo, rfl, hnode, hdone⟩ := h
  refine ⟨before ++ done, node, todo ++ after, by simp [hlisting], hnode, fun d hd => ?_⟩
  exact (List.mem_append.1 hd).elim (hbefore d) (hdone d)

theorem firstFailure_of_recurse {e : Expr} {failure : ε} (h : v.recurse e = .error failure) :
    v.FirstFailure e failure := by
  induction e with
  | var name offset => exact ⟨[], _, [], rfl, .var h, by simp⟩
  | literal x offset => exact ⟨[], _, [], rfl, .literal h, by simp⟩
  | binary op l r offset ihl ihr =>
      simp only [recurse] at h
      split at h
      next err hl =>
        cases h
        exact firstFailure_of_append [] (List.append_assoc _ _ _) (by simp) (ihl hl)
      next x hl =>
        have hleft : ∀ node ∈ l.listing, ∃ y, v.recurse node = .ok y := fun node =>
          exists_recurse_of_mem_listing hl
        split at h
        next err hr =>
          cases h
          exact firstFailure_of_append l.listing (List.append_assoc _ _ _) hleft (ihr hr)
        next y hr =>
          refine ⟨l.listing ++ r.listing, _, [], rfl, .binary hl hr h, fun node hnode => ?_⟩
          exact (List.mem_append.1 hnode).elim (hleft node) (exists_recurse_of_mem_listing hr)
  | call func a offset ih =>
      simp only [recurse] at h
      split at h
      next err ha =>
        cases h
        exact firstFailure_of_append [] rfl (by simp) (ih ha)
      next x ha =>
        exact ⟨a.listing, _, [], rfl, .call ha h, fun node => exists_recurse_of_mem_listing ha⟩

/-- There is one first failure. -/
theorem FirstFailure.unique {e : Expr} {failure failure' : ε} (h : v.FirstFailure e failure)
    (h' : v.FirstFailure e failure') : failure = failure' := by
  have hfind : ∀ {failure}, v.FirstFailure e failure →
      ∃ node, e.listing.find? (fun node => !(v.recurse node).isOk) = some node ∧
        v.recurse node = .error failure := by
    rintro failure ⟨done, node, todo, hlisting, hnode, hdone⟩
    refine ⟨node, List.find?_eq_some_iff_append.2 ⟨?_, done, todo, hlisting, ?_⟩, hnode.recurse_eq⟩
    · rw [hnode.recurse_eq]
      rfl
    · intro before hbefore
      obtain ⟨x, hx⟩ := hdone before hbefore
      rw [hx]
      rfl
  obtain ⟨node, hnode, hfailure⟩ := hfind h
  obtain ⟨node', hnode', hfailure'⟩ := hfind h'
  rw [hnode] at hnode'
  cases hnode'
  rw [hfailure] at hfailure'
  exact Except.error.inj hfailure'

/-- **The recursion fails as the first node does that fails.** -/
theorem recurse_eq_error_iff {e : Expr} {failure : ε} :
    v.recurse e = .error failure ↔ v.FirstFailure e failure := by
  refine ⟨firstFailure_of_recurse, fun h => ?_⟩
  cases hresult : v.recurse e with
  | error failure' => rw [(firstFailure_of_recurse hresult).unique h]
  | ok x =>
      obtain ⟨done, node, todo, hlisting, hnode, -⟩ := h
      have hmem : node ∈ e.listing := by simp [hlisting]
      obtain ⟨y, hy⟩ := exists_recurse_of_mem_listing hresult hmem
      rw [hnode.recurse_eq] at hy
      cases hy

/-! ## The fold -/

/-- The fold is the recursion on the tree. Its result is that of the recursion; a node is never
visited without its operands' results on top of the stack; a run over all nodes leaves one result;
and a fold that fails does so as the first node does that fails. -/
structure FoldsByRecursion (v : Visitor ε α) (e : Expr) : Prop where
  result : v.fold e = (v.recurse e).mapError .visit
  operands : ∀ done node todo results, e.postorder = done ++ node :: todo →
    v.visitAll done [] = .ok results →
    node.children.length ≤ results.length ∧ v.OperandsReady node results
  single : ∀ results, v.visitAll e.postorder [] = .ok results → results.length = 1
  failure : ∀ err, v.fold e = .error err ↔
    ∃ failure, err = .visit failure ∧ v.FirstFailure e failure

theorem fold_eq_error_iff {e : Expr} {err : FoldError ε} :
    v.fold e = .error err ↔ ∃ failure, err = .visit failure ∧ v.FirstFailure e failure := by
  simp only [← recurse_eq_error_iff, fold_eq_recurse]
  cases v.recurse e with
  | ok x => simp [Except.mapError]
  | error failure => simp [Except.mapError, eq_comm]

/-- **A fold is recursion on the tree**, for every visitor, and the record form of a tree is given
by the same recursion. -/
theorem fold_is_recursion (v : Visitor ε α) (e : Expr) :
    v.FoldsByRecursion e ∧ e.record = Expr.recordAlgebra.recurse e := by
  refine ⟨⟨v.fold_eq_recurse e, fun done node todo results hsplit h => ?_, fun results h => ?_,
    fun err => fold_eq_error_iff⟩, Expr.recordAlgebra.fold_eq_recurse e⟩
  · rw [Expr.postorder_eq_listing] at hsplit
    have hready := operandsReady_of_visitAll hsplit h
    exact ⟨hready.length_le, hready⟩
  · rw [Expr.postorder_eq_listing, ← List.append_nil e.listing] at h
    obtain ⟨x, -, h⟩ := visitAll_listing_append h
    cases h
    rfl

/-- A visitor that refuses all names but `t` fails at the first name that it refuses. Before that it
has visited a call, with the result for `t` on the stack. -/
theorem fold_is_recursion_refused :
    let v : Visitor String Nat :=
      { var := fun name _ => if name = "t" then .ok 0 else .error name
        literal := fun _ _ => .ok 0
        binary := fun _ _ _ _ x y => .ok (x + y + 1)
        call := fun _ _ _ x => .ok (x + 1) }
    let call : Expr := .call .sin (.var "t" 4) 0
    let e : Expr := .binary .add call (.binary .mul (.var "a" 7) (.var "b" 9) 7) 0
    v.fold e = .error (.visit "a") ∧ v.FirstFailure e "a" ∧
      v.visitAll [.var "t" 4] [] = .ok [0] ∧ v.OperandsReady call [0] := by
  intro v call e
  obtain ⟨hfold, -⟩ := fold_is_recursion v e
  have hresult : v.fold e = .error (.visit "a") := hfold.result
  obtain ⟨failure, hvisit, hfirst⟩ := (hfold.failure _).1 hresult
  cases hvisit
  have hsplit : e.postorder = [.var "t" 4] ++ call :: e.listing.drop 2 := by
    rw [Expr.postorder_eq_listing]
    rfl
  exact ⟨hresult, hfirst, rfl, (hfold.operands _ _ _ _ hsplit rfl).2⟩

end Visitor

end LiveFormula
