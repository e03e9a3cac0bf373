import LiveFormula.Expr.Postorder
import LiveFormula.Proofs.EqualTrees
import LiveFormula.Proofs.RoundTrip

/-!
# What structural equality decides

Two trees are equal if they have the same shape and the same labels, offsets apart (`Expr.Equal`).
Literals are the same number if they are one datum or both zero, and what is not a number is the same
number as nothing (`Binary.SameNumber`). The comparison of two trees works off a list of pairs, takes
the last pair first and stops at the first one that differs; it decides this relation.

* `Binary.equals_iff` — numeric equality, and that it is symmetric and transitive.
* `Expr.samePairs_iff` — the pairs of a list are compared, in whatever order they are taken.
* `Expr.Equal.symm`, `Expr.Equal.trans`, `Expr.equal_self_iff` — equality of trees is an equivalence
  on the trees whose literals are numbers.
* `Expr.same_decides_equality` — the same for the comparison, and that offsets do not matter.
-/

set_option autoImplicit false

namespace LiveFormula

/-! ## Numbers -/

namespace Binary

variable {F : Format} {x y z : Binary F}

/-- Neither datum is not a number, and they are one datum or both zero. -/
structure SameNumber (x y : Binary F) : Prop where
  left : x.isNaN = false
  right : y.isNaN = false
  same : x = y ∨ x.isZero = true ∧ y.isZero = true

theorem place_of_isZero (h : x.isZero = true) : x.place = 0 := by
  have hzero : x.magnitude.val = 0 := beq_iff_eq.1 h
  unfold place
  split <;> omega

/-- Numeric equality is being the same number. -/
theorem equals_iff : x.equals y = true ↔ x.SameNumber y := by
  constructor
  · intro h
    have hnumbers : x.isNaN = false ∧ y.isNaN = false := by
      unfold equals at h
      simp_all
    refine ⟨hnumbers.1, hnumbers.2, ?_⟩
    rcases eq_or_zeros_of_equals h with heq | ⟨negative, rfl, rfl⟩
    · exact .inl heq
    · exact .inr ⟨rfl, rfl⟩
  · rintro ⟨hx, hy, hsame⟩
    have hplace : x.place = y.place := by
      rcases hsame with rfl | ⟨hx, hy⟩
      · rfl
      · rw [place_of_isZero hx, place_of_isZero hy]
    simp [equals, hx, hy, hplace]

theorem SameNumber.symm (h : x.SameNumber y) : y.SameNumber x :=
  ⟨h.right, h.left, h.same.imp Eq.symm And.symm⟩

theorem SameNumber.trans (h : x.SameNumber y) (h' : y.SameNumber z) : x.SameNumber z := by
  refine ⟨h.left, h'.right, ?_⟩
  rcases h.same with rfl | ⟨hx, -⟩
  · exact h'.same
  · rcases h'.same with rfl | ⟨-, hz⟩
    · exact h.same
    · exact .inr ⟨hx, hz⟩

theorem sameNumber_self_iff : x.SameNumber x ↔ x.isNaN = false :=
  ⟨SameNumber.left, fun h => ⟨h, h, .inl rfl⟩⟩

end Binary

/-! ## Trees -/

namespace Expr

variable {a b c : Expr}

/-- The trees have the same shape with nodes of the same kinds, the same names, operators and
functions, and literals that are the same numbers. -/
inductive Equal : Expr → Expr → Prop
  | var (name : String) (offset offset' : Int) : Equal (var name offset) (var name offset')
  | literal {x y : Double} (h : x.SameNumber y) (offset offset' : Int) :
      Equal (literal x offset) (literal y offset')
  | binary (op : BinOp) {l l' r r' : Expr} (hl : Equal l l') (hr : Equal r r')
      (offset offset' : Int) : Equal (binary op l r offset) (binary op l' r' offset')
  | call (func : Func) {e e' : Expr} (h : Equal e e') (offset offset' : Int) :
      Equal (call func e offset) (call func e' offset')

theorem equal_of_agrees (h : a.agrees b = true) : a.Equal b := by
  induction a generalizing b with
  | var name offset =>
      cases b with
      | var name' offset' =>
          obtain rfl : name = name' := beq_iff_eq.1 h
          exact .var name offset offset'
      | _ => cases h
  | literal x offset =>
      cases b with
      | literal y offset' => exact .literal (Binary.equals_iff.1 h) offset offset'
      | _ => cases h
  | binary op l r offset ihl ihr =>
      cases b with
      | binary op' l' r' offset' =>
          simp only [agrees, Bool.and_eq_true, beq_iff_eq] at h
          obtain ⟨rfl, hl, hr⟩ := h
          exact .binary op (ihl hl) (ihr hr) offset offset'
      | _ => cases h
  | call func e offset ih =>
      cases b with
      | call func' e' offset' =>
          simp only [agrees, Bool.and_eq_true, beq_iff_eq] at h
          obtain ⟨rfl, h⟩ := h
          exact .call func (ih h) offset offset'
      | _ => cases h

theorem Equal.agrees (h : a.Equal b) : a.agrees b = true := by
  induction h with
  | var name offset offset' => simp [Expr.agrees, sameNode]
  | literal h offset offset' => exact Binary.equals_iff.2 h
  | binary op _ _ offset offset' ihl ihr => simp [Expr.agrees, ihl, ihr]
  | call func _ offset offset' ih => simp [Expr.agrees, ih]

/-- The comparison of a list of pairs says whether all of them are equal. -/
theorem samePairs_iff {pending : List (Expr × Expr)} :
    samePairs pending = true ↔ ∀ p ∈ pending, p.1.Equal p.2 := by
  rw [samePairs_eq_all, List.all_eq_true]
  exact forall₂_congr fun p _ => ⟨equal_of_agrees, Equal.agrees⟩

theorem same_iff_equal : a.same b = true ↔ a.Equal b := by
  rw [same, samePairs_iff]
  simp

theorem Equal.symm (h : a.Equal b) : b.Equal a := by
  induction h with
  | var name offset offset' => exact .var name offset' offset
  | literal h offset offset' => exact .literal h.symm offset' offset
  | binary op _ _ offset offset' ihl ihr => exact .binary op ihl ihr offset' offset
  | call func _ offset offset' ih => exact .call func ih offset' offset

theorem Equal.trans (h : a.Equal b) (h' : b.Equal c) : a.Equal c := by
  induction h generalizing c with
  | var name offset offset' =>
      cases h' with
      | var _ _ offset'' => exact .var name offset offset''
  | literal h offset offset' =>
      cases h' with
      | literal h' _ offset'' => exact .literal (h.trans h') offset offset''
  | binary op _ _ offset offset' ihl ihr =>
      cases h' with
      | binary _ hl hr _ offset'' => exact .binary op (ihl hl) (ihr hr) offset offset''
  | call func _ offset offset' ih =>
      cases h' with
      | call _ h' _ offset'' => exact .call func (ih h') offset offset''

/-- A tree is equal to itself just if all its literals are numbers. -/
theorem equal_self_iff :
    a.Equal a ↔ ∀ x offset, literal x offset ∈ a.listing → x.isNaN = false := by
  induction a with
  | var name offset =>
      constructor
      · simp [listing]
      · exact fun _ => .var name offset offset
  | literal x offset =>
      constructor
      · intro h y offset' hmem
        simp only [listing, List.mem_singleton, literal.injEq] at hmem
        rw [hmem.1]
        cases h with
        | literal h => exact h.left
      · intro h
        have hx : x.isNaN = false := h x offset (by simp [listing])
        exact .literal (Binary.sameNumber_self_iff.2 hx) offset offset
  | binary op l r offset ihl ihr =>
      have hsplit : (binary op l r offset).Equal (binary op l r offset) ↔ l.Equal l ∧ r.Equal r := by
        constructor
        · intro h
          cases h with
          | binary _ hl hr => exact ⟨hl, hr⟩
        · exact fun h => .binary op h.1 h.2 offset offset
      rw [hsplit, ihl, ihr]
      simp only [listing, List.mem_append, List.mem_singleton, reduceCtorEq, or_false]
      constructor
      · rintro ⟨hl, hr⟩ x offset' (hmem | hmem)
        · exact hl x offset' hmem
        · exact hr x offset' hmem
      · intro h
        exact ⟨fun x o hmem => h x o (.inl hmem), fun x o hmem => h x o (.inr hmem)⟩
  | call func e offset ih =>
      have hsplit : (call func e offset).Equal (call func e offset) ↔ e.Equal e := by
        constructor
        · intro h
          cases h with
          | call _ h => exact h
        · exact fun h => .call func h offset offset
      rw [hsplit, ih]
      simp [listing]

theorem same_comm (a b : Expr) : a.same b = b.same a := by
  rw [Bool.eq_iff_iff, same_iff_equal, same_iff_equal]
  exact ⟨Equal.symm, Equal.symm⟩

/-- Trees that differ in their offsets only compare alike with everything. -/
theorem same_congr {a' b' : Expr} (ha : a.bare = a'.bare) (hb : b.bare = b'.bare) :
    a.same b = a'.same b' := by
  calc a.same b = a'.same b := by rw [← same_bare_left a, ha, same_bare_left]
    _ = b.same a' := same_comm a' b
    _ = b'.same a' := by rw [← same_bare_left b, hb, same_bare_left]
    _ = a'.same b' := same_comm b' a'

/-- **Structural equality is decided.** The comparison says of any two trees whether they are equal.
So it is symmetric and transitive, a tree is the same as itself just if no literal among its nodes
is not a number, and trees that differ in their offsets only cannot be told apart. -/
theorem same_decides_equality :
    (∀ a b : Expr, a.same b = true ↔ a.Equal b) ∧
    (∀ a b : Expr, a.same b = b.same a) ∧
    (∀ a b c : Expr, a.same b = true → b.same c = true → a.same c = true) ∧
    (∀ a : Expr, a.same a = true ↔
      ∀ x offset, literal x offset ∈ a.postorder → x.isNaN = false) ∧
    ∀ a a' b b' : Expr, a.bare = a'.bare → b.bare = b'.bare → a.same b = a'.same b' := by
  refine ⟨fun a b => same_iff_equal, same_comm, fun a b c hab hbc => ?_, fun a => ?_,
    fun a a' b b' => same_congr⟩
  · rw [same_iff_equal] at *
    exact hab.trans hbc
  · rw [same_iff_equal, postorder_eq_listing]
    exact equal_self_iff

/-- The product of `t` and a zero is the same for zeros of both signs and at all offsets, and what is
not a number differs from itself. -/
theorem same_decides_equality_zeros :
    let product (negative : Bool) (offset : Int) : Expr :=
      .binary .mul (.var "t" offset) (.literal (Binary.zero negative) (offset + 2)) offset
    let odd : Expr := .call .sin (.literal (Binary.notANumber false) 4) 0
    (product false 0).same (product true 3) = true ∧ (product true 3).same (product false 9) = true ∧
      (product false 0).same (product false 9) = true ∧ odd.same odd = false ∧
      (product false 0).bare = (product false 9).bare ∧
      (product false 0).same odd = (product false 9).same odd := by
  intro product odd
  obtain ⟨hequal, -, htrans, hself, hoffsets⟩ := same_decides_equality
  have hproduct : ∀ s s' o o', (product s o).same (product s' o') = true := by
    intro s s' o o'
    have hzeros : (Binary.zero s : Double).SameNumber (Binary.zero s') :=
      ⟨rfl, rfl, .inr ⟨rfl, rfl⟩⟩
    exact (hequal _ _).2 (.binary .mul (.var "t" o o') (.literal hzeros _ _) o o')
  have hodd : ¬odd.same odd = true := by
    intro h
    have hnumber := (hself odd).1 h (Binary.notANumber false) 4
    rw [postorder_eq_listing] at hnumber
    exact absurd (hnumber (by simp [odd, listing])) (by decide)
  exact ⟨hproduct _ _ _ _, hproduct _ _ _ _,
    htrans _ _ _ (hproduct false true 0 3) (hproduct true false 3 9), Bool.eq_false_iff.2 hodd,
    rfl, hoffsets _ _ _ _ rfl rfl⟩

end Expr

end LiveFormula
