import LiveFormula.Expr.Equality
import LiveFormula.Proofs.DecimalRounding
import LiveFormula.Proofs.Encoding
import LiveFormula.Proofs.Tokens
import Mathlib.Data.List.Forall2

/-!
# Programs of equal trees

Trees are compared by numeric equality of their literals, while a program holds the bits of each
literal. Numbers that are equal are the same datum, the two zeros apart, and so equal trees have
programs that differ in the words of zeros at most, or no programs for the same reason.

* `Binary.eq_or_zeros_of_equals` — equal numbers are the same datum or zeros.
* `Expr.listing_of_agrees` — equal trees have equal nodes in the same places.
* `Expr.sameNode_cases` — equal nodes have the same instruction, or push zeros.
* `Expr.zeroSigns_of_parse` — trees that are read have no negative zero.
* `encode_of_same` — the outcomes for equal trees.
-/

set_option autoImplicit false

namespace LiveFormula

/-! ## Literals -/

/-- Numbers that are equal are the same datum, or zeros of different sign. -/
theorem Binary.eq_or_zeros_of_equals {F : Format} {x y : Binary F} (h : x.equals y = true) :
    x = y ∨ ∃ negative, x = zero negative ∧ y = zero !negative := by
  simp only [equals, Bool.and_eq_true, beq_iff_eq] at h
  have hplace := h.2
  unfold place at hplace
  by_cases hsign : x.negative = y.negative
  · left
    apply ext_magnitude hsign
    rw [hsign] at hplace
    split at hplace <;> omega
  · right
    have hy : y.negative = !x.negative := Bool.eq_not.2 fun h => hsign h.symm
    have hzero : x.magnitude.val = 0 ∧ y.magnitude.val = 0 := by
      rw [hy] at hplace
      cases hx : x.negative with
      | false =>
          simp only [hx, Bool.false_eq_true, if_false, Bool.not_false, if_true] at hplace
          omega
      | true =>
          simp only [hx, if_true, Bool.not_true, Bool.false_eq_true, if_false] at hplace
          omega
    exact ⟨x.negative, ext_magnitude rfl hzero.1, ext_magnitude hy hzero.2⟩

namespace Double

theorem convert_zero (negative : Bool) :
    (Binary.zero negative : Double).convert .single = Binary.zero negative := by
  cases negative <;> decide +kernel

theorem inSingleRange_zero (negative : Bool) : InSingleRange (Binary.zero negative) := by
  cases negative <;> decide +kernel

end Double

/-! ## Nodes -/

namespace Expr

variable {x y a b : Expr}

/-- The sign of a literal that is zero. -/
def zeroSign? : Expr → Option Bool
  | literal x _ => if x.isZero then some x.negative else none
  | _ => none

theorem zeroSign?_zero (negative : Bool) (offset : Int) :
    (literal (Binary.zero negative) offset).zeroSign? = some negative := rfl

/-- The signs of the literals that are zero, from left to right. -/
def zeroSigns (e : Expr) : List Bool := e.leaves.filterMap zeroSign?

/-- Operators have no sign, so all nodes may be looked at instead of the leaves. -/
theorem filterMap_listing (e : Expr) : e.listing.filterMap zeroSign? = e.zeroSigns := by
  induction e with
  | var name offset => rfl
  | literal x offset => rfl
  | binary op l r offset ihl ihr =>
      simp only [zeroSigns] at ihl ihr
      simp [listing, zeroSigns, leaves, zeroSign?, ihl, ihr]
  | call func e offset ih =>
      simp only [zeroSigns] at ih
      simp [listing, zeroSigns, leaves, zeroSign?, ih]

/-- What is read has no negative zero. -/
theorem zeroSigns_of_parse {text : String} {tree : Expr} (h : parse text = .ok tree) :
    ∀ negative ∈ tree.zeroSigns, negative = false := by
  intro negative hmem
  obtain ⟨leaf, hleaf, hsign⟩ := List.mem_filterMap.1 hmem
  cases leaf with
  | literal x offset =>
      obtain ⟨q, n, -, -, rfl⟩ := longestRun_of_literal h hleaf
      simp only [zeroSign?] at hsign
      split at hsign
      · exact (Option.some.inj hsign).symm
      · cases hsign
  | var name offset => cases hsign
  | binary op l r offset => cases hsign
  | call func e offset => cases hsign

/-- The kind of failure that a leaf without a word is reported with; operators have words. -/
def failureKind : Expr → Report.Kind
  | var name _ => .unknownVariable name
  | literal x _ => .literalRange x
  | _ => .encoding

/-- Nodes that are alike in all that encoding looks at. -/
structure Alike (x y : Expr) : Prop where
  instr : x.instr = y.instr
  zeroSign : x.zeroSign? = y.zeroSign?
  encodable : x.Encodable ↔ y.Encodable
  kind : x.failureKind = y.failureKind

/-- Nodes that are the same are alike, or they are zeros of different sign. -/
theorem sameNode_cases (h : sameNode x y = true) :
    Alike x y ∨ ∃ negative offset offset', x = literal (Binary.zero negative) offset ∧
      y = literal (Binary.zero !negative) offset' := by
  cases x with
  | var name offset =>
      cases y with
      | var name' offset' =>
          obtain rfl : name = name' := beq_iff_eq.1 h
          exact .inl ⟨rfl, rfl, Iff.rfl, rfl⟩
      | _ => cases h
  | literal z offset =>
      cases y with
      | literal z' offset' =>
          rcases Binary.eq_or_zeros_of_equals h with rfl | ⟨negative, rfl, rfl⟩
          · exact .inl ⟨rfl, rfl, Iff.rfl, rfl⟩
          · exact .inr ⟨negative, offset, offset', rfl, rfl⟩
      | _ => cases h
  | binary op l r offset =>
      cases y with
      | binary op' l' r' offset' =>
          obtain rfl : op = op' := beq_iff_eq.1 h
          exact .inl ⟨rfl, rfl, Iff.rfl, rfl⟩
      | _ => cases h
  | call func e offset =>
      cases y with
      | call func' e' offset' =>
          obtain rfl : func = func' := beq_iff_eq.1 h
          exact .inl ⟨rfl, rfl, Iff.rfl, rfl⟩
      | _ => cases h

theorem encodable_iff_of_sameNode (h : sameNode x y = true) : x.Encodable ↔ y.Encodable := by
  rcases sameNode_cases h with halike | ⟨negative, offset, offset', rfl, rfl⟩
  · exact halike.encodable
  · exact iff_of_true (Double.inSingleRange_zero _) (Double.inSingleRange_zero _)

/-- Nodes that are the same and have no word are reported alike, since zeros have words. -/
theorem failureKind_eq_of_sameNode (h : sameNode x y = true) (hx : ¬x.Encodable) :
    x.failureKind = y.failureKind := by
  rcases sameNode_cases h with halike | ⟨negative, offset, offset', rfl, rfl⟩
  · exact halike.kind
  · exact absurd (Double.inSingleRange_zero _) hx

/-! ## Trees -/

/-- Trees that agree have the same nodes in the same places, and the same leaves. -/
theorem listing_of_agrees (h : a.agrees b = true) :
    List.Forall₂ (fun x y => sameNode x y = true) a.listing b.listing ∧
      List.Forall₂ (fun x y => sameNode x y = true) a.leaves b.leaves := by
  induction a generalizing b with
  | var name offset =>
      cases b with
      | var name' offset' => exact ⟨.cons h .nil, .cons h .nil⟩
      | _ => cases h
  | literal z offset =>
      cases b with
      | literal z' offset' => exact ⟨.cons h .nil, .cons h .nil⟩
      | _ => cases h
  | binary op l r offset ihl ihr =>
      cases b with
      | binary op' l' r' offset' =>
          simp only [agrees, Bool.and_eq_true] at h
          obtain ⟨hl, hl'⟩ := ihl h.2.1
          obtain ⟨hr, hr'⟩ := ihr h.2.2
          exact ⟨List.rel_append (List.rel_append hl hr) (.cons h.1 .nil), List.rel_append hl' hr'⟩
      | _ => cases h
  | call func e offset ih =>
      cases b with
      | call func' e' offset' =>
          simp only [agrees, Bool.and_eq_true] at h
          obtain ⟨he, he'⟩ := ih h.2
          exact ⟨List.rel_append he (.cons h.1 .nil), he'⟩
      | _ => cases h

/-- The first leaf without a word is in the same place in both lists. -/
theorem find?_of_sameNodes {l l' : List Expr}
    (h : List.Forall₂ (fun x y => sameNode x y = true) l l') :
    Option.Rel (fun x y => sameNode x y = true) (l.find? fun leaf => ¬leaf.Encodable)
      (l'.find? fun leaf => ¬leaf.Encodable) := by
  induction h with
  | nil => exact .none
  | @cons x y l l' hxy _ ih =>
      have hiff := encodable_iff_of_sameNode hxy
      by_cases hx : x.Encodable
      · simpa [List.find?_cons, hx, hiff.1 hx] using ih
      · simpa [List.find?_cons, hx, hiff.not.1 hx] using Option.Rel.some hxy

end Expr

namespace Word

/-- The words are the same, or they are those of zeros of different sign. -/
def SameOrZeros (w w' : Int) : Prop :=
  w = w' ∨ ∃ negative, w = ofSingle (Binary.zero negative) ∧ w' = ofSingle (Binary.zero !negative)

theorem ofSingle_zero_ne (negative : Bool) :
    ofSingle (Binary.zero negative) ≠ ofSingle (Binary.zero !negative) := by
  cases negative <;> decide

end Word

namespace Expr

/-- The words of nodes that are the same differ in the words of zeros at most, and they do not differ
if the zeros have the same signs. -/
theorem words_of_sameNodes {l l' : List Expr}
    (h : List.Forall₂ (fun x y => sameNode x y = true) l l') :
    List.Forall₂ Word.SameOrZeros (l.map fun node => Word.ofInstr node.instr)
        (l'.map fun node => Word.ofInstr node.instr) ∧
      ((l.map fun node => Word.ofInstr node.instr) = (l'.map fun node => Word.ofInstr node.instr) ↔
        l.filterMap zeroSign? = l'.filterMap zeroSign?) := by
  induction h with
  | nil => exact ⟨.nil, iff_of_true rfl rfl⟩
  | @cons x y l l' hxy _ ih =>
      rcases sameNode_cases hxy with halike | ⟨negative, offset, offset', rfl, rfl⟩
      · simp only [List.map_cons, List.filterMap_cons, halike.instr, halike.zeroSign]
        refine ⟨.cons (.inl rfl) ih.1, ?_⟩
        cases y.zeroSign? <;> simp [ih.2]
      · have hword : ∀ s o, Word.ofInstr (literal (Binary.zero s) o).instr =
            Word.ofSingle (Binary.zero s) := by
          intro s o
          rw [instr, Double.convert_zero]
          rfl
        simp only [List.map_cons, List.filterMap_cons, hword, zeroSign?_zero]
        refine ⟨.cons (.inr ⟨negative, rfl, rfl⟩) ih.1, iff_of_false ?_ ?_⟩
        · intro heq
          exact Word.ofSingle_zero_ne negative (List.cons.inj heq).1
        · intro heq
          exact Bool.not_ne_self negative (List.cons.inj heq).1.symm

/-- Nodes that are the same have zeros in the same places. -/
theorem length_zeroSigns_of_sameNodes {l l' : List Expr}
    (h : List.Forall₂ (fun x y => sameNode x y = true) l l') :
    (l.filterMap zeroSign?).length = (l'.filterMap zeroSign?).length := by
  induction h with
  | nil => rfl
  | @cons x y l l' hxy _ ih =>
      rcases sameNode_cases hxy with halike | ⟨negative, offset, offset', rfl, rfl⟩
      · simp only [List.filterMap_cons, halike.zeroSign]
        cases y.zeroSign? <;> simp [ih]
      · simp only [List.filterMap_cons, zeroSign?_zero, List.length_cons, ih]

/-- Equal trees that are read have the same signs of zeros. -/
theorem zeroSigns_eq_of_parse {a b : Expr} {text text' : String} (h : a.agrees b = true)
    (ha : parse text = .ok a) (hb : parse text' = .ok b) : a.zeroSigns = b.zeroSigns := by
  have hlength := length_zeroSigns_of_sameNodes (listing_of_agrees h).2
  rw [List.eq_replicate_of_mem (zeroSigns_of_parse ha),
    List.eq_replicate_of_mem (zeroSigns_of_parse hb), zeroSigns, zeroSigns, hlength]

end Expr

theorem EncodeError.Blames.kind_eq {err : EncodeError} {leaf : Expr} (h : err.Blames leaf) :
    err.report.kind = leaf.failureKind := by
  cases err with
  | unknownVariable name offset => cases h; rfl
  | literalRange x offset => cases h; rfl

/-- **Equal trees have the same program up to the signs of zeros.** Of two trees that are equal either
both have programs, which are the same word for word except where a literal zero of one tree stands
against a literal zero of the other sign, so that they are the same just if the zeros have the same
signs, as they have in trees that are read from formulas; or both have none, and the failures are of
the same kind. -/
theorem encode_of_same (a b : Expr) (h : a.same b = true) :
    (∃ p q, encode a = .ok p ∧ encode b = .ok q ∧
      List.Forall₂ Word.SameOrZeros p.words q.words ∧
      (p.words = q.words ↔ a.zeroSigns = b.zeroSigns) ∧
      ∀ text text', parse text = .ok a → parse text' = .ok b → p.words = q.words) ∨
    ∃ err err', encode a = .error err ∧ encode b = .error err' ∧
      err.report.kind = err'.report.kind := by
  rw [Expr.same_eq_agrees] at h
  obtain ⟨hlisting, hleaves⟩ := Expr.listing_of_agrees h
  have hfind := Expr.find?_of_sameNodes hleaves
  generalize ha : (a.leaves.find? fun leaf => ¬leaf.Encodable) = first at hfind
  generalize hb : (b.leaves.find? fun leaf => ¬leaf.Encodable) = first' at hfind
  cases hfind with
  | none =>
      left
      obtain ⟨p, hp, -, hwords⟩ := a.encodesTo_encode.program (by simpa using ha)
      obtain ⟨q, hq, -, hwords'⟩ := b.encodesTo_encode.program (by simpa using hb)
      obtain ⟨hsimilar, hiff⟩ := Expr.words_of_sameNodes hlisting
      rw [← hwords, ← hwords', Expr.filterMap_listing, Expr.filterMap_listing] at hiff
      rw [← hwords, ← hwords'] at hsimilar
      refine ⟨p, q, hp, hq, hsimilar, hiff, fun text text' hparse hparse' => ?_⟩
      exact hiff.2 (Expr.zeroSigns_eq_of_parse h hparse hparse')
  | some hsame =>
      right
      obtain ⟨err, herr, hblames⟩ := Expr.lower_of_first ha
      obtain ⟨err', herr', hblames'⟩ := Expr.lower_of_first hb
      have hbad := List.find?_some ha
      refine ⟨err, err', ?_, ?_, ?_⟩
      · rw [encode_eq_lower, herr]
        rfl
      · rw [encode_eq_lower, herr']
        rfl
      · rw [hblames.kind_eq, hblames'.kind_eq]
        exact Expr.failureKind_eq_of_sameNode hsame (by simpa using hbad)

/-- The products of `t` with the two zeros are equal, and have three words each. -/
theorem encode_of_same_products :
    let a : Expr := .binary .mul (.var "t" 0) (.literal (Binary.zero false) 2) 0
    let b : Expr := .binary .mul (.var "t" 4) (.literal (Binary.zero true) 9) 4
    let p : Program := ⟨[1, 0, 6]⟩
    let q : Program := ⟨[1, 0x8000000000000000, 6]⟩
    a.same b = true ∧ encode a = .ok p ∧ encode b = .ok q ∧
      List.Forall₂ Word.SameOrZeros p.words q.words ∧
      (p.words = q.words ↔ a.zeroSigns = b.zeroSigns) ∧
      ∀ text text', parse text = .ok a → parse text' = .ok b → p.words = q.words := by
  intro a b p q
  have hsame : a.same b = true := by
    rw [Expr.same_eq_agrees]
    decide +kernel
  have ha : encode a = .ok p := by decide +kernel
  have hb : encode b = .ok q := by decide +kernel
  obtain ⟨p', q', hp, hq, hwords⟩ | ⟨err, err', herr, -⟩ := encode_of_same a b hsame
  · rw [ha] at hp
    rw [hb] at hq
    cases hp
    cases hq
    exact ⟨hsame, ha, hb, hwords⟩
  · rw [ha] at herr
    cases herr

/-- The literals of the two zeros are equal and have programs, but not the same one, so that equal
trees need not have the same outcome. -/
theorem encode_zeros_differ :
    let a : Expr := .literal (Binary.zero false) 0
    let b : Expr := .literal (Binary.zero true) 0
    a.same b = true ∧ encode a = .ok ⟨[0]⟩ ∧ encode b = .ok ⟨[0x8000000000000000]⟩ ∧
      ¬∀ a b : Expr, a.same b = true →
        (∃ p, encode a = .ok p ∧ encode b = .ok p) ∨
          ∃ err err', encode a = .error err ∧ encode b = .error err' := by
  intro a b
  have hsame : a.same b = true := by
    rw [Expr.same_eq_agrees]
    decide +kernel
  have ha : encode a = .ok ⟨[0]⟩ := by decide +kernel
  have hb : encode b = .ok ⟨[0x8000000000000000]⟩ := by decide +kernel
  refine ⟨hsame, ha, hb, fun hall => ?_⟩
  rcases hall a b hsame with ⟨p, hp, hq⟩ | ⟨err, err', herr, -⟩
  · rw [ha] at hp
    rw [hb, ← hp] at hq
    exact absurd hq (by decide)
  · rw [ha] at herr
    cases herr

end LiveFormula
