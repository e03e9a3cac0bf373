import LiveFormula.Expr.Equality
import LiveFormula.Proofs.Dump
import LiveFormula.Proofs.Location

/-!
# Loading undoes dumping

A tree that is loaded from its dump is the tree itself, but for the offsets, which a dump does not
have. Offsets take no part in structural equality, and an encoder passes them on in its errors only.
The trees of formulas can always be dumped, since their names are letters and their literals natural
numbers.

* `Expr.same_bare`, `Expr.encode_bare` — a tree without its offsets.
* `Expr.same_of_bare_eq` — trees that differ in their offsets only.
* `Grammar.DerivesAt.loadable` — the leaves of the tree of a formula.
* `Expr.load_undoes_dump` — the round trip through any lawful codec, and what loading can give.
-/

set_option autoImplicit false

namespace LiveFormula

/-- The error with its offset at zero. -/
def EncodeError.bare : EncodeError → EncodeError
  | unknownVariable name _ => unknownVariable name 0
  | literalRange x _ => literalRange x 0

namespace Expr

theorem lower_bare (e : Expr) : e.bare.lower = e.lower.mapError EncodeError.bare := by
  induction e with
  | var name offset =>
      simp only [bare, lower]
      split <;> rfl
  | literal x offset =>
      simp only [bare, lower]
      split <;> rfl
  | binary op l r offset ihl ihr =>
      rw [bare, lower, lower, ihl, ihr]
      cases l.lower with
      | error err => rfl
      | ok l' => cases r.lower <;> rfl
  | call func a offset ih =>
      rw [bare, lower, lower, ih]
      cases a.lower <;> rfl

/-- Without its offsets a tree has the same program, or the same error at offset zero. -/
theorem encode_bare (e : Expr) : encode e.bare = (encode e).mapError EncodeError.bare := by
  rw [encode_eq_lower, encode_eq_lower, lower_bare]
  cases e.lower <;> rfl

/-- Without its offsets a tree is the same, unless a literal is not a number. -/
theorem same_bare {e : Expr} (he : ∀ leaf ∈ e.leaves, leaf.HasValue) : e.bare.same e = true := by
  rw [same_eq_agrees]
  induction e with
  | var name offset => simp [bare, agrees, sameNode]
  | literal x offset =>
      have hx : x.isNaN = false := he _ List.mem_cons_self
      simp [bare, agrees, sameNode, Binary.equals, hx]
  | binary op l r offset ihl ihr =>
      have hl := ihl fun leaf h => he leaf (List.mem_append_left _ h)
      have hr := ihr fun leaf h => he leaf (List.mem_append_right _ h)
      simp [bare, agrees, hl, hr]
  | call func a offset ih => simp [bare, agrees, ih he]

theorem same_bare_left (a b : Expr) : a.bare.same b = a.same b := by
  rw [same_eq_agrees, same_eq_agrees]
  induction a generalizing b with
  | var name offset => cases b <;> rfl
  | literal x offset => cases b <;> rfl
  | binary op l r offset ihl ihr => cases b <;> simp [bare, agrees, sameNode, ihl, ihr]
  | call func a offset ih => cases b <;> simp [bare, agrees, sameNode, ih]

/-- Trees that differ in their offsets only are the same, unless a literal is not a number. -/
theorem same_of_bare_eq {a b : Expr} (h : a.bare = b.bare)
    (hb : ∀ leaf ∈ b.leaves, leaf.HasValue) : a.same b = true := by
  rw [← same_bare_left, h, same_bare hb]

end Expr

/-- The leaves of the tree of a formula are names of letters and natural numbers. -/
theorem Grammar.DerivesAt.loadable {symbol : Symbol} {p : Nat} {s : List Char} {e : Expr}
    (h : DerivesAt symbol p s e) : ∀ leaf ∈ e.leaves, leaf.Loadable ∧ leaf.HasValue := by
  induction h with
  | literal hne hdigits hgap =>
      intro leaf hleaf
      obtain rfl := List.mem_singleton.1 hleaf
      exact ⟨Binary.below_zero_of_nonneg rfl, Binary.isNaN_ofNat _⟩
  | name hne hletters hkeyword hgap =>
      intro leaf hleaf
      obtain rfl := List.mem_singleton.1 hleaf
      refine ⟨⟨?_, by simpa using hletters⟩, trivial⟩
      simpa using hne
  | group _ _ _ ih => exact ih
  | call _ _ _ ih => exact ih
  | atom _ _ ih => exact ih
  | factor _ ih => exact ih
  | summand _ ih => exact ih
  | product _ _ _ _ ihl ihr =>
      exact fun leaf hleaf => (List.mem_append.1 hleaf).elim (ihl leaf) (ihr leaf)
  | sum _ _ _ _ ihl ihr =>
      exact fun leaf hleaf => (List.mem_append.1 hleaf).elim (ihl leaf) (ihr leaf)

theorem hasValue_of_parse {text : String} {e : Expr} (h : parse text = .ok e) :
    ∀ leaf ∈ e.leaves, leaf.HasValue := by
  obtain ⟨_, _, -, -, hderives⟩ := derivesAt_of_parse h
  exact fun leaf hleaf => (hderives.loadable leaf hleaf).2

namespace Expr

/-- The tree that is loaded from the dump of a tree is the same tree: it has the same literals to
the bit and all offsets at zero, is structurally equal, and is encoded with the same outcome. -/
structure RoundTrips (K : Sexp.Codec) (e : Expr) : Prop where
  load : load K (e.dump K) = .ok e.bare
  same : e.bare.same e = true
  encode : encode e.bare = (encode e).mapError EncodeError.bare

theorem roundTrips_of_leaves {K : Sexp.Codec} (hK : K.Lawful 301) {e : Expr}
    (hheight : e.height ≤ 300) (he : ∀ leaf ∈ e.leaves, leaf.Loadable ∧ leaf.HasValue) :
    e.RoundTrips K where
  load := load_dump hK he (Nat.lt_succ_of_le hheight)
  same := same_bare fun leaf hleaf => (he leaf hleaf).2
  encode := e.encode_bare

/-- **Loading undoes dumping.** With a codec that reads back what dumps are made of, up to 301 levels
of brackets, a tree of height up to 300 survives if its names are not empty and of letters, and its
literals are numbers that are not below zero; so does every tree of that height that is parsed.
Conversely every tree that is loaded, from whatever text and by whatever codec, has only such names,
and no literal below zero. -/
theorem load_undoes_dump (K : Sexp.Codec) :
    (K.Lawful 301 →
      (∀ e : Expr, e.height ≤ 300 → (∀ leaf ∈ e.leaves, leaf.Loadable ∧ leaf.HasValue) →
        e.RoundTrips K) ∧
      ∀ (text : String) (e : Expr), parse text = .ok e → e.height ≤ 300 → e.RoundTrips K) ∧
    ∀ (text : String) (e : Expr), Expr.load K text = .ok e → ∀ leaf ∈ e.leaves, leaf.Loadable := by
  refine ⟨fun hK => ⟨fun e => roundTrips_of_leaves hK, fun text e hparse hheight => ?_⟩,
    fun text e hload => loadable_of_load hload⟩
  obtain ⟨_, _, -, -, hderives⟩ := derivesAt_of_parse hparse
  exact roundTrips_of_leaves hK hheight hderives.loadable

/-- The standard codec takes the literals `0.1` and `-0.0`, which no formula has, there and back. -/
theorem load_undoes_dump_standard :
    let e := binary .sub (call .sin (var "theta" 4) 0)
      (binary .div (literal (Binary.ofBits 0x3FB999999999999A) 9) (literal (Binary.zero true) 13) 9) 0
    Sexp.Codec.standard.Lawful 301 ∧ e.height ≤ 300 ∧
      (∀ leaf ∈ e.leaves, leaf.Loadable ∧ leaf.HasValue) ∧ e.RoundTrips .standard := by
  intro e
  have hK : Sexp.Codec.standard.Lawful 301 := Sexp.Codec.standard_lawful (by decide)
  have hheight : e.height ≤ 300 := by decide
  have he : ∀ leaf ∈ e.leaves, leaf.Loadable ∧ leaf.HasValue := by
    intro leaf hleaf
    have hcases : leaf = var "theta" 4 ∨ leaf = literal (Binary.ofBits 0x3FB999999999999A) 9 ∨
        leaf = literal (Binary.zero true) 13 := by
      simpa [e, leaves] using hleaf
    rcases hcases with rfl | rfl | rfl
    · exact ⟨⟨by decide, by simp⟩, trivial⟩
    · exact ⟨rfl, rfl⟩
    · exact ⟨rfl, rfl⟩
  exact ⟨hK, hheight, he, ((load_undoes_dump .standard).1 hK).1 e hheight he⟩

end Expr

end LiveFormula
