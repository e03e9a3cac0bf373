import LiveFormula.Proofs.Conversion
import LiveFormula.Proofs.Encoding
import LiveFormula.Proofs.Recognition
import Mathlib.Algebra.Order.Field.Rat
import Mathlib.Tactic.NormNum
import Mathlib.Tactic.Positivity

/-!
# What a text of digits is compiled to

A text of digits is read as a whole number, which is rounded to a double and then to 32 bits. The
second rounding may see a tie that the first one made, so the literal is not always the nearest
32-bit number, and the numbers that are too large begin a little below the middle between the largest
32-bit number and the next place of the grid. Still no 32-bit number lies between a whole number and
its literal, and the order of numbers is kept.

* `Digits.compile_eq` — the program of a text of digits, or its error.
* `Digits.compile_range` — which texts of digits have a program.
* `Binary.isFaithful_convert_ofNat` — rounding twice passes no value of the narrower format.
* `Digits.compile_faithful` — the literals of texts of digits.
-/

set_option autoImplicit false

namespace LiveFormula

open Grammar

theorem compile_of_parse {text : String} {tree : Expr} (h : parse text = .ok tree) :
    compile text = (encode tree).mapError .encode := by
  simp only [compile, h]
  cases encode tree <;> rfl

theorem encode_literal {x : Double} (offset : Int) (h : x.InSingleRange) :
    encode (.literal x offset) = .ok ⟨[Word.ofSingle (x.convert .single)]⟩ := by
  obtain ⟨tree, hlower, hinstr⟩ := Expr.lower_literal offset h
  rw [encode_eq_lower, hlower, Except.map, ProgramTree.program, hinstr]
  rfl

theorem encode_literal_error {x : Double} (offset : Int) (h : ¬x.InSingleRange) :
    encode (.literal x offset) = .error (.literalRange x offset) := by
  rw [encode_eq_lower, Expr.lower_literal_error offset h]
  rfl

namespace Double

/-- Natural numbers are rounded to infinity from `2 ^ 1024 - 2 ^ 970` on. -/
theorem isInfinite_ofNat_iff (n : Nat) :
    (Binary.ofNat n : Double).isInfinite = true ↔ 2 ^ 1024 - 2 ^ 970 ≤ n := by
  have hnearest : Binary.IsRounded n (Binary.ofNat n : Double) := Binary.isRounded_double_iff.2 rfl
  rw [Binary.isInfinite, beq_iff_eq, hnearest.2.eq_infinity_iff, Binary.units_around_double_bound,
    Nat.mul_le_mul_left_iff Nat.two_pos, Nat.mul_le_mul_right_iff (Nat.two_pow_pos _)]

/-- A number has no 32-bit literal just if it is rounded to infinity. -/
theorem isInfinite_convert_iff_not_inSingleRange {x : Double} (hx : x.isNaN = false) :
    (x.convert .single).isInfinite = true ↔ ¬x.InSingleRange := by
  rw [Expr.inSingleRange_iff, Bool.not_eq_false, Bool.or_eq_true]
  constructor
  · exact .inr
  · rintro (h | h)
    · rcases Binary.isFinite_or_eq_infinity hx with hfinite | hinfinite
      · rw [Binary.isInfinite_eq_false_of_isFinite hfinite] at h
        cases h
      · rw [hinfinite, Binary.convert_infinity, Binary.isInfinite_infinity]
    · exact h

end Double

/-- A text of digits, at least one. -/
structure Digits where
  text : String
  ne_empty : text ≠ ""
  isDigit : ∀ c ∈ text.toList, c.isDigit = true

namespace Digits

/-- The number that is written. -/
def value (s : Digits) : Nat := Nat.ofDigitChars 10 s.text.toList 0

/-! ## Reading and encoding -/

/-- Digits are read as a literal, rounded to a double. -/
theorem exists_parse (s : Digits) :
    ∃ offset, parse s.text = .ok (.literal (Binary.ofNat s.value) offset) := by
  have hne : s.text.toList ≠ [] := by
    intro h
    exact s.ne_empty (String.toList_eq_nil_iff.1 h)
  have hliteral : Derives .literal (s.text.toList ++ []) (.literal (Binary.ofNat s.value) 0) :=
    .literal hne s.isDigit (Binary.isRounded_double_iff.2 rfl) Blank.nil
  rw [List.append_nil] at hliteral
  have hformula : Formula s.text.toList (.literal (Binary.ofNat s.value) 0) :=
    ⟨[], _, Blank.nil, rfl, .summand (.factor (.atom (by decide) hliteral))⟩
  have hdepth : s.text.toList.count '(' ≤ maxNesting := by
    rw [List.count_eq_zero.2 fun h => absurd (s.isDigit _ h) (by decide)]
    exact Nat.zero_le _
  obtain ⟨tree, d, htree, hd, hbare⟩ := hformula.expression_eq hdepth
  cases tree with
  | literal x offset =>
      cases hbare
      exact ⟨offset, parseChars_of_expression htree hd⟩
  | var name offset => cases hbare
  | binary op l r offset => cases hbare
  | call func a offset => cases hbare

/-- The number rounded to a double, and that to 32 bits. -/
def rounded (s : Digits) : Single := (Binary.ofNat s.value : Double).convert .single

/-- A number in range is compiled to one literal. -/
theorem compile_of_lt {s : Digits} (h : s.value < 2 ^ 128 - 2 ^ 103 - 2 ^ 74) :
    compile s.text = .ok ⟨[Word.ofSingle s.rounded]⟩ := by
  obtain ⟨offset, hparse⟩ := s.exists_parse
  have hrange := (Double.inSingleRange_ofNat_iff s.value).2 h
  rw [compile_of_parse hparse, encode_literal offset hrange]
  rfl

/-- A number out of range is reported with what it is rounded to. -/
theorem compile_of_le {s : Digits} (h : 2 ^ 128 - 2 ^ 103 - 2 ^ 74 ≤ s.value) :
    ∃ offset, compile s.text = .error (.encode (.literalRange (Binary.ofNat s.value) offset)) := by
  obtain ⟨offset, hparse⟩ := s.exists_parse
  have hrange : ¬Double.InSingleRange (Binary.ofNat s.value) := by
    rw [Double.inSingleRange_ofNat_iff]
    exact Nat.not_lt.2 h
  refine ⟨offset, ?_⟩
  rw [compile_of_parse hparse, encode_literal_error offset hrange]
  rfl

theorem lt_of_compile {s : Digits} {p : Program} (h : compile s.text = .ok p) :
    s.value < 2 ^ 128 - 2 ^ 103 - 2 ^ 74 := by
  by_contra hle
  obtain ⟨offset, herror⟩ := compile_of_le (Nat.not_lt.1 hle)
  rw [herror] at h
  cases h

/-! ## Range -/

/-- What a number is rounded to is infinite just if the number is out of range. -/
theorem isInfinite_rounded_iff (s : Digits) :
    s.rounded.isInfinite = true ↔ 2 ^ 128 - 2 ^ 103 - 2 ^ 74 ≤ s.value := by
  rw [rounded, Double.isInfinite_convert_iff_not_inSingleRange (Binary.isNaN_ofNat _),
    Double.inSingleRange_ofNat_iff, Nat.not_lt]

/-- **The range of literals.** A text of digits is compiled to one literal, unless its number is
`2 ^ 128 - 2 ^ 103 - 2 ^ 74` or more: then the literal is reported to be out of range. From that number
on, and not before, rounding to a double and then to 32 bits gives infinity; the rounding to a double
does so from `2 ^ 1024 - 2 ^ 970` on. -/
theorem compile_range (s : Digits) :
    ((∃ x offset, compile s.text = .error (.encode (.literalRange x offset))) ↔
      2 ^ 128 - 2 ^ 103 - 2 ^ 74 ≤ s.value) ∧
    (s.value < 2 ^ 128 - 2 ^ 103 - 2 ^ 74 →
      ∃ w y, compile s.text = .ok ⟨[w]⟩ ∧ Word.decode? w = some (.push y)) ∧
    ∃ (x : Double) (y : Single), Binary.IsRounded s.value x ∧ x.RoundsTo y ∧
      (x.isInfinite = true ↔ 2 ^ 1024 - 2 ^ 970 ≤ s.value) ∧
      (y.isInfinite = true ↔ 2 ^ 128 - 2 ^ 103 - 2 ^ 74 ≤ s.value) := by
  refine ⟨⟨?_, fun h => ⟨_, compile_of_le h⟩⟩, fun h => ?_, Binary.ofNat s.value, s.rounded, ?_⟩
  · rintro ⟨x, offset, herror⟩
    by_contra hlt
    rw [compile_of_lt (Nat.not_le.1 hlt)] at herror
    cases herror
  · exact ⟨_, _, compile_of_lt h, Word.decode?_ofSingle _⟩
  · exact ⟨Binary.isRounded_double_iff.2 rfl,
      (Binary.roundsTo_single_iff (Binary.isNaN_ofNat _)).2 rfl,
      Double.isInfinite_ofNat_iff _, s.isInfinite_rounded_iff⟩

/-- The first number that is out of range, with zeros before it. -/
theorem compile_range_first :
    let s : Digits := ⟨"00340282356779733642748073463979561713664", by decide, by simp⟩
    s.value = 2 ^ 128 - 2 ^ 103 - 2 ^ 74 ∧
      ∃ x offset, compile s.text = .error (.encode (.literalRange x offset)) := by
  intro s
  have hvalue : s.value = 2 ^ 128 - 2 ^ 103 - 2 ^ 74 := by decide +kernel
  exact ⟨hvalue, s.compile_range.1.2 hvalue.ge⟩

/-- The last number in range is the largest 32-bit number. -/
example : compile "340282356779733642748073463979561713663" =
    .ok ⟨[Word.ofSingle (Binary.ofBits 0x7f7fffff)]⟩ := by
  decide +kernel

end Digits

/-! ## Rounding -/

namespace Binary

variable {F G : Format} {n m : Nat} {x y z : Binary F}

/-- The value of a finite datum. -/
def value (x : Binary F) : ℚ := x.signedUnits / 2 ^ F.scale

theorem value_le_value_iff : x.value ≤ y.value ↔ x.signedUnits ≤ y.signedUnits := by
  have hscale : (0 : ℚ) < 2 ^ F.scale := by positivity
  unfold value
  rw [div_le_div_iff_of_pos_right hscale]
  exact Int.cast_le

theorem natCast_le_value_iff :
    (n : ℚ) ≤ x.value ↔ ((n * 2 ^ F.scale : Nat) : Int) ≤ x.signedUnits := by
  have hscale : (0 : ℚ) < 2 ^ F.scale := by positivity
  unfold value
  rw [le_div_iff₀ hscale]
  exact_mod_cast Iff.rfl

theorem value_le_natCast_iff : x.value ≤ n ↔ x.signedUnits ≤ ((n * 2 ^ F.scale : Nat) : Int) := by
  have hscale : (0 : ℚ) < 2 ^ F.scale := by positivity
  unfold value
  rw [div_le_iff₀ hscale]
  exact_mod_cast Iff.rfl

/-- A number that is rounded to the wider format and then to the narrower one is not negative. -/
theorem signedUnits_convert_ofNat (n : Nat) :
    ((ofNat n : Binary G).convert F).signedUnits = ((ofNat n : Binary G).convert F).units := by
  unfold signedUnits
  rw [negative_convert]
  rfl

/-- What is not above a value of the narrower format is not rounded above it. -/
theorem value_convert_ofNat_le (h : F.Within G) (hz : z.isFinite = true) (hn : (n : ℚ) ≤ z.value) :
    ((ofNat n : Binary G).convert F).value ≤ z.value := by
  rw [natCast_le_value_iff] at hn
  rw [value_le_value_iff, signedUnits_convert_ofNat]
  have hle : n * 2 ^ F.scale ≤ z.units := by
    unfold signedUnits at hn
    split at hn <;> omega
  have hunits : ((ofNat n : Binary G).convert F).units ≤ z.units :=
    F.units_strictMono.monotone (magnitude_convert_ofNat_le h hz hle)
  unfold signedUnits at hn ⊢
  split_ifs at hn ⊢ <;> omega

/-- What is not below a value of the narrower format is not rounded below it. -/
theorem le_value_convert_ofNat (h : F.Within G) (hz : z.isFinite = true) (hn : z.value ≤ n) :
    z.value ≤ ((ofNat n : Binary G).convert F).value := by
  rw [value_le_natCast_iff] at hn
  rw [value_le_value_iff, signedUnits_convert_ofNat]
  unfold signedUnits at hn ⊢
  split_ifs at hn ⊢
  · omega
  · have hunits : z.units ≤ ((ofNat n : Binary G).convert F).units :=
      F.units_strictMono.monotone (le_magnitude_convert_ofNat h hz (by omega))
    omega

/-- The datum is the number `n`, or one of the two values around it: no value of the format lies
strictly between the number and the datum, and a number that is a value stays what it is. -/
structure IsFaithful (n : Nat) (x : Binary F) : Prop where
  finite : x.isFinite = true
  not_between : ∀ z : Binary F, z.isFinite = true →
    ¬((n : ℚ) < z.value ∧ z.value < x.value) ∧ ¬(x.value < z.value ∧ z.value < n)
  exact : ∀ z : Binary F, z.isFinite = true → z.value = n → x.value = n

/-- **Rounding twice is faithful.** -/
theorem isFaithful_convert_ofNat (h : F.Within G)
    (hfinite : ((ofNat n : Binary G).convert F).isFinite = true) :
    IsFaithful n ((ofNat n : Binary G).convert F) where
  finite := hfinite
  not_between z hz := by
    constructor
    · rintro ⟨hlow, hhigh⟩
      exact absurd (value_convert_ofNat_le h hz hlow.le) hhigh.not_ge
    · rintro ⟨hlow, hhigh⟩
      exact absurd (le_value_convert_ofNat h hz hhigh.le) hlow.not_ge
  exact z hz hvalue := by
    apply le_antisymm
    · rw [← hvalue]
      exact value_convert_ofNat_le h hz hvalue.ge
    · rw [← hvalue]
      exact le_value_convert_ofNat h hz hvalue.le

/-- Rounding twice keeps order. -/
theorem value_convert_ofNat_mono (F G : Format) (h : n ≤ m) :
    ((ofNat n : Binary G).convert F).value ≤ ((ofNat m : Binary G).convert F).value := by
  rw [value_le_value_iff, signedUnits_convert_ofNat, signedUnits_convert_ofNat, Int.ofNat_le]
  apply F.units_strictMono.monotone
  exact magnitude_convert_le (isNaN_ofNat m) (magnitude_ofNat_le h)

end Binary

namespace Digits

/-- Up to `2 ^ 53` numbers are doubles, and so they are rounded only once. -/
theorem isRounded_rounded {s : Digits} (h : s.value ≤ 2 ^ 53) :
    Binary.IsRounded s.value s.rounded := by
  rw [Binary.isRounded_iff (by decide) (by decide)]
  exact Binary.convert_ofNat .single (by decide +kernel) h

theorem isFaithful_rounded {s : Digits} (h : s.value < 2 ^ 128 - 2 ^ 103 - 2 ^ 74) :
    Binary.IsFaithful s.value s.rounded := by
  apply Binary.isFaithful_convert_ofNat Format.single_within_double
  have hnan : s.rounded.isNaN = false := Binary.isNaN_convert _ (Binary.isNaN_ofNat _)
  rcases Binary.isFinite_or_eq_infinity hnan with hfinite | hinfinite
  · exact hfinite
  · have hlarge := s.isInfinite_rounded_iff.1 (by rw [hinfinite, Binary.isInfinite_infinity])
    omega

/-- **Literals are rounded faithfully and in order.** Whatever texts of digits are compiled to is one
literal. No 32-bit number lies strictly between the number that is written and the literal, and the
literal of a 32-bit number is that number. A larger number has no smaller literal, and up to `2 ^ 53`
the literal is the nearest 32-bit number, a tie going to the even one. -/
theorem compile_faithful (s s' : Digits) (p p' : Program) (h : compile s.text = .ok p)
    (h' : compile s'.text = .ok p') :
    ∃ x x' : Single, p.words.map Word.decode? = [some (.push x)] ∧
      p'.words.map Word.decode? = [some (.push x')] ∧
      Binary.IsFaithful s.value x ∧
      (s.value ≤ s'.value → x.value ≤ x'.value) ∧
      (s.value ≤ 2 ^ 53 → Binary.IsRounded s.value x) := by
  have hlt := lt_of_compile h
  have hlt' := lt_of_compile h'
  rw [compile_of_lt hlt] at h
  rw [compile_of_lt hlt'] at h'
  cases h
  cases h'
  refine ⟨s.rounded, s'.rounded, ?_, ?_, isFaithful_rounded hlt, ?_, isRounded_rounded⟩
  · rw [List.map_singleton, Word.decode?_ofSingle]
  · rw [List.map_singleton, Word.decode?_ofSingle]
  · exact Binary.value_convert_ofNat_mono .single .double

/-- The number `2 ^ 60 + 2 ^ 36 + 1` is rounded to a double halfway between two 32-bit numbers, and so
its literal is the even one of them and not the nearer one. -/
theorem compile_faithful_tie :
    let s : Digits := ⟨"1152921573326323713", by decide, by simp⟩
    let s' : Digits := ⟨"1152921573326323969", by decide, by simp⟩
    let p : Program := ⟨[0x5d80000000000000]⟩
    let p' : Program := ⟨[0x5d80000100000000]⟩
    compile s.text = .ok p ∧ compile s'.text = .ok p' ∧ s.value ≤ s'.value ∧
      ∃ x x' : Single, p.words.map Word.decode? = [some (.push x)] ∧
        p'.words.map Word.decode? = [some (.push x')] ∧
        Binary.IsFaithful s.value x ∧
        (s.value ≤ s'.value → x.value ≤ x'.value) ∧
        (s.value ≤ 2 ^ 53 → Binary.IsRounded s.value x) := by
  intro s s' p p'
  have h : compile s.text = .ok p := by decide +kernel
  have h' : compile s'.text = .ok p' := by decide +kernel
  exact ⟨h, h', by decide +kernel, compile_faithful s s' p p' h h'⟩

end Digits

end LiveFormula
