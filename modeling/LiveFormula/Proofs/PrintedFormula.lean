import LiveFormula.Expr.Printer
import LiveFormula.Proofs.Conversion
import LiveFormula.Proofs.Recognition
import LiveFormula.Proofs.RoundTrip

/-!
# Printed formulas are read back

A tree is printed as a formula with parentheses around every operation and six places for every
literal. The literals of a tree that was parsed are whole numbers, of whatever size, so their six
places are zeros; once these are taken out, what is left is a formula that is read as the same tree.

* `Binary.dvd_units_ofNat` — a natural number is rounded to a whole number.
* `Binary.toList_fixed` — the digits of a whole number with places.
* `Expr.remove_parenthesized` — the printed formula without the places.
* `Expr.formula_derives` — that formula stands for the tree.
* `Expr.shallow_formula` — it is nested no deeper than the tree is high.
* `parse_parenthesized` — reading back.
-/

set_option autoImplicit false

namespace LiveFormula

/-! ## Whole numbers -/

/-- From the magnitude of `2 ^ fraction` on all values are whole numbers. -/
theorem Format.dvd_units {F : Format} {k : Nat} (hk : (F.scale + 1) * 2 ^ F.fraction ≤ k) :
    2 ^ F.scale ∣ F.units k := by
  have hdiv : F.scale + 1 ≤ k / 2 ^ F.fraction :=
    (Nat.le_div_iff_mul_le (Nat.two_pow_pos _)).2 hk
  have hnormal : ¬k < 2 ^ F.fraction := by
    intro hlt
    rw [Nat.div_eq_of_lt hlt] at hdiv
    omega
  simp only [units, Nat.pow_eq, if_neg hnormal]
  exact Nat.dvd_mul_left_of_dvd (Nat.pow_dvd_pow 2 (by omega)) _

/-- Doubles reach that far. -/
theorem Format.double_whole_range :
    (Format.double.scale + 1) * 2 ^ Format.double.fraction ≤ Format.double.infinity := by
  decide +kernel

namespace Binary

variable {F : Format} {x : Binary F}

/-- A natural number is rounded to a whole number: a small one is exact, and from `2 ^ fraction` on
the grid has nothing else. -/
theorem dvd_units_ofNat (hF : (F.scale + 1) * 2 ^ F.fraction ≤ F.infinity) (n : Nat) :
    2 ^ F.scale ∣ (ofNat n : Binary F).units := by
  have hnormal : F.units ((F.scale + 1) * 2 ^ F.fraction) = 2 ^ F.fraction * 2 ^ F.scale := by
    simpa using F.units_add_mul F.scale (Nat.zero_le _)
  by_cases hn : n < 2 ^ F.fraction
  · obtain ⟨k, hk⟩ := F.exists_eq_units F.scale (m := n) (by omega)
    have hlt : k < (F.scale + 1) * 2 ^ F.fraction := by
      rw [← F.units_strictMono.lt_iff_lt, hk, hnormal]
      exact Nat.mul_lt_mul_of_pos_right hn (Nat.two_pow_pos _)
    have hnearest : F.nearest (n * 2 ^ F.scale) 1 = k := by
      rw [← hk, ← Nat.one_mul (F.units k)]
      exact Format.nearest_units Nat.one_pos (by omega)
    rw [units, magnitude_ofNat, hnearest, hk]
    exact Nat.dvd_mul_left _ _
  · refine Format.dvd_units (Format.le_nearest_of_le Nat.one_pos hF ?_)
    rw [Nat.one_mul, hnormal]
    exact Nat.mul_le_mul_right _ (Nat.not_lt.1 hn)

/-- The whole part of the absolute value. -/
def whole (x : Binary F) : Nat := x.units / 2 ^ F.scale

/-- A rounded natural number is that of its whole part. -/
theorem ofNat_whole (hF : (F.scale + 1) * 2 ^ F.fraction ≤ F.infinity) (n : Nat) :
    ofNat (ofNat n : Binary F).whole = (ofNat n : Binary F) := by
  refine ext_magnitude rfl ?_
  rw [magnitude_ofNat, whole, Nat.div_mul_cancel (dvd_units_ofNat hF n), units,
    ← Nat.one_mul (F.units _)]
  exact Format.nearest_units Nat.one_pos (F.nearest_le_infinity _ _)

/-! ## The digits of whole numbers -/

theorem roundHalfEven_mul (a : Nat) {d : Nat} (hd : 0 < d) : roundHalfEven (a * d) d = a := by
  simp [roundHalfEven, Nat.mul_div_cancel a hd, hd]

theorem toDigits_mul_pow {v : Nat} (hv : 0 < v) (places : Nat) :
    Nat.toDigits 10 (v * 10 ^ places) = Nat.toDigits 10 v ++ List.replicate places '0' := by
  induction places with
  | zero => simp
  | succ places ih =>
      have hpos : 0 < v * 10 ^ places := Nat.mul_pos hv (Nat.pow_pos (by decide))
      have hstep := Nat.toDigits_append_toDigits (b := 10) (d := 0) (by decide) hpos (by decide)
      rw [Nat.add_zero, ih, Nat.toDigits_zero] at hstep
      rw [Nat.pow_succ', Nat.mul_left_comm, ← hstep, List.append_assoc, List.replicate_succ']

theorem padLeft_toDigits (v places : Nat) :
    padLeft (places + 1) '0' (Nat.toDigits 10 (v * 10 ^ places)) =
      Nat.toDigits 10 v ++ List.replicate places '0' := by
  rcases Nat.eq_zero_or_pos v with rfl | hv
  · rw [Nat.zero_mul, Nat.toDigits_zero]
    simp [padLeft, ← List.replicate_succ, ← List.replicate_succ']
  · have hlength : 0 < (Nat.toDigits 10 v).length := Nat.length_toDigits_pos
    rw [toDigits_mul_pow hv, padLeft, List.length_append, List.length_replicate,
      Nat.sub_eq_zero_of_le (by omega)]
    rfl

theorem fixedDigits_mul_pow (v : Nat) {places : Nat} (hplaces : places ≠ 0) :
    fixedDigits places (v * 10 ^ places) =
      Nat.toDigits 10 v ++ ('.' :: List.replicate places '0') := by
  simp [fixedDigits, padLeft_toDigits, hplaces]

/-- **A whole number is written with its digits and as many zeros as there are places.** -/
theorem toList_fixed {places : Nat} (hplaces : places ≠ 0) (hfinite : x.isFinite = true)
    (hsign : x.negative = false) (hwhole : 2 ^ F.scale ∣ x.units) :
    (x.fixed places).toList = Nat.toDigits 10 x.whole ++ ('.' :: List.replicate places '0') := by
  have hunits : x.units * 10 ^ places = x.whole * 10 ^ places * 2 ^ F.scale := by
    rw [Nat.mul_right_comm, whole, Nat.div_mul_cancel hwhole]
  rw [fixed, Nat.pow_eq, Nat.pow_eq, hunits, roundHalfEven_mul _ (Nat.two_pow_pos _),
    fixedDigits_mul_pow _ hplaces]
  simp [written, isNaN_eq_false_of_isFinite hfinite, isInfinite_eq_false_of_isFinite hfinite, hsign]

end Binary

/-! ## Taking out a word -/

namespace Text

/-- The text without the next `skipped` characters, and after them without the word wherever it
occurs. -/
def removeFrom (word : List Char) (skipped : Nat) : List Char → List Char
  | [] => []
  | c :: rest =>
    match skipped with
    | n + 1 => removeFrom word n rest
    | 0 =>
      if word.isPrefixOf (c :: rest) then removeFrom word (word.length - 1) rest
      else c :: removeFrom word 0 rest

/-- The text without a word, which is taken out wherever it occurs, from left to right. -/
def remove (word text : List Char) : List Char := removeFrom word 0 text

theorem removeFrom_append (word s t : List Char) :
    removeFrom word s.length (s ++ t) = remove word t := by
  induction s with
  | nil => rfl
  | cons c s ih => exact ih

section

variable {c : Char} {word : List Char}

/-- A text without the first character of the word is passed over. -/
theorem remove_append {s : List Char} (hc : c ∉ s) (t : List Char) :
    remove (c :: word) (s ++ t) = s ++ remove (c :: word) t := by
  induction s with
  | nil => rfl
  | cons d s ih =>
      rw [List.mem_cons, not_or] at hc
      have hword : ¬(c :: word).isPrefixOf (d :: (s ++ t)) = true := fun h =>
        hc.1 (List.cons_prefix_cons.1 (List.isPrefixOf_iff_prefix.1 h)).1
      rw [List.cons_append, remove, removeFrom, if_neg hword]
      exact congrArg (d :: ·) (ih hc.2)

theorem remove_word_append (t : List Char) :
    remove (c :: word) (c :: word ++ t) = remove (c :: word) t := by
  have hword : (c :: word).isPrefixOf (c :: (word ++ t)) = true :=
    List.isPrefixOf_iff_prefix.2 (List.prefix_append (c :: word) t)
  rw [List.cons_append, remove, removeFrom, if_pos hword]
  exact removeFrom_append (c :: word) word t

end

end Text

/-! ## The formula without places -/

/-- The places of a whole number, as they are printed. -/
def zeroPlaces : List Char := '.' :: List.replicate 6 '0'

namespace Expr

/-- A formula for the tree, with parentheses around every operation and literals without places. -/
def formula : Expr → List Char
  | var name _ => name.toList
  | literal x _ => Nat.toDigits 10 x.whole
  | binary op l r _ => '(' :: (l.formula ++ op.symbol.toList ++ r.formula) ++ [')']
  | call func a _ => func.name.toList ++ ('(' :: a.formula ++ [')'])

/-- A leaf as formulas have them: a variable is named by letters that do not begin with the name of
a function, and a literal is a natural number. -/
def Spelled : Expr → Prop
  | var name _ =>
    name.toList ≠ [] ∧ (∀ c ∈ name.toList, c.isAlpha) ∧
      ∀ func : Func, ¬func.name.toList <+: name.toList
  | literal x _ => ∃ n, x = Binary.ofNat n
  | _ => True

/-- A leaf with a finite value: a literal must not be infinite. -/
def FiniteValue : Expr → Prop
  | literal x _ => x.isFinite = true
  | _ => True

theorem toList_parenthesized (e : Expr) :
    e.parenthesized.toList =
      match e with
      | var name _ => name.toList
      | literal x _ => (x.fixed 6).toList
      | binary op l r _ =>
        '(' :: (l.parenthesized.toList ++ op.symbol.toList ++ r.parenthesized.toList) ++ [')']
      | call func a _ => func.name.toList ++ ('(' :: a.parenthesized.toList ++ [')']) := by
  cases e <;>
    simp [parenthesized, Algebra.fold_eq_recurse, Algebra.recurse, parenthesizedAlgebra]

/-- The digits of a literal, and its places. -/
theorem toList_fixed_literal {x : Double} {offset : Int} (h : (literal x offset).Spelled)
    (hfinite : (literal x offset).FiniteValue) :
    (x.fixed 6).toList = Nat.toDigits 10 x.whole ++ zeroPlaces := by
  obtain ⟨n, rfl⟩ := h
  have hwhole := Binary.dvd_units_ofNat Format.double_whole_range n
  exact Binary.toList_fixed (by decide) hfinite rfl hwhole

/-- What has no point in it is passed over. -/
theorem remove_zeroPlaces {s : List Char} (hs : '.' ∉ s) (t : List Char) :
    Text.remove zeroPlaces (s ++ t) = s ++ Text.remove zeroPlaces t :=
  Text.remove_append hs t

/-- **Without the places of its literals the printed formula is the formula without places.** -/
theorem remove_parenthesized {e : Expr} (he : ∀ leaf ∈ e.leaves, leaf.Spelled ∧ leaf.FiniteValue)
    (t : List Char) :
    Text.remove zeroPlaces (e.parenthesized.toList ++ t) =
      e.formula ++ Text.remove zeroPlaces t := by
  have hopen : ∀ t, Text.remove zeroPlaces ('(' :: t) = '(' :: Text.remove zeroPlaces t :=
    remove_zeroPlaces (s := ['(']) (by simp)
  have hclose : ∀ t, Text.remove zeroPlaces (')' :: t) = ')' :: Text.remove zeroPlaces t :=
    remove_zeroPlaces (s := [')']) (by simp)
  rw [toList_parenthesized]
  -- what follows may be anything: the places of a literal are taken out as one word
  induction e generalizing t with
  | var name offset =>
      obtain ⟨⟨-, hletters, -⟩, -⟩ := he _ List.mem_cons_self
      exact remove_zeroPlaces (fun h => by simpa using hletters _ h) t
  | literal x offset =>
      obtain ⟨hspelled, hfinite⟩ := he _ List.mem_cons_self
      have hdigits : '.' ∉ Nat.toDigits 10 x.whole := fun h => by
        simpa using Nat.isDigit_of_mem_toDigits (by decide) (by decide) h
      simp only [toList_fixed_literal hspelled hfinite, List.append_assoc]
      rw [remove_zeroPlaces hdigits, zeroPlaces, Text.remove_word_append]
      rfl
  | binary op l r offset ihl ihr =>
      have hl := ihl fun leaf h => he leaf (List.mem_append_left _ h)
      have hr := ihr fun leaf h => he leaf (List.mem_append_right _ h)
      rw [← toList_parenthesized] at hl hr
      have hsymbol : '.' ∉ op.symbol.toList := by cases op <;> decide
      simp only [List.cons_append, List.append_assoc, List.nil_append, hopen, hclose, hl, hr,
        remove_zeroPlaces hsymbol, formula]
  | call func a offset ih =>
      have ha := ih he
      rw [← toList_parenthesized] at ha
      have hname : '.' ∉ func.name.toList := by cases func <;> decide
      simp only [List.cons_append, List.append_assoc, List.nil_append, hopen, hclose, ha,
        remove_zeroPlaces hname, formula]

end Expr

/-! ## The formula stands for the tree -/

open Grammar

namespace Grammar

theorem Derives.parenthesized {s : List Char} {e : Expr} (h : Derives .expression s e) :
    Derives .group ('(' :: s ++ [')']) e := by
  simpa using Derives.group Blank.nil h Blank.nil

/-- An operation on two atoms. -/
theorem Derives.operation (op : BinOp) {s s' : List Char} {l r : Expr} (hl : Derives .atom s l)
    (hr : Derives .atom s' r) :
    Derives .expression (s ++ op.symbol.toList ++ s') (.binary op l r 0) := by
  rw [← List.append_nil (s ++ op.symbol.toList)]
  cases op with
  | add => exact .sum .add (by decide) (.summand (.factor hl)) Blank.nil (.factor hr)
  | sub => exact .sum .sub (by decide) (.summand (.factor hl)) Blank.nil (.factor hr)
  | mul => exact .summand (.product .mul (by decide) (.factor hl) Blank.nil hr)
  | div => exact .summand (.product .div (by decide) (.factor hl) Blank.nil hr)

end Grammar

namespace Expr

/-- **The formula stands for the tree.** -/
theorem formula_derives {e : Expr} (he : ∀ leaf ∈ e.leaves, leaf.Spelled) :
    Derives .atom e.formula e.bare := by
  induction e with
  | var name offset =>
      obtain ⟨hne, hletters, hkeyword⟩ := he _ List.mem_cons_self
      have hname := Derives.name hne hletters hkeyword Blank.nil
      rw [List.append_nil, String.ofList_toList] at hname
      exact .atom (by decide) hname
  | literal x offset =>
      obtain ⟨n, rfl⟩ := he _ List.mem_cons_self
      have hrounded : Binary.IsRounded
          (Nat.ofDigitChars 10 (Nat.toDigits 10 (Binary.ofNat n : Double).whole) 0)
          (Binary.ofNat n : Double) := by
        rw [Nat.ofDigitChars_ten_toDigits, Binary.isRounded_double_iff,
          Binary.ofNat_whole Format.double_whole_range]
      have hliteral := Derives.literal Nat.toDigits_ne_nil
        (fun c hc => Nat.isDigit_of_mem_toDigits (by decide) (by decide) hc) hrounded Blank.nil
      rw [List.append_nil] at hliteral
      exact .atom (by decide) hliteral
  | binary op l r offset ihl ihr =>
      have hl := ihl fun leaf h => he leaf (List.mem_append_left _ h)
      have hr := ihr fun leaf h => he leaf (List.mem_append_right _ h)
      exact .atom (by decide) (Derives.operation op hl hr).parenthesized
  | call func a offset ih =>
      have hgroup := Derives.parenthesized (.summand (.factor (ih he)))
      have hcall := Derives.call func Blank.nil hgroup
      rw [List.append_nil] at hcall
      exact .atom (by decide) hcall

end Expr

/-! ## How deep the formula is nested -/

namespace Grammar

/-- No part from the beginning opens more than `depth` parentheses that it does not close. -/
def Shallow (depth : Nat) (s : List Char) : Prop := ∀ p, p <+: s → p.count '(' ≤ p.count ')' + depth

variable {depth : Nat} {s t : List Char}

theorem Shallow.mono {depth' : Nat} (h : Shallow depth s) (hle : depth ≤ depth') :
    Shallow depth' s := by
  intro p hp
  have hcount := h p hp
  omega

theorem shallow_of_not_mem (h : '(' ∉ s) (depth : Nat) : Shallow depth s := by
  intro p hp
  rw [List.count_eq_zero.2 fun hmem => h (hp.subset hmem)]
  exact Nat.zero_le _

theorem Shallow.append (hs : Shallow depth s) (ht : Shallow depth t)
    (hbalanced : s.count '(' = s.count ')') : Shallow depth (s ++ t) := by
  rintro p ⟨r, hr⟩
  rcases List.append_eq_append_iff.1 hr with ⟨u, hu, -⟩ | ⟨u, rfl, hu⟩
  · exact hs p ⟨u, hu.symm⟩
  · have hcount := ht u ⟨r, hu.symm⟩
    rw [List.count_append, List.count_append]
    omega

theorem Shallow.parenthesized (hs : Shallow depth s) :
    Shallow (depth + 1) ('(' :: s ++ [')']) := by
  intro p hp
  rcases List.prefix_concat_iff.1 hp with rfl | hp
  · have hcount := hs s List.prefix_rfl
    simp
    omega
  · rcases List.prefix_cons_iff.1 hp with rfl | ⟨q, rfl, hq⟩
    · exact Nat.zero_le _
    · have hcount := hs q hq
      simp
      omega

theorem Shallow.nesting_le (h : Shallow depth s) : nesting s ≤ depth := by
  unfold nesting
  cases hmax : (s.inits.map excess).max? with
  | none => exact Nat.zero_le _
  | some n =>
      obtain ⟨p, hp, rfl⟩ := List.mem_map.1 (List.max?_mem hmax)
      have hcount := h p ((List.mem_inits p s).1 hp)
      simp only [Option.getD_some, excess]
      omega

end Grammar

namespace Expr

/-- The formula is nested no deeper than the tree is high. -/
theorem shallow_formula {e : Expr} (he : ∀ leaf ∈ e.leaves, leaf.Spelled) :
    Shallow e.height e.formula := by
  induction e with
  | var name offset =>
      obtain ⟨-, hletters, -⟩ := he _ List.mem_cons_self
      exact shallow_of_not_mem (fun h => by simpa using hletters _ h) _
  | literal x offset =>
      refine shallow_of_not_mem (fun h => ?_) _
      simpa using Nat.isDigit_of_mem_toDigits (by decide) (by decide) h
  | binary op l r offset ihl ihr =>
      have hleft : ∀ leaf ∈ l.leaves, leaf.Spelled := fun leaf h =>
        he leaf (List.mem_append_left _ h)
      have hl := (ihl hleft).mono (Nat.le_max_left _ r.height)
      have hr := (ihr fun leaf h => he leaf (List.mem_append_right _ h)).mono
        (Nat.le_max_right l.height _)
      have hsymbol : '(' ∉ op.symbol.toList := by cases op <;> decide
      have hcount := (formula_derives hleft).count_eq
      refine ((hl.append (shallow_of_not_mem hsymbol _) hcount).append hr ?_).parenthesized
      rw [List.count_append, List.count_append, hcount, count_symbol_eq]
  | call func a offset ih =>
      have hname : '(' ∉ func.name.toList := by cases func <;> decide
      exact (shallow_of_not_mem hname _).append (ih he).parenthesized (count_name_eq func)

end Expr

/-! ## Reading back -/

/-- The leaves of the tree of a formula. -/
theorem Grammar.DerivesAt.spelled {symbol : Symbol} {p : Nat} {s : List Char} {e : Expr}
    (h : DerivesAt symbol p s e) : ∀ leaf ∈ e.leaves, leaf.Spelled := by
  induction h with
  | literal hne hdigits hgap =>
      intro leaf hleaf
      obtain rfl := List.mem_singleton.1 hleaf
      exact ⟨_, rfl⟩
  | name hne hletters hkeyword hgap =>
      intro leaf hleaf
      obtain rfl := List.mem_singleton.1 hleaf
      simpa [Expr.Spelled] using ⟨hne, hletters, hkeyword⟩
  | group _ _ _ ih => exact ih
  | call _ _ _ ih => exact ih
  | atom _ _ ih => exact ih
  | factor _ ih => exact ih
  | summand _ ih => exact ih
  | product _ _ _ _ ihl ihr =>
      exact fun leaf hleaf => (List.mem_append.1 hleaf).elim (ihl leaf) (ihr leaf)
  | sum _ _ _ _ ihl ihr =>
      exact fun leaf hleaf => (List.mem_append.1 hleaf).elim (ihl leaf) (ihr leaf)

theorem spelled_of_parse {text : String} {e : Expr} (h : parse text = .ok e) :
    ∀ leaf ∈ e.leaves, leaf.Spelled := by
  obtain ⟨_, _, -, -, hderives⟩ := derivesAt_of_parse h
  exact hderives.spelled

namespace Expr

/-- Offsets are not printed. -/
theorem parenthesized_bare (e : Expr) : e.bare.parenthesized = e.parenthesized := by
  rw [parenthesized, parenthesized, Algebra.fold_eq_recurse, Algebra.fold_eq_recurse]
  induction e with
  | var name offset => rfl
  | literal x offset => rfl
  | binary op l r offset ihl ihr =>
      simp only [bare, Algebra.recurse, parenthesizedAlgebra] at ihl ihr ⊢
      rw [ihl, ihr]
  | call func a offset ih =>
      simp only [bare, Algebra.recurse, parenthesizedAlgebra] at ih ⊢
      rw [ih]

theorem remove_parenthesized_eq {e : Expr} (he : ∀ leaf ∈ e.leaves, leaf.Spelled)
    (hfinite : ∀ leaf ∈ e.leaves, leaf.FiniteValue) :
    Text.remove ".000000".toList e.parenthesized.toList = e.formula := by
  have hremove := remove_parenthesized (fun leaf h => ⟨he leaf h, hfinite leaf h⟩) []
  rw [List.append_nil] at hremove
  exact hremove.trans (List.append_nil _)

theorem formula_of_spelled {e : Expr} (he : ∀ leaf ∈ e.leaves, leaf.Spelled) :
    Formula e.formula e.bare :=
  ⟨[], e.formula, Blank.nil, rfl, .summand (.factor (formula_derives he))⟩

/-- Trees that are printed alike differ in their offsets only. -/
theorem bare_eq_of_parenthesized_eq {a b : Expr} (ha : ∀ leaf ∈ a.leaves, leaf.Spelled)
    (ha' : ∀ leaf ∈ a.leaves, leaf.FiniteValue) (hb : ∀ leaf ∈ b.leaves, leaf.Spelled)
    (hb' : ∀ leaf ∈ b.leaves, leaf.FiniteValue) (h : a.parenthesized = b.parenthesized) :
    a.bare = b.bare := by
  have hformula : a.formula = b.formula := by
    rw [← remove_parenthesized_eq ha ha', ← remove_parenthesized_eq hb hb', h]
  exact (formula_of_spelled ha).unique (hformula ▸ formula_of_spelled hb)

/-- The printed formula of a tree is read back once the places of its literals are taken out, and it
is printed for no other tree. -/
structure ReadsBack (e : Expr) : Prop where
  /-- It is read as the same tree, and that is encoded with the same outcome. -/
  reads : ∃ e',
    parse (String.ofList (Text.remove ".000000".toList e.parenthesized.toList)) = .ok e' ∧
      e'.bare = e.bare ∧ e'.same e = true ∧
      (encode e').mapError EncodeError.bare = (encode e).mapError EncodeError.bare
  /-- A tree that is parsed is printed in the same way just if it differs in the offsets only. -/
  injective : ∀ (text : String) (b : Expr), parse text = .ok b →
    (∀ leaf ∈ b.leaves, leaf.FiniteValue) → (b.parenthesized = e.parenthesized ↔ b.bare = e.bare)

end Expr

/-- **Printed formulas are read back.** This is so for every tree that is parsed, if it is no higher
than 100 and its literals are finite. -/
theorem parse_parenthesized {text : String} {e : Expr} (hparse : parse text = .ok e)
    (hheight : e.height ≤ 100) (hfinite : ∀ leaf ∈ e.leaves, leaf.FiniteValue) : e.ReadsBack := by
  have hspelled := spelled_of_parse hparse
  constructor
  · have hnesting : nesting e.formula ≤ maxNesting :=
      (Expr.shallow_formula hspelled).nesting_le.trans (hheight.trans (by decide))
    obtain ⟨e', hparse', hbare⟩ := (Expr.formula_of_spelled hspelled).parseChars_eq hnesting
    rw [Expr.remove_parenthesized_eq hspelled hfinite]
    refine ⟨e', ?_, hbare, Expr.same_of_bare_eq hbare (hasValue_of_parse hparse), ?_⟩
    · rw [parse, String.toList_ofList]
      exact hparse'
    · rw [← Expr.encode_bare, ← Expr.encode_bare, hbare]
  · intro text' b hparse' hfinite'
    constructor
    · exact Expr.bare_eq_of_parenthesized_eq (spelled_of_parse hparse') hfinite' hspelled hfinite
    · intro hbare
      rw [← Expr.parenthesized_bare b, hbare, Expr.parenthesized_bare]

/-- A literal that is rounded, in an operation beside a call. -/
theorem parse_parenthesized_rounded :
    ∃ e, parse "sin(2*t) - 9007199254740993" = .ok e ∧ e.height ≤ 100 ∧
      (∀ leaf ∈ e.leaves, leaf.FiniteValue) ∧
      e.parenthesized = "(sin((2.000000*t))-9007199254740992.000000)" ∧ e.ReadsBack := by
  have hparse : parse "sin(2*t) - 9007199254740993" =
      .ok (.binary .sub (.call .sin (.binary .mul (.literal (Binary.ofNat 2) 4) (.var "t" 6) 4) 0)
        (.literal (Binary.ofNat 9007199254740993) 11) 0) := by
    rfl
  have hfinite : ∀ leaf ∈ [Expr.literal (Binary.ofNat 2) 4, .var "t" 6,
      .literal (Binary.ofNat 9007199254740993) 11], leaf.FiniteValue := by
    have hsmall : (Binary.ofNat 2 : Double).isFinite = true := by decide +kernel
    have hlarge : (Binary.ofNat 9007199254740993 : Double).isFinite = true := by decide +kernel
    simp [Expr.FiniteValue, hsmall, hlarge]
  exact ⟨_, hparse, by decide, hfinite, by decide +kernel,
    parse_parenthesized hparse (by decide) hfinite⟩

end LiveFormula
