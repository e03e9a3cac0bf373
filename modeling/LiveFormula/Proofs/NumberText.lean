import LiveFormula.Number.Numeral
import LiveFormula.Number.Text
import LiveFormula.Proofs.Conversion
import Mathlib.Data.List.TakeWhile

/-!
# Reading numbers back from their text

The text of a double reads back as the same double, whatever its size, and never as an integer. The
text of a decimal is its digits with a point somewhere among them or zeros around them, or with an
exponent behind them; the reader finds the same digits, and with them the same value.

* `Decimal.toBinary_digits` — the digits without the zeros at the end have the value of the decimal.
* `Numeral.Spells` — a word that is read as a decimal; `Decimal.positional_spells` and
  `Decimal.scientific_spells` say which one the two ways of writing spell.
* `Numeral.text_reads` — the text of a double.
-/

set_option autoImplicit false

namespace LiveFormula

/-! ## The digits of a decimal -/

namespace Decimal

theorem isDigit_of_mem_zeros {n : Nat} {c : Char} (hc : c ∈ List.replicate n '0') :
    c.isDigit = true := by
  rw [List.eq_of_mem_replicate hc]
  rfl

theorem trimZeros_append (digits : List Char) :
    ∃ n, trimZeros digits ++ List.replicate n '0' = digits := by
  have hzero : ∀ c ∈ digits.reverse.takeWhile (· == '0'), c = '0' := by
    intro c hc
    simpa using List.mem_takeWhile_imp hc
  refine ⟨(digits.reverse.takeWhile (· == '0')).length, ?_⟩
  rw [trimZeros, ← List.reverse_replicate, ← List.eq_replicate_of_mem hzero, ← List.reverse_append,
    List.takeWhile_append_dropWhile, List.reverse_reverse]

/-- The digits are those of the coefficient up to the zeros at the end. -/
theorem digits_append {d : Decimal} (hd : d.coefficient ≠ 0) :
    ∃ n, d.digits ++ List.replicate n '0' = Nat.toDigits 10 d.coefficient := by
  obtain ⟨n, hn⟩ := trimZeros_append (Nat.toDigits 10 d.coefficient)
  cases htrim : trimZeros (Nat.toDigits 10 d.coefficient) with
  | nil =>
      -- a coefficient of zeros only would be zero
      rw [htrim, List.nil_append] at hn
      have hvalue := congrArg (Nat.ofDigitChars 10 · 0) hn
      rw [Nat.ofDigitChars_replicate_zero, Nat.ofDigitChars_ten_toDigits] at hvalue
      exact absurd hvalue.symm hd
  | cons c cs =>
      rw [htrim] at hn
      exact ⟨n, by rw [digits, htrim, hn]⟩

theorem digits_ne_nil (d : Decimal) : d.digits ≠ [] := by
  unfold digits
  split
  · simp
  · assumption

theorem isDigit_of_mem_digits {d : Decimal} {c : Char} (hc : c ∈ d.digits) : c.isDigit = true := by
  by_cases hd : d.coefficient = 0
  · have hzero : d.digits = ['0'] := by rw [digits, hd]; rfl
    rw [hzero, List.mem_singleton] at hc
    rw [hc]
    rfl
  · obtain ⟨n, hn⟩ := digits_append hd
    have hmem : c ∈ Nat.toDigits 10 d.coefficient := hn ▸ List.mem_append_left _ hc
    exact Nat.isDigit_of_mem_toDigits (by decide) (by decide) hmem

/-- The digits have the value of the decimal, with the exponent that the leading digit gives. -/
theorem toBinary_digits {d : Decimal} (hd : d.coefficient ≠ 0) (negative : Bool) :
    toBinary .double negative
        ⟨Nat.ofDigitChars 10 d.digits 0, d.leading + 1 - d.digits.length⟩ =
      d.toBinary .double negative := by
  obtain ⟨n, hn⟩ := digits_append hd
  have hvalue : Nat.ofDigitChars 10 d.digits 0 * 10 ^ n = d.coefficient := by
    have := congrArg (Nat.ofDigitChars 10 · 0) hn
    rwa [Nat.ofDigitChars_append, Nat.ofDigitChars_replicate_zero, Nat.ofDigitChars_ten_toDigits,
      Nat.mul_comm] at this
  have hlength : d.leading + 1 - d.digits.length = d.exponent + n := by
    rw [leading, ← hn, List.length_append, List.length_replicate]
    omega
  rw [hlength, ← toBinary_mul_pow, hvalue]

end Decimal

/-! ## Words -/

namespace Numeral

open Text

/-- The characters of the words that are written: letters, digits, point and signs. -/
def WordChar (c : Char) : Prop := c.isAlpha = true ∨ c.isDigit = true ∨ c ∈ ['.', '+', '-']

instance (c : Char) : Decidable (WordChar c) := inferInstanceAs (Decidable (_ ∨ _))

theorem WordChar.ne {c d : Char} (h : WordChar c) (hd : ¬WordChar d) : c ≠ d := by
  rintro rfl
  exact hd h

theorem WordChar.toNat_lt {c : Char} (h : WordChar c) : 32 < c.toNat ∧ c.toNat < 0x80 := by
  rcases h with h | h | h
  · rcases Bool.or_eq_true_iff.1 h with h | h
    · have hlow : 'A'.val ≤ c.val := (of_decide_eq_true h).1
      have hhigh : c.val ≤ 'Z'.val := (of_decide_eq_true h).2
      exact ⟨Nat.lt_of_lt_of_le (by decide) hlow, Nat.lt_of_le_of_lt hhigh (by decide)⟩
    · have hlow : 'a'.val ≤ c.val := of_decide_eq_true (Bool.and_eq_true_iff.1 h).1
      have hhigh : c.val ≤ 'z'.val := of_decide_eq_true (Bool.and_eq_true_iff.1 h).2
      exact ⟨Nat.lt_of_lt_of_le (by decide) hlow, Nat.lt_of_le_of_lt hhigh (by decide)⟩
  · obtain ⟨hlow, hhigh⟩ := Char.isDigit_iff_toNat.1 h
    exact ⟨Nat.lt_of_lt_of_le (by decide) hlow, Nat.lt_of_le_of_lt hhigh (by decide)⟩
  · simp only [List.mem_cons, List.not_mem_nil, or_false] at h
    rcases h with rfl | rfl | rfl <;> decide

theorem WordChar.isAsciiBlank_eq {c : Char} (h : WordChar c) : isAsciiBlank c = false := by
  have := h.toNat_lt
  have hspace : c ≠ ' ' := h.ne (by decide)
  simp only [isAsciiBlank, Bool.or_eq_false_iff, beq_eq_false_iff_ne, Bool.and_eq_false_iff,
    decide_eq_false_iff_not]
  exact ⟨hspace, Or.inr (by omega)⟩

theorem plain_of_wordChar {c : Char} (h : WordChar c) : plain c = c := if_pos h.toNat_lt.2

theorem trimAscii_of_wordChars {word : List Char} (h : ∀ c ∈ word, WordChar c) :
    trimAscii word = word := by
  have hkeep : ∀ s : List Char, (∀ c ∈ s, WordChar c) → s.dropWhile isAsciiBlank = s := by
    intro s hs
    cases s with
    | nil => rfl
    | cons c s => rw [List.dropWhile_cons, (hs c List.mem_cons_self).isAsciiBlank_eq]; rfl
  rw [trimAscii, hkeep word h, hkeep _ fun c hc => h c (List.mem_reverse.1 hc),
    List.reverse_reverse]

theorem dropSeparators_of_wordChars {word : List Char} (h : ∀ c ∈ word, WordChar c)
    (afterDigit : Bool) : dropSeparators afterDigit word = some word := by
  induction word generalizing afterDigit with
  | nil => rfl
  | cons c word ih =>
      have hc : c ≠ '_' := (h c List.mem_cons_self).ne (by decide)
      rw [dropSeparators, ih fun c hc => h c (List.mem_cons_of_mem _ hc)]
      · rfl
      · rintro _ _ rfl
        exact absurd rfl hc
      · rintro rfl
        exact absurd rfl hc

/-- Words are read as they are written. -/
theorem normalize_of_wordChars {word : List Char} (h : ∀ c ∈ word, WordChar c) :
    normalize word = some word := by
  have hplain : word.map plain = word :=
    (List.map_congr_left fun c hc => plain_of_wordChar (h c hc)).trans (List.map_id _)
  rw [normalize, hplain, trimAscii_of_wordChars h, dropSeparators_of_wordChars h]

/-! ## Decimals as words -/

/-- Digits are read up to the first character that is none. -/
theorem takeWhile_digits {digits rest : List Char} (hdigits : ∀ c ∈ digits, c.isDigit = true)
    (hrest : ∀ c, rest.head? = some c → c.isDigit = false) :
    (digits ++ rest).takeWhile Char.isDigit = digits ∧
      (digits ++ rest).dropWhile Char.isDigit = rest := by
  rw [List.takeWhile_append_of_pos hdigits, List.dropWhile_append_of_pos hdigits]
  cases rest with
  | nil => exact ⟨List.append_nil _, rfl⟩
  | cons c rest =>
      rw [List.takeWhile_cons, List.dropWhile_cons, hrest c rfl]
      exact ⟨List.append_nil _, rfl⟩

/-- A number with a point. -/
theorem decimal?_point {whole part rest : List Char} (hne : whole ≠ [])
    (hwhole : ∀ c ∈ whole, c.isDigit = true) (hpart : ∀ c ∈ part, c.isDigit = true)
    (hrest : ∀ c, rest.head? = some c → c.isDigit = false) :
    decimal? (whole ++ '.' :: (part ++ rest)) = (exponent? rest).map fun e =>
      ⟨Nat.ofDigitChars 10 (whole ++ part) 0, e - part.length⟩ := by
  have hpoint : ∀ c, ('.' :: (part ++ rest)).head? = some c → c.isDigit = false := by
    rintro c ⟨⟩
    rfl
  obtain ⟨htake, hdrop⟩ := takeWhile_digits hwhole hpoint
  obtain ⟨htake', hdrop'⟩ := takeWhile_digits hpart hrest
  have hempty : whole.isEmpty = false := List.isEmpty_eq_false_iff.2 hne
  simp [decimal?, afterPoint, htake, hdrop, htake', hdrop', hempty]

/-- A number without a point, but with an exponent. -/
theorem decimal?_exponent {whole rest : List Char} (hne : whole ≠ [])
    (hwhole : ∀ c ∈ whole, c.isDigit = true) :
    decimal? (whole ++ 'e' :: rest) = (exponent? ('e' :: rest)).map fun e =>
      ⟨Nat.ofDigitChars 10 whole 0, e⟩ := by
  have hmark : ∀ c, ('e' :: rest).head? = some c → c.isDigit = false := by
    rintro c ⟨⟩
    rfl
  obtain ⟨htake, hdrop⟩ := takeWhile_digits hwhole hmark
  have hempty : whole.isEmpty = false := List.isEmpty_eq_false_iff.2 hne
  simp [decimal?, afterPoint, htake, hdrop, hempty]

theorem isDigit_of_mem_padLeft {width n : Nat} {c : Char}
    (hc : c ∈ padLeft width '0' (Nat.toDigits 10 n)) : c.isDigit = true := by
  rcases List.mem_append.1 hc with hc | hc
  · exact Decimal.isDigit_of_mem_zeros hc
  · exact Nat.isDigit_of_mem_toDigits (by decide) (by decide) hc

theorem exponent?_padLeft (width : Nat) (power : Int) :
    exponent? ('e' :: (if power < 0 then '-' else '+') ::
      padLeft width '0' (Nat.toDigits 10 power.natAbs)) = some power := by
  have hne : (padLeft width '0' (Nat.toDigits 10 power.natAbs)).isEmpty = false := by
    simp [padLeft]
  have hall : (padLeft width '0' (Nat.toDigits 10 power.natAbs)).all Char.isDigit = true :=
    List.all_eq_true.2 fun c hc => isDigit_of_mem_padLeft hc
  have hvalue : Nat.ofDigitChars 10 (padLeft width '0' (Nat.toDigits 10 power.natAbs)) 0 =
      power.natAbs := by
    rw [padLeft, Nat.ofDigitChars_append, Nat.ofDigitChars_replicate_zero, Nat.mul_zero,
      Nat.ofDigitChars_ten_toDigits]
  have hmark : (('e' == 'e' || 'e' == 'E') && !false && true) = true := rfl
  by_cases hpower : power < 0
  · simp only [exponent?, sign, if_pos hpower, hne, hall, hvalue, if_pos hmark, if_true]
    exact congrArg some (by omega)
  · simp only [exponent?, sign, if_neg hpower, hne, hall, hvalue, if_pos hmark]
    exact congrArg some (by rw [if_neg Bool.false_ne_true]; omega)

/-- A word that is read as a decimal: it begins with a digit, and has a character that is none. -/
structure Spells (s : List Char) (d : Decimal) : Prop where
  wordChar : ∀ c ∈ s, WordChar c
  head : ∃ c rest, s = c :: rest ∧ c.isDigit = true
  mark : ∃ c ∈ s, c.isDigit = false
  decimal : decimal? s = some d

end Numeral

namespace Decimal

open Numeral

variable {digits : List Char}

theorem head_append (hne : digits ≠ []) (hdigits : ∀ c ∈ digits, c.isDigit = true)
    (rest : List Char) : ∃ c r, digits ++ rest = c :: r ∧ c.isDigit = true := by
  cases digits with
  | nil => exact absurd rfl hne
  | cons c cs => exact ⟨c, cs ++ rest, rfl, hdigits c List.mem_cons_self⟩

/-- A point with digits on both sides. -/
theorem point_spells (whole part : List Char) {s : List Char} {coefficient : Nat} {exponent : Int}
    (hs : s = whole ++ '.' :: part) (hne : whole ≠ []) (hwhole : ∀ c ∈ whole, c.isDigit = true)
    (hpart : ∀ c ∈ part, c.isDigit = true)
    (hcoefficient : Nat.ofDigitChars 10 part (Nat.ofDigitChars 10 whole 0) = coefficient)
    (hexponent : exponent = -part.length) : Spells s ⟨coefficient, exponent⟩ where
  wordChar c hc := by
    simp only [hs, List.mem_append, List.mem_cons] at hc
    rcases hc with hc | rfl | hc
    · exact .inr (.inl (hwhole c hc))
    · decide
    · exact .inr (.inl (hpart c hc))
  head := hs ▸ head_append hne hwhole _
  mark := ⟨'.', by simp [hs], rfl⟩
  decimal := by
    have hend : ∀ c, ([] : List Char).head? = some c → c.isDigit = false := by simp
    have hread := decimal?_point hne hwhole hpart hend
    rw [List.append_nil] at hread
    rw [hs, hread, Nat.ofDigitChars_append, hcoefficient, hexponent]
    simp [exponent?]

/-- The point is put after the digit of power zero, with zeros where digits are missing. -/
theorem positional_spells (hne : digits ≠ []) (hdigits : ∀ c ∈ digits, c.isDigit = true)
    (power : Int) :
    ∃ k : Nat, Spells (positional digits power)
      ⟨Nat.ofDigitChars 10 digits 0 * 10 ^ k, power + 1 - digits.length - k⟩ := by
  simp only [positional]
  split
  next hneg =>
    -- zeros between the point and the digits
    refine ⟨0, point_spells ['0'] (List.replicate ((-power).toNat - 1) '0' ++ digits) rfl (by simp)
      (by simp) (fun c hc => (List.mem_append.1 hc).elim isDigit_of_mem_zeros (hdigits c)) ?_ ?_⟩
    · rw [Nat.ofDigitChars_append, Nat.ofDigitChars_replicate_zero]
      simp [Nat.ofDigitChars_cons]
    · rw [List.length_append, List.length_replicate]
      omega
  next hpos =>
    split
    next hshort =>
      -- zeros between the digits and the point, and one behind it
      refine ⟨power.toNat + 1 - digits.length + 1, point_spells
        (digits ++ List.replicate (power.toNat + 1 - digits.length) '0') ['0'] rfl (by simp [hne])
        (fun c hc => (List.mem_append.1 hc).elim (hdigits c) isDigit_of_mem_zeros) (by simp) ?_ ?_⟩
      · rw [Nat.ofDigitChars_append, Nat.ofDigitChars_replicate_zero]
        simp only [Nat.ofDigitChars_cons, Nat.ofDigitChars_nil, Nat.sub_self]
        ring
      · rw [List.length_singleton]
        omega
    next hlong =>
      refine ⟨0, point_spells (digits.take (power.toNat + 1)) (digits.drop (power.toNat + 1))
        (by simp) (by simp [hne]) (fun c hc => hdigits c (List.mem_of_mem_take hc))
        (fun c hc => hdigits c (List.mem_of_mem_drop hc)) ?_ ?_⟩
      · rw [← Nat.ofDigitChars_append, List.take_append_drop, Nat.pow_zero, Nat.mul_one]
      · rw [List.length_drop]
        omega

/-- An exponent behind digits and perhaps a point. -/
theorem exponent_spells (mantissa : List Char) {rest : List Char} {d : Decimal}
    (hmantissa : ∀ c ∈ mantissa, WordChar c)
    (hhead : ∃ c r, mantissa = c :: r ∧ c.isDigit = true) (hrest : ∀ c ∈ rest, WordChar c)
    (hdecimal : decimal? (mantissa ++ 'e' :: rest) = some d) :
    Spells (mantissa ++ 'e' :: rest) d where
  wordChar c hc := by
    simp only [List.mem_append, List.mem_cons] at hc
    rcases hc with hc | rfl | hc
    · exact hmantissa c hc
    · decide
    · exact hrest c hc
  head := by
    obtain ⟨c, r, rfl, hc⟩ := hhead
    exact ⟨c, r ++ 'e' :: rest, rfl, hc⟩
  mark := ⟨'e', by simp, rfl⟩
  decimal := hdecimal

/-- The point is put after the leading digit, and the power is written out. -/
theorem scientific_spells (layout : Layout) (hne : digits ≠ [])
    (hdigits : ∀ c ∈ digits, c.isDigit = true) (power : Int) :
    Spells (scientific layout digits power)
      ⟨Nat.ofDigitChars 10 digits 0, power + 1 - digits.length⟩ := by
  have hexponent := exponent?_padLeft layout.exponentDigits power
  have hrest : ∀ c ∈ (if power < 0 then '-' else '+') ::
      padLeft layout.exponentDigits '0' (Nat.toDigits 10 power.natAbs), WordChar c := by
    intro c hc
    rcases List.mem_cons.1 hc with rfl | hc
    · split <;> decide
    · exact .inr (.inl (isDigit_of_mem_padLeft hc))
  have hchars : ∀ c ∈ digits, WordChar c := fun c hc => .inr (.inl (hdigits c hc))
  simp only [scientific, List.append_assoc, List.cons_append, List.nil_append]
  generalize (if power < 0 then '-' else '+') ::
    padLeft layout.exponentDigits '0' (Nat.toDigits 10 power.natAbs) = rest at hexponent hrest
  match digits, hne with
  | [d], _ =>
      refine exponent_spells [d] hchars ⟨d, [], rfl, hdigits d List.mem_cons_self⟩ hrest ?_
      rw [decimal?_exponent (by simp) hdigits, hexponent]
      simp
  | d :: e :: tail, _ =>
      have hd : ∀ c ∈ [d], c.isDigit = true := by simpa using hdigits d List.mem_cons_self
      have htail : ∀ c ∈ e :: tail, c.isDigit = true := fun c hc =>
        hdigits c (List.mem_cons_of_mem _ hc)
      have hmark : ∀ c, ('e' :: rest).head? = some c → c.isDigit = false := by
        rintro c ⟨⟩
        rfl
      have hread := decimal?_point (by simp) hd htail hmark
      rw [hexponent] at hread
      refine exponent_spells (d :: '.' :: e :: tail) ?_
        ⟨d, '.' :: e :: tail, rfl, hdigits d List.mem_cons_self⟩ hrest ?_
      · intro c hc
        rcases List.mem_cons.1 hc with rfl | hc
        · exact hchars c List.mem_cons_self
        · rcases List.mem_cons.1 hc with rfl | hc
          · decide
          · exact .inr (.inl (htail c hc))
      · exact hread.trans (by simp)

/-- The text of a decimal spells one of the same value. -/
theorem text_spells (layout : Layout) {d : Decimal} (hd : d.coefficient ≠ 0) :
    ∃ d' : Decimal, Spells (d.text layout) d' ∧
      ∀ negative, d'.toBinary .double negative = d.toBinary .double negative := by
  have hdigits : ∀ c ∈ d.digits, c.isDigit = true := fun c hc => isDigit_of_mem_digits hc
  simp only [text]
  split
  · obtain ⟨k, hspells⟩ := positional_spells d.digits_ne_nil hdigits d.leading
    refine ⟨_, hspells, fun negative => ?_⟩
    rw [toBinary_mul_pow, Int.sub_add_cancel, toBinary_digits hd]
  · exact ⟨_, scientific_spells layout d.digits_ne_nil hdigits d.leading,
      toBinary_digits hd⟩

end Decimal

/-! ## The text of a double -/

namespace Numeral

variable {body : List Char} {d : Decimal}

/-- A minus sign is taken off a word that has no sign of its own. -/
theorem sign_written (negative : Bool) (hbody : ∀ c, body.head? = some c → c ≠ '-' ∧ c ≠ '+') :
    sign (if negative then '-' :: body else body) = (negative, body) := by
  cases negative with
  | true => rfl
  | false =>
      rw [if_neg Bool.false_ne_true, sign]
      · rintro rest rfl
        exact (hbody '-' rfl).1 rfl
      · rintro rest rfl
        exact (hbody '+' rfl).2 rfl

theorem wordChars_written (negative : Bool) (hbody : ∀ c ∈ body, WordChar c) :
    ∀ c ∈ if negative then '-' :: body else body, WordChar c := by
  cases negative with
  | true =>
      intro c hc
      rcases List.mem_cons.1 hc with rfl | hc
      · decide
      · exact hbody c hc
  | false => exact hbody

theorem integer?_written (negative : Bool) (hchars : ∀ c ∈ body, WordChar c)
    (hsign : ∀ c, body.head? = some c → c ≠ '-' ∧ c ≠ '+') (hmark : ∃ c ∈ body, c.isDigit = false) :
    integer? (if negative then '-' :: body else body) = none := by
  obtain ⟨c, hmem, hc⟩ := hmark
  have hall : body.all Char.isDigit = false := List.all_eq_false.2 ⟨c, hmem, by simp [hc]⟩
  rw [integer?, normalize_of_wordChars (wordChars_written negative hchars), Option.bind_eq_bind,
    Option.bind_some, sign_written negative hsign]
  exact if_pos (by rw [hall, Bool.not_false, Bool.or_true, Bool.true_or])

theorem toLower_of_isDigit {c : Char} (h : c.isDigit = true) : c.toLower = c := by
  refine dif_neg fun hupper => ?_
  have hnine : c.val ≤ '9'.val := of_decide_eq_true (Bool.and_eq_true_iff.1 h).2
  exact absurd (UInt32.le_trans hupper.1 hnine) (by decide)

namespace Spells

theorem sign_ne (h : Spells body d) : ∀ c, body.head? = some c → c ≠ '-' ∧ c ≠ '+' := by
  obtain ⟨c, rest, rfl, hc⟩ := h.head
  rintro _ ⟨⟩
  constructor
  · rintro rfl
    cases hc
  · rintro rfl
    cases hc

/-- A word that begins with a digit is no name of a special number. -/
theorem name_ne (h : Spells body d) (name : String)
    (hname : ∀ c, name.toList.head? = some c → c.isDigit = false) :
    (String.ofList (body.map Char.toLower) == name) = false := by
  obtain ⟨c, rest, rfl, hc⟩ := h.head
  refine beq_eq_false_iff_ne.2 ?_
  rintro rfl
  have := hname c (by rw [String.toList_ofList, List.map_cons, toLower_of_isDigit hc]; rfl)
  rw [hc] at this
  cases this

/-- A word that spells a decimal is read as the nearest double, with the sign in front of it. -/
theorem double?_written (h : Spells body d) (negative : Bool) :
    double? (if negative then '-' :: body else body) = some (d.toBinary .double negative) := by
  have hinf := h.name_ne "inf" (by simp)
  have hinfinity := h.name_ne "infinity" (by simp)
  have hnan := h.name_ne "nan" (by simp)
  rw [double?, normalize_of_wordChars (wordChars_written negative h.wordChar), Option.bind_eq_bind,
    Option.bind_some, sign_written negative h.sign_ne]
  simp [hinf, hinfinity, hnan, h.decimal]

end Spells

/-- The text of a finite double is a decimal that is rounded to it. -/
theorem exists_spells {x : Double} (hx : x.isFinite = true) :
    ∃ body d, x.text.toList = (if x.negative then '-' :: body else body) ∧ Spells body d ∧
      d.toBinary .double x.negative = x := by
  have hnan := Binary.isNaN_eq_false_of_isFinite hx
  have hinfinite := Binary.isInfinite_eq_false_of_isFinite hx
  cases hzero : x.isZero with
  | true =>
      refine ⟨['0', '.', '0'], ⟨0, -1⟩,
        by simp [Binary.text, Binary.written, hnan, hinfinite, hzero],
        Decimal.point_spells ['0'] ['0'] rfl (by simp) (by simp) (by simp) rfl rfl, ?_⟩
      exact Binary.ext_magnitude rfl (beq_iff_eq.1 hzero).symm
  | false =>
      have hback : ((Shortest.decimal .double x.magnitude).toBinary .double false).magnitude.val =
          x.magnitude.val :=
        Shortest.magnitude_toBinary_decimal Decimal.double_infinity_le (Binary.isFinite_iff.1 hx).le
      have hcoefficient : (Shortest.decimal .double x.magnitude).coefficient ≠ 0 :=
        Decimal.coefficient_ne_zero (hback.trans_ne (beq_eq_false_iff_ne.1 hzero))
      obtain ⟨d, hspells, hvalue⟩ := Decimal.text_spells .standard hcoefficient
      refine ⟨_, d, by simp [Binary.text, Binary.written, hnan, hinfinite, hzero], hspells, ?_⟩
      rw [hvalue, Decimal.toBinary_eq_of_magnitude hback]

/-- **The text of a double reads back.** It is read as the same double, with its sign, and never as
an integer. -/
theorem text_reads {x : Double} (hx : x.isNaN = false) :
    (∀ c ∈ x.text.toList, WordChar c) ∧ integer? x.text.toList = none ∧
      double? x.text.toList = some x := by
  rcases Binary.isFinite_or_eq_infinity hx with hfinite | hvalue
  · obtain ⟨body, d, htext, hspells, hvalue⟩ := exists_spells hfinite
    rw [htext]
    refine ⟨wordChars_written _ hspells.wordChar,
      integer?_written _ hspells.wordChar hspells.sign_ne hspells.mark, ?_⟩
    rw [hspells.double?_written, hvalue]
  · have hinfinite : x.isInfinite = true := hvalue ▸ Binary.isInfinite_infinity x.negative
    have htext : x.text.toList = if x.negative then '-' :: "inf".toList else "inf".toList := by
      simp [Binary.text, Binary.written, hx, hinfinite]
    have hchars : ∀ c ∈ "inf".toList, WordChar c := by simp [WordChar]
    rw [htext]
    refine ⟨wordChars_written _ hchars, integer?_written _ hchars (by simp) ⟨'i', by simp, rfl⟩, ?_⟩
    rw [hvalue]
    cases x.negative <;> rfl

end Numeral

end LiveFormula
