import LiveFormula.Program.Report
import LiveFormula.Proofs.Recognition

/-!
# Where a text goes wrong

A text that is not a formula goes wrong at one place: what stands before it can be completed to a
formula, and with the character there that is no longer so. The reader reports this place. That it
is not too late is read off what its rules have read; that it is not too early needs every other way
of going on, which the reader would take as it has taken this one.

* `Grammar.GoesWrongAt text p` — the text goes wrong at `p`.
* `Rule.expression_of_lookahead` — a text with the same beginning and no other next character is
  read in the same way.
* `parse_error_goesWrongAt` — the reader reports where a text goes wrong, and says whether a
  complete formula stands before that place.
-/

set_option autoImplicit false

namespace LiveFormula

open Cursor Grammar

namespace Grammar

/-- A text that can be completed to a formula. -/
def Viable (s : List Char) : Prop := ∃ t e, Formula (s ++ t) e

/-- A text that is a formula. -/
def Complete (s : List Char) : Prop := ∃ e, Formula s e

/-- What stands before `p` can be completed to a formula, but not with the character at `p`. -/
structure GoesWrongAt (text : List Char) (p : Nat) : Prop where
  le_length : p ≤ text.length
  viable : Viable (text.take p)
  dead : p < text.length → ¬Viable (text.take (p + 1))

theorem Complete.viable {s : List Char} (h : Complete s) : Viable s := by
  obtain ⟨e, he⟩ := h
  exact ⟨[], e, by rwa [List.append_nil]⟩

end Grammar

/-! ## Another text with the same beginning -/

namespace Rule

variable {text s r : List Char} {e : Expr} {d : Cursor} {n : Nat}

/-- A text with the same beginning and no other next character is read in the same way. -/
theorem expression_of_lookahead {m : Nat} (h : n ≤ m) (hread : (start text).Reads s d)
    (hcursor : (expression n (start text).skipBlanks).cursor = d)
    (hdeep : ∀ k, expression n (start text).skipBlanks ≠ .tooDeep k) (hr : Lookahead r d.rest) :
    ∃ d', d'.rest = r ∧ expression m (start (s ++ r)).skipBlanks =
      (expression n (start text).skipBlanks).moveTo d' := by
  obtain ⟨d', hread', rfl⟩ := exists_reads (c := start (s ++ r)) rfl
  have hstart : Parallel d d' (start text) (start (s ++ d'.rest)) := ⟨rfl, s, hread, hread'⟩
  have hend : (expression n (start text).skipBlanks).cursor.Before d := hcursor ▸ .refl _
  have hblanks := hstart.skipBlanks hr (((expression_fits n).advances _).trans hend)
  obtain ⟨k, hk, hpos, t, ht, ht'⟩ := expression_mirrors h hr hblanks hend hdeep
  -- the run ends at `d`, so the other one ends at `d'`
  rw [hcursor] at ht
  obtain rfl := ht.eq_of_reads (.refl d)
  obtain rfl := (Reads.refl k).unique ht'
  exact ⟨k, rfl, hk⟩

/-- If another text with this beginning and no other next character is a formula, then it ends here,
and an expression ends here. -/
theorem matched_of_formula (hread : (start text).Reads s d)
    (hcursor : (expression n (start text).skipBlanks).cursor = d)
    (hdeep : ∀ k, expression n (start text).skipBlanks ≠ .tooDeep k) (hr : Lookahead r d.rest)
    (hformula : Formula (s ++ r) e) :
    r = [] ∧ ∃ tree, expression n (start text).skipBlanks = .matched tree d := by
  have hdepth : (s ++ r).count '(' ≤ max n ((s ++ r).count '(') := Nat.le_max_right _ _
  obtain ⟨tree, k, hmatched, hk, -⟩ := hformula.expression_eq hdepth
  have hle : n ≤ max n ((s ++ r).count '(') + 1 := Nat.le_succ_of_le (Nat.le_max_left _ _)
  obtain ⟨d', hd', hmove⟩ := expression_of_lookahead hle hread hcursor hdeep hr
  rw [hmatched] at hmove
  cases houtcome : expression n (start text).skipBlanks with
  | matched tree' d'' =>
      rw [houtcome] at hmove hcursor
      cases hmove
      cases hcursor
      exact ⟨hd'.symm.trans hk, tree, rfl⟩
  | stopped d'' =>
      rw [houtcome] at hmove
      cases hmove
  | tooDeep d'' => exact absurd houtcome (hdeep d'')

end Rule

/-! ## What an error says -/

/-- The parts of a text before a cursor and at it. -/
theorem Cursor.Reads.take_eq {text s : List Char} {d : Cursor} (h : (start text).Reads s d) :
    d.pos ≤ text.length ∧ text.take d.pos = s ∧
      ∀ ch, d.peek = some ch → text.take (d.pos + 1) = s ++ [ch] := by
  have htext : text = s ++ d.rest := h.rest
  have hpos : d.pos = s.length := by
    have hpos : d.pos = 0 + s.length := h.pos
    omega
  refine ⟨?_, ?_, fun ch hch => ?_⟩
  · rw [htext, hpos, List.length_append]
    omega
  · rw [htext, hpos, List.take_left]
  · obtain ⟨r, hr⟩ := peek_eq_some.1 hch
    rw [htext, hpos, hr, List.take_append, List.take_of_length_le (by omega)]
    simp

theorem Cursor.Reads.pos_lt_length_iff {text s : List Char} {d : Cursor}
    (h : (start text).Reads s d) : d.pos < text.length ↔ d.rest ≠ [] := by
  have hlength := d.length_rest
  have htext : d.text = text := h.text
  rw [d.size_eq, htext] at hlength
  rw [← List.length_pos_iff, hlength]
  omega

/-- An error comes from an expression that has stopped, or that has ended before the text. -/
theorem parseChars_eq_error {text : List Char} {err : ParseError}
    (hnesting : nesting text ≤ maxNesting) (h : parseChars text = .error err) :
    ∃ d, (∃ tree, Rule.expression (maxNesting + 1) (start text).skipBlanks = .matched tree d ∧
        d.rest ≠ [] ∧ err = .trailing d.pos) ∨
      Rule.expression (maxNesting + 1) (start text).skipBlanks = .stopped d ∧
        err = .unexpected d.pos := by
  unfold parseChars at h
  cases houtcome : Rule.expression (maxNesting + 1) (start text).skipBlanks with
  | matched tree d =>
      simp only [houtcome] at h
      split at h
      · cases h
      · rename_i hend
        cases h
        refine ⟨d, .inl ⟨tree, rfl, fun hrest => hend ?_, rfl⟩⟩
        have hlength := d.length_rest
        rw [hrest, List.length_nil] at hlength
        exact decide_eq_true (by omega)
  | stopped d =>
      simp only [houtcome] at h
      cases h
      exact ⟨d, .inr ⟨rfl, rfl⟩⟩
  | tooDeep d => exact absurd houtcome (Rule.expression_ne_tooDeep hnesting d)

namespace Rule

variable {text : List Char} {n : Nat}

/-- What an expression has read can be completed to a formula. -/
theorem viable_of_expression (hdeep : ∀ k, expression n (start text).skipBlanks ≠ .tooDeep k) :
    ∃ s, (start text).Reads s (expression n (start text).skipBlanks).cursor ∧ Viable s := by
  obtain ⟨gap, hgap, hblank⟩ := (start text).reads_skipBlanks
  cases houtcome : expression n (start text).skipBlanks with
  | matched tree d =>
      obtain ⟨s, hs, he⟩ := (expression_fits n).matched houtcome
      exact ⟨gap ++ s, hblank.trans hs, Complete.viable ⟨tree.bare, gap, s, hgap, rfl, he⟩⟩
  | stopped d =>
      obtain ⟨s, hs, t, e, he⟩ := (expression_fits n).stopped houtcome
      exact ⟨gap ++ s, hblank.trans hs, t, e, gap, s ++ t, hgap, List.append_assoc _ _ _, he⟩
  | tooDeep d => exact absurd houtcome (hdeep d)

/-- An expression that does not give up gets as far as the text is right. -/
theorem goesWrongAt_expression (hdeep : ∀ k, expression n (start text).skipBlanks ≠ .tooDeep k) :
    GoesWrongAt text (expression n (start text).skipBlanks).cursor.pos := by
  obtain ⟨s, hread, hviable⟩ := viable_of_expression hdeep
  obtain ⟨hle, htake, hnext⟩ := hread.take_eq
  refine ⟨hle, htake.symm ▸ hviable, fun hlt => ?_⟩
  rintro ⟨t, e, hformula⟩
  -- the character at the cursor is the first of every other way of going on
  obtain ⟨ch, hch⟩ : ∃ ch, (expression n (start text).skipBlanks).cursor.peek = some ch := by
    obtain ⟨ch, r, hrest⟩ := List.exists_cons_of_ne_nil (hread.pos_lt_length_iff.1 hlt)
    exact ⟨ch, peek_eq_some.2 ⟨r, hrest⟩⟩
  rw [hnext ch hch, List.append_assoc] at hformula
  have hlookahead : Lookahead ([ch] ++ t) (expression n (start text).skipBlanks).cursor.rest := by
    intro x hx
    cases hx
    exact hch
  obtain ⟨hnil, -⟩ := matched_of_formula hread rfl hdeep hlookahead hformula
  cases hnil

/-- What an expression has read is a formula just if it matches. -/
theorem complete_iff_matched (hdeep : ∀ k, expression n (start text).skipBlanks ≠ .tooDeep k) :
    Complete (text.take (expression n (start text).skipBlanks).cursor.pos) ↔
      ∃ tree d, expression n (start text).skipBlanks = .matched tree d := by
  constructor
  · rintro ⟨e, hformula⟩
    obtain ⟨s, hread, -⟩ := viable_of_expression hdeep
    rw [hread.take_eq.2.1, ← List.append_nil s] at hformula
    have hend : Lookahead [] (expression n (start text).skipBlanks).cursor.rest :=
      fun _ hch => by cases hch
    obtain ⟨-, tree, htree⟩ := matched_of_formula hread rfl hdeep hend hformula
    exact ⟨tree, _, htree⟩
  · rintro ⟨tree, d, htree⟩
    obtain ⟨gap, hgap, hblank⟩ := (start text).reads_skipBlanks
    obtain ⟨s, hs, he⟩ := (expression_fits n).matched htree
    rw [htree]
    refine ⟨tree.bare, gap, s, hgap, (hblank.trans hs).take_eq.2.1, he⟩

end Rule

/-- **Errors point at the first character that cannot be right.** For a text that is not nested too
deeply, the offset of an error is where the text goes wrong; the error is one of trailing input just
if a complete formula stands before that place, where the text then goes on, and otherwise one of
unexpected input. -/
theorem parse_error_goesWrongAt (text : String) (err : ParseError)
    (hnesting : nesting text.toList ≤ maxNesting) (h : parse text = .error err) :
    GoesWrongAt text.toList err.offset ∧
    (err = .trailing err.offset ↔ Complete (text.toList.take err.offset)) ∧
    (err = .unexpected err.offset ↔ ¬Complete (text.toList.take err.offset)) ∧
    (err = .trailing err.offset → err.offset < text.toList.length) := by
  have hdeep := Rule.expression_ne_tooDeep hnesting
  have hwrong := Rule.goesWrongAt_expression hdeep
  have hcomplete := Rule.complete_iff_matched hdeep
  obtain ⟨d, ⟨tree, htree, hrest, rfl⟩ | ⟨hstopped, rfl⟩⟩ := parseChars_eq_error hnesting h
  · obtain ⟨s, hread, -⟩ := Rule.viable_of_expression hdeep
    rw [htree] at hwrong hcomplete hread
    have hformula := hcomplete.2 ⟨tree, d, rfl⟩
    have hlt := hread.pos_lt_length_iff.2 hrest
    exact ⟨hwrong, iff_of_true rfl hformula, iff_of_false (by simp) (not_not_intro hformula),
      fun _ => hlt⟩
  · rw [hstopped] at hwrong hcomplete
    have hnone : ¬Complete (text.toList.take d.pos) := by
      intro hformula
      obtain ⟨tree, d', htree⟩ := hcomplete.1 hformula
      cases htree
    exact ⟨hwrong, iff_of_false (by simp) hnone, iff_of_true rfl hnone, by simp⟩

/-- A function name wants a parenthesis, although a name could stand where it does. -/
theorem goesWrongAt_call_without_parenthesis :
    nesting "(t - sin u)".toList ≤ maxNesting ∧ parse "(t - sin u)" = .error (.unexpected 9) ∧
      GoesWrongAt "(t - sin u)".toList 9 ∧ ¬Complete ("(t - sin u)".toList.take 9) := by
  have hnesting : nesting "(t - sin u)".toList ≤ maxNesting := by decide
  have herror : parse "(t - sin u)" = .error (.unexpected 9) := by rfl
  obtain ⟨hwrong, -, hunexpected, -⟩ := parse_error_goesWrongAt _ _ hnesting herror
  exact ⟨hnesting, herror, hwrong, hunexpected.1 rfl⟩

end LiveFormula
