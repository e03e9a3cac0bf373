import LiveFormula.Proofs.Tokens

/-!
# Where a failure to encode is shown

A formula that can be read but has no program has a token that cannot be encoded: a name that is no
variable, or a number that is too large for 32 bits. The leftmost such token is reported, and the
carets of the report stand below it.

* `Diagnostic.getElem?_caretLine` — carets stand below the columns of a span and nowhere else.
* `EncodeError.underlines` — the report on a failure to encode shows the text with its carets.
* `exists_first_of_compile` — a failure to encode is that of the first leaf that has no word.
* `compile_error_underlines_leftmost` — the report points at the leftmost token that cannot be
  encoded.
-/

set_option autoImplicit false

namespace LiveFormula

open Grammar

/-! ## Carets -/

namespace Diagnostic

theorem column_ofInput (p n : Nat) : (Span.ofInput p n).column = p + 1 := rfl

theorem endColumn_ofInput (p : Nat) {n : Nat} (hn : 0 < n) :
    (Span.ofInput p n).endColumn = p + 1 + n := by
  simp only [Span.ofInput, Span.ofOffset, Span.make]
  omega

theorem toList_caretLine (p : Nat) {n : Nat} (hn : 0 < n) :
    (caretLine (Span.ofInput p n)).toList = List.replicate (4 + p) ' ' ++ List.replicate n '^' := by
  have hspaces : ((Span.ofInput p n).column - 1).toNat = p := by
    rw [column_ofInput]
    omega
  have hcarets : (max 1 ((Span.ofInput p n).endColumn - (Span.ofInput p n).column)).toNat = n := by
    rw [column_ofInput, endColumn_ofInput p hn]
    omega
  simp only [caretLine, repeated, hspaces, hcarets, String.toList_append, String.toList_ofList,
    List.replicate_add]
  rfl

/-- Below a text that is indented by four, carets stand at the columns of the span. -/
theorem getElem?_caretLine (p i : Nat) {n : Nat} (hn : 0 < n) :
    (caretLine (Span.ofInput p n)).toList[4 + i]? = some '^' ↔ p ≤ i ∧ i < p + n := by
  rw [toList_caretLine p hn]
  by_cases hlow : i < p
  · rw [List.getElem?_append_left (by simpa using hlow),
      List.getElem?_replicate_of_lt (by omega)]
    exact iff_of_false (by decide) (by omega)
  · rw [List.getElem?_append_right (by simpa using hlow), List.length_replicate]
    by_cases hhigh : i < p + n
    · rw [List.getElem?_replicate_of_lt (by omega)]
      exact iff_of_true rfl ⟨by omega, hhigh⟩
    · rw [List.getElem?_eq_none (by simp only [List.length_replicate]; omega)]
      exact iff_of_false (by decide) (by omega)

end Diagnostic

/-- The report shows the text, and on the line below it carets at exactly the `n` columns from `p`
on. -/
structure Report.Underlines (report : Report) (text : String) (p n : Nat) : Prop where
  offset : report.diagnostic.span.offset = p
  columns : report.diagnostic.span.endColumn - report.diagnostic.span.column = n
  render : report.render = "\n".intercalate report.diagnostic.lines
  source : report.diagnostic.lines[1]? = some ("    " ++ text)
  carets : ∃ line, report.diagnostic.lines[2]? = some line ∧
    ∀ i, line.toList[4 + i]? = some '^' ↔ p ≤ i ∧ i < p + n

/-- A diagnostic of the input with a source line shows it with carets. -/
theorem Diagnostic.lines_of_span {d : Diagnostic} {p n : Nat}
    (hspan : d.span = Span.ofInput p n) (hsource : d.sourceLine ≠ "") :
    d.lines[1]? = some ("    " ++ d.sourceLine) ∧
      d.lines[2]? = some (Diagnostic.caretLine (Span.ofInput p n)) := by
  have hempty : d.sourceLine.isEmpty = false := by simpa using hsource
  have hcolumn : 0 < (Span.ofInput p n).column := by
    rw [Diagnostic.column_ofInput]
    omega
  simp [Diagnostic.lines, hspan, hempty, hcolumn]

theorem Report.underlines_of_span {report : Report} {text : String} {p n : Nat} (hn : 0 < n)
    (hrender : report.render = report.diagnostic.text)
    (hspan : report.diagnostic.span = Span.ofInput p n)
    (hsource : report.diagnostic.sourceLine = text) (htext : text ≠ "") :
    report.Underlines text p n := by
  obtain ⟨hline, hcarets⟩ := Diagnostic.lines_of_span hspan (hsource ▸ htext)
  refine ⟨?_, ?_, hrender, hsource ▸ hline, _, hcarets,
    fun i => Diagnostic.getElem?_caretLine p i hn⟩
  · rw [hspan, Span.offset, Diagnostic.column_ofInput]
    omega
  · rw [hspan, Diagnostic.column_ofInput, Diagnostic.endColumn_ofInput p hn]
    omega

/-- The number of columns that the report on a leaf covers. -/
def EncodeError.width : EncodeError → Nat
  | unknownVariable name _ => name.length
  | literalRange _ _ => 1

/-- A failure to encode is shown below its leaf. -/
theorem EncodeError.underlines {err : EncodeError} {leaf : Expr} {text : String} {p : Nat}
    (hblames : err.Blames leaf) (hoffset : leaf.offset = p) (hwidth : 0 < err.width)
    (htext : text ≠ "") : ((CompileError.encode err).report text).Underlines text p err.width := by
  cases err with
  | unknownVariable name offset =>
      cases hblames
      obtain rfl : offset = p := hoffset
      exact Report.underlines_of_span hwidth rfl rfl rfl htext
  | literalRange x offset =>
      cases hblames
      obtain rfl : offset = p := hoffset
      exact Report.underlines_of_span hwidth rfl rfl rfl htext

/-! ## The leftmost leaf -/

/-- A failure to encode is that of a leaf that has no word; those before it have one. -/
theorem exists_first_of_compile {text : String} {err : EncodeError}
    (h : compile text = .error (.encode err)) :
    ∃ tree before leaf after, parse text = .ok tree ∧ tree.leaves = before ++ leaf :: after ∧
      (∀ other ∈ before, other.Encodable) ∧ ¬leaf.Encodable ∧ err.Blames leaf := by
  unfold compile at h
  cases hparse : parse text with
  | error e => rw [hparse] at h; cases h
  | ok tree =>
      rw [hparse] at h
      cases hencode : encode tree with
      | ok p => simp only [hencode] at h; cases h
      | error e =>
          simp only [hencode] at h
          cases h
          have houtcome := tree.encodesTo_encode
          rw [hencode] at houtcome
          cases hfirst : tree.leaves.find? (fun leaf => ¬leaf.Encodable) with
          | none =>
              obtain ⟨p, hp, -⟩ := houtcome.program (by simpa using hfirst)
              cases hp
          | some leaf =>
              obtain ⟨hleaf, before, after, hsplit, hbefore⟩ :=
                List.find?_eq_some_iff_append.1 hfirst
              have hbefore : ∀ other ∈ before, other.Encodable := by simpa using hbefore
              have hleaf : ¬leaf.Encodable := by simpa using hleaf
              obtain ⟨err', herr, hblames, -⟩ :=
                houtcome.error before leaf after hsplit hbefore hleaf
              cases herr
              exact ⟨tree, before, leaf, after, rfl, hsplit, hbefore, hleaf, hblames⟩

/-- A leaf that stands further left in the text stands further left in the tree. -/
theorem mem_before_of_offset_lt {before after : List Expr} {leaf other : Expr}
    (hsorted : (before ++ leaf :: after).Pairwise fun a b => a.offset < b.offset)
    (hother : other ∈ before ++ leaf :: after) (hlt : other.offset < leaf.offset) :
    other ∈ before := by
  rcases List.mem_append.1 hother with hmem | hmem
  · exact hmem
  · have hright := (List.pairwise_append.1 hsorted).2.1
    rcases List.mem_cons.1 hmem with rfl | hmem
    · omega
    · have := List.rel_of_pairwise_cons hright hmem
      omega

/-- **Failures to encode point at the leftmost token at fault.** Let a formula be read and have no
program, and let `p` be the offset that is reported. An unknown variable is a longest run of letters
from `p` on that is none of the variables, and the report covers it; a literal out of range is the
double of a longest run of digits from `p` on, whose number is so large that, rounded to a double
and then to 32 bits, it is infinite. Every run of letters before `p` is a variable or the name of a
function, and every run of digits before `p` has a number in range. In the report carets stand below
the columns that are covered. -/
theorem compile_error_underlines_leftmost (text : String) (err : EncodeError)
    (h : compile text = .error (.encode err)) :
    ∃ p n : Nat,
      ((CompileError.encode err).report text).Underlines text p n ∧
      (∀ name offset, err = .unknownVariable name offset →
        n = name.length ∧ slice text.toList p n = name.toList ∧
        LongestRun Char.isAlpha text.toList p n ∧ name ∉ ["t", "u", "v"]) ∧
      (∀ x offset, err = .literalRange x offset →
        n = 1 ∧ ∃ m, LongestRun Char.isDigit text.toList p m ∧
          x = Binary.ofNat (Nat.ofDigitChars 10 (slice text.toList p m) 0) ∧
          2 ^ 128 - 2 ^ 103 - 2 ^ 74 ≤ Nat.ofDigitChars 10 (slice text.toList p m) 0) ∧
      (∀ q m, q < p → LongestRun Char.isAlpha text.toList q m →
        (∃ func : Func, slice text.toList q m = func.name.toList) ∨
          String.ofList (slice text.toList q m) ∈ ["t", "u", "v"]) ∧
      (∀ q m, q < p → LongestRun Char.isDigit text.toList q m →
        Nat.ofDigitChars 10 (slice text.toList q m) 0 < 2 ^ 128 - 2 ^ 103 - 2 ^ 74) := by
  obtain ⟨tree, before, leaf, after, hparse, hsplit, hbefore, hleaf, hblames⟩ :=
    exists_first_of_compile h
  have hsorted := pairwise_offset_of_parse hparse
  rw [hsplit] at hsorted
  have hmem : leaf ∈ tree.leaves := hsplit ▸ List.mem_append_right _ List.mem_cons_self
  -- every leaf further left in the text has a word
  have hleft : ∀ other ∈ tree.leaves, other.offset < leaf.offset → other.Encodable :=
    fun other hother hlt => hbefore other (mem_before_of_offset_lt hsorted (hsplit ▸ hother) hlt)
  have hletters : ∀ q m : Nat, (q : Int) < leaf.offset → LongestRun Char.isAlpha text.toList q m →
      (∃ func : Func, slice text.toList q m = func.name.toList) ∨
        String.ofList (slice text.toList q m) ∈ ["t", "u", "v"] := by
    intro q m hlt hrun
    rcases var_of_longestRun hparse hrun with hfunc | hvar
    · exact .inl hfunc
    · exact .inr (hleft _ hvar hlt)
  have hdigits : ∀ q m : Nat, (q : Int) < leaf.offset → LongestRun Char.isDigit text.toList q m →
      Nat.ofDigitChars 10 (slice text.toList q m) 0 < 2 ^ 128 - 2 ^ 103 - 2 ^ 74 := by
    intro q m hlt hrun
    exact (Double.inSingleRange_ofNat_iff _).1 (hleft _ (literal_of_longestRun hparse hrun) hlt)
  have htext : text ≠ "" := by
    rintro rfl
    cases hparse
  cases err with
  | unknownVariable name offset =>
      cases hblames
      obtain ⟨p, rfl, hrun, hslice⟩ := longestRun_of_var hparse hmem
      refine ⟨p, name.length, EncodeError.underlines rfl rfl hrun.pos htext, ?_, ?_,
        fun q m hq => hletters q m (Int.ofNat_lt.2 hq),
        fun q m hq => hdigits q m (Int.ofNat_lt.2 hq)⟩
      · intro name' offset' heq
        cases heq
        exact ⟨rfl, hslice, hrun, hleaf⟩
      · intro x offset' heq
        cases heq
  | literalRange x offset =>
      cases hblames
      obtain ⟨p, m, rfl, hrun, rfl⟩ := longestRun_of_literal hparse hmem
      refine ⟨p, 1, EncodeError.underlines rfl rfl Nat.one_pos htext, ?_, ?_,
        fun q m hq => hletters q m (Int.ofNat_lt.2 hq),
        fun q m hq => hdigits q m (Int.ofNat_lt.2 hq)⟩
      · intro name offset' heq
        cases heq
      · intro x' offset' heq
        cases heq
        refine ⟨rfl, m, hrun, rfl, Nat.le_of_not_lt fun hlt => ?_⟩
        exact hleaf ((Double.inSingleRange_ofNat_iff _).2 hlt)

/-- Of the two unknown names the first is shown, although it stands deeper in parentheses. -/
theorem compile_error_underlines_inner_name :
    compile "sin(t) - (v+foo)*bar" = .error (.encode (.unknownVariable "foo" 12)) ∧
      ((CompileError.encode (.unknownVariable "foo" 12)).report "sin(t) - (v+foo)*bar").Underlines
        "sin(t) - (v+foo)*bar" 12 3 ∧
      LongestRun Char.isAlpha "sin(t) - (v+foo)*bar".toList 12 3 := by
  have hparse : parse "sin(t) - (v+foo)*bar" = .ok (.binary .sub (.call .sin (.var "t" 4) 0)
      (.binary .mul (.binary .add (.var "v" 10) (.var "foo" 12) 10) (.var "bar" 17) 10) 0) := by
    rfl
  have herror : compile "sin(t) - (v+foo)*bar" = .error (.encode (.unknownVariable "foo" 12)) := by
    rw [compile, hparse]
    simp only [encode_eq_lower]
    rfl
  obtain ⟨p, n, hunderlines, hname, -⟩ := compile_error_underlines_leftmost _ _ herror
  obtain ⟨rfl, -, hrun, -⟩ := hname "foo" 12 rfl
  obtain rfl : p = 12 := Int.ofNat.inj hunderlines.offset.symm
  exact ⟨herror, hunderlines, hrun⟩

end LiveFormula
