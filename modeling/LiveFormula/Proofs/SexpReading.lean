import LiveFormula.Proofs.Cursor
import LiveFormula.Proofs.NumberText
import LiveFormula.Sexp.Reader
import Mathlib.Data.List.Basic

/-!
# Reading S-expressions

What is asked of a codec, and that the standard codec has it. `Sexp.Spells` says which values a text
spells. It knows nothing of readers, and speaks only of symbols and names of letters, of numbers as
they are written, and of lists in round brackets with single blanks between their items.

* `Sexp.Codec.Lawful` — names and numbers are written as they should be, and what is spelled is read.
* `Sexp.Gathers` — values are read one after the other up to a closing bracket or the end; how many
  rounds are allowed plays no part in it, since every round reads a character.
* `Sexp.Spells.gathers` — the standard reader gathers what is spelled.
* `Sexp.Codec.standard_lawful` — the standard codec is lawful.
-/

set_option autoImplicit false

namespace LiveFormula

namespace Sexp

open Cursor Numeral

/-! ## Codecs -/

/-- `Spells levels s values`: the text is that of the values with single blanks between them, with up
to so many levels of brackets. A word of letters that is not a number is a symbol, letters between
double quotes are a string, and the text of a number is what it reads as. -/
inductive Spells : Nat → List Char → List Sexp → Prop
  | symbol {levels : Nat} {word : List Char} (hne : word ≠ [])
      (hletters : ∀ c ∈ word, c.isAlpha = true) (hinteger : integer? word = none)
      (hdouble : double? word = none) : Spells levels word [.symbol (String.ofList word)]
  | string {levels : Nat} {name : List Char} (hletters : ∀ c ∈ name, c.isAlpha = true) :
      Spells levels ('"' :: name ++ ['"']) [.string (String.ofList name)]
  | float {levels : Nat} {x y : Double} (hx : x.isNaN = false)
      (hy : double? x.text.toList = some y) : Spells levels x.text.toList [.float y]
  | list {levels : Nat} {s : List Char} {items : List Sexp} (h : Spells levels s items) :
      Spells (levels + 1) ('(' :: s ++ [')']) [.list items]
  | append {levels : Nat} {s t : List Char} {values items : List Sexp}
      (hs : Spells levels s values) (ht : Spells levels t items) :
      Spells levels (s ++ ' ' :: t) (values ++ items)

/-- There may be room for more levels than there are. -/
theorem Spells.mono {levels more : Nat} {s : List Char} {values : List Sexp}
    (h : Spells levels s values) (hle : levels ≤ more) : Spells more s values := by
  induction h generalizing more with
  | symbol hne hletters hinteger hdouble => exact .symbol hne hletters hinteger hdouble
  | string hletters => exact .string hletters
  | float hx hy => exact .float hx hy
  | list _ ih =>
      obtain ⟨k, rfl⟩ : ∃ k, more = k + 1 := ⟨more - 1, by omega⟩
      exact .list (ih (by omega))
  | append _ _ ihs iht => exact .append (ihs hle) (iht hle)

/-- All that is asked of a codec. -/
structure Codec.Lawful (K : Codec) (levels : Nat) : Prop where
  /-- A name of letters is written between double quotes. -/
  string_eq : ∀ name : String, (∀ c ∈ name.toList, c.isAlpha = true) →
    (K.string name).toList = '"' :: name.toList ++ ['"']
  /-- A number is written with its own text. -/
  number_eq : ∀ x : Double, K.number x = x.text
  /-- A text of up to so many levels of brackets is read as the value that it spells. -/
  read_eq : ∀ (text : String) (value : Sexp), Spells levels text.toList [value] →
    K.read text = .ok value

/-! ## Words and strings -/

theorem endsAtom_of_wordChar {c : Char} (h : WordChar c) : endsAtom c = false := by
  have hne : c ≠ '(' ∧ c ≠ ')' ∧ c ≠ '[' ∧ c ≠ ']' ∧ c ≠ '"' ∧ c ≠ ';' :=
    ⟨h.ne (by decide), h.ne (by decide), h.ne (by decide), h.ne (by decide), h.ne (by decide),
      h.ne (by decide)⟩
  simpa [endsAtom, h.isAsciiBlank_eq] using hne

/-- A word ends before the first character that ends it. -/
theorem atomBody_append {word rest : List Char} (hword : ∀ c ∈ word, WordChar c)
    (hend : ∀ c, rest.head? = some c → endsAtom c = true) :
    atomBody (word ++ rest) = .ok (word, word.length) := by
  induction word with
  | nil =>
      cases rest with
      | nil => rfl
      | cons c rest =>
          have hc := hend c rfl
          have hescape : c ≠ '\\' := by
            rintro rfl
            cases hc
          rw [List.nil_append, atomBody, if_pos hc]
          · rfl
          · rintro rfl
            exact fun _ => hescape rfl
          · rintro _ _ rfl
            exact fun _ => hescape rfl
  | cons c word ih =>
      have hc := hword c List.mem_cons_self
      have hescape : c ≠ '\\' := hc.ne (by decide)
      rw [List.cons_append, atomBody, endsAtom_of_wordChar hc,
        ih fun c hc => hword c (List.mem_cons_of_mem _ hc)]
      · rfl
      · rintro rfl
        exact fun _ => hescape rfl
      · rintro _ _ rfl
        exact fun _ => hescape rfl

/-- A string without quotes and escapes ends at the next quote. -/
theorem stringBody_append {s : List Char} (hs : ∀ c ∈ s, c ≠ '"' ∧ c ≠ '\\') (rest : List Char) :
    stringBody (s ++ '"' :: rest) = .ok (s, s.length + 1) := by
  induction s with
  | nil => rfl
  | cons c s ih =>
      obtain ⟨hquote, hescape⟩ := hs c List.mem_cons_self
      rw [List.cons_append, stringBody, ih fun c hc => hs c (List.mem_cons_of_mem _ hc)]
      · rfl
      · rintro rfl
        exact fun _ => hescape rfl
      · exact hquote
      · rintro _ _ rfl
        exact fun _ => hescape rfl

/-! ## One value -/

variable {nested : Reader} {c d m : Cursor} {s : List Char}

theorem readNext_blank (hread : c.Reads [' '] m) : readNext nested c ' ' = .ok ([], m) := by
  rw [← hread.advance_eq]
  rfl

theorem readNext_word {ch : Char} (hread : c.Reads (ch :: s) m)
    (hword : ∀ x ∈ ch :: s, WordChar x) (hend : ∀ x, m.peek = some x → endsAtom x = true) :
    readNext nested c ch = .ok ([ofAtom (ch :: s)], m) := by
  have hch := hword ch List.mem_cons_self
  have hbracket : bracket? ch = none := by
    rw [bracket?]
    · exact hch.ne (by decide)
    · exact hch.ne (by decide)
  rw [readNext, if_neg (hch.ne (by decide)), if_neg (by simp [hch.isAsciiBlank_eq]),
    if_neg (hch.ne (by decide)), if_neg (hch.ne (by decide)), hbracket, hread.rest,
    atomBody_append hword hend, ← hread.advance_length_eq (by simp)]

theorem readNext_string (hread : c.Reads ('"' :: s ++ ['"']) m)
    (hs : ∀ x ∈ s, x ≠ '"' ∧ x ≠ '\\') :
    readNext nested c '"' = .ok ([.string (String.ofList s)], m) := by
  have hrest : (c.advance 1).rest = s ++ '"' :: m.rest := by
    show c.rest.drop 1 = _
    rw [hread.rest]
    simp
  rw [readNext, if_pos rfl, hrest, stringBody_append hs, ← hread.advance_length_eq (by simp)]
  simp

/-! ## The values of a list -/

/-- The values that are read from a cursor up to a closing bracket or the end. -/
inductive Gathers (nested : Reader) : Cursor → List Sexp → Cursor → Prop
  | done {c : Cursor} (h : ∀ ch, c.peek = some ch → ch = ')' ∨ ch = ']') : Gathers nested c [] c
  | next {c m d : Cursor} {ch : Char} {s : List Char} {values items : List Sexp}
      (hread : c.Reads (ch :: s) m) (hopen : ¬(ch = ')' ∨ ch = ']'))
      (hnext : readNext nested c ch = .ok (values, m)) (h : Gathers nested m items d) :
      Gathers nested c (values ++ items) d

namespace Gathers

variable {items : List Sexp}

theorem blank (hread : c.Reads [' '] m) (h : Gathers nested m items d) :
    Gathers nested c items d :=
  next hread (by decide) (readNext_blank hread) h

/-- A closing bracket ends the list. -/
theorem close (hpeek : c.peek = some ')') : Gathers nested c [] c :=
  done fun _ hch => .inl (Option.some.inj (hch.symm.trans hpeek))

theorem word (hread : c.Reads s m) (hne : s ≠ []) (hword : ∀ x ∈ s, WordChar x)
    (hend : ∀ x, m.peek = some x → endsAtom x = true) (h : Gathers nested m items d) :
    Gathers nested c (ofAtom s :: items) d := by
  cases s with
  | nil => exact absurd rfl hne
  | cons ch s =>
      have hch := hword ch List.mem_cons_self
      exact next hread (not_or.2 ⟨hch.ne (by decide), hch.ne (by decide)⟩)
        (readNext_word hread hword hend) h

/-- Every round reads a character, so there are rounds enough. -/
theorem readItems_eq (h : Gathers nested c items d) {fuel : Nat} (hfuel : c.rest.length ≤ fuel)
    (before : List Sexp) :
    readItems nested fuel before c = .ok (before.reverse ++ items, d) := by
  induction h generalizing fuel before with
  | @done c hclose =>
      rw [List.append_nil]
      cases fuel with
      | zero => rfl
      | succ fuel =>
          rw [readItems]
          cases hpeek : c.peek with
          | none => rfl
          | some ch => exact if_pos (hclose ch hpeek)
  | @next c m d ch s values items hread hopen hnext h ih =>
      have hlength := congrArg List.length hread.rest
      rw [List.length_append, List.length_cons] at hlength
      cases fuel with
      | zero => omega
      | succ fuel =>
          rw [readItems, hread.peek_eq]
          simp only [if_neg hopen, hnext]
          rw [ih (by omega) (values.reverse ++ before)]
          simp

theorem reader_eq {depth : Nat} (h : Gathers (reader depth) c items d) :
    reader (depth + 1) c = .ok (items, d) := by
  have hlength : c.rest.length ≤ c.size - c.pos := by
    rw [c.rest_eq, List.length_drop, c.size_eq]
  exact h.readItems_eq hlength []

end Gathers

theorem readNext_list {depth : Nat} {items : List Sexp} {c₁ c₂ : Cursor} (hopen : c.Reads ['('] c₁)
    (h : Gathers (reader depth) c₁ items c₂) (hclose : c₂.Reads [')'] d) :
    readNext (reader (depth + 1)) c '(' = .ok ([.list items], d) := by
  rw [readNext, if_neg (by decide), if_neg (by decide), if_neg (by decide), if_neg (by decide),
    hopen.advance_eq]
  simp only [bracket?, h.reader_eq, hclose.peek_eq, hclose.advance_eq, if_true]

theorem endsAtom_of_reads {ch : Char} (hread : c.Reads (ch :: s) m) (hch : endsAtom ch = true) :
    ∀ x, c.peek = some x → endsAtom x = true := by
  rw [hread.peek_eq]
  rintro x ⟨⟩
  exact hch

/-- **The standard reader gathers what is spelled**, with room for its levels of brackets. -/
theorem Spells.gathers {levels : Nat} {values items : List Sexp} (h : Spells levels s values)
    (hread : c.Reads s m) (hend : ∀ x, m.peek = some x → endsAtom x = true)
    (hrest : Gathers (reader levels) m items d) :
    Gathers (reader levels) c (values ++ items) d := by
  induction h generalizing c m d items with
  | @symbol levels word hne hletters hinteger hdouble =>
      have hatom : ofAtom word = .symbol (String.ofList word) := by
        simp [ofAtom, hinteger, hdouble]
      rw [← hatom]
      exact .word hread hne (fun x hx => .inl (hletters x hx)) hend hrest
  | @string levels name hletters =>
      have hplain : ∀ x ∈ name, x ≠ '"' ∧ x ≠ '\\' := by
        intro x hx
        have hword : WordChar x := .inl (hletters x hx)
        exact ⟨hword.ne (by decide), hword.ne (by decide)⟩
      exact .next hread (by decide) (readNext_string hread hplain) hrest
  | @float levels x y hx hy =>
      obtain ⟨hword, hinteger, -⟩ := text_reads hx
      have hatom : ofAtom x.text.toList = .float y := by simp [ofAtom, hinteger, hy]
      have hne : x.text.toList ≠ [] := by
        intro hnil
        rw [hnil] at hy
        cases hy
      rw [← hatom]
      exact .word hread hne hword hend hrest
  | @list levels s inner h ih =>
      obtain ⟨c₁, hopen, hinner⟩ :=
        Cursor.Reads.split (show c.Reads (['('] ++ (s ++ [')'])) m from hread)
      obtain ⟨c₂, hinner, hclose⟩ := hinner.split
      have hgathers : Gathers (reader levels) c₁ (inner ++ []) c₂ :=
        ih hinner (endsAtom_of_reads hclose rfl) (.close hclose.peek_eq)
      rw [List.append_nil] at hgathers
      exact .next hread (by decide) (readNext_list hopen hgathers hclose) hrest
  | @append levels s t values others hs ht ihs iht =>
      obtain ⟨c₁, hfirst, hothers⟩ :=
        Cursor.Reads.split (show c.Reads (s ++ ([' '] ++ t)) m from hread)
      obtain ⟨c₂, hblank, hothers⟩ := hothers.split
      rw [List.append_assoc]
      exact ihs hfirst (endsAtom_of_reads hblank rfl) (.blank hblank (iht hothers hend hrest))

/-- A text that spells one value is read as it. -/
theorem readOne_of_spells {text : String} {value : Sexp}
    (h : Spells maxNesting text.toList [value]) : readOne text = .ok value := by
  rw [readOne]
  generalize text.toList = t at h ⊢
  obtain ⟨d, hread, hrest⟩ := (Cursor.start t).exists_reads (List.append_nil _).symm
  have hpeek : d.peek = none := by
    rw [peek, hrest]
    rfl
  have hgathers : Gathers (reader maxNesting) (Cursor.start t) [value] d :=
    h.gathers hread (by simp [hpeek]) (.done (by simp [hpeek]))
  simp only [hgathers.reader_eq, hrest]

/-! ## The standard codec -/

theorem escapeString_of_isAlpha {c : Char} (h : c.isAlpha = true) : escapeString c = [c] := by
  have hword : WordChar c := .inl h
  rw [escapeString]
  all_goals exact hword.ne (by decide)

/-- A name of letters is written as it is, between quotes. -/
theorem toList_stringText {name : String} (hname : ∀ c ∈ name.toList, c.isAlpha = true) :
    (stringText name).toList = '"' :: name.toList ++ ['"'] := by
  have hescape : name.toList.flatMap escapeString = name.toList := by
    rw [List.flatMap_congr fun c hc => escapeString_of_isAlpha (hname c hc),
      List.flatMap_singleton']
  rw [stringText, String.toList_ofList, hescape]

theorem Codec.standard_lawful {levels : Nat} (h : levels ≤ maxNesting) : standard.Lawful levels where
  string_eq _ := toList_stringText
  number_eq _ := rfl
  read_eq text value hspells := by
    have hread := readOne_of_spells (hspells.mono h)
    simp only [standard, hread]
    rfl

end Sexp

end LiveFormula
