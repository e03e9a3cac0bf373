import LiveFormula.Proofs.Compiler
import LiveFormula.Proofs.Recognition
import LiveFormula.Proofs.SessionStep
import LiveFormula.Proofs.Utf8

/-!
# A line that cannot be read harms no other

A session reads a byte stream: the bytes are decoded, line ends of any kind become line feeds, and the
text is cut into lines. Here the stream itself is cut (`byteLines`), before anything is decoded.

* `Text.lines_readText` — the lines of the text are the lines of the stream, each read by itself: no
  sequence that breaks off swallows a line end, and none makes one.
* `Grammar.Derives.ascii` — formulas are ASCII, so that a line with a replacement in it is rejected.
* `Session.run_confines_lines` — a run over a stream is cut at any line feed, and a line that is
  ill-formed or not ASCII counts as failed and changes nothing else.
-/

set_option autoImplicit false

namespace LiveFormula.Text

/-! ## Cutting a list -/

section Cut

variable {α : Type} (ends : α → List α → Bool)

theorem flatten_cutAfter (xs : List α) : (cutAfter ends xs).flatten = xs := by
  fun_induction cutAfter ends xs with
  | case1 => rfl
  | case2 x xs hends ih => simp [ih]
  | case3 x xs hends hnil ih => simpa [hnil] using ih
  | case4 x xs hends piece pieces hcons ih => simpa [hcons] using ih

variable {ends}

theorem cutAfter_cons {x : α} {xs piece : List α} {pieces : List (List α)} (h : ends x xs = false)
    (hcut : cutAfter ends xs = piece :: pieces) :
    cutAfter ends (x :: xs) = (x :: piece) :: pieces := by
  simp [cutAfter, h, hcut]

/-- Elements that end no piece come before the first one. -/
theorem cutAfter_append {body xs piece : List α} {pieces : List (List α)}
    (hbody : ∀ x ∈ body, ∀ after, ends x after = false) (hcut : cutAfter ends xs = piece :: pieces) :
    cutAfter ends (body ++ xs) = (body ++ piece) :: pieces := by
  induction body with
  | nil => exact hcut
  | cons x body ih =>
      exact cutAfter_cons (hbody x List.mem_cons_self _)
        (ih fun y hy => hbody y (List.mem_cons_of_mem x hy))

/-- Elements that end no piece are one piece, unless there are none. -/
theorem cutAfter_of_unbroken {body : List α} (hne : body ≠ [])
    (hbody : ∀ x ∈ body, ∀ after, ends x after = false) : cutAfter ends body = [body] := by
  induction body with
  | nil => exact absurd rfl hne
  | cons x body ih =>
      have hx := hbody x List.mem_cons_self body
      cases body with
      | nil => simp [cutAfter, hx]
      | cons y body =>
          exact cutAfter_cons hx
            (ih (List.cons_ne_nil y body) fun z hz => hbody z (List.mem_cons_of_mem x hz))

end Cut

/-! ## The lines of a stream -/

/-- Whether a line of a stream ends with a byte: at a line feed, and at a carriage return that no line
feed follows. -/
def endsLine (b : UInt8) (after : List UInt8) : Bool :=
  b == 0x0A || (b == 0x0D && after.head? != some 0x0A)

/-- The lines of a byte stream, each with its line end. -/
def byteLines (bytes : List UInt8) : List (List UInt8) := cutAfter endsLine bytes

/-- Bytes with no line end among them. -/
def Unbroken (bytes : List UInt8) : Prop := 0x0A ∉ bytes ∧ 0x0D ∉ bytes

/-- The line ends, in view of what follows. -/
inductive LineEnd : List UInt8 → List UInt8 → Prop
  | lineFeed (after : List UInt8) : LineEnd [0x0A] after
  | both (after : List UInt8) : LineEnd [0x0D, 0x0A] after
  | carriageReturn {after : List UInt8} (h : after.head? ≠ some 0x0A) : LineEnd [0x0D] after

theorem Unbroken.endsLine_eq {bytes : List UInt8} (h : Unbroken bytes) :
    ∀ b ∈ bytes, ∀ after, endsLine b after = false := by
  intro b hb after
  have hfeed : b ≠ 0x0A := fun heq => h.1 (heq ▸ hb)
  have hreturn : b ≠ 0x0D := fun heq => h.2 (heq ▸ hb)
  simp [endsLine, hfeed, hreturn]

theorem LineEnd.length_pos {ending after : List UInt8} (h : LineEnd ending after) :
    0 < ending.length := by
  cases h <;> simp

theorem LineEnd.nil {ending after : List UInt8} (h : LineEnd ending after) : LineEnd ending [] := by
  cases h with
  | lineFeed => exact .lineFeed []
  | both => exact .both []
  | carriageReturn => exact .carriageReturn (by simp)

/-- The first line reaches to the first line end. -/
theorem LineEnd.byteLines_eq {body ending after : List UInt8} (hending : LineEnd ending after)
    (hbody : Unbroken body) :
    byteLines (body ++ (ending ++ after)) = (body ++ ending) :: byteLines after := by
  refine cutAfter_append hbody.endsLine_eq ?_
  cases hending with
  | lineFeed => simp [byteLines, cutAfter, endsLine]
  | both => simp [byteLines, cutAfter, endsLine]
  | carriageReturn h => simp [byteLines, cutAfter, endsLine, h]

/-- A stream has no line end, or it begins with a line. -/
theorem exists_first_line (bytes : List UInt8) :
    Unbroken bytes ∨ ∃ body ending after, Unbroken body ∧ LineEnd ending after ∧
      bytes = body ++ (ending ++ after) := by
  have hempty : Unbroken [] := ⟨List.not_mem_nil, List.not_mem_nil⟩
  induction bytes with
  | nil => exact .inl hempty
  | cons b bytes ih =>
      by_cases hfeed : b = 0x0A
      · exact .inr ⟨[], [0x0A], bytes, hempty, .lineFeed bytes, by rw [hfeed]; rfl⟩
      by_cases hreturn : b = 0x0D
      · by_cases hnext : bytes.head? = some 0x0A
        · obtain ⟨after, rfl⟩ := List.head?_eq_some_iff.1 hnext
          exact .inr ⟨[], [0x0D, 0x0A], after, hempty, .both after, by rw [hreturn]; rfl⟩
        · exact .inr ⟨[], [0x0D], bytes, hempty, .carriageReturn hnext, by rw [hreturn]; rfl⟩
      have hb : ∀ {body : List UInt8}, Unbroken body → Unbroken (b :: body) := by
        intro body hbody
        exact ⟨by simp [Ne.symm hfeed, hbody.1], by simp [Ne.symm hreturn, hbody.2]⟩
      rcases ih with hall | ⟨body, ending, after, hbody, hending, rfl⟩
      · exact .inl (hb hall)
      · exact .inr ⟨b :: body, ending, after, hb hbody, hending, rfl⟩

/-- A line feed cuts a stream, whatever stands before it. -/
theorem byteLines_append (first second : List UInt8) :
    byteLines (first ++ 0x0A :: second) = byteLines (first ++ [0x0A]) ++ byteLines second := by
  induction first with
  | nil => simp [byteLines, cutAfter, endsLine]
  | cons b first ih =>
      -- whether a byte ends a line depends on the next byte only, and there is one
      have hends : endsLine b (first ++ 0x0A :: second) = endsLine b (first ++ [0x0A]) := by
        cases first <;> rfl
      cases h : endsLine b (first ++ [0x0A]) with
      | true =>
          simp only [byteLines, List.cons_append] at ih ⊢
          simp [cutAfter, hends, h, ih]
      | false =>
          have hne : byteLines (first ++ [0x0A]) ≠ [] := by
            intro hnil
            have hflatten := flatten_cutAfter endsLine (first ++ [0x0A])
            rw [← byteLines, hnil] at hflatten
            simp at hflatten
          obtain ⟨line, rest, hcut⟩ := List.exists_cons_of_ne_nil hne
          rw [hcut] at ih
          rw [byteLines, List.cons_append, List.cons_append, byteLines, cutAfter_cons h hcut,
            cutAfter_cons (hends.trans h) ih]
          rfl

/-! ## Reading the lines -/

open Utf8

theorem unifyLineEnds_append {s : List Char} (h : '\r' ∉ s) (t : List Char) :
    unifyLineEnds (s ++ t) = s ++ unifyLineEnds t := by
  induction s with
  | nil => rfl
  | cons c s ih =>
      have hc : c ≠ '\r' := fun heq => h (heq ▸ List.mem_cons_self)
      have hs := ih fun hmem => h (List.mem_cons_of_mem c hmem)
      rw [List.cons_append, unifyLineEnds, hs, List.cons_append]
      · exact fun _ heq _ => hc heq
      · exact fun heq => hc heq

theorem unifyLineEnds_return {t : List Char} (h : t.head? ≠ some '\n') :
    unifyLineEnds ('\r' :: t) = '\n' :: unifyLineEnds t := by
  rw [unifyLineEnds]
  rintro rest rfl
  exact h rfl

theorem decode_lineFeed (body after : List UInt8) :
    decode (body ++ 0x0A :: after) = decode body ++ '\n' :: decode after :=
  decode_append_ascii body (by decide) after

theorem decode_carriageReturn (body after : List UInt8) :
    decode (body ++ 0x0D :: after) = decode body ++ '\r' :: decode after :=
  decode_append_ascii body (by decide) after

/-- Bytes with no line end among them are read without one. -/
theorem Unbroken.not_mem_decode {bytes : List UInt8} (h : Unbroken bytes) :
    '\n' ∉ decode bytes ∧ '\r' ∉ decode bytes :=
  ⟨fun hmem => h.1 ((decodes_decode bytes).mem_of_ascii (by decide) hmem),
    fun hmem => h.2 ((decodes_decode bytes).mem_of_ascii (by decide) hmem)⟩

theorem Unbroken.isLineFeed_eq {bytes : List UInt8} (h : Unbroken bytes) :
    ∀ c ∈ decode bytes, ∀ after, isLineFeed c after = false := by
  intro c hc _
  exact beq_eq_false_iff_ne.2 fun heq => h.not_mem_decode.1 (heq ▸ hc)

/-- A line end of any kind is read as a line feed. -/
theorem LineEnd.readText_eq {body ending after : List UInt8} (hending : LineEnd ending after)
    (hbody : Unbroken body) :
    readText (body ++ (ending ++ after)) = decode body ++ '\n' :: readText after := by
  have hplain := hbody.not_mem_decode.2
  cases hending with
  | lineFeed =>
      rw [readText, List.singleton_append, decode_lineFeed, unifyLineEnds_append hplain]
      rfl
  | both =>
      have hboth : decode (0x0A :: after) = '\n' :: decode after := decode_lineFeed [] after
      rw [readText, List.cons_append, List.singleton_append, decode_carriageReturn, hboth,
        unifyLineEnds_append hplain]
      rfl
  | carriageReturn h =>
      have hnext : (decode after).head? ≠ some '\n' := fun hhead =>
        h ((decodes_decode after).head_of_ascii (by decide) hhead)
      rw [readText, List.singleton_append, decode_carriageReturn, unifyLineEnds_append hplain,
        unifyLineEnds_return hnext]
      rfl

theorem Unbroken.readText_eq {bytes : List UInt8} (h : Unbroken bytes) :
    readText bytes = decode bytes := by
  have hplain := unifyLineEnds_append h.not_mem_decode.2 []
  rw [List.append_nil] at hplain
  rw [readText, hplain]
  exact List.append_nil _

theorem Unbroken.lines_eq {bytes : List UInt8} (h : Unbroken bytes) (hne : bytes ≠ []) :
    lines (readText bytes) = [readText bytes] := by
  have htext : decode bytes ≠ [] := by
    intro hnil
    have hbytes := (decodes_decode bytes).eq_encode
    rw [hnil] at hbytes
    exact hne (hbytes List.not_mem_nil)
  rw [h.readText_eq]
  exact cutAfter_of_unbroken htext h.isLineFeed_eq

theorem LineEnd.lines_eq {body ending after : List UInt8} (hending : LineEnd ending after)
    (hbody : Unbroken body) :
    lines (readText (body ++ (ending ++ after))) =
      readText (body ++ ending) :: lines (readText after) := by
  have hline := hending.nil.readText_eq hbody
  rw [List.append_nil] at hline
  rw [hending.readText_eq hbody, hline]
  exact cutAfter_append hbody.isLineFeed_eq rfl

/-- The lines of the text of a stream are the lines of the stream, each read by itself. -/
theorem lines_readText (bytes : List UInt8) :
    lines (readText bytes) = (byteLines bytes).map readText := by
  -- a whole line is taken off at a time: decoding does not follow the bytes one by one
  induction hlength : bytes.length using Nat.strongRecOn generalizing bytes with
  | _ n ih =>
    rcases exists_first_line bytes with hbody | ⟨body, ending, after, hbody, hending, rfl⟩
    · by_cases hne : bytes = []
      · rw [hne]
        rfl
      · rw [hbody.lines_eq hne, byteLines, cutAfter_of_unbroken hne hbody.endsLine_eq]
        rfl
    · have hshorter : after.length < n := by
        have hpos := hending.length_pos
        simp only [List.length_append] at hlength
        omega
      rw [hending.lines_eq hbody, hending.byteLines_eq hbody, ih _ hshorter after rfl]
      rfl

/-! ## Characters that stay -/

/-- A text of ASCII characters. -/
def Ascii (s : List Char) : Prop := ∀ c ∈ s, c.toNat < 0x80

theorem Ascii.append {s t : List Char} (hs : Ascii s) (ht : Ascii t) : Ascii (s ++ t) := by
  intro c hc
  rcases List.mem_append.1 hc with hc | hc
  · exact hs c hc
  · exact ht c hc

theorem Ascii.of_mem {s t : List Char} (h : Ascii t) (hmem : ∀ c ∈ s, ¬c.toNat < 0x80 → c ∈ t) :
    Ascii s := by
  intro c hc
  by_contra hhigh
  exact hhigh (h c (hmem c hc hhigh))

theorem mem_unifyLineEnds {s : List Char} {c : Char} (hc : c ∈ s) (hreturn : c ≠ '\r') :
    c ∈ unifyLineEnds s := by
  fun_induction unifyLineEnds s with
  | case1 rest ih =>
      rcases List.mem_cons.1 hc with heq | hc
      · exact absurd heq hreturn
      · exact (List.mem_cons.1 hc).elim (fun heq => heq ▸ List.mem_cons_self)
          fun hc => List.mem_cons_of_mem _ (ih hc)
  | case2 rest hnext ih =>
      rcases List.mem_cons.1 hc with heq | hc
      · exact absurd heq hreturn
      · exact List.mem_cons_of_mem _ (ih hc)
  | case3 d rest _ _ ih =>
      rcases List.mem_cons.1 hc with rfl | hc
      · exact List.mem_cons_self
      · exact List.mem_cons_of_mem _ (ih hc)
  | case4 => cases hc

theorem isLineEnd_eq_false {c : Char} (h : ¬c.toNat < 0x80) : isLineEnd c = false := by
  refine Bool.eq_false_iff.2 fun hend => h ?_
  rcases Bool.or_eq_true_iff.1 hend with heq | heq
  · rw [eq_of_beq heq]
    decide
  · rw [eq_of_beq heq]
    decide

theorem mem_dropLineEnds {s : List Char} {c : Char} (hc : c ∈ s) (hend : isLineEnd c = false) :
    c ∈ dropLineEnds s := by
  rw [dropLineEnds, List.mem_reverse]
  rw [← List.mem_reverse, ← s.reverse.takeWhile_append_dropWhile (p := isLineEnd)] at hc
  rcases List.mem_append.1 hc with htake | hdrop
  · rw [List.mem_takeWhile_imp htake] at hend
    cases hend
  · exact hdrop

/-- A line that is ill-formed or not ASCII is not read as ASCII. -/
theorem not_ascii_decode {line : List UInt8}
    (h : IllFormed line ∨ ∃ text, Utf8.encode text = line ∧ ¬Ascii text) : ¬Ascii (decode line) := by
  intro hascii
  rcases h with hill | ⟨text, rfl, htext⟩
  · have hno : replacement ∉ decode line := fun hmem => not_ascii_replacement (hascii _ hmem)
    exact hill _ ((decodes_decode line).eq_encode hno).symm
  · rw [decode_encode] at hascii
    exact htext hascii

end LiveFormula.Text

namespace LiveFormula.Grammar

open Text (Ascii)

/-! ## Formulas are ASCII -/

theorem Blank.ascii {s : List Char} (h : Blank s) : Ascii s := by
  intro c hc
  have hmem := h c hc
  simp only [blanks, List.mem_cons, List.not_mem_nil, or_false] at hmem
  rcases hmem with rfl | rfl | rfl | rfl | rfl | rfl <;> decide

theorem ascii_symbol (op : BinOp) : Ascii op.symbol.toList := by
  cases op <;> simp [Ascii, BinOp.symbol]

theorem ascii_name (func : Func) : Ascii func.name.toList := by
  cases func <;> simp [Ascii, Func.name]

theorem toNat_lt_of_isDigit {c : Char} (h : c.isDigit) : c.toNat < 0x80 := by
  have hnine : c.toNat ≤ 57 := (Char.isDigit_iff_toNat.1 h).2
  omega

theorem toNat_lt_of_isAlpha {c : Char} (h : c.isAlpha) : c.toNat < 0x80 := by
  rcases Bool.or_eq_true_iff.1 h with h | h
  · have hletter : c.toNat ≤ 90 := UInt32.le_iff_toNat_le.1 (of_decide_eq_true h).2
    omega
  · have hletter : c.toNat ≤ 122 :=
      UInt32.le_iff_toNat_le.1 (of_decide_eq_true (Bool.and_eq_true_iff.1 h).2)
    omega

/-- What is derived is ASCII. -/
theorem Derives.ascii {symbol : Symbol} {s : List Char} {e : Expr} (h : Derives symbol s e) :
    Ascii s := by
  induction h with
  | literal _ hdigits _ hgap =>
      exact .append (fun c hc => toNat_lt_of_isDigit (hdigits c hc)) hgap.ascii
  | name _ hletters _ hgap =>
      exact .append (fun c hc => toNat_lt_of_isAlpha (hletters c hc)) hgap.ascii
  | group hgap _ hgap' ih =>
      have hopen : Ascii ['('] := by simp [Ascii]
      have hclose : Ascii [')'] := by simp [Ascii]
      exact ((hopen.append hgap.ascii).append ih).append (hclose.append hgap'.ascii)
  | call func hgap _ ih => exact ((ascii_name func).append hgap.ascii).append ih
  | atom _ _ ih => exact ih
  | factor _ ih => exact ih
  | product op _ _ hgap _ ihl ihr => exact ((ihl.append (ascii_symbol op)).append hgap.ascii).append ihr
  | summand _ ih => exact ih
  | sum op _ _ hgap _ ihl ihr => exact ((ihl.append (ascii_symbol op)).append hgap.ascii).append ihr

theorem Formula.ascii {text : List Char} {e : Expr} (h : Formula text e) : Ascii text := by
  obtain ⟨gap, s, hgap, rfl, hs⟩ := h
  exact hgap.ascii.append hs.ascii

end LiveFormula.Grammar

namespace LiveFormula.Session

open Text

/-! ## Runs over streams -/

/-- A line that is not ASCII has no program. -/
theorem program?_of_not_ascii {line : List Char} (h : ¬Ascii line) : program? line = none := by
  cases hp : program? line with
  | none => rfl
  | some p =>
      obtain ⟨tree, hparse, -⟩ := exists_encode_of_compile (compile_of_program? hp)
      rw [parse, String.toList_ofList] at hparse
      refine absurd (Ascii.of_mem (formula_of_parseChars hparse).ascii ?_) h
      intro c hc hhigh
      exact mem_dropLineEnds hc (isLineEnd_eq_false hhigh)

/-- A line of a stream that is ill-formed or not ASCII counts as failed and changes nothing else. -/
theorem feed_of_not_ascii (s : Session) {line : List UInt8}
    (h : Utf8.IllFormed line ∨ ∃ text, Utf8.encode text = line ∧ ¬Ascii text) :
    (s.feed (Utf8.readText line)).session = { s with failed := s.failed + 1 } := by
  have htext : ¬Ascii (Utf8.readText line) := by
    intro hascii
    refine not_ascii_decode h (hascii.of_mem ?_)
    intro c hc hhigh
    refine mem_unifyLineEnds hc ?_
    rintro rfl
    exact hhigh (by decide)
  rw [feed_session, program?_of_not_ascii htext]

theorem feedAll_append (prompt : String) (s : Session) (xs ys : List (List Char)) :
    feedAll prompt s (xs ++ ys) =
      ((feedAll prompt (feedAll prompt s xs).1 ys).1,
        (feedAll prompt s xs).2 ++ (feedAll prompt (feedAll prompt s xs).1 ys).2) := by
  induction xs generalizing s with
  | nil => rfl
  | cons line xs ih => simp [feedAll, ih]

theorem feedAll_session (prompt : String) (s : Session) (lines : List (List Char)) :
    (feedAll prompt s lines).1 = lines.foldl (fun s line => (s.feed line).session) s := by
  induction lines generalizing s with
  | nil => rfl
  | cons line lines ih => exact ih (s.feed line).session

/-- A run over a byte stream, without prompts. -/
def runBytes (s : Session) (bytes : List UInt8) : Step Nat := s.run "" (Utf8.readText bytes)

theorem runBytes_session (s : Session) (bytes : List UInt8) :
    (s.runBytes bytes).session = (feedAll "" s ((byteLines bytes).map Utf8.readText)).1 := by
  rw [← lines_readText]
  rfl

/-- A run writes the diagnostics of its lines. -/
theorem diagnostics_runBytes (s : Session) (bytes : List UInt8) :
    Effect.diagnostics (s.runBytes bytes).effects =
      Effect.diagnostics (feedAll "" s ((byteLines bytes).map Utf8.readText)).2 := by
  rw [← lines_readText]
  simp only [runBytes, run, Effect.joined_append, closeEffects]
  simp [promptEffects]

/-- A run over a stream is cut at any line feed. -/
theorem runBytes_append (s : Session) (first second : List UInt8) :
    (s.runBytes (first ++ 0x0A :: second)).session =
        ((s.runBytes (first ++ [0x0A])).session.runBytes second).session ∧
      Effect.diagnostics (s.runBytes (first ++ 0x0A :: second)).effects =
        Effect.diagnostics (s.runBytes (first ++ [0x0A])).effects ++
          Effect.diagnostics ((s.runBytes (first ++ [0x0A])).session.runBytes second).effects := by
  have hlines := byteLines_append first second
  constructor
  · rw [runBytes_session, runBytes_session, runBytes_session, hlines, List.map_append, feedAll_append]
  · rw [diagnostics_runBytes, diagnostics_runBytes, diagnostics_runBytes, runBytes_session, hlines,
      List.map_append, feedAll_append]
    exact Effect.joined_append _ _

/-- What cannot be read in a stream is confined to its line. A run over a stream is cut at any line
feed. The stream consists of lines that are read one by one, and one that is ill-formed or has a
character that is not ASCII counts as failed and changes nothing else. -/
theorem run_confines_lines (s : Session) :
    (∀ first second : List UInt8,
      (s.runBytes (first ++ 0x0A :: second)).session =
          ((s.runBytes (first ++ [0x0A])).session.runBytes second).session ∧
        Effect.diagnostics (s.runBytes (first ++ 0x0A :: second)).effects =
          Effect.diagnostics (s.runBytes (first ++ [0x0A])).effects ++
            Effect.diagnostics ((s.runBytes (first ++ [0x0A])).session.runBytes second).effects) ∧
    (∀ bytes : List UInt8,
      (byteLines bytes).flatten = bytes ∧
        (s.runBytes bytes).session =
          (byteLines bytes).foldl (fun s line => (s.feed (Utf8.readText line)).session) s) ∧
    ∀ line : List UInt8,
      (Utf8.IllFormed line ∨ ∃ text, Utf8.encode text = line ∧ ¬Ascii text) →
        (s.feed (Utf8.readText line)).session = { s with failed := s.failed + 1 } := by
  refine ⟨s.runBytes_append, ?_, fun line => s.feed_of_not_ascii⟩
  intro bytes
  refine ⟨flatten_cutAfter endsLine bytes, ?_⟩
  rw [runBytes_session, feedAll_session, List.foldl_map]

/-- A sequence of three bytes that breaks off at a line end fails with its line, and the formula behind
it is staged. -/
theorem run_confines_lines_truncated :
    Utf8.IllFormed [0x74, 0xE2, 0x82, 0x0D, 0x0A] ∧
      byteLines [0x74, 0xE2, 0x82, 0x0D, 0x0A, 0x74] = [[0x74, 0xE2, 0x82, 0x0D, 0x0A], [0x74]] ∧
      (empty.runBytes [0x74, 0xE2, 0x82, 0x0D, 0x0A, 0x74]).session =
        { empty with slot := ⟨some ⟨[1]⟩⟩, staged := 1, failed := 1 } := by
  have hill : Utf8.IllFormed [0x74, 0xE2, 0x82, 0x0D, 0x0A] := by
    intro text htext
    have hdecode := Utf8.decode_encode text
    rw [htext] at hdecode
    rw [← hdecode] at htext
    revert htext
    decide
  have hlines : byteLines [0x74, 0xE2, 0x82, 0x0D, 0x0A, 0x74] =
      [[0x74, 0xE2, 0x82, 0x0D, 0x0A], [0x74]] := by decide
  have hformula : program? (Utf8.readText [0x74]) = some ⟨[1]⟩ := by decide +kernel
  refine ⟨hill, hlines, ?_⟩
  rw [((run_confines_lines empty).2.1 _).2, hlines, List.foldl_cons,
    (run_confines_lines empty).2.2 _ (.inl hill), List.foldl_cons, feed_session, hformula]
  rfl

end LiveFormula.Session
