import LiveFormula.Formula.Cursor
import Mathlib.Data.List.TakeWhile

/-!
# Moving a cursor

`Cursor.Reads c s d` says that reading the characters `s` takes the cursor `c` to `d`. What rules do
to cursors is stated with it: the text stays as it was, the position grows by what was read, and
what remains is what was not read.

`Lookahead` compares two places that are read in the same way: the one may have ended where the
other has not, but shows no other next character. A run of characters of one class is the same at
both (`Reads.run_eq_of_lookahead`).
-/

set_option autoImplicit false

namespace LiveFormula

namespace Cursor

/-- Reading `s` takes the cursor `c` to `d`. -/
structure Reads (c : Cursor) (s : List Char) (d : Cursor) : Prop where
  text : d.text = c.text
  pos : d.pos = c.pos + s.length
  rest : c.rest = s ++ d.rest

variable {c d : Cursor} {s t : List Char}

theorem Reads.refl (c : Cursor) : c.Reads [] c := ⟨rfl, rfl, rfl⟩

theorem Reads.trans {e : Cursor} (h : c.Reads s d) (h' : d.Reads t e) : c.Reads (s ++ t) e where
  text := h'.text.trans h.text
  pos := by rw [h'.pos, h.pos, List.length_append, Nat.add_assoc]
  rest := by rw [h.rest, h'.rest, List.append_assoc]

/-- The cursor `d` can be reached from `c` by reading. -/
def Before (c d : Cursor) : Prop := ∃ s, c.Reads s d

theorem Before.refl (c : Cursor) : c.Before c := ⟨[], .refl c⟩

theorem Before.trans {e : Cursor} (h : c.Before d) (h' : d.Before e) : c.Before e := by
  obtain ⟨s, hs⟩ := h
  obtain ⟨t, ht⟩ := h'
  exact ⟨s ++ t, hs.trans ht⟩

/-- What is read determines where the cursor goes. -/
theorem Reads.unique {d' : Cursor} (h : c.Reads s d) (h' : c.Reads s d') : d = d' :=
  ext_of_pos (h.text.trans h'.text.symm) (h.pos.trans h'.pos.symm)

/-- Where the cursor goes determines what is read. -/
theorem Reads.eq_of_reads (h : c.Reads s d) (h' : c.Reads t d) : s = t :=
  List.append_cancel_right (h.rest.symm.trans h'.rest)

theorem Reads.eq_nil_of_pos_eq (h : c.Reads s d) (hpos : d.pos = c.pos) : s = [] := by
  have := h.pos
  exact List.length_eq_zero_iff.1 (by omega)

/-- A cursor that can be read past `s ++ t` can be read past `s`. -/
theorem Reads.split (h : c.Reads (s ++ t) d) : ∃ m, c.Reads s m ∧ m.Reads t d := by
  have hrest : c.text.drop c.pos = s ++ (t ++ d.rest) := by
    rw [← c.rest_eq, h.rest, List.append_assoc]
  have hdrop : c.text.drop (c.pos + s.length) = t ++ d.rest := by
    rw [← List.drop_drop, hrest, List.drop_left]
  refine ⟨seek c.text (c.pos + s.length), ⟨rfl, rfl, ?_⟩, ⟨h.text, ?_, hdrop⟩⟩
  · rw [h.rest, List.append_assoc]
    exact congrArg (s ++ ·) hdrop.symm
  · rw [h.pos, List.length_append, ← Nat.add_assoc]
    rfl

theorem exists_reads {r : List Char} (h : c.rest = s ++ r) : ∃ d, c.Reads s d ∧ d.rest = r := by
  have hdrop : c.text.drop (c.pos + s.length) = r := by
    rw [← List.drop_drop, ← c.rest_eq, h, List.drop_left]
  exact ⟨seek c.text (c.pos + s.length), ⟨rfl, rfl, by rw [h, ← hdrop]; rfl⟩, hdrop⟩

theorem reads_advance {r : List Char} (hs : s ≠ []) (h : c.rest = s ++ r) :
    c.Reads s (c.advance s.length) := by
  have hlength : c.text.length - c.pos = s.length + r.length := by
    rw [← List.length_drop, ← c.rest_eq, h, List.length_append]
  have hpos : 0 < s.length := List.length_pos_iff.2 hs
  have hsize := c.size_eq
  refine ⟨rfl, ?_, ?_⟩
  · show min (c.pos + s.length) c.size = c.pos + s.length
    omega
  · show c.rest = s ++ c.rest.drop s.length
    rw [h, List.drop_left]

theorem peek_eq_some {ch : Char} : c.peek = some ch ↔ ∃ r, c.rest = ch :: r :=
  List.head?_eq_some_iff

theorem reads_advance_one {ch : Char} (h : c.peek = some ch) : c.Reads [ch] (c.advance 1) := by
  obtain ⟨r, hr⟩ := peek_eq_some.1 h
  exact reads_advance (s := [ch]) (by simp) hr

theorem Reads.peek_eq {ch : Char} (h : c.Reads (ch :: s) d) : c.peek = some ch :=
  peek_eq_some.2 ⟨s ++ d.rest, h.rest⟩

theorem Reads.advance_eq {ch : Char} (h : c.Reads [ch] d) : c.advance 1 = d :=
  (reads_advance_one h.peek_eq).unique h

theorem Reads.advance_length_eq (h : c.Reads s d) (hs : s ≠ []) : c.advance s.length = d :=
  (reads_advance hs h.rest).unique h

/-! ## Runs of one class -/

theorem reads_skip (c : Cursor) (p : Char → Bool) : c.Reads (c.run p) (c.skip p) :=
  ⟨rfl, rfl, List.takeWhile_append_dropWhile.symm⟩

theorem forall_mem_run (c : Cursor) (p : Char → Bool) : ∀ x ∈ c.run p, p x :=
  fun _ hx => List.mem_takeWhile_imp hx

theorem not_of_peek_skip {p : Char → Bool} {ch : Char} (h : (c.skip p).peek = some ch) :
    p ch = false := by
  have hnot := List.head?_dropWhile_not p c.rest
  rw [show (c.rest.dropWhile p).head? = some ch from h] at hnot
  exact hnot

/-- A run of a class ends before the first character outside it. -/
theorem Reads.run_eq {p : Char → Bool} (h : c.Reads s d) (hs : ∀ x ∈ s, p x)
    (hd : ∀ ch, d.peek = some ch → p ch = false) : c.run p = s ∧ c.skip p = d := by
  have hstop : d.rest.takeWhile p = [] := by
    cases hrest : d.rest with
    | nil => rfl
    | cons ch r => rw [List.takeWhile_cons, hd ch (peek_eq_some.2 ⟨r, hrest⟩)]; rfl
  have hrun : c.run p = s := by
    rw [run, h.rest, List.takeWhile_append_of_pos hs, hstop, List.append_nil]
  exact ⟨hrun, (hrun ▸ c.reads_skip p).unique h⟩

/-! ## Lookahead -/

/-- The place `r'` shows no other next character than `r`. -/
def Lookahead (r' r : List Char) : Prop := ∀ ch, r'.head? = some ch → r.head? = some ch

theorem Lookahead.append {r r' : List Char} (h : Lookahead r' r) (s : List Char) :
    Lookahead (s ++ r') (s ++ r) := by
  cases s with
  | nil => exact h
  | cons ch s => exact fun _ hch => hch

/-- A run of a class is the same at two places that are read in the same way. -/
theorem Reads.run_eq_of_lookahead {c' d' : Cursor} {p : Char → Bool} (h : c'.Reads (c.run p) d')
    (hl : Lookahead d'.rest (c.skip p).rest) : c'.run p = c.run p ∧ c'.skip p = d' :=
  h.run_eq (c.forall_mem_run p) fun ch hch => not_of_peek_skip (hl ch hch)

end Cursor

end LiveFormula
