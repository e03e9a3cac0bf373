import LiveFormula.Text.Character
import LiveFormula.Text.Quoted

/-!
# The read cursor

Model of `livexpr.scanner.Cursor`.

A cursor is a position in a text, which every rule of the grammar reads through. Beside the text and
the position it holds the length of the text and the characters from the position on, so that reading
a character takes no search. A position past the end is allowed: nothing can be read there.
-/

set_option autoImplicit false

namespace LiveFormula

/-- A position in a text. -/
structure Cursor where
  text : List Char
  size : Nat
  pos : Nat
  rest : List Char
  size_eq : size = text.length
  rest_eq : rest = text.drop pos

namespace Cursor

/-- The cursor at a given position of a text. -/
def seek (text : List Char) (pos : Nat) : Cursor := ⟨text, text.length, pos, text.drop pos, rfl, rfl⟩

/-- The cursor at the beginning of a text. -/
def start (text : List Char) : Cursor := ⟨text, text.length, 0, text, rfl, rfl⟩

/-- A cursor is determined by its text and its position. -/
theorem ext_of_pos {c d : Cursor} (ht : c.text = d.text) (hp : c.pos = d.pos) : c = d := by
  obtain ⟨t, n, p, r, hn, hr⟩ := c
  obtain ⟨t', n', p', r', hn', hr'⟩ := d
  simp only at ht hp
  subst ht hp hn hn' hr hr'
  rfl

def atEnd (c : Cursor) : Bool := c.size ≤ c.pos

/-- The character at the position, unless the text has ended. -/
def peek (c : Cursor) : Option Char := c.rest.head?

/-- Moves on by `n` characters, but not past the end. -/
def advance (c : Cursor) (n : Nat) : Cursor where
  text := c.text
  size := c.size
  pos := min (c.pos + n) c.size
  rest := c.rest.drop n
  size_eq := c.size_eq
  rest_eq := by
    rw [c.rest_eq, List.drop_drop, c.size_eq]
    rcases Nat.le_total (c.pos + n) c.text.length with h | h
    · rw [Nat.min_eq_left h]
    · rw [Nat.min_eq_right h, List.drop_eq_nil_of_le h, List.drop_length]

/-- Whether the text goes on with `word`. Past the end it does not even go on with the empty word. -/
def startsWith (c : Cursor) (word : List Char) : Bool := c.pos ≤ c.size && word.isPrefixOf c.rest

/-- The longest run of characters of a class at the position. -/
def run (c : Cursor) (p : Char → Bool) : List Char := c.rest.takeWhile p

/-- Moves on past the longest run of characters of a class. -/
def skip (c : Cursor) (p : Char → Bool) : Cursor where
  text := c.text
  size := c.size
  pos := c.pos + (c.rest.takeWhile p).length
  rest := c.rest.dropWhile p
  size_eq := c.size_eq
  rest_eq := by
    rw [← List.drop_drop, ← c.rest_eq]
    conv => rhs; arg 2; rw [← List.takeWhile_append_dropWhile (p := p) (l := c.rest)]
    rw [List.drop_left]

/-- Moves on past blanks. -/
def skipBlanks (c : Cursor) : Cursor := c.skip Text.isAsciiBlank

/-- Position and remaining text, for display. -/
def describe (c : Cursor) : String :=
  "Cursor(pos=" ++ toString c.pos ++ ", rest=" ++ Text.quoteChars c.rest ++ ")"

end Cursor

end LiveFormula
