/-!
# Lines

A text is cut into lines after each line feed, so that the lines together are the text. A last line
without a line feed is one only if it is not empty.
-/

set_option autoImplicit false

namespace LiveFormula.Text

/-- Cuts a list behind each element that ends a piece; whether it does may depend on what follows. -/
def cutAfter {α : Type} (ends : α → List α → Bool) : List α → List (List α)
  | [] => []
  | x :: xs =>
    if ends x xs then [x] :: cutAfter ends xs
    else
      match cutAfter ends xs with
      | [] => [[x]]
      | piece :: pieces => (x :: piece) :: pieces

/-- A line of a text ends at a line feed, whatever follows. -/
def isLineFeed (c : Char) (_ : List Char) : Bool := c == '\n'

/-- The lines of a text, each with its line feed. -/
def lines (s : List Char) : List (List Char) := cutAfter isLineFeed s

/-- Whether a character ends a line. -/
def isLineEnd (c : Char) : Bool := c == '\r' || c == '\n'

/-- A line without the line ends behind it. -/
def dropLineEnds (s : List Char) : List Char := (s.reverse.dropWhile isLineEnd).reverse

end LiveFormula.Text
