import LiveFormula.Diagnostic.Code
import LiveFormula.Diagnostic.Span

/-!
# Diagnostic messages

Model of `livexpr.errors.ErrorMessage`.

A diagnostic is a message with its code, its place in the source and, where they are known, a hint and
the line of the source, which is shown with carets below the span.
-/

set_option autoImplicit false

namespace LiveFormula

structure Diagnostic where
  code : Code
  message : String
  span : Span
  severity : Severity
  hint : String
  sourceLine : String
  deriving DecidableEq, Repr

namespace Diagnostic

/-- A character repeated; not at all if the count is negative. -/
def repeated (c : Char) (count : Int) : String := String.ofList (List.replicate count.toNat c)

/-- Carets below the columns of the span, at least one. -/
def caretLine (s : Span) : String :=
  "    " ++ repeated ' ' (s.column - 1) ++ repeated '^' (max 1 (s.endColumn - s.column))

/-- The lines of the diagnostic: the message, the source line with its carets, and the hint. -/
def lines (d : Diagnostic) : List String :=
  let head := d.span.text ++ ": " ++ d.severity.text ++ ": " ++ d.message ++
    " [" ++ d.code.text ++ "]"
  let source :=
    if d.sourceLine.isEmpty then []
    else ("    " ++ d.sourceLine) :: (if 0 < d.span.column then [caretLine d.span] else [])
  let hint := if d.hint.isEmpty then [] else ["hint: " ++ d.hint]
  head :: (source ++ hint)

def text (d : Diagnostic) : String := "\n".intercalate d.lines

end Diagnostic

end LiveFormula
