/-!
# Source spans

Model of `livexpr.errors.SourceSpan`.

A span of one line of a source. Columns count from one; a span that was made from an offset is on the
first line of `<input>`.
-/

set_option autoImplicit false

namespace LiveFormula

structure Span where
  file : String
  line : Int
  column : Int
  /-- The column behind the last one. -/
  endColumn : Int
  deriving DecidableEq, Repr

namespace Span

/-- A span whose end, if it is zero, is its column. -/
def make (file : String) (line column endColumn : Int) : Span :=
  ⟨file, line, column, if endColumn = 0 then column else endColumn⟩

/-- The span of nothing known. -/
def unknown : Span := make "" 0 0 0

/-- The span of at least one character that begins at an offset. -/
def ofOffset (offset length : Int) (file : String) : Span :=
  make file 1 (offset + 1) (offset + 1 + max 1 length)

/-- The span of `length` characters of the input. -/
def ofInput (offset length : Int) : Span := ofOffset offset length "<input>"

/-- The offset at which the span begins. -/
def offset (s : Span) : Int := max 0 (s.column - 1)

/-- File, line and column as far as they are known. -/
def text (s : Span) : String :=
  if s.file.isEmpty && s.line == 0 then "<unknown location>"
  else
    let file := if s.file.isEmpty then [] else [s.file]
    let place :=
      if 0 < s.line then
        toString s.line :: (if 0 < s.column then [toString s.column] else [])
      else []
    ":".intercalate (file ++ place)

end Span

end LiveFormula
