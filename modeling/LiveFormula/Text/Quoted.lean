import LiveFormula.Text.Printable

/-!
# Quoted text

Text in a message stands between single quotes, or between double quotes if it has a single quote and
no double one. The backslash and the quote in use are escaped, as are all characters that are not
printable.
-/

set_option autoImplicit false

namespace LiveFormula.Text

/-- The lower-case hexadecimal digits of `n`, at least `width` of them. -/
def hexDigits (width n : Nat) : List Char :=
  let digits := Nat.toDigits 16 n
  List.replicate (width - digits.length) '0' ++ digits

/-- A character of a text quoted by `mark`. -/
def escape (mark c : Char) : List Char :=
  if c == '\\' || c == mark then ['\\', c]
  else if c == '\n' then ['\\', 'n']
  else if c == '\r' then ['\\', 'r']
  else if c == '\t' then ['\\', 't']
  else if isPrintable c then [c]
  else if c.toNat < 0x100 then '\\' :: 'x' :: hexDigits 2 c.toNat
  else if c.toNat < 0x10000 then '\\' :: 'u' :: hexDigits 4 c.toNat
  else '\\' :: 'U' :: hexDigits 8 c.toNat

/-- The quotation mark for a text. -/
def quotationMark (s : List Char) : Char :=
  if s.contains '\'' && !s.contains '"' then '"' else '\''

/-- A text between quotation marks. -/
def quoteChars (s : List Char) : String :=
  let mark := quotationMark s
  String.ofList (mark :: s.flatMap (escape mark) ++ [mark])

/-- A text between quotation marks. -/
def quote (s : String) : String := quoteChars s.toList

end LiveFormula.Text
