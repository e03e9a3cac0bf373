import LiveFormula.Number.Decimal
import LiveFormula.Text.Character

/-!
# Numerals

Reading integers and doubles from a word. Blanks around the word do not matter, digits may be of any
script, and a single underscore may stand between two digits. A double has at least one digit, before
or after the point, and an optional exponent, or is one of the words for infinity and not-a-number in
any case.
-/

set_option autoImplicit false

namespace LiveFormula.Numeral

open Text

/-- A character with digits of all scripts taken to ASCII digits, and other blanks to spaces. -/
def plain (c : Char) : Char :=
  if c.toNat < 0x80 then c
  else if isBlank c then ' '
  else match digitValue? c with
    | some d => Nat.digitChar d
    | none => c

/-- Takes out underscores; each must stand between two digits. -/
def dropSeparators : (afterDigit : Bool) → List Char → Option (List Char)
  | _, [] => some []
  | afterDigit, '_' :: c :: rest =>
    if afterDigit && c.isDigit then (dropSeparators true rest).map (c :: ·) else none
  | _, ['_'] => none
  | _, c :: rest => (dropSeparators c.isDigit rest).map (c :: ·)

/-- A leading sign, and what follows it. -/
def sign : List Char → Bool × List Char
  | '-' :: rest => (true, rest)
  | '+' :: rest => (false, rest)
  | rest => (false, rest)

/-- The word in plain characters, without blanks around it and without separators. -/
def normalize (word : List Char) : Option (List Char) :=
  dropSeparators false (trimAscii (word.map plain))

/-- The largest number of digits of an integer. -/
def maxDigits : Nat := 4300

/-- An integer of at most `maxDigits` digits. -/
def integer? (word : List Char) : Option Int := do
  let (negative, digits) := sign (← normalize word)
  if digits.isEmpty || !digits.all Char.isDigit || maxDigits < digits.length then none
  else
    let n := Nat.ofDigitChars 10 digits 0
    some (if negative then -(n : Int) else n)

/-- The exponent part of a decimal, which may be missing. -/
def exponent? : List Char → Option Int
  | [] => some 0
  | e :: rest =>
    let (negative, digits) := sign rest
    if (e == 'e' || e == 'E') && !digits.isEmpty && digits.all Char.isDigit then
      let n := Nat.ofDigitChars 10 digits 0
      some (if negative then -(n : Int) else n)
    else none

/-- The digits after a point, if there is one, and what follows them. -/
def afterPoint : List Char → List Char × List Char
  | '.' :: rest => (rest.takeWhile Char.isDigit, rest.dropWhile Char.isDigit)
  | rest => ([], rest)

/-- A decimal without a sign. -/
def decimal? (s : List Char) : Option Decimal :=
  let whole := s.takeWhile Char.isDigit
  let (part, rest) := afterPoint (s.dropWhile Char.isDigit)
  if whole.isEmpty && part.isEmpty then none
  else (exponent? rest).map fun e => ⟨Nat.ofDigitChars 10 (whole ++ part) 0, e - part.length⟩

/-- A double. -/
def double? (word : List Char) : Option Double := do
  let (negative, body) := sign (← normalize word)
  let name := String.ofList (body.map Char.toLower)
  if name == "inf" || name == "infinity" then some (Binary.infinity negative)
  else if name == "nan" then some (Binary.notANumber negative)
  else (decimal? body).map (Decimal.toBinary .double negative)

end LiveFormula.Numeral
