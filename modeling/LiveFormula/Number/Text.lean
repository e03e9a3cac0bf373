import LiveFormula.Number.Arithmetic
import LiveFormula.Number.Shortest

/-!
# Numbers as text

`Binary.text` writes a datum with the fewest digits that read back: positionally in the middle range
and with an exponent outside it. `Binary.fixed` writes a given number of places, rounding the exact
value, a half going to the even neighbour. Sign and range are the same for both: a sign is written
also for a negative zero, and never for a datum that is not a number.
-/

set_option autoImplicit false

namespace LiveFormula

/-- Where positional writing ends, and how an exponent is written. -/
structure Layout where
  /-- The least power of ten of a leading digit that is written positionally. -/
  least : Int
  /-- The first power of ten of a leading digit that is no longer written positionally. -/
  limit : Int
  /-- The least number of digits of an exponent. -/
  exponentDigits : Nat
  deriving DecidableEq, Repr

/-- Values from `0.0001` up to below `1e+16` are written positionally, and exponents have a sign and
at least two digits. -/
def Layout.standard : Layout := ⟨-4, 16, 2⟩

/-- Pads a text on the left. -/
def padLeft (width : Nat) (fill : Char) (s : List Char) : List Char :=
  List.replicate (width - s.length) fill ++ s

namespace Decimal

/-- Drops the trailing zeros of a list of digits. -/
def trimZeros (digits : List Char) : List Char :=
  (digits.reverse.dropWhile (· == '0')).reverse

/-- The digits of the coefficient without trailing zeros, at least one. -/
def digits (d : Decimal) : List Char :=
  match trimZeros (Nat.toDigits 10 d.coefficient) with
  | [] => ['0']
  | ds => ds

/-- The power of ten of the leading digit. -/
def leading (d : Decimal) : Int := (Nat.toDigits 10 d.coefficient).length + d.exponent - 1

/-- Digits with the point after the digit of power zero. -/
def positional (digits : List Char) (power : Int) : List Char :=
  if power < 0 then
    ['0', '.'] ++ List.replicate ((-power).toNat - 1) '0' ++ digits
  else
    let whole := power.toNat + 1
    if digits.length ≤ whole then
      digits ++ List.replicate (whole - digits.length) '0' ++ ['.', '0']
    else
      digits.take whole ++ ['.'] ++ digits.drop whole

/-- Digits with the point after the leading one, and the power as an exponent. -/
def scientific (layout : Layout) (digits : List Char) (power : Int) : List Char :=
  let sign := if power < 0 then '-' else '+'
  let exponent := padLeft layout.exponentDigits '0' (Nat.toDigits 10 power.natAbs)
  let mantissa := match digits with
    | d :: e :: rest => d :: '.' :: e :: rest
    | ds => ds
  mantissa ++ ['e', sign] ++ exponent

def text (layout : Layout) (d : Decimal) : List Char :=
  let power := d.leading
  if layout.least ≤ power ∧ power < layout.limit then positional d.digits power
  else scientific layout d.digits power

end Decimal

namespace Binary

variable {F : Format}

/-- A written magnitude with its sign; infinities and data that are not numbers have their own words. -/
def written (x : Binary F) (finite : List Char) : String :=
  if x.isNaN then "nan"
  else
    let body := if x.isInfinite then "inf".toList else finite
    String.ofList (if x.negative then '-' :: body else body)

/-- The shortest text that reads back. -/
def text (x : Binary F) : String :=
  x.written (if x.isZero then ['0', '.', '0']
    else (Shortest.decimal F x.magnitude).text Layout.standard)

/-- A whole number of `places`-th powers of a tenth, with the point in its place. -/
def fixedDigits (places n : Nat) : List Char :=
  let digits := padLeft (places + 1) '0' (Nat.toDigits 10 n)
  let whole := digits.length - places
  if places = 0 then digits else digits.take whole ++ ['.'] ++ digits.drop whole

/-- The exact value rounded to a number of places. -/
def fixed (places : Nat) (x : Binary F) : String :=
  x.written (fixedDigits places (roundHalfEven (x.units * Nat.pow 10 places) (Nat.pow 2 F.scale)))

end Binary

end LiveFormula
