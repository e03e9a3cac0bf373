import LiveFormula.Number.Binary

/-!
# Decimal numbers

A decimal is a whole coefficient times a power of ten. `Decimal.toBinary` is its nearest datum. Powers
too large or too small to matter are settled without being computed, so the exponent may be any
integer.
-/

set_option autoImplicit false

namespace LiveFormula

/-- The number `coefficient * 10 ^ exponent`. -/
structure Decimal where
  coefficient : Nat
  exponent : Int
  deriving DecidableEq, Repr

namespace Decimal

/-- Numerator of the value. -/
def num (d : Decimal) : Nat := d.coefficient * Nat.pow 10 d.exponent.toNat

/-- Denominator of the value. -/
def den (d : Decimal) : Nat := Nat.pow 10 (-d.exponent).toNat

/-- The nearest datum of a format. A power of ten above `10 ^ scale` exceeds every finite value, and a
number below `10 ^ (-scale)` is nearer to zero than to any other value. -/
def toBinary (F : Format) (negative : Bool) (d : Decimal) : Binary F :=
  if d.coefficient = 0 then Binary.zero negative
  else if (F.scale : Int) < d.exponent then Binary.infinity negative
  else if d.exponent + d.coefficient.log2 + 1 < -(F.scale : Int) then Binary.zero negative
  else Binary.ofRatio negative d.num d.den

end Decimal

end LiveFormula
