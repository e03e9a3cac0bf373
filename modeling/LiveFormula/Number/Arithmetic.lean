import LiveFormula.Number.Binary

/-!
# Arithmetic

Each operation is the exact result rounded once, with the usual rules for zeros, infinities and data
that are not numbers. Sine and cosine are taken from the platform.
-/

set_option autoImplicit false

namespace LiveFormula

namespace Binary

variable {F : Format}

def neg (x : Binary F) : Binary F := ⟨!x.negative, x.magnitude⟩

/-- The sum; a vanishing sum is negative only if both terms are. -/
def add (x y : Binary F) : Binary F :=
  if x.isNaN || y.isNaN then notANumber false
  else if x.isInfinite then
    if y.isInfinite && x.negative != y.negative then notANumber false else x
  else if y.isInfinite then y
  else
    let sum := x.signedUnits + y.signedUnits
    if sum = 0 then zero (x.negative && y.negative)
    else ofUnits (sum < 0) sum.natAbs 1

def sub (x y : Binary F) : Binary F := x.add y.neg

def mul (x y : Binary F) : Binary F :=
  let negative := x.negative != y.negative
  if x.isNaN || y.isNaN then notANumber false
  else if x.isInfinite || y.isInfinite then
    if x.isZero || y.isZero then notANumber false else infinity negative
  else ofUnits negative (x.units * y.units) (Nat.pow 2 F.scale)

/-- The quotient, for a divisor that is not zero. -/
def div (x y : Binary F) : Binary F :=
  let negative := x.negative != y.negative
  if x.isNaN || y.isNaN then notANumber false
  else if x.isInfinite then
    if y.isInfinite then notANumber false else infinity negative
  else if y.isInfinite then zero negative
  else ofUnits negative (x.units * Nat.pow 2 F.scale) y.units

/-- The whole number nearest to the magnitude, a half going to the even one. -/
def roundMagnitude (x : Binary F) : Nat := roundHalfEven x.units (Nat.pow 2 F.scale)

end Binary

namespace Double

def toFloat (x : Double) : Float := Float.ofBits x.toBits.toUInt64

def ofFloat (x : Float) : Double := Binary.ofBits x.toBits.toNat

def sin (x : Double) : Double := ofFloat x.toFloat.sin

def cos (x : Double) : Double := ofFloat x.toFloat.cos

end Double

end LiveFormula
