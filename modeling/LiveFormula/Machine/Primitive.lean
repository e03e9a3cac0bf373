import LiveFormula.Number.Arithmetic

/-!
# Primitive operations

Model of `livexpr.runtime._div` and `_unary`.

The machine computes with doubles, but how the primitive operations work does not matter to it, so
they are a parameter. Addition, subtraction and multiplication always have a result; division and the
two functions may fail. `Primitives.divide` and `Primitives.guard` keep them from failing: a zero
divisor gives an infinity or no number, and a function of anything but a finite number gives no
number.
-/

set_option autoImplicit false

namespace LiveFormula

/-- What can go wrong while a program runs. -/
inductive Fault
  | emptyStack
  | unknownSlot
  | zeroDivisor
  | outsideDomain
  deriving DecidableEq, Repr

structure Primitives where
  add : Double → Double → Double
  sub : Double → Double → Double
  mul : Double → Double → Double
  div : Double → Double → Except Fault Double
  sin : Double → Except Fault Double
  cos : Double → Except Fault Double

namespace Primitives

/-- A function that has no value at the infinities. -/
def finiteOnly (f : Double → Double) (x : Double) : Except Fault Double :=
  if x.isInfinite then .error .outsideDomain else .ok (f x)

/-- Correctly rounded arithmetic. -/
def standard : Primitives where
  add := Binary.add
  sub := Binary.sub
  mul := Binary.mul
  div x y := if y.isZero then .error .zeroDivisor else .ok (x.div y)
  sin := finiteOnly Double.sin
  cos := finiteOnly Double.cos

variable (P : Primitives)

/-- One, with a sign. -/
def unit (negative : Bool) : Double := Binary.ofRatio negative 1 1

/-- Division that does not fail on zero. -/
def divide (x y : Double) : Except Fault Double :=
  if y.isZero then
    if x.isZero || x.isNaN then .ok (Binary.notANumber false)
    else .ok (P.mul (Binary.infinity x.negative) (unit y.negative))
  else P.div x y

/-- A function applied to finite numbers only. -/
def guard (f : Double → Except Fault Double) (x : Double) : Except Fault Double :=
  if x.isInfinite || x.isNaN then .ok (Binary.notANumber false) else f x

end Primitives

end LiveFormula
