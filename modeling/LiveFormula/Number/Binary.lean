import LiveFormula.Number.Format

/-!
# Floating-point data

A datum of a format is a sign and a magnitude, so that every bit pattern is a datum. Order and
equality are the numeric ones: the two zeros are equal, and a datum that is not a number is neither
equal to nor below anything.
-/

set_option autoImplicit false

namespace LiveFormula

/-- A datum of the format `F`. -/
structure Binary (F : Format) where
  negative : Bool
  magnitude : Fin F.size
  deriving DecidableEq, Repr

abbrev Double := Binary Format.double

abbrev Single := Binary Format.single

namespace Binary

variable {F : Format}

/-- The signed zeros. -/
def zero (negative : Bool) : Binary F := ⟨negative, 0, Nat.two_pow_pos _⟩

def infinity (negative : Bool) : Binary F := ⟨negative, F.infinity, F.infinity_lt_size⟩

/-- The quiet datum that is not a number: infinity with the highest fraction bit set. -/
def notANumber (negative : Bool) : Binary F :=
  ⟨negative, (F.infinity + Nat.pow 2 (F.fraction - 1)) % F.size, Nat.mod_lt _ (Nat.two_pow_pos _)⟩

def isNaN (x : Binary F) : Bool := F.infinity < x.magnitude.val

def isInfinite (x : Binary F) : Bool := x.magnitude.val == F.infinity

def isFinite (x : Binary F) : Bool := x.magnitude.val < F.infinity

def isZero (x : Binary F) : Bool := x.magnitude.val == 0

/-- The value of the magnitude in units of the format. -/
def units (x : Binary F) : Nat := F.units x.magnitude

/-- The signed value in units of the format. -/
def signedUnits (x : Binary F) : Int := if x.negative then -(x.units : Int) else x.units

/-- The place of a number on the line of all numbers; the two zeros share a place. -/
def place (x : Binary F) : Int :=
  if x.negative then -(x.magnitude.val : Int) else x.magnitude.val

/-- Numeric equality. -/
def equals (x y : Binary F) : Bool := !x.isNaN && !y.isNaN && x.place == y.place

/-- Numeric order. -/
def below (x y : Binary F) : Bool := !x.isNaN && !y.isNaN && x.place < y.place

/-- The larger of two numbers, the first if neither is larger. -/
def max (x y : Binary F) : Binary F := if x.below y then y else x

/-- The smaller of two numbers, the first if neither is smaller. -/
def min (x y : Binary F) : Binary F := if y.below x then y else x

/-- `num / den` units with the given sign, rounded to nearest with ties to even. -/
def ofUnits (negative : Bool) (num den : Nat) : Binary F :=
  ⟨negative, F.nearest num den, F.nearest_lt_size num den⟩

/-- The quotient of two naturals, rounded once. -/
def ofRatio (negative : Bool) (num den : Nat) : Binary F := ofUnits negative (num * Nat.pow 2 F.scale) den

/-- A natural number, rounded; infinity if it is too large. -/
def ofNat (n : Nat) : Binary F := ofRatio false n 1

/-- An integer, rounded; `none` if it is too large. -/
def ofInt? (n : Int) : Option (Binary F) :=
  let x : Binary F := ofRatio (n < 0) n.natAbs 1
  if x.isInfinite then none else some x

/-- The nearest datum of another format, with the sign kept. -/
def convert (G : Format) (x : Binary F) : Binary G :=
  if x.isNaN then notANumber x.negative
  else if x.isInfinite then infinity x.negative
  else ofUnits x.negative (x.units * Nat.pow 2 G.scale) (Nat.pow 2 F.scale)

/-- The bit pattern: the sign above the magnitude. -/
def toBits (x : Binary F) : Nat := (if x.negative then F.size else 0) + x.magnitude

/-- The datum with a given bit pattern; bits above the sign are ignored. -/
def ofBits (n : Nat) : Binary F :=
  ⟨n / F.size % 2 == 1, n % F.size, Nat.mod_lt _ (Nat.two_pow_pos _)⟩

end Binary

end LiveFormula
