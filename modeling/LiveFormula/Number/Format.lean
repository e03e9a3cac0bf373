/-!
# Binary formats as numbered grids

A binary floating-point format lists its non-negative values in increasing order. The position of a
value in that list is its *magnitude*: it is the bit pattern of the value without the sign. Every
finite value is a whole number of *units*, the unit being the least positive value, so all of the
arithmetic below is on natural numbers.

* `roundHalfEven` rounds a quotient of naturals, a half going to the even neighbour.
* `Format.units` is the value of a magnitude.
* `Format.floor` is the greatest magnitude at or below a number of units.
* `Format.nearest` rounds a quotient to the nearest magnitude, a tie going to the even one. Overflow
  needs no rule of its own: infinity is the even neighbour of the largest finite magnitude, at the
  place where the next value of the grid would stand.
-/

set_option autoImplicit false

namespace LiveFormula

/-- `num / den` to the nearest whole number, a half going to the even one. -/
def roundHalfEven (num den : Nat) : Nat :=
  let whole := num / den
  let rest := 2 * (num % den)
  if rest < den then whole
  else if den < rest then whole + 1
  else if whole % 2 = 0 then whole
  else whole + 1

/-- A binary format, given by the widths of its fraction and exponent fields. -/
structure Format where
  fraction : Nat
  exponent : Nat
  deriving DecidableEq, Repr

namespace Format

/-- The 32-bit format. -/
def single : Format := ⟨23, 8⟩

/-- The 64-bit format. -/
def double : Format := ⟨52, 11⟩

/-- The number of magnitudes, those that are not numbers included. -/
def size (F : Format) : Nat := Nat.pow 2 (F.exponent + F.fraction)

/-- The magnitude of infinity: larger magnitudes are not numbers. -/
def infinity (F : Format) : Nat := (Nat.pow 2 F.exponent - 1) * Nat.pow 2 F.fraction

/-- The exponent of two in the unit: the number one is `2 ^ scale` units. -/
def scale (F : Format) : Nat := Nat.pow 2 (F.exponent - 1) + F.fraction - 2

/-- The value of a magnitude in units. -/
def units (F : Format) (k : Nat) : Nat :=
  let normal := Nat.pow 2 F.fraction
  if k < normal then k else (normal + k % normal) * Nat.pow 2 (k / normal - 1)

/-- The greatest magnitude whose value is at most `u` units. -/
def floor (F : Format) (u : Nat) : Nat :=
  if u < Nat.pow 2 (F.fraction + 1) then u
  else
    let shift := u.log2 - F.fraction
    shift * Nat.pow 2 F.fraction + (u >>> shift)

/-- The magnitude nearest to `num / den` units, a tie going to the even magnitude. -/
def nearest (F : Format) (num den : Nat) : Nat :=
  let k := F.floor (num / den)
  let middle := den * (F.units k + F.units (k + 1))
  let rounded :=
    if 2 * num < middle then k
    else if middle < 2 * num then k + 1
    else if k % 2 = 0 then k
    else k + 1
  min rounded F.infinity

theorem infinity_lt_size (F : Format) : F.infinity < F.size := by
  have he : 0 < 2 ^ F.exponent := Nat.two_pow_pos _
  have hf : 0 < 2 ^ F.fraction := Nat.two_pow_pos _
  unfold infinity size
  rw [Nat.pow_eq, Nat.pow_eq, Nat.pow_eq, Nat.pow_add]
  exact Nat.mul_lt_mul_of_pos_right (Nat.sub_lt he Nat.one_pos) hf

theorem nearest_le_infinity (F : Format) (num den : Nat) : F.nearest num den ≤ F.infinity :=
  Nat.min_le_right _ _

theorem nearest_lt_size (F : Format) (num den : Nat) : F.nearest num den < F.size :=
  Nat.lt_of_le_of_lt (F.nearest_le_infinity num den) F.infinity_lt_size

end Format

end LiveFormula
