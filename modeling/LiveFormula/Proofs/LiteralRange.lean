import LiveFormula.Proofs.Rounding
import Mathlib.Tactic.Ring

/-!
# The range of literals

A double is rounded to 32 bits when it becomes a literal. The rounding reaches infinity at
`2 ^ 128 - 2 ^ 103`, halfway between the largest 32-bit number and the next place of the grid. A
natural number is rounded to a double before that, and so reaches infinity a little earlier, halfway
between this bound and the double before it.

* `Double.InSingleRange` — the doubles that have a 32-bit literal.
* `Double.isInfinite_convert_iff` — a finite double rounds to infinity from the bound on.
* `Double.inSingleRange_ofNat_iff` — the natural numbers that have a 32-bit literal.
-/

set_option autoImplicit false

namespace LiveFormula

namespace Binary

variable {F G : Format} {x : Binary F}

theorem isFinite_iff : x.isFinite = true ↔ x.magnitude.val < F.infinity := decide_eq_true_iff

theorem isNaN_eq_false_of_isFinite (hx : x.isFinite = true) : x.isNaN = false :=
  decide_eq_false (Nat.lt_asymm (isFinite_iff.1 hx))

theorem isInfinite_eq_false_of_isFinite (hx : x.isFinite = true) : x.isInfinite = false :=
  beq_false_of_ne (Nat.ne_of_lt (isFinite_iff.1 hx))

theorem magnitude_ofNat (n : Nat) :
    (ofNat n : Binary F).magnitude.val = F.nearest (n * 2 ^ F.scale) 1 := rfl

theorem isNaN_ofNat (n : Nat) : (ofNat n : Binary F).isNaN = false :=
  decide_eq_false (Nat.not_lt.2 (F.nearest_le_infinity _ _))

/-- A finite datum is converted by rounding its value. -/
theorem convert_of_isFinite (G : Format) (hx : x.isFinite = true) :
    x.convert G = ofUnits x.negative (x.units * 2 ^ G.scale) (2 ^ F.scale) := by
  simp [convert, isNaN_eq_false_of_isFinite hx, isInfinite_eq_false_of_isFinite hx]

/-- A finite datum becomes infinite from the middle before infinity on. -/
theorem isInfinite_convert_iff (hx : x.isFinite = true) (heven : G.infinity % 2 = 0)
    (hpos : 0 < G.infinity) :
    (x.convert G).isInfinite = true ↔
      2 ^ F.scale * (G.units (G.infinity - 1) + G.units G.infinity) ≤
        2 * (x.units * 2 ^ G.scale) := by
  have hle := G.nearest_le_infinity (x.units * 2 ^ G.scale) (2 ^ F.scale)
  rw [Nat.mul_add, ← Format.le_nearest_iff (Nat.two_pow_pos _) (Nat.le_refl _) heven hpos,
    convert_of_isFinite G hx, isInfinite, beq_iff_eq]
  exact ⟨fun h => h.ge, fun h => Nat.le_antisymm hle h⟩

end Binary

namespace Double

/-- A double that has a 32-bit literal: it is not a number, or its absolute value is below
`2 ^ 128 - 2 ^ 103`. -/
def InSingleRange (x : Double) : Prop :=
  x.isNaN = true ∨
    x.isFinite = true ∧ x.units < (2 ^ 128 - 2 ^ 103) * 2 ^ Format.double.scale

instance (x : Double) : Decidable x.InSingleRange := inferInstanceAs (Decidable (_ ∨ _))

/-- Twice the bound, in units of the 32-bit format, is the sum of the two places around it. -/
theorem units_around_single_bound :
    Format.single.units (Format.single.infinity - 1) + Format.single.units Format.single.infinity =
      2 * (2 ^ 128 - 2 ^ 103) * 2 ^ Format.single.scale := by
  decide +kernel

/-- A finite double rounds to infinity from the bound on. -/
theorem isInfinite_convert_iff {x : Double} (hx : x.isFinite = true) :
    (x.convert .single).isInfinite = true ↔
      (2 ^ 128 - 2 ^ 103) * 2 ^ Format.double.scale ≤ x.units := by
  rw [Binary.isInfinite_convert_iff hx (by decide) (by decide), units_around_single_bound]
  generalize 2 ^ 128 - 2 ^ 103 = bound
  generalize Format.single.scale = scale
  have hscale : 0 < 2 * 2 ^ scale := Nat.mul_pos Nat.two_pos (Nat.two_pow_pos _)
  have hleft : 2 ^ Format.double.scale * (2 * bound * 2 ^ scale) =
      bound * 2 ^ Format.double.scale * (2 * 2 ^ scale) := by ring
  have hright : 2 * (x.units * 2 ^ scale) = x.units * (2 * 2 ^ scale) := by ring
  rw [hleft, hright, Nat.mul_le_mul_right_iff hscale]

/-- The magnitude of the double `2 ^ 128 - 2 ^ 103`. -/
def boundMagnitude : Nat := 1151 * 2 ^ 52 - 2 ^ 28

theorem units_boundMagnitude :
    Format.double.units boundMagnitude = (2 ^ 128 - 2 ^ 103) * 2 ^ Format.double.scale ∧
      Format.double.units (boundMagnitude - 1) =
        (2 ^ 128 - 2 ^ 103 - 2 ^ 75) * 2 ^ Format.double.scale := by
  decide +kernel

theorem boundMagnitude_lt_infinity : boundMagnitude < Format.double.infinity := by decide

/-- Having a literal is a matter of the magnitude. -/
theorem inSingleRange_iff_magnitude {x : Double} (hx : x.isNaN = false) :
    InSingleRange x ↔ x.magnitude.val < boundMagnitude := by
  have hlt := boundMagnitude_lt_infinity
  rw [InSingleRange, hx, Binary.isFinite_iff, ← units_boundMagnitude.1, Binary.units,
    Format.double.units_strictMono.lt_iff_lt]
  simp only [Bool.false_eq_true, false_or, and_iff_right_iff_imp]
  omega

/-- The natural numbers that have a 32-bit literal. They are rounded to a double first, and the
number `2 ^ 128 - 2 ^ 103 - 2 ^ 74` is halfway between two doubles. -/
theorem inSingleRange_ofNat_iff (n : Nat) :
    InSingleRange (Binary.ofNat n) ↔ n < 2 ^ 128 - 2 ^ 103 - 2 ^ 74 := by
  have hreach : boundMagnitude ≤ Format.double.nearest (n * 2 ^ Format.double.scale) 1 ↔ _ :=
    Format.le_nearest_iff Nat.one_pos boundMagnitude_lt_infinity.le (by decide) (by decide)
  rw [units_boundMagnitude.1, units_boundMagnitude.2] at hreach
  have hcancel : ∀ unit a b : Nat, 0 < unit →
      (1 * (a * unit) + 1 * (b * unit) ≤ 2 * (n * unit) ↔ a + b ≤ 2 * n) := by
    intro unit a b hunit
    rw [Nat.one_mul, Nat.one_mul, ← Nat.add_mul, ← Nat.mul_assoc, Nat.mul_le_mul_right_iff hunit]
  rw [inSingleRange_iff_magnitude (Binary.isNaN_ofNat n), Binary.magnitude_ofNat, ← Nat.not_le,
    hreach, hcancel _ _ _ (Nat.two_pow_pos _)]
  omega

end Double

end LiveFormula
