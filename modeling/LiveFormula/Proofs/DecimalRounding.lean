import LiveFormula.Number.Shortest
import LiveFormula.Proofs.Rounding
import Mathlib.Tactic.Ring

/-!
# Rounding decimals

What a decimal is rounded to depends on its value alone. The powers that `Decimal.toBinary` settles
without computing them are no exception: a power above `10 ^ scale` is rounded to infinity, and a
number below `10 ^ (-scale)` to zero. So a decimal may be written with another exponent, and the
shortest decimal of a magnitude is rounded to the magnitude again.

* `Format.nearest_mul_left`, `Format.nearest_units` — a common factor does not matter, and a value
  of the grid is its own nearest one.
* `Decimal.toBinary_eq_ofRatio` — a decimal is rounded as the quotient that it is.
* `Decimal.toBinary_mul_pow` — zeros at the end can be moved into the exponent.
* `Shortest.magnitude_toBinary_decimal` — the shortest decimal reads back.
-/

set_option autoImplicit false

namespace LiveFormula

namespace Format

variable {F : Format} {num den : Nat}

/-- A quotient is rounded, so a common factor does not matter. -/
theorem nearest_mul_left {c : Nat} (hc : 0 < c) (num den : Nat) :
    F.nearest (c * num) (c * den) = F.nearest num den := by
  simp only [nearest, Nat.mul_div_mul_left _ _ hc, Nat.mul_assoc, Nat.mul_left_comm 2 c,
    Nat.mul_lt_mul_left hc]

theorem nearest_congr {num' den' : Nat} (hden : 0 < den) (hden' : 0 < den')
    (h : num * den' = num' * den) : F.nearest num den = F.nearest num' den' := by
  rw [← nearest_mul_left hden' num den, ← nearest_mul_left hden num' den', Nat.mul_comm den' num, h,
    Nat.mul_comm num' den, Nat.mul_comm den' den]

/-- A value of the grid is its own nearest one. -/
theorem nearest_units {k : Nat} (hden : 0 < den) (hk : k ≤ F.infinity) :
    F.nearest (den * F.units k) den = k := by
  obtain ⟨l, r, ⟨hlow, hhigh, hchoice⟩, hnearest⟩ := F.nearest_eq_min (den * F.units k) hden
  have hle : l ≤ k := by
    rwa [Nat.mul_le_mul_left_iff hden, F.units_strictMono.le_iff_le] at hlow
  have hlt : k < l + 1 := by
    rwa [Nat.mul_lt_mul_left hden, F.units_strictMono.lt_iff_lt] at hhigh
  obtain rfl : l = k := by omega
  omega

/-- What is below half a unit is rounded to zero. -/
theorem nearest_eq_zero (h : 2 * num < den) : F.nearest num den = 0 := by
  obtain ⟨k, r, ⟨hlow, hhigh, hchoice⟩, hnearest⟩ := F.nearest_eq_min num (by omega : 0 < den)
  have hpos : 0 < 2 ^ F.fraction := Nat.two_pow_pos _
  have hone : F.units 1 = 1 := F.units_of_le (by omega)
  have hk : k = 0 := by
    by_contra hk
    have : F.units 1 ≤ F.units k := F.units_strictMono.monotone (by omega)
    have : den * 1 ≤ den * F.units k := Nat.mul_le_mul_left _ (by omega)
    omega
  subst hk
  rw [Nat.zero_add, hone] at hchoice
  omega

/-- From the place of infinity on, everything is rounded to infinity. -/
theorem nearest_eq_infinity (hden : 0 < den) (h : den * F.units F.infinity ≤ num) :
    F.nearest num den = F.infinity := by
  obtain ⟨k, r, ⟨hlow, hhigh, hchoice⟩, hnearest⟩ := F.nearest_eq_min num hden
  have hlt : F.infinity < k + 1 := by
    have := Nat.lt_of_le_of_lt h hhigh
    rwa [Nat.mul_lt_mul_left hden, F.units_strictMono.lt_iff_lt] at this
  omega

end Format

namespace Binary

variable {F : Format} {x y : Binary F}

theorem ext_magnitude (hsign : x.negative = y.negative)
    (hmagnitude : x.magnitude.val = y.magnitude.val) : x = y := by
  cases x
  cases y
  simp only [mk.injEq]
  exact ⟨hsign, Fin.ext hmagnitude⟩

theorem ofRatio_congr {num den num' den' : Nat} (negative : Bool) (hden : 0 < den)
    (hden' : 0 < den') (h : num * den' = num' * den) :
    (ofRatio negative num den : Binary F) = ofRatio negative num' den' :=
  ext_magnitude rfl <| Format.nearest_congr hden hden' <| by
    rw [Nat.mul_right_comm, h, Nat.mul_right_comm]

end Binary

/-! ## Decimals -/

namespace Decimal

variable {F : Format}

theorem den_pos (d : Decimal) : 0 < d.den := Nat.pow_pos (by decide)

/-- The sign takes no part in rounding. -/
theorem toBinary_eq_of_magnitude {x : Binary F} {d : Decimal}
    (h : (d.toBinary F false).magnitude.val = x.magnitude.val) : d.toBinary F x.negative = x := by
  unfold toBinary at h ⊢
  split_ifs at h ⊢
  all_goals exact Binary.ext_magnitude rfl h

theorem coefficient_ne_zero {d : Decimal} (h : (d.toBinary F false).magnitude.val ≠ 0) :
    d.coefficient ≠ 0 := by
  intro hzero
  rw [toBinary, if_pos hzero] at h
  exact h rfl

/-- The powers that are settled without being computed are rounded as they would be. The format must
have room for the exponent: infinity stands below the least power that is not computed. -/
theorem toBinary_eq_ofRatio (hF : F.units F.infinity ≤ 10 ^ (F.scale + 1) * 2 ^ F.scale)
    (negative : Bool) (d : Decimal) :
    d.toBinary F negative = Binary.ofRatio negative d.num d.den := by
  have hscale : 0 < 2 ^ F.scale := Nat.two_pow_pos _
  unfold toBinary
  split
  next hzero =>
    refine Binary.ext_magnitude rfl (Format.nearest_eq_zero ?_).symm
    rw [num, hzero, Nat.zero_mul, Nat.zero_mul]
    exact d.den_pos
  next hzero =>
    split
    next hlarge =>
      -- the numerator has a power of ten above the scale, and the denominator is one
      refine Binary.ext_magnitude rfl (Format.nearest_eq_infinity d.den_pos ?_).symm
      have hden : d.den = 1 := by
        rw [den, show (-d.exponent).toNat = 0 by omega]
      have hpow : 10 ^ (F.scale + 1) ≤ d.num := by
        refine Nat.le_trans ?_ (Nat.le_mul_of_pos_left _ (Nat.pos_of_ne_zero hzero))
        exact Nat.pow_le_pow_right (by decide) (by omega)
      rw [hden, Nat.one_mul]
      exact Nat.le_trans hF (Nat.mul_le_mul_right _ hpow)
    next =>
      split
      next hsmall =>
        -- the coefficient has few digits against the power of ten in the denominator
        refine Binary.ext_magnitude rfl (Format.nearest_eq_zero ?_).symm
        have hnum : d.num = d.coefficient := by
          rw [num, show d.exponent.toNat = 0 by omega]
          exact Nat.mul_one _
        have hcoefficient : d.coefficient < 2 ^ (d.coefficient.log2 + 1) := Nat.lt_log2_self
        calc 2 * (d.num * 2 ^ F.scale)
            < 2 * (2 ^ (d.coefficient.log2 + 1) * 2 ^ F.scale) := by
              rw [hnum]
              exact Nat.mul_lt_mul_of_pos_left
                (Nat.mul_lt_mul_of_pos_right hcoefficient hscale) Nat.two_pos
          _ = 2 ^ (F.scale + d.coefficient.log2 + 2) := by ring
          _ ≤ 2 ^ (-d.exponent).toNat := Nat.pow_le_pow_right (by decide) (by omega)
          _ ≤ 10 ^ (-d.exponent).toNat := Nat.pow_le_pow_left (by decide) _
      next => rfl

/-- Doubles have room for the exponent. -/
theorem double_infinity_le :
    Format.double.units Format.double.infinity ≤
      10 ^ (Format.double.scale + 1) * 2 ^ Format.double.scale := by
  decide +kernel

/-- Zeros at the end of the coefficient can be moved into the exponent. -/
theorem toBinary_mul_pow (negative : Bool) (coefficient k : Nat) (exponent : Int) :
    toBinary .double negative ⟨coefficient * 10 ^ k, exponent⟩ =
      toBinary .double negative ⟨coefficient, exponent + k⟩ := by
  rw [toBinary_eq_ofRatio double_infinity_le, toBinary_eq_ofRatio double_infinity_le]
  refine Binary.ofRatio_congr negative (den_pos _) (den_pos _) ?_
  simp only [num, den, Nat.pow_eq, Nat.mul_assoc, ← Nat.pow_add]
  congr 2
  omega

end Decimal

/-! ## The shortest decimal -/

namespace Shortest

variable {F : Format} {k : Nat}

theorem readsBack_of_closest {u : Nat} {e : Int} {d : Decimal} (h : closest F k u e = some d) :
    readsBack F k d = true := by
  simp only [closest] at h
  split at h
  next hlower hupper =>
    split at h
    · rwa [← Option.some.inj h]
    · rwa [← Option.some.inj h]
  next hlower hupper => rwa [← Option.some.inj h]
  next hlower hupper => rwa [← Option.some.inj h]
  next => cases h

/-- The exact expansion has the value of the magnitude. -/
theorem readsBack_exact (hF : F.units F.infinity ≤ 10 ^ (F.scale + 1) * 2 ^ F.scale)
    (hk : k ≤ F.infinity) : readsBack F k (exact F (F.units k)) = true := by
  have hnum : (exact F (F.units k)).num * 2 ^ F.scale = 10 ^ F.scale * F.units k := by
    simp only [exact, Decimal.num, Nat.pow_eq, Int.toNat_neg_natCast, Nat.pow_zero, Nat.mul_one]
    rw [Nat.mul_assoc, ← Nat.mul_pow, Nat.mul_comm]
  have hden : (exact F (F.units k)).den = 10 ^ F.scale := by simp [exact, Decimal.den]
  rw [readsBack, Decimal.toBinary_eq_ofRatio hF, beq_iff_eq]
  calc F.nearest ((exact F (F.units k)).num * 2 ^ F.scale) (exact F (F.units k)).den
      = F.nearest (10 ^ F.scale * F.units k) (10 ^ F.scale) := by rw [hnum, hden]
    _ = k := Format.nearest_units (Nat.pow_pos (by decide)) hk

/-- **The shortest decimal reads back.** -/
theorem magnitude_toBinary_decimal
    (hF : F.units F.infinity ≤ 10 ^ (F.scale + 1) * 2 ^ F.scale) (hk : k ≤ F.infinity) :
    ((decimal F k).toBinary F false).magnitude.val = k := by
  have hback : readsBack F k (decimal F k) = true := by
    simp only [decimal]
    cases hfind : enough.findSome? fun n : Nat =>
        closest F k (F.units k) (order F (F.units k) - n) with
    | none => exact readsBack_exact hF hk
    | some d =>
        obtain ⟨n, -, hn⟩ := List.exists_of_findSome?_eq_some hfind
        exact readsBack_of_closest hn
  exact beq_iff_eq.1 hback

end Shortest

end LiveFormula
