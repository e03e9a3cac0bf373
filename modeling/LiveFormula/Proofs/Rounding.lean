import LiveFormula.Number.Binary
import Mathlib.Data.Nat.Dist
import Mathlib.Order.Monotone.Basic

/-!
# Rounding to the nearest datum

What it is to be nearest to a quotient is said without saying how the nearest magnitude is found: no
finite magnitude is nearer, an odd one has no rival, and infinity takes over from the middle between
the largest finite value and the next place of the grid. `Format.nearest` finds the one magnitude of
which this holds.

* `Format.units_succ` — the step from one value of the grid to the next.
* `Format.units_floor_le_lt` — `floor` brackets a number of units.
* `Format.isNearest_nearest`, `Format.IsNearest.unique` — `nearest` finds the nearest magnitude, and
  there is no other.
* `Binary.isRounded_iff` — a natural number is rounded to one datum.
-/

set_option autoImplicit false

namespace LiveFormula

namespace Format

variable (F : Format)

/-! ## The grid -/

/-- The values with exponent `q`, up to the first one with the next exponent. -/
theorem units_add_mul (q : Nat) {m : Nat} (hm : m ≤ 2 ^ F.fraction) :
    F.units ((q + 1) * 2 ^ F.fraction + m) = (2 ^ F.fraction + m) * 2 ^ q := by
  have hpos : 0 < 2 ^ F.fraction := Nat.two_pow_pos _
  have hle : 2 ^ F.fraction ≤ (q + 1) * 2 ^ F.fraction := Nat.le_mul_of_pos_left _ q.succ_pos
  simp only [units, Nat.pow_eq]
  rw [if_neg (by omega)]
  rcases Nat.lt_or_eq_of_le hm with hlt | rfl
  · rw [Nat.mul_add_mod', Nat.mod_eq_of_lt hlt, Nat.add_comm ((q + 1) * _) m,
      Nat.add_mul_div_right _ _ hpos, Nat.div_eq_of_lt hlt]
    simp
  · rw [← Nat.succ_mul, Nat.mul_mod_left, Nat.mul_div_left _ hpos, Nat.add_zero,
      Nat.succ_sub_one, Nat.pow_succ, ← Nat.two_mul, Nat.mul_comm (2 ^ q) 2, Nat.mul_left_comm,
      Nat.mul_assoc]

/-- The values below twice the least normal one are all whole numbers of units. -/
theorem units_of_le {k : Nat} (hk : k ≤ 2 * 2 ^ F.fraction) : F.units k = k := by
  by_cases hlt : k < 2 ^ F.fraction
  · exact if_pos hlt
  · have hunits := F.units_add_mul 0 (m := k - 2 ^ F.fraction) (by omega)
    rw [Nat.zero_add, Nat.one_mul, Nat.pow_zero, Nat.mul_one] at hunits
    rwa [Nat.add_sub_of_le (by omega)] at hunits

/-- From one value to the next it is a power of two, which doubles with the exponent. -/
theorem units_succ (k : Nat) : F.units (k + 1) = F.units k + 2 ^ (k / 2 ^ F.fraction - 1) := by
  have hpos : 0 < 2 ^ F.fraction := Nat.two_pow_pos _
  by_cases hk : k < 2 ^ F.fraction
  · rw [F.units_of_le (by omega), F.units_of_le (by omega), Nat.div_eq_of_lt hk]
    rfl
  · have hq : 0 < k / 2 ^ F.fraction := Nat.div_pos (by omega) hpos
    have hm : k % 2 ^ F.fraction < 2 ^ F.fraction := Nat.mod_lt _ hpos
    have hdiv : k = (k / 2 ^ F.fraction - 1 + 1) * 2 ^ F.fraction + k % 2 ^ F.fraction := by
      rw [Nat.sub_add_cancel hq, Nat.mul_comm]
      exact (Nat.div_add_mod _ _).symm
    generalize k / 2 ^ F.fraction - 1 = q at hdiv
    generalize k % 2 ^ F.fraction = m at hdiv hm
    rw [hdiv, Nat.add_assoc, F.units_add_mul q (by omega), F.units_add_mul q hm.le,
      ← Nat.add_assoc, Nat.add_mul _ 1, Nat.one_mul]

theorem units_strictMono : StrictMono F.units :=
  strictMono_nat_of_lt_succ fun k => by
    have hpos : 0 < 2 ^ (k / 2 ^ F.fraction - 1) := Nat.two_pow_pos _
    rw [F.units_succ]
    omega

/-! ## The greatest magnitude at or below a number of units -/

/-- The leading digits of a large number, as many as a normal value has. -/
theorem leading_bounds {u : Nat} (hu : 2 * 2 ^ F.fraction ≤ u) :
    2 ^ F.fraction ≤ u / 2 ^ (u.log2 - F.fraction) ∧
      u / 2 ^ (u.log2 - F.fraction) < 2 * 2 ^ F.fraction := by
  have hpos : 0 < 2 ^ F.fraction := Nat.two_pow_pos _
  have hne : u ≠ 0 := by omega
  have hlog : F.fraction + 1 ≤ u.log2 := by
    rw [Nat.le_log2 hne, Nat.pow_succ]
    omega
  have hlow : 2 ^ u.log2 ≤ u := Nat.log2_self_le hne
  have hhigh : u < 2 ^ (u.log2 + 1) := Nat.lt_log2_self
  have hsplit : 2 ^ u.log2 = 2 ^ F.fraction * 2 ^ (u.log2 - F.fraction) := by
    rw [← Nat.pow_add, Nat.add_sub_of_le (by omega)]
  constructor
  · rw [Nat.le_div_iff_mul_le (Nat.two_pow_pos _), ← hsplit]
    exact hlow
  · rw [Nat.div_lt_iff_lt_mul (Nat.two_pow_pos _), Nat.mul_assoc, ← hsplit, ← Nat.pow_succ']
    exact hhigh

/-- A number of units lies between the magnitude below it and the next one. -/
theorem units_floor_le_lt (u : Nat) : F.units (F.floor u) ≤ u ∧ u < F.units (F.floor u + 1) := by
  simp only [floor, Nat.pow_eq]
  rw [Nat.pow_succ, Nat.mul_comm _ 2]
  by_cases hu : u < 2 * 2 ^ F.fraction
  · rw [if_pos hu, F.units_of_le (by omega), F.units_of_le (by omega)]
    omega
  · obtain ⟨hlow, hhigh⟩ := F.leading_bounds (Nat.le_of_not_lt hu)
    simp only [if_neg hu, Nat.shiftRight_eq_div_pow]
    generalize u.log2 - F.fraction = shift at hlow hhigh ⊢
    have hdiv : u / 2 ^ shift * 2 ^ shift ≤ u := Nat.div_mul_le_self _ _
    have hmod : u < (u / 2 ^ shift + 1) * 2 ^ shift := by
      rw [Nat.add_mul, Nat.one_mul]
      exact Nat.lt_div_mul_add (Nat.two_pow_pos _)
    generalize u / 2 ^ shift = q at hlow hhigh hdiv hmod ⊢
    have hk : shift * 2 ^ F.fraction + q = (shift + 1) * 2 ^ F.fraction + (q - 2 ^ F.fraction) := by
      rw [Nat.add_mul, Nat.one_mul]
      omega
    rw [hk, Nat.add_assoc, F.units_add_mul shift (by omega), F.units_add_mul shift (by omega),
      ← Nat.add_assoc, Nat.add_sub_of_le hlow]
    exact ⟨hdiv, hmod⟩

/-! ## The nearest magnitude -/

/-- The magnitude `k` is nearest to `num / den` units. It is infinity from the middle between the
largest finite value and the next place of the grid on. Below, no finite magnitude is nearer, and if
another one is as near then `k` is even. -/
structure IsNearest (num den k : Nat) : Prop where
  le_infinity : k ≤ F.infinity
  eq_infinity_iff :
    k = F.infinity ↔ den * F.units (F.infinity - 1) + den * F.units F.infinity ≤ 2 * num
  dist_le : k < F.infinity → ∀ j < F.infinity,
    Nat.dist (den * F.units k) num ≤ Nat.dist (den * F.units j) num
  even : k < F.infinity → ∀ j < F.infinity, j ≠ k →
    Nat.dist (den * F.units j) num = Nat.dist (den * F.units k) num → k % 2 = 0

variable {F} {num den : Nat}

theorem mul_units_lt (hden : 0 < den) {j k : Nat} (h : j < k) :
    den * F.units j < den * F.units k :=
  Nat.mul_lt_mul_of_pos_left (F.units_strictMono h) hden

/-- Of the neighbours `k` and `k + 1` of `num / den` units, the nearer one is `r`, and in the middle
the even one. -/
structure Neighbour (F : Format) (num den k r : Nat) : Prop where
  low : den * F.units k ≤ num
  high : num < den * F.units (k + 1)
  choice :
    r = k ∧ (2 * num < den * F.units k + den * F.units (k + 1) ∨
      2 * num = den * F.units k + den * F.units (k + 1) ∧ k % 2 = 0) ∨
    r = k + 1 ∧ (den * F.units k + den * F.units (k + 1) < 2 * num ∨
      2 * num = den * F.units k + den * F.units (k + 1) ∧ k % 2 = 1)

/-- A neighbour is taken, or infinity in place of a larger magnitude. -/
theorem nearest_eq_min (F : Format) (num : Nat) {den : Nat} (hden : 0 < den) :
    ∃ k r, F.Neighbour num den k r ∧ F.nearest num den = min r F.infinity := by
  obtain ⟨hlow, hhigh⟩ := F.units_floor_le_lt (num / den)
  rw [Nat.div_lt_iff_lt_mul hden, Nat.mul_comm] at hhigh
  rw [Nat.le_div_iff_mul_le hden, Nat.mul_comm] at hlow
  refine ⟨F.floor (num / den), _, ⟨hlow, hhigh, ?_⟩, rfl⟩
  rw [Nat.mul_add]
  generalize den * F.units (F.floor (num / den)) = a
  generalize den * F.units (F.floor (num / den) + 1) = b
  by_cases hbelow : 2 * num < a + b
  · rw [if_pos hbelow]
    omega
  · rw [if_neg hbelow]
    by_cases habove : a + b < 2 * num
    · rw [if_pos habove]
      omega
    · rw [if_neg habove]
      split <;> omega

/-- No magnitude is nearer than the neighbour, and one that is as near finds it even. -/
theorem Neighbour.dist_le {k r : Nat} (h : F.Neighbour num den k r) (hden : 0 < den) (j : Nat) :
    Nat.dist (den * F.units r) num ≤ Nat.dist (den * F.units j) num ∧
      (j ≠ r → Nat.dist (den * F.units j) num = Nat.dist (den * F.units r) num → r % 2 = 0) := by
  obtain ⟨hlow, hhigh, hr⟩ := h
  -- every other magnitude lies outside the two neighbours
  have hleft : j < k → den * F.units j < den * F.units k := mul_units_lt hden
  have hright : k + 1 < j → den * F.units (k + 1) < den * F.units j := mul_units_lt hden
  have hk : j = k → den * F.units j = den * F.units k := fun h => by rw [h]
  have hk' : j = k + 1 → den * F.units j = den * F.units (k + 1) := fun h => by rw [h]
  unfold Nat.dist
  rcases hr with ⟨rfl, hr⟩ | ⟨rfl, hr⟩ <;> omega

/-- The neighbour reaches an even magnitude from the middle before it on. -/
theorem Neighbour.le_iff {k r m : Nat} (h : F.Neighbour num den k r) (hden : 0 < den)
    (heven : m % 2 = 0) (hpos : 0 < m) :
    m ≤ r ↔ den * F.units (m - 1) + den * F.units m ≤ 2 * num := by
  obtain ⟨hlow, hhigh, hr⟩ := h
  have hlast := mul_units_lt (F := F) hden (Nat.sub_lt hpos Nat.one_pos)
  rcases Nat.lt_trichotomy (k + 1) m with hk | hk | hk
  · -- both neighbours lie before `m`, and the middle lies above them
    have hle : den * F.units (k + 1) ≤ den * F.units (m - 1) :=
      Nat.mul_le_mul_left _ (F.units_strictMono.monotone (by omega))
    omega
  · have hk' : m - 1 = k := by omega
    rw [hk', ← hk]
    omega
  · have hle : den * F.units m ≤ den * F.units k :=
      Nat.mul_le_mul_left _ (F.units_strictMono.monotone (by omega))
    omega

/-- Rounding reaches an even magnitude from the middle before it on. -/
theorem le_nearest_iff {m : Nat} (hden : 0 < den) (hm : m ≤ F.infinity) (heven : m % 2 = 0)
    (hpos : 0 < m) :
    m ≤ F.nearest num den ↔ den * F.units (m - 1) + den * F.units m ≤ 2 * num := by
  obtain ⟨k, r, hr, hnearest⟩ := F.nearest_eq_min num hden
  rw [← hr.le_iff hden heven hpos, hnearest]
  omega

/-- **The nearest magnitude is found.** -/
theorem isNearest_nearest (hden : 0 < den) (heven : F.infinity % 2 = 0) (hpos : 0 < F.infinity) :
    F.IsNearest num den (F.nearest num den) := by
  obtain ⟨k, r, hr, hnearest⟩ := F.nearest_eq_min num hden
  have hinfinity := hr.le_iff hden heven hpos
  have hfinite : F.nearest num den < F.infinity → F.nearest num den = r := by omega
  refine ⟨F.nearest_le_infinity _ _, ?_, fun h j _ => ?_, fun h j _ => ?_⟩
  · rw [← hinfinity]
    omega
  · rw [hfinite h]
    exact (hr.dist_le hden j).1
  · rw [hfinite h]
    exact (hr.dist_le hden j).2

/-- Of two magnitudes that are nearest and finite, neither is below the other: both would be even,
and the one after the first would be nearer. -/
theorem IsNearest.not_lt {k l : Nat} (hk : F.IsNearest num den k) (hl : F.IsNearest num den l)
    (hden : 0 < den) (hfinite : l < F.infinity) : ¬k < l := by
  intro hlt
  have hfinite' : k < F.infinity := Nat.lt_trans hlt hfinite
  have hdist := Nat.le_antisymm (hk.dist_le hfinite' l hfinite) (hl.dist_le hfinite k hfinite')
  have hkeven := hk.even hfinite' l hfinite (by omega) hdist.symm
  have hleven := hl.even hfinite k hfinite' (by omega) hdist
  have hnearer := hk.dist_le hfinite' (k + 1) (by omega)
  have hleft : den * F.units k < den * F.units (k + 1) := mul_units_lt hden (by omega)
  have hright : den * F.units (k + 1) < den * F.units l := mul_units_lt hden (by omega)
  unfold Nat.dist at hdist hnearer
  omega

theorem IsNearest.unique {k l : Nat} (hk : F.IsNearest num den k) (hl : F.IsNearest num den l)
    (hden : 0 < den) : k = l := by
  have hinfinity : k = F.infinity ↔ l = F.infinity :=
    hk.eq_infinity_iff.trans hl.eq_infinity_iff.symm
  have hkle := hk.le_infinity
  have hlle := hl.le_infinity
  rcases Nat.lt_trichotomy k l with hlt | heq | hlt
  · exact absurd hlt (hk.not_lt hl hden (by omega))
  · exact heq
  · exact absurd hlt (hl.not_lt hk hden (by omega))

end Format

/-! ## Natural numbers -/

namespace Binary

variable {F : Format}

/-- The datum `x` is the natural number `n`, rounded once to the nearest. -/
def IsRounded (n : Nat) (x : Binary F) : Prop :=
  x.negative = false ∧ F.IsNearest (n * 2 ^ F.scale) 1 x.magnitude

/-- A natural number is rounded to one datum. -/
theorem isRounded_iff (heven : F.infinity % 2 = 0) (hpos : 0 < F.infinity) {n : Nat}
    {x : Binary F} : IsRounded n x ↔ x = ofNat n := by
  have hnearest : F.IsNearest (n * 2 ^ F.scale) 1 (F.nearest (n * 2 ^ F.scale) 1) :=
    Format.isNearest_nearest Nat.one_pos heven hpos
  constructor
  · rintro ⟨hsign, hmagnitude⟩
    have heq := hmagnitude.unique hnearest Nat.one_pos
    obtain ⟨negative, magnitude⟩ := x
    obtain rfl : negative = false := hsign
    exact congrArg (Binary.mk false) (Fin.ext heq)
  · rintro rfl
    exact ⟨rfl, hnearest⟩

theorem isRounded_double_iff {n : Nat} {x : Double} : IsRounded n x ↔ x = ofNat n :=
  isRounded_iff (by decide +kernel) (by decide +kernel)

/-- Doubles are infinite from halfway between the largest one and `2 ^ 1024` on. -/
theorem units_around_double_bound :
    1 * Format.double.units (Format.double.infinity - 1) +
        1 * Format.double.units Format.double.infinity =
      2 * ((2 ^ 1024 - 2 ^ 970) * 2 ^ Format.double.scale) := by
  decide +kernel

end Binary

end LiveFormula
