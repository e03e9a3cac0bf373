import LiveFormula.Proofs.DecimalRounding
import LiveFormula.Proofs.LiteralRange

/-!
# Conversion between formats

Rounding keeps order. The values of a format are also values of every format with more digits and
more room (`Format.Within`), and so a datum that is widened keeps its value and is given back when it
is narrowed again. What it is to be rounded from one format to another is said in the same words as
for natural numbers, without saying how the datum is found (`Binary.RoundsTo`).

* `Format.nearest_le_nearest` — rounding keeps order.
* `Format.Within.exists_units` — the values of the narrower format are on the wider grid.
* `Binary.roundsTo_iff` — a datum is rounded to one datum, the one that `convert` finds.
* `Binary.convert_convert` — widening and narrowing again changes nothing.
-/

set_option autoImplicit false

namespace LiveFormula

namespace Format

variable {F G : Format} {num num' den k : Nat}

/-! ## Order -/

/-- Rounding keeps order. -/
theorem nearest_le_nearest (hden : 0 < den) (h : num ≤ num') :
    F.nearest num den ≤ F.nearest num' den := by
  obtain ⟨k, r, ⟨hlow, hhigh, hr⟩, hnearest⟩ := F.nearest_eq_min num hden
  obtain ⟨k', r', ⟨hlow', hhigh', hr'⟩, hnearest'⟩ := F.nearest_eq_min num' hden
  have hle : k < k' + 1 := by
    have hlt : den * F.units k < den * F.units (k' + 1) := by omega
    rwa [Nat.mul_lt_mul_left hden, F.units_strictMono.lt_iff_lt] at hlt
  rcases Nat.lt_or_eq_of_le (Nat.le_of_lt_succ hle) with hlt | rfl
  · -- the neighbours of the smaller number end where those of the larger one begin
    omega
  · omega

/-- What is not below a value of the grid is not rounded below it. -/
theorem le_nearest_of_le (hden : 0 < den) (hk : k ≤ F.infinity) (h : den * F.units k ≤ num) :
    k ≤ F.nearest num den := by
  calc k = F.nearest (den * F.units k) den := (nearest_units hden hk).symm
    _ ≤ F.nearest num den := nearest_le_nearest hden h

/-- What is not above a value of the grid is not rounded above it. -/
theorem nearest_le_of_le (hden : 0 < den) (hk : k ≤ F.infinity) (h : num ≤ den * F.units k) :
    F.nearest num den ≤ k := by
  calc F.nearest num den ≤ F.nearest (den * F.units k) den := nearest_le_nearest hden h
    _ = k := nearest_units hden hk

/-! ## Grids inside grids -/

/-- A value is a number with at most one digit more than the fraction, shifted. -/
theorem exists_units_eq (F : Format) (k : Nat) :
    ∃ m q, m ≤ 2 * 2 ^ F.fraction ∧ F.units k = m * 2 ^ q := by
  by_cases hk : k < 2 ^ F.fraction
  · exact ⟨k, 0, by omega, by rw [F.units_of_le (by omega), Nat.pow_zero, Nat.mul_one]⟩
  · have hmod : k % 2 ^ F.fraction < 2 ^ F.fraction := Nat.mod_lt _ (Nat.two_pow_pos _)
    exact ⟨2 ^ F.fraction + k % 2 ^ F.fraction, k / 2 ^ F.fraction - 1, by omega, if_neg hk⟩

/-- Every such number is a value, however far it is shifted. The leading digits of a short one move
up while the shift gets less. -/
theorem exists_eq_units (F : Format) (q : Nat) {m : Nat} (hm : m ≤ 2 * 2 ^ F.fraction) :
    ∃ k, F.units k = m * 2 ^ q := by
  induction q generalizing m with
  | zero => exact ⟨m, by rw [F.units_of_le hm, Nat.pow_zero, Nat.mul_one]⟩
  | succ q ih =>
      by_cases hshort : m < 2 ^ F.fraction
      · obtain ⟨k, hk⟩ := ih (m := m * 2) (by omega)
        exact ⟨k, by rw [hk, Nat.mul_assoc, ← Nat.pow_succ']⟩
      · refine ⟨(q + 1 + 1) * 2 ^ F.fraction + (m - 2 ^ F.fraction), ?_⟩
        rw [F.units_add_mul (q + 1) (by omega), Nat.add_sub_of_le (by omega)]

/-- The format `F` has no more digits than `G`, its unit is no smaller, and its infinity stands no
higher. -/
structure Within (F G : Format) : Prop where
  fraction_le : F.fraction ≤ G.fraction
  scale_le : F.scale ≤ G.scale
  infinity_le : F.units F.infinity * 2 ^ G.scale ≤ G.units G.infinity * 2 ^ F.scale

theorem single_within_double : single.Within double :=
  ⟨by decide, by decide, by decide +kernel⟩

/-- The finite values of the narrower format are finite values of the wider one. -/
theorem Within.exists_units (h : F.Within G) (hk : k < F.infinity) :
    ∃ j < G.infinity, G.units j * 2 ^ F.scale = F.units k * 2 ^ G.scale := by
  obtain ⟨m, q, hm, hunits⟩ := F.exists_units_eq k
  have hfraction : 2 ^ F.fraction ≤ 2 ^ G.fraction := Nat.pow_le_pow_right Nat.two_pos h.fraction_le
  obtain ⟨j, hj⟩ := G.exists_eq_units (q + (G.scale - F.scale)) (m := m) (by omega)
  have hvalue : G.units j * 2 ^ F.scale = F.units k * 2 ^ G.scale := by
    have hscale := h.scale_le
    rw [hj, hunits, Nat.mul_assoc, Nat.mul_assoc, ← Nat.pow_add, ← Nat.pow_add]
    congr 2
    omega
  have hlt : G.units j * 2 ^ F.scale < G.units G.infinity * 2 ^ F.scale := by
    refine Nat.lt_of_lt_of_le ?_ h.infinity_le
    rw [hvalue]
    exact Nat.mul_lt_mul_of_pos_right (F.units_strictMono hk) (Nat.two_pow_pos _)
  rw [Nat.mul_lt_mul_right (Nat.two_pow_pos _), G.units_strictMono.lt_iff_lt] at hlt
  exact ⟨j, hlt, hvalue⟩

end Format

namespace Binary

variable {F G : Format} {x : Binary F} {y : Binary G}

/-! ## What a datum is converted to -/

/-- A number is finite or one of the infinities. -/
theorem isFinite_or_eq_infinity (hx : x.isNaN = false) :
    x.isFinite = true ∨ x = infinity x.negative := by
  have hle : x.magnitude.val ≤ F.infinity := Nat.not_lt.1 (of_decide_eq_false hx)
  rcases Nat.lt_or_eq_of_le hle with hlt | heq
  · exact .inl (isFinite_iff.2 hlt)
  · exact .inr (ext_magnitude rfl heq)

@[simp] theorem isInfinite_infinity (negative : Bool) :
    (infinity negative : Binary F).isInfinite = true := beq_self_eq_true _

@[simp] theorem isNaN_infinity (negative : Bool) :
    (infinity negative : Binary F).isNaN = false := decide_eq_false (Nat.lt_irrefl _)

@[simp] theorem isFinite_infinity (negative : Bool) :
    (infinity negative : Binary F).isFinite = false := decide_eq_false (Nat.lt_irrefl _)

@[simp] theorem convert_infinity (G : Format) (negative : Bool) :
    (infinity negative : Binary F).convert G = infinity negative := by
  simp only [convert, isNaN_infinity, isInfinite_infinity]
  rfl

/-- The datum `y` is `x` rounded once to the nearest: the sign is kept, and so are the infinities. -/
structure RoundsTo (x : Binary F) (y : Binary G) : Prop where
  negative : y.negative = x.negative
  infinite : x.isInfinite = true → y.isInfinite = true
  nearest : x.isFinite = true →
    G.IsNearest (x.units * 2 ^ G.scale) (2 ^ F.scale) y.magnitude

/-- A datum is rounded to one datum. -/
theorem roundsTo_iff (heven : G.infinity % 2 = 0) (hpos : 0 < G.infinity)
    (hx : x.isNaN = false) : x.RoundsTo y ↔ y = x.convert G := by
  rcases isFinite_or_eq_infinity hx with hfinite | hinfinite
  · have hden : 0 < 2 ^ F.scale := Nat.two_pow_pos _
    have hnearest : G.IsNearest (x.units * 2 ^ G.scale) (2 ^ F.scale) _ :=
      Format.isNearest_nearest hden heven hpos
    rw [convert_of_isFinite G hfinite]
    constructor
    · intro h
      exact ext_magnitude h.negative ((h.nearest hfinite).unique hnearest hden)
    · rintro rfl
      refine ⟨rfl, fun h => ?_, fun _ => hnearest⟩
      rw [isInfinite_eq_false_of_isFinite hfinite] at h
      cases h
  · rw [hinfinite, convert_infinity]
    constructor
    · intro h
      exact ext_magnitude h.negative (beq_iff_eq.1 (h.infinite (isInfinite_infinity _)))
    · rintro rfl
      exact ⟨rfl, fun _ => isInfinite_infinity _, fun h => by simp at h⟩

theorem roundsTo_single_iff {x : Double} {y : Single} (hx : x.isNaN = false) :
    x.RoundsTo y ↔ y = x.convert .single :=
  roundsTo_iff (by decide) (by decide) hx

/-! ## Widening -/

theorem negative_convert (G : Format) (x : Binary F) : (x.convert G).negative = x.negative := by
  unfold convert
  split_ifs <;> rfl

theorem isNaN_convert (G : Format) (hx : x.isNaN = false) : (x.convert G).isNaN = false := by
  rcases isFinite_or_eq_infinity hx with hfinite | hinfinite
  · rw [convert_of_isFinite G hfinite]
    exact decide_eq_false (Nat.not_lt.2 (G.nearest_le_infinity _ _))
  · rw [hinfinite, convert_infinity, isNaN_infinity]

/-- A finite datum keeps its value when it is widened. -/
theorem units_convert (h : F.Within G) (hx : x.isFinite = true) :
    (x.convert G).isFinite = true ∧
      (x.convert G).units * 2 ^ F.scale = x.units * 2 ^ G.scale := by
  obtain ⟨j, hj, hunits⟩ := h.exists_units (isFinite_iff.1 hx)
  have hmagnitude : (x.convert G).magnitude.val = j := by
    rw [convert_of_isFinite G hx]
    show G.nearest (F.units x.magnitude * 2 ^ G.scale) (2 ^ F.scale) = j
    rw [← hunits, Nat.mul_comm]
    exact Format.nearest_units (Nat.two_pow_pos _) hj.le
  constructor
  · rw [isFinite_iff, hmagnitude]
    exact hj
  · rw [units, hmagnitude]
    exact hunits

/-- **Widening and narrowing again changes nothing.** -/
theorem convert_convert (h : F.Within G) (hx : x.isNaN = false) : (x.convert G).convert F = x := by
  rcases isFinite_or_eq_infinity hx with hfinite | hinfinite
  · obtain ⟨hwide, hunits⟩ := units_convert h hfinite
    rw [convert_of_isFinite F hwide]
    refine ext_magnitude (negative_convert G x) ?_
    show F.nearest ((x.convert G).units * 2 ^ F.scale) (2 ^ G.scale) = x.magnitude
    rw [hunits, Nat.mul_comm]
    exact Format.nearest_units (Nat.two_pow_pos _) (isFinite_iff.1 hfinite).le
  · rw [hinfinite, convert_infinity, convert_infinity]

/-! ## Rounding twice -/

/-- Conversion keeps the order of magnitudes. -/
theorem magnitude_convert_le {x y : Binary F} (hy : y.isNaN = false)
    (h : x.magnitude.val ≤ y.magnitude.val) :
    (x.convert G).magnitude.val ≤ (y.convert G).magnitude.val := by
  have hx : x.isNaN = false :=
    decide_eq_false (Nat.not_lt.2 (Nat.le_trans h (Nat.not_lt.1 (of_decide_eq_false hy))))
  rcases isFinite_or_eq_infinity hy with hfinite | hinfinite
  · have hxfinite : x.isFinite = true := isFinite_iff.2 (Nat.lt_of_le_of_lt h (isFinite_iff.1 hfinite))
    rw [convert_of_isFinite G hxfinite, convert_of_isFinite G hfinite]
    apply Format.nearest_le_nearest (Nat.two_pow_pos _)
    exact Nat.mul_le_mul_right _ (F.units_strictMono.monotone h)
  · rw [hinfinite, convert_infinity]
    exact Nat.not_lt.1 (of_decide_eq_false (isNaN_convert G hx))

theorem magnitude_ofNat_le {n m : Nat} (h : n ≤ m) :
    (ofNat n : Binary F).magnitude.val ≤ (ofNat m : Binary F).magnitude.val :=
  Format.nearest_le_nearest Nat.one_pos (Nat.mul_le_mul_right _ h)

variable {n : Nat} {z : Binary F}

/-- Whole numbers lie on the same side of a datum and of what it is widened to. -/
theorem units_convert_le_iff (h : F.Within G) (hz : z.isFinite = true) :
    ((z.convert G).units ≤ n * 2 ^ G.scale ↔ z.units ≤ n * 2 ^ F.scale) ∧
      (n * 2 ^ G.scale ≤ (z.convert G).units ↔ n * 2 ^ F.scale ≤ z.units) := by
  obtain ⟨-, hunits⟩ := units_convert h hz
  have hF : 0 < 2 ^ F.scale := Nat.two_pow_pos _
  have hG : 0 < 2 ^ G.scale := Nat.two_pow_pos _
  constructor
  · rw [← Nat.mul_le_mul_right_iff hF, hunits, Nat.mul_right_comm n, Nat.mul_le_mul_right_iff hG]
  · rw [← Nat.mul_le_mul_right_iff hF, hunits, Nat.mul_right_comm n, Nat.mul_le_mul_right_iff hG]

/-- A number that is rounded to the wider format and then to the narrower one does not get past a
value of the narrower one from below. -/
theorem magnitude_convert_ofNat_le (h : F.Within G) (hz : z.isFinite = true)
    (hn : n * 2 ^ F.scale ≤ z.units) :
    ((ofNat n : Binary G).convert F).magnitude.val ≤ z.magnitude.val := by
  obtain ⟨hwide, -⟩ := units_convert h hz
  have hle : (ofNat n : Binary G).magnitude.val ≤ (z.convert G).magnitude.val := by
    apply Format.nearest_le_of_le Nat.one_pos (isFinite_iff.1 hwide).le
    rw [Nat.one_mul]
    exact (units_convert_le_iff h hz).2.2 hn
  calc ((ofNat n : Binary G).convert F).magnitude.val
      ≤ ((z.convert G).convert F).magnitude.val :=
        magnitude_convert_le (isNaN_eq_false_of_isFinite hwide) hle
    _ = z.magnitude.val := by rw [convert_convert h (isNaN_eq_false_of_isFinite hz)]

/-- Nor does it from above. -/
theorem le_magnitude_convert_ofNat (h : F.Within G) (hz : z.isFinite = true)
    (hn : z.units ≤ n * 2 ^ F.scale) :
    z.magnitude.val ≤ ((ofNat n : Binary G).convert F).magnitude.val := by
  obtain ⟨hwide, -⟩ := units_convert h hz
  have hle : (z.convert G).magnitude.val ≤ (ofNat n : Binary G).magnitude.val := by
    apply Format.le_nearest_of_le Nat.one_pos (isFinite_iff.1 hwide).le
    rw [Nat.one_mul]
    exact (units_convert_le_iff h hz).1.2 hn
  calc z.magnitude.val
      = ((z.convert G).convert F).magnitude.val := by
        rw [convert_convert h (isNaN_eq_false_of_isFinite hz)]
    _ ≤ ((ofNat n : Binary G).convert F).magnitude.val := magnitude_convert_le (isNaN_ofNat n) hle

/-- A number with few digits is a value of the wider format, and so it is rounded only once. -/
theorem convert_ofNat (F : Format) (hroom : 2 * 2 ^ G.fraction * 2 ^ G.scale < G.units G.infinity)
    (hn : n ≤ 2 * 2 ^ G.fraction) : (ofNat n : Binary G).convert F = ofNat n := by
  obtain ⟨k, hk⟩ := G.exists_eq_units G.scale hn
  have hlt : k < G.infinity := by
    have := Nat.mul_le_mul_right (2 ^ G.scale) hn
    rw [← G.units_strictMono.lt_iff_lt, hk]
    omega
  have hmagnitude : (ofNat n : Binary G).magnitude.val = k := by
    rw [magnitude_ofNat, ← hk, ← Nat.one_mul (G.units k)]
    exact Format.nearest_units Nat.one_pos hlt.le
  have hfinite : (ofNat n : Binary G).isFinite = true := by
    rw [isFinite_iff, hmagnitude]
    exact hlt
  rw [convert_of_isFinite F hfinite]
  refine ext_magnitude rfl ?_
  show F.nearest (G.units (ofNat n : Binary G).magnitude * 2 ^ F.scale) (2 ^ G.scale) =
    F.nearest (n * 2 ^ F.scale) 1
  rw [hmagnitude, hk]
  apply Format.nearest_congr (Nat.two_pow_pos _) Nat.one_pos
  rw [Nat.mul_one, Nat.mul_right_comm]

end Binary

end LiveFormula
