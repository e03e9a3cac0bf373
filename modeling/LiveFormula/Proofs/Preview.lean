import LiveFormula.Machine.Evaluator
import LiveFormula.Proofs.Conversion
import LiveFormula.Proofs.Safety
import Mathlib.Data.List.Forall2

/-!
# Previews

A preview is a grid of values that is drawn with one character for each value. The place of a value
in the ramp of shades comes out of two roundings: the product with nine is rounded to a double, and
the double to a whole number. Both keep order, and so the place of a number never falls when the
number grows, and never gets past that of infinity, which is the last place of the ramp.

* `RoundsHalfEven.le_of_le` — rounding to a whole number keeps order.
* `Shade.place_clamp` — where the clamped value stands.
* `Shade.index_mono`, `Shade.index_lt` — the place in the ramp grows with the value and is in range.
* `Shade.draws_draw` — what a grid is drawn as.
* `Evaluator.exists_sample` — a grid is sampled without a failure, whatever its sides are.
* `Evaluator.preview_is_total` — all of it for a program that was installed.
-/

set_option autoImplicit false

namespace LiveFormula

/-! ## Rounding to a whole number -/

/-- The whole number `n` is within a half of `num / den`, and even if it is just a half away. -/
structure RoundsHalfEven (num den n : Nat) : Prop where
  le : 2 * num ≤ 2 * (n * den) + den
  ge : 2 * (n * den) ≤ 2 * num + den
  even : 2 * num = 2 * (n * den) + den ∨ 2 * (n * den) = 2 * num + den → n % 2 = 0

theorem roundsHalfEven_roundHalfEven (num : Nat) {den : Nat} (hden : 0 < den) :
    RoundsHalfEven num den (roundHalfEven num den) := by
  have hnum : den * (num / den) + num % den = num := Nat.div_add_mod num den
  have hrest : num % den < den := Nat.mod_lt num hden
  unfold roundHalfEven
  rw [Nat.mul_comm] at hnum
  generalize num / den = whole at hnum ⊢
  generalize num % den = rest at hnum hrest ⊢
  have hnext : (whole + 1) * den = whole * den + den := Nat.succ_mul whole den
  by_cases hbelow : 2 * rest < den
  · rw [if_pos hbelow]
    exact ⟨by omega, by omega, by omega⟩
  · rw [if_neg hbelow]
    by_cases habove : den < 2 * rest
    · rw [if_pos habove]
      exact ⟨by omega, by omega, by omega⟩
    · rw [if_neg habove]
      split <;> exact ⟨by omega, by omega, by omega⟩

/-- Rounding to a whole number keeps order. If it did not, both quotients would lie in the middle
between two neighbours, and both neighbours would be even. -/
theorem RoundsHalfEven.le_of_le {num num' den n n' : Nat} (h : RoundsHalfEven num den n)
    (h' : RoundsHalfEven num' den n') (hden : 0 < den) (hle : num ≤ num') : n ≤ n' := by
  by_contra hlt
  have hnext : (n' + 1) * den ≤ n * den := Nat.mul_le_mul_right den (by omega)
  rw [Nat.succ_mul] at hnext
  have hge := h.ge
  have hle' := h'.le
  have heven := h.even (.inr (by omega))
  have heven' := h'.even (.inl (by omega))
  have hsame : n * den = (n' + 1) * den := by
    rw [Nat.succ_mul]
    omega
  have : n = n' + 1 := Nat.eq_of_mul_eq_mul_right hden hsame
  omega

/-- Whole numbers that differ are at least one apart. -/
theorem whole_apart {n m unit : Int} (hunit : 0 ≤ unit) (h : m ≠ n) :
    m * unit + unit ≤ n * unit ∨ n * unit + unit ≤ m * unit := by
  rcases Int.lt_or_gt_of_ne h with hlt | hgt
  · left
    have hmul := Int.mul_le_mul_of_nonneg_right (Int.add_one_le_of_lt hlt) hunit
    rwa [Int.add_mul, Int.one_mul] at hmul
  · right
    have hmul := Int.mul_le_mul_of_nonneg_right (Int.add_one_le_of_lt hgt) hunit
    rwa [Int.add_mul, Int.one_mul] at hmul

/-! ## The order of data -/

namespace Binary

variable {F : Format} {x y : Binary F}

/-- The first number is not above the second; neither is below or above what is not a number. -/
def AtMost (x y : Binary F) : Prop := x.below y = true ∨ x.equals y = true

theorem below_iff :
    x.below y = true ↔ x.isNaN = false ∧ y.isNaN = false ∧ x.place < y.place := by
  simp [below, and_assoc]

theorem atMost_iff :
    x.AtMost y ↔ x.isNaN = false ∧ y.isNaN = false ∧ x.place ≤ y.place := by
  unfold AtMost
  rw [below_iff]
  simp only [equals, Bool.and_eq_true, Bool.not_eq_true', beq_iff_eq, Int.le_iff_lt_or_eq]
  tauto

/-- The larger of two numbers stands where the one further up stands. -/
theorem place_max (hx : x.isNaN = false) (hy : y.isNaN = false) :
    (x.max y).isNaN = false ∧ (x.max y).place = Max.max x.place y.place := by
  unfold max
  by_cases h : x.below y = true
  · rw [if_pos h]
    have hlt := (below_iff.1 h).2.2
    exact ⟨hy, by omega⟩
  · rw [if_neg h]
    have hge : ¬x.place < y.place := fun hlt => h (below_iff.2 ⟨hx, hy, hlt⟩)
    exact ⟨hx, by omega⟩

theorem place_min (hx : x.isNaN = false) (hy : y.isNaN = false) :
    (x.min y).isNaN = false ∧ (x.min y).place = Min.min x.place y.place := by
  unfold min
  by_cases h : y.below x = true
  · rw [if_pos h]
    have hlt := (below_iff.1 h).2.2
    exact ⟨hy, by omega⟩
  · rw [if_neg h]
    have hge : ¬y.place < x.place := fun hlt => h (below_iff.2 ⟨hy, hx, hlt⟩)
    exact ⟨hx, by omega⟩

/-- From zero on the magnitude is the place, and only zero has two signs. -/
theorem magnitude_of_place (h : 0 ≤ x.place) :
    (x.magnitude.val : Int) = x.place ∧ (x.negative = true → x.magnitude.val = 0) := by
  unfold place at h ⊢
  split at h
  next hsign =>
    rw [if_pos hsign]
    exact ⟨by omega, fun _ => by omega⟩
  next hsign =>
    rw [if_neg hsign]
    exact ⟨rfl, fun hnegative => absurd hnegative hsign⟩

theorem mul_of_isFinite (hx : x.isFinite = true) (hy : y.isFinite = true) :
    x.mul y = ofUnits (x.negative != y.negative) (x.units * y.units) (2 ^ F.scale) := by
  simp [mul, isNaN_eq_false_of_isFinite hx, isNaN_eq_false_of_isFinite hy,
    isInfinite_eq_false_of_isFinite hx, isInfinite_eq_false_of_isFinite hy]

theorem units_ofUnits (negative : Bool) (num den : Nat) :
    (ofUnits negative num den : Binary F).units = F.units (F.nearest num den) := rfl

/-- The product of numbers that are not below zero is not below zero: only a zero may have the other
sign. -/
theorem signedUnits_mul (hx : x.isFinite = true) (hy : y.isFinite = true) (hplace : 0 ≤ x.place)
    (hsign : y.negative = false) : (x.mul y).signedUnits = (x.mul y).units := by
  rw [mul_of_isFinite hx hy, hsign]
  unfold signedUnits
  split
  next hnegative =>
    have hmagnitude := (magnitude_of_place hplace).2 (by simpa [ofUnits] using hnegative)
    have hunits : x.units = 0 := by
      rw [units, hmagnitude]
      exact F.units_of_le (Nat.zero_le _)
    have hproduct : F.units (F.nearest (x.units * y.units) (2 ^ F.scale)) = 0 := by
      rw [hunits, Nat.zero_mul, Format.nearest_eq_zero (Nat.two_pow_pos _)]
      exact F.units_of_le (Nat.zero_le _)
    rw [units_ofUnits, hproduct]
    rfl
  next => rfl

/-- A product does not fall when a factor grows. -/
theorem magnitude_mul_le {z : Binary F} (hx : x.isFinite = true) (hy : y.isFinite = true)
    (hz : z.isFinite = true) (h : x.magnitude.val ≤ y.magnitude.val) :
    (x.mul z).magnitude.val ≤ (y.mul z).magnitude.val := by
  rw [mul_of_isFinite hx hz, mul_of_isFinite hy hz]
  apply Format.nearest_le_nearest (Nat.two_pow_pos _)
  exact Nat.mul_le_mul_right _ (F.units_strictMono.monotone h)

theorem roundsHalfEven_roundMagnitude (x : Binary F) :
    RoundsHalfEven x.units (2 ^ F.scale) x.roundMagnitude :=
  roundsHalfEven_roundHalfEven _ (Nat.two_pow_pos _)

theorem roundMagnitude_le (h : x.magnitude.val ≤ y.magnitude.val) :
    x.roundMagnitude ≤ y.roundMagnitude :=
  x.roundsHalfEven_roundMagnitude.le_of_le y.roundsHalfEven_roundMagnitude (Nat.two_pow_pos _)
    (F.units_strictMono.monotone h)

/-- The whole number `n` is nearest to the datum, and of two that are as near it is the even one. -/
structure IsNearestWhole (x : Binary F) (n : Int) : Prop where
  dist_le : ∀ m : Int,
    (x.signedUnits - n * 2 ^ F.scale).natAbs ≤ (x.signedUnits - m * 2 ^ F.scale).natAbs
  even : ∀ m : Int, m ≠ n →
    (x.signedUnits - m * 2 ^ F.scale).natAbs = (x.signedUnits - n * 2 ^ F.scale).natAbs → n % 2 = 0

/-- A number that is not below zero is rounded to the whole number nearest to it. -/
theorem isNearestWhole_roundMagnitude (hx : x.signedUnits = x.units) :
    x.IsNearestWhole x.roundMagnitude := by
  obtain ⟨hle, hge, heven⟩ := x.roundsHalfEven_roundMagnitude
  have hunit : ((2 ^ F.scale : Nat) : Int) = 2 ^ F.scale := Int.natCast_pow 2 F.scale
  have hproduct : ((x.roundMagnitude * 2 ^ F.scale : Nat) : Int) =
      x.roundMagnitude * 2 ^ F.scale := by rw [Int.natCast_mul, hunit]
  constructor
  · intro m
    by_cases hm : m = x.roundMagnitude
    · rw [hm]
    · have hapart := whole_apart (by omega : (0 : Int) ≤ 2 ^ F.scale) hm
      rw [hx]
      omega
  · intro m hm hdist
    have hapart := whole_apart (by omega : (0 : Int) ≤ 2 ^ F.scale) hm
    rw [hx] at hdist
    have := heven (by omega)
    omega

/-- The datum is the quotient of two natural numbers, rounded once to the nearest. -/
def IsQuotient (n d : Nat) (x : Binary F) : Prop :=
  x.negative = false ∧ F.IsNearest (n * 2 ^ F.scale) d x.magnitude

theorem isQuotient_ofRatio (heven : F.infinity % 2 = 0) (hpos : 0 < F.infinity) (n : Nat) {d : Nat}
    (hd : 0 < d) : (ofRatio false n d : Binary F).IsQuotient n d :=
  ⟨rfl, Format.isNearest_nearest hd heven hpos⟩

end Binary

/-! ## Shades -/

namespace Shade

variable {x : Double}

/-- The clamped value stands between zero and one, and where the value stands if that is there. -/
theorem place_clamp (hx : x.isNaN = false) :
    (clamp x).place = min (max x.place 0) (Binary.ofNat 1 : Double).place := by
  have hzero : (Binary.zero false : Double).isNaN = false := rfl
  obtain ⟨hmax, hplace⟩ := Binary.place_max hx hzero
  rw [clamp, (Binary.place_min hmax (Binary.isNaN_ofNat 1)).2, hplace]
  rfl

theorem place_one_nonneg : 0 ≤ (Binary.ofNat 1 : Double).place :=
  Int.natCast_nonneg (Binary.ofNat 1 : Double).magnitude.val

theorem place_clamp_nonneg (hx : x.isNaN = false) : 0 ≤ (clamp x).place := by
  have := place_one_nonneg
  rw [place_clamp hx]
  omega

theorem isFinite_clamp (hx : x.isNaN = false) : (clamp x).isFinite = true := by
  have hone : (Binary.ofNat 1 : Double).isFinite = true := by decide +kernel
  have hmagnitude := (Binary.magnitude_of_place (place_clamp_nonneg hx)).1
  have hplace := place_clamp hx
  have hle : (Binary.ofNat 1 : Double).place = (Binary.ofNat 1 : Double).magnitude.val := rfl
  rw [Binary.isFinite_iff] at hone ⊢
  omega

theorem isFinite_nine : (Binary.ofNat 9 : Double).isFinite = true := by decide +kernel

/-- The place in the ramp is the whole number nearest to the product with nine. -/
theorem isNearestWhole_index (hx : x.isNaN = false) :
    ((clamp x).mul (Binary.ofNat 9)).IsNearestWhole (index x) :=
  Binary.isNearestWhole_roundMagnitude
    (Binary.signedUnits_mul (isFinite_clamp hx) isFinite_nine (place_clamp_nonneg hx) rfl)

/-- **A larger number does not have a darker shade.** -/
theorem index_mono {a b : Double} (h : a.AtMost b) : index a ≤ index b := by
  obtain ⟨ha, hb, hplace⟩ := Binary.atMost_iff.1 h
  have hclamp : (clamp a).magnitude.val ≤ (clamp b).magnitude.val := by
    have hmagnitude := (Binary.magnitude_of_place (place_clamp_nonneg ha)).1
    have hmagnitude' := (Binary.magnitude_of_place (place_clamp_nonneg hb)).1
    rw [place_clamp ha] at hmagnitude
    rw [place_clamp hb] at hmagnitude'
    omega
  apply Binary.roundMagnitude_le
  exact Binary.magnitude_mul_le (isFinite_clamp ha) (isFinite_clamp hb) isFinite_nine hclamp

theorem atMost_infinity (hx : x.isNaN = false) : x.AtMost (Binary.infinity false) := by
  have hle : x.magnitude.val ≤ Format.double.infinity := Nat.not_lt.1 (of_decide_eq_false hx)
  have hinfinity : (Binary.infinity false : Double).place = Format.double.infinity := rfl
  rw [Binary.atMost_iff]
  refine ⟨hx, Binary.isNaN_infinity false, ?_⟩
  rw [hinfinity]
  unfold Binary.place
  split <;> omega

/-- The place of a number is one of the ramp, since that of infinity is the last one. -/
theorem index_lt (hx : x.isNaN = false) : index x < ramp.length := by
  have hlast : index (Binary.infinity false) = 9 := by decide +kernel
  have hle := index_mono (atMost_infinity hx)
  rw [hlast] at hle
  exact Nat.lt_succ_of_le hle

/-! ## Drawings -/

/-- The character stands for the value: the question mark for what is not a number and for nothing
else, and for a number the shade at its place in the ramp. -/
structure Depicts (x : Double) (c : Char) : Prop where
  unknown : c = '?' ↔ x.isNaN = true
  place : x.isNaN = false → ramp[index x]? = some c

theorem ramp_getElem?_index (hx : x.isNaN = false) : ramp[index x]? = some (shade x) := by
  rw [shade, hx, if_neg Bool.false_ne_true, List.getD_eq_getElem?_getD,
    List.getElem?_eq_getElem (index_lt hx)]
  rfl

theorem depicts_shade (x : Double) : Depicts x (shade x) := by
  refine ⟨⟨fun hmark => ?_, fun hx => ?_⟩, ramp_getElem?_index⟩
  · by_contra hx
    have hmem := List.mem_of_getElem? (ramp_getElem?_index (Bool.eq_false_iff.2 hx))
    rw [hmark] at hmem
    exact absurd hmem (by simp [ramp])
  · rw [shade, if_pos hx]

theorem shade_ne_lineFeed (x : Double) : shade x ≠ '\n' := by
  intro hfeed
  cases hx : x.isNaN with
  | true =>
      rw [shade, if_pos hx] at hfeed
      exact absurd hfeed (by decide)
  | false =>
      have hmem := List.mem_of_getElem? (ramp_getElem?_index hx)
      rw [hfeed] at hmem
      exact absurd hmem (by simp [ramp])

/-- The text has a line for each row, with line feeds between the lines, and in it a character for
each value. -/
def Draws (grid : List (List Double)) (text : String) : Prop :=
  ∃ lines : List (List Char), text.toList = ['\n'].intercalate lines ∧
    List.Forall₂ (List.Forall₂ Depicts) grid lines ∧ ∀ line ∈ lines, '\n' ∉ line

theorem draws_draw (grid : List (List Double)) : Draws grid (draw grid) := by
  refine ⟨grid.map fun row => row.map shade, ?_, ?_, ?_⟩
  · rw [draw, String.toList_intercalate, List.map_map]
    simp [Function.comp_def]
  · rw [List.forall₂_map_right_iff, List.forall₂_same]
    intro row _
    rw [List.forall₂_map_right_iff, List.forall₂_same]
    exact fun x _ => depicts_shade x
  · intro line hline hfeed
    obtain ⟨row, -, rfl⟩ := List.mem_map.1 hline
    obtain ⟨x, -, hx⟩ := List.mem_map.1 hfeed
    exact shade_ne_lineFeed x hx

end Shade

/-! ## Samples -/

theorem exists_collect {ε α β : Type} {f : α → Except ε β} {l : List α}
    (h : ∀ a ∈ l, ∃ b, f a = .ok b) :
    ∃ bs, collect f l = .ok bs ∧ List.Forall₂ (fun a b => f a = .ok b) l bs := by
  induction l with
  | nil => exact ⟨[], rfl, .nil⟩
  | cons a l ih =>
      obtain ⟨b, hb⟩ := h a List.mem_cons_self
      obtain ⟨bs, hbs, hrest⟩ := ih fun a' ha' => h a' (List.mem_cons_of_mem _ ha')
      exact ⟨b :: bs, by rw [collect, hb, hbs], .cons hb hrest⟩

/-- Results for the numbers below a bound are collected in order. -/
theorem exists_collect_range {ε β : Type} {f : Nat → Except ε β} {n : Nat}
    (h : ∀ i < n, ∃ b, f i = .ok b) :
    ∃ bs, collect f (List.range n) = .ok bs ∧ bs.length = n ∧
      ∀ (i : Nat) (b : β), bs[i]? = some b → f i = .ok b := by
  obtain ⟨bs, hbs, hall⟩ := exists_collect fun i hi => h i (List.mem_range.1 hi)
  obtain ⟨hlength, hget⟩ := List.forall₂_iff_get.1 hall
  rw [List.length_range] at hlength
  refine ⟨bs, hbs, hlength.symm, fun i b hb => ?_⟩
  obtain ⟨hi, rfl⟩ := List.getElem?_eq_some_iff.1 hb
  simpa using hget i (by simpa [hlength] using hi) hi

namespace Evaluator

/-- The value is that of the program in column `x` and row `y`: at `t` and at the quotients of the
column and the width, and of the row and the height. -/
def IsSample (P : Primitives) (e : Evaluator) (t : Double) (width height : Int) (x y : Nat)
    (value : Double) : Prop :=
  ∃ u v : Double, u.IsQuotient x width.toNat ∧ v.IsQuotient y height.toNat ∧
    e.evaluate P ⟨t, u, v⟩ = .ok value

/-- The grid has as many rows as it is high and as many values in each as it is wide, or none if that
is below zero, and each value is the one of its column and row. -/
structure Samples (P : Primitives) (e : Evaluator) (t : Double) (width height : Int)
    (grid : List (List Double)) : Prop where
  rows : (grid.length : Int) = max 0 height
  columns : ∀ row ∈ grid, (row.length : Int) = max 0 width
  value : ∀ (x y : Nat) (row : List Double) (value : Double), grid[y]? = some row →
    row[x]? = some value → e.IsSample P t width height x y value

/-- A part of a positive whole is their quotient. -/
theorem exists_part (n : Nat) {whole : Int} (h : 0 < whole) :
    ∃ u, part n whole = .ok u ∧ u.IsQuotient n whole.toNat := by
  have hsign : decide (whole < 0) = false := decide_eq_false (by omega)
  have habs : whole.natAbs = whole.toNat := by omega
  refine ⟨Binary.ofRatio false n whole.toNat, ?_, ?_⟩
  · rw [part, if_neg (by omega), hsign, habs]
  · exact Binary.isQuotient_ofRatio (by decide +kernel) (by decide +kernel) n (by omega)

variable {P : Primitives} {e : Evaluator} (t : Double) {width height : Int}

/-- A program that has a value at every point has one in every column and row. -/
theorem exists_valueAt (he : ∀ point, ∃ value, e.evaluate P point = .ok value) {x y : Nat}
    (hx : x < width.toNat) (hy : y < height.toNat) :
    ∃ value, e.valueAt P t width height x y = .ok value ∧
      e.IsSample P t width height x y value := by
  obtain ⟨u, hu, hquotient⟩ := exists_part x (by omega : 0 < width)
  obtain ⟨v, hv, hquotient'⟩ := exists_part y (by omega : 0 < height)
  obtain ⟨value, hvalue⟩ := he ⟨t, u, v⟩
  exact ⟨value, by simp only [valueAt, hu, hv, hvalue], u, v, hquotient, hquotient', hvalue⟩

/-- **Sampling does not fail.** A side of the grid is divided by only where there is a column or a
row, so that it is not zero then. -/
theorem exists_sample (he : ∀ point, ∃ value, e.evaluate P point = .ok value)
    (width height : Int) :
    ∃ grid, e.sample P t width height = .ok grid ∧ e.Samples P t width height grid := by
  have hrow : ∀ y < height.toNat, ∃ row,
      collect (fun x => e.valueAt P t width height x y) (List.range width.toNat) = .ok row := by
    intro y hy
    obtain ⟨row, hrow, -⟩ := exists_collect_range fun x hx =>
      (exists_valueAt t he hx hy).imp fun value h => h.1
    exact ⟨row, hrow⟩
  obtain ⟨grid, hgrid, hrows, hget⟩ := exists_collect_range hrow
  have hcolumns : ∀ (y : Nat) (row : List Double), grid[y]? = some row →
      row.length = width.toNat ∧ ∀ (x : Nat) (value : Double), row[x]? = some value →
        e.IsSample P t width height x y value := by
    intro y row hy
    have hlt : y < height.toNat := by
      rw [← hrows]
      exact (List.getElem?_eq_some_iff.1 hy).1
    obtain ⟨row', hrow', hlength, hvalue⟩ := exists_collect_range fun x hx =>
      (exists_valueAt t he hx hlt).imp fun value h => h.1
    obtain rfl : row' = row := Except.ok.inj (hrow'.symm.trans (hget y row hy))
    refine ⟨hlength, fun x value hx => ?_⟩
    have hxlt : x < width.toNat := by
      rw [← hlength]
      exact (List.getElem?_eq_some_iff.1 hx).1
    obtain ⟨value', hvalue', hsample⟩ := exists_valueAt t he hxlt hlt
    obtain rfl : value' = value := Except.ok.inj (hvalue'.symm.trans (hvalue x value hx))
    exact hsample
  refine ⟨grid, hgrid, ⟨by omega, fun row hmem => ?_, fun x y row value hy => ?_⟩⟩
  · obtain ⟨y, hy⟩ := List.mem_iff_getElem?.1 hmem
    have := (hcolumns y row hy).1
    omega
  · exact (hcolumns y row hy).2 x value

/-- An evaluator with an accepted program has a value at every point. -/
theorem exists_evaluate_of_install (hP : P.FailsOutsideDomain) {before : Evaluator} {p : Program}
    (h : before.install p = .ok e) (point : Point) : ∃ value, e.evaluate P point = .ok value := by
  unfold install at h
  split at h
  next is hcheck =>
    cases h
    obtain ⟨value, hvalue⟩ := Machine.exists_evaluate_of_check hP point hcheck
    exact ⟨value, by simp only [evaluate, hvalue]⟩
  next => cases h

/-- **Previews are total, and brighter for larger values.** A program that was installed is sampled
on a grid of any sides, positive or not: no division by a side fails, there are as many rows and
columns as the sides say, and each value is that of the program at its column and row. Any grid of
doubles is drawn with a line for each row and a character for each value, which is the question mark
just for what is not a number; for a number the place in the ramp is the whole number nearest to
nine times the clamped value, and it is always one of the ramp. Of two numbers the larger one has no
earlier place. -/
theorem preview_is_total (P : Primitives) (hP : P.FailsOutsideDomain) (before e : Evaluator)
    (p : Program) (hinstall : before.install p = .ok e) (t : Double) (width height : Int) :
    (∃ grid, e.sample P t width height = .ok grid ∧ e.Samples P t width height grid) ∧
    (∀ grid : List (List Double), Shade.Draws grid (Shade.draw grid)) ∧
    (∀ x : Double, x.isNaN = false → Shade.index x < Shade.ramp.length ∧
      ((Shade.clamp x).mul (Binary.ofNat 9)).IsNearestWhole (Shade.index x)) ∧
    ∀ a b : Double, a.AtMost b → Shade.index a ≤ Shade.index b := by
  refine ⟨exists_sample t (exists_evaluate_of_install hP hinstall) width height,
    Shade.draws_draw, fun x hx => ?_, fun a b => Shade.index_mono⟩
  exact ⟨Shade.index_lt hx, Shade.isNearestWhole_index hx⟩

/-- The sum of `u` and `v` on a grid of three columns and two rows, and the shades of infinity and of a
negative zero. -/
theorem preview_is_total_sum :
    let p : Program := ⟨[0x100000001, 0x200000001, 4]⟩
    let e : Evaluator := ⟨some ⟨p, [.load 1, .load 2, .apply (.binary .add)]⟩, 1⟩
    let t : Double := Binary.notANumber false
    let zero : Double := Binary.zero true
    Primitives.standard.FailsOutsideDomain ∧ empty.install p = .ok e ∧
      (∃ grid, e.sample .standard t 3 2 = .ok grid ∧ e.Samples .standard t 3 2 grid) ∧
      zero.isNaN = false ∧ Shade.index zero < Shade.ramp.length ∧
      zero.AtMost (Binary.infinity false) ∧
      Shade.index zero ≤ Shade.index (Binary.infinity false) := by
  intro p e t zero
  have hinstall : empty.install p = .ok e := rfl
  have horder : zero.AtMost (Binary.infinity false) := .inl (by decide +kernel)
  obtain ⟨hgrid, -, hindex, hmono⟩ := preview_is_total .standard
    Primitives.standard_failsOutsideDomain empty e p hinstall t 3 2
  exact ⟨Primitives.standard_failsOutsideDomain, hinstall, hgrid, rfl, (hindex zero rfl).1, horder,
    hmono _ _ horder⟩

end Evaluator

end LiveFormula
