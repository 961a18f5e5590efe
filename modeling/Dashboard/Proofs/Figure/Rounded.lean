import Dashboard.Figure.Abbreviated
import Dashboard.Proofs.Numeric.HalfUp
import Dashboard.Proofs.Numeric.Shortest

/-!
# Numbers rounded half up

The decimal point is shifted exactly, but one half is added to the double nearest to the shifted
number. `roundHalfUp_exact_iff` tells for which numbers that is the double nearest to the decimal
rounded half up: for those that are not lifted, as long as doubles still have halves. Numbers of at
most 15 digits never are (`not_lifted_of_few_digits`).
-/

namespace Dashboard.Figure

open Numeric Binary64

variable {x : Binary64} {d : Decimal} {places : Nat}

/-- The number in terms of the last place that is kept. -/
def shifted (d : Decimal) (places : Nat) : ℚ :=
  d.value * 10 ^ places

/-- The number with its places rounded half up, in terms of the last place that is kept. -/
def halfUp (d : Decimal) (places : Nat) : ℤ :=
  ⌊shifted d places + 1 / 2⌋

theorem value_shifted (shortest : x.shortest? = some d)
    (isFinite : (x.shift places).isFinite = true) :
    (x.shift places).value = rounded (shifted d places) := by
  rw [shift_of_shortest? shortest] at isFinite ⊢
  rw [Decimal.value_nearest isFinite, Decimal.value_shift, zpow_natCast]
  rfl

theorem value_floor_shifted (shortest : x.shortest? = some d)
    (isFinite : (x.shift places).isFinite = true) :
    (x.shift places + half).floor.isFinite = true ∧
      (x.shift places + half).floor.value = ⌊rounded (rounded (shifted d places) + 1 / 2)⌋ := by
  have sum := isFinite_add_half isFinite
  obtain ⟨finite, value⟩ := value_floor sum
  rw [value_add sum, value_half, value_shifted shortest isFinite] at value
  exact ⟨finite, value⟩

/-- A whole number below `2 ^ 53` is shifted back exactly. -/
theorem roundHalfUp_of_floor {n : ℤ}
    (isFinite : (x.shift places + half).floor.isFinite = true)
    (whole : (x.shift places + half).floor.value = n) (small : |n| < 2 ^ 53) :
    roundHalfUp x places = (Decimal.scaled n places).nearest := by
  obtain ⟨negative, m, floor⟩ := exists_finite isFinite
  obtain ⟨c, shortest⟩ := exists_shortest? isFinite
  have value := value_shortest_of_whole whole small shortest
  have sign : c.negative = decide (n < 0) := by
    have minus := floor_add_half_sign floor
    rw [whole] at minus
    rw [floor] at shortest
    rw [sign_of_shortest? shortest, minus]
    exact decide_eq_decide.mpr Int.cast_lt_zero
  rw [roundHalfUp, shift_of_shortest? shortest]
  refine Decimal.nearest_congr sign ?_
  rw [Decimal.size_shift, Decimal.size_scaled, ← Decimal.abs_value, value, zpow_neg, zpow_natCast,
    div_eq_mul_inv]

theorem ten_pow_lt_unitsPerOne (few : places ≤ 22) : 10 ^ places * 2 ^ 53 < unitsPerOne := by
  have room : Nat.pow 10 22 * 2 ^ 53 < unitsPerOne := by decide +kernel
  exact Nat.lt_of_le_of_lt (Nat.mul_le_mul_right _ (Nat.pow_le_pow_right (by decide) few)) room

theorem half_unit_le (few : places ≤ 22) :
    (1 / 2 / unitsPerOne : ℚ) ≤ 1 / 2 ∧ (1 / 2 / unitsPerOne : ℚ) * 10 ^ places ≤ 1 / 2 := by
  have units := cast_unitsPerOne_pos
  have room : (10 ^ places * 2 ^ 53 : ℚ) < unitsPerOne := by
    exact_mod_cast ten_pow_lt_unitsPerOne few
  have power : (1 : ℚ) ≤ 10 ^ places := one_le_pow₀ (by norm_num)
  rw [div_mul_eq_mul_div, div_le_iff₀ units, div_le_iff₀ units]
  constructor <;> linarith

theorem scaled_isFinite (places : Nat) {n : ℤ} (small : |n| ≤ 2 ^ 52) :
    (Decimal.scaled n places).nearest.isFinite = true := by
  have room : 2 ^ 52 < finiteBound := by decide +kernel
  have power : (1 : ℚ) ≤ 10 ^ places := one_le_pow₀ (by norm_num)
  rw [Decimal.nearest_isFinite_iff, Decimal.abs_value, Decimal.size_scaled]
  have size : |(n : ℚ)| ≤ (2 ^ 52 : ℤ) := by exact_mod_cast small
  calc |(n : ℚ)| / 10 ^ places ≤ |(n : ℚ)| := div_le_self (abs_nonneg _) power
    _ ≤ (2 ^ 52 : ℤ) := size
    _ < finiteBound := by exact_mod_cast room

/-- Neighbouring multiples of the last place are different doubles. -/
theorem scaled_ne (few : places ≤ 22) {n : ℤ} (least : -2 ^ 52 ≤ n) (below : n < 2 ^ 52) :
    (Decimal.scaled n places).nearest ≠ (Decimal.scaled (n + 1) places).nearest := by
  intro same
  have finite := scaled_isFinite places (n := n) (by rw [abs_le]; omega)
  have finite' := scaled_isFinite places (n := n + 1) (by rw [abs_le]; omega)
  have values := congrArg Binary64.value same
  rw [Decimal.value_nearest finite, Decimal.value_nearest finite', Decimal.value_scaled,
    Decimal.value_scaled, Int.cast_add, Int.cast_one] at values
  have near := abs_le.mp (abs_rounded_sub_le (n / 10 ^ places))
  have near' := abs_le.mp (abs_rounded_sub_le ((n + 1) / 10 ^ places))
  rw [values] at near
  have positive : (0 : ℚ) < 10 ^ places := by positivity
  rw [abs_div, abs_of_pos positive] at near near'
  have sizes : |(n : ℚ)| + |(n + 1 : ℚ)| ≤ 2 ^ 53 - 1 := by
    have whole : |n| + |n + 1| ≤ 2 ^ 53 - 1 := by
      rcases abs_cases n with ⟨left, _⟩ | ⟨left, _⟩ <;>
        rcases abs_cases (n + 1) with ⟨right, _⟩ | ⟨right, _⟩ <;> rw [left, right] <;> omega
    exact_mod_cast whole
  have units := cast_unitsPerOne_pos
  have fine : 10 ^ places * (1 / unitsPerOne) < 1 / (2 : ℚ) ^ 53 := by
    have room : (10 ^ places * 2 ^ 53 : ℚ) < unitsPerOne := by
      exact_mod_cast ten_pow_lt_unitsPerOne few
    rw [← mul_div_assoc, mul_one, div_lt_div_iff₀ units (by positivity)]
    linarith
  have apart : (n + 1 : ℚ) / 10 ^ places - n / 10 ^ places ≤
      |(n + 1 : ℚ)| / 10 ^ places / 2 ^ 53 + |(n : ℚ)| / 10 ^ places / 2 ^ 53 + 1 / unitsPerOne := by
    have halves : (1 / 2 / unitsPerOne : ℚ) + 1 / 2 / unitsPerOne = 1 / unitsPerOne := by ring
    linarith
  have scaled := mul_le_mul_of_nonneg_left apart positive.le
  have clear : 10 ^ places * ((n + 1 : ℚ) / 10 ^ places - n / 10 ^ places) = 1 := by
    field_simp
    ring
  have clear' : 10 ^ places * (|(n + 1 : ℚ)| / 10 ^ places / 2 ^ 53 +
      |(n : ℚ)| / 10 ^ places / 2 ^ 53 + 1 / unitsPerOne) =
      (|(n + 1 : ℚ)| + |(n : ℚ)|) / 2 ^ 53 + 10 ^ places * (1 / unitsPerOne) := by
    field_simp
  rw [clear, clear'] at scaled
  linarith

/-! ### The rounded number -/

theorem roundHalfUp_isFinite (isFinite : (x.shift places).isFinite = true) :
    (roundHalfUp x places).isFinite = true := by
  have whole := (value_floor (isFinite_add_half isFinite)).1
  obtain ⟨c, shortest⟩ := exists_shortest? whole
  have read := nearest_of_shortest? shortest
  have bounded : |c.value| < finiteBound := by
    rw [← Decimal.nearest_isFinite_iff, read]
    exact whole
  rw [roundHalfUp, shift_of_shortest? shortest, Decimal.nearest_isFinite_iff, Decimal.value_shift,
    abs_mul, zpow_neg, zpow_natCast]
  have power : |((10 : ℚ) ^ places)⁻¹| ≤ 1 := by
    rw [abs_of_nonneg (by positivity)]
    exact inv_le_one_of_one_le₀ (one_le_pow₀ (by norm_num))
  exact (mul_le_of_le_one_right (abs_nonneg _) power).trans_lt bounded

/-- What becomes of a number that is rounded half up to some places. -/
structure RoundedHalfUp (d : Decimal) (places : Nat) (y : Binary64) : Prop where
  finite : y.isFinite = true
  exact : |shifted d places| < 2 ^ 52 - 1 / 2 →
    (y = (Decimal.scaled (halfUp d places) places).nearest ↔ ¬Lifted (shifted d places))
  lifted : |shifted d places| < 2 ^ 52 - 1 / 2 → Lifted (shifted d places) →
    y = (Decimal.scaled (halfUp d places + 1) places).nearest
  near : 2 ^ 52 - 1 / 2 ≤ |shifted d places| → |y.value - d.value| ≤ |d.value| / 2 ^ 49

theorem roundHalfUp_of_small (shortest : x.shortest? = some d)
    (isFinite : (x.shift places).isFinite = true) (small : |shifted d places| < 2 ^ 52 - 1 / 2) :
    roundHalfUp x places = (Decimal.scaled
      (halfUp d places + if Lifted (shifted d places) then 1 else 0) places).nearest := by
  obtain ⟨finite, value⟩ := value_floor_shifted shortest isFinite
  have size : -2 ^ 52 < halfUp d places ∧ halfUp d places < 2 ^ 52 :=
    abs_lt.mp (abs_floor_add_half_lt small)
  rw [floor_halfUp small] at value
  refine roundHalfUp_of_floor finite value ?_
  rw [abs_lt]
  split <;> omega

/-- A number of `2 ^ 52` last places or more: each step is off by one part in `2 ^ 53`, by one half
or by one. -/
theorem steps_near {s t u f c r scale unit : ℚ} (large : 2 ^ 52 - 1 / 2 ≤ |s|) (small : unit ≤ 1 / 2)
    (positive : 0 < scale) (last : unit * scale ≤ 1 / 2) (shift : |t - s| ≤ |s| / 2 ^ 53 + unit)
    (sum : |u - (t + 1 / 2)| ≤ |t + 1 / 2| / 2 ^ 53 + unit) (floor : |f - u| ≤ 1)
    (short : |f - c| ≤ |c| / 2 ^ 53 + unit)
    (back : |r - c / scale| ≤ |c / scale| / 2 ^ 53 + unit) :
    |r - s / scale| ≤ |s / scale| / 2 ^ 49 := by
  have half : |(t + 1 / 2) - s| ≤ |t - s| + 1 / 2 := by
    have split : (t + 1 / 2) - s = (t - s) + 1 / 2 := by ring
    rw [split]
    exact (abs_add_le _ _).trans_eq (by norm_num)
  have grown : |t + 1 / 2| ≤ |(t + 1 / 2) - s| + |s| := by
    have split : t + 1 / 2 = ((t + 1 / 2) - s) + s := by ring
    conv_lhs => rw [split]
    exact abs_add_le _ _
  have whole : |f - s| ≤ 9 * |s| / 2 ^ 53 := by
    have left := abs_sub_le f u s
    have right := abs_sub_le u (t + 1 / 2) s
    linarith
  have size : |c| ≤ |f - c| + |f - s| + |s| := by
    have split : c = -(f - c) + (f - s) + s := by ring
    conv_lhs => rw [split]
    refine (abs_add_le _ _).trans (add_le_add_left ((abs_add_le _ _).trans_eq ?_) _)
    rw [abs_neg]
  have scaled : |r * scale - c| ≤ |c| / 2 ^ 53 + 1 / 2 := by
    have error := mul_le_mul_of_nonneg_right back positive.le
    rw [← abs_of_pos positive, ← abs_mul, abs_of_pos positive, sub_mul, div_mul_cancel₀ _ positive.ne',
      add_mul, div_mul_eq_mul_div, abs_div, abs_of_pos positive, div_mul_cancel₀ _ positive.ne'] at error
    linarith
  have total : |r * scale - s| ≤ |s| / 2 ^ 49 := by
    have left := abs_sub_le (r * scale) c s
    have right := abs_sub_le c f s
    rw [abs_sub_comm c f] at right
    linarith
  have unscale : r - s / scale = (r * scale - s) / scale := by
    field_simp
  rw [unscale, abs_div, abs_div, abs_of_pos positive, div_right_comm]
  gcongr

theorem roundHalfUp_near (shortest : x.shortest? = some d) (few : places ≤ 22)
    (isFinite : (x.shift places).isFinite = true) (large : 2 ^ 52 - 1 / 2 ≤ |shifted d places|) :
    |(roundHalfUp x places).value - d.value| ≤ |d.value| / 2 ^ 49 := by
  obtain ⟨finite, value⟩ := value_floor_shifted shortest isFinite
  obtain ⟨c, short⟩ := exists_shortest? finite
  have whole := (rounded_shortest short).trans value
  have result : (roundHalfUp x places).value = rounded (c.value / 10 ^ places) := by
    have bounded := roundHalfUp_isFinite isFinite
    rw [roundHalfUp, shift_of_shortest? short] at bounded ⊢
    rw [Decimal.value_nearest bounded, Decimal.value_shift, zpow_neg, zpow_natCast, div_eq_mul_inv]
  have scale : (0 : ℚ) < 10 ^ places := by positivity
  have back : d.value = shifted d places / 10 ^ places := by
    rw [shifted, mul_div_cancel_right₀ _ scale.ne']
  obtain ⟨half, last⟩ := half_unit_le few
  have floor : |(⌊rounded (rounded (shifted d places) + 1 / 2)⌋ : ℚ) -
      rounded (rounded (shifted d places) + 1 / 2)| ≤ 1 := by
    have floor_le := Int.floor_le (rounded (rounded (shifted d places) + 1 / 2))
    have lt_floor := Int.lt_floor_add_one (rounded (rounded (shifted d places) + 1 / 2))
    rw [abs_le]
    constructor <;> linarith
  rw [result, back]
  refine steps_near large half scale last (abs_rounded_sub_le _) (abs_rounded_sub_le _) floor ?_
    (abs_rounded_sub_le _)
  rw [← whole]
  exact abs_rounded_sub_le _

/-- Numbers of at most 15 digits are not lifted. -/
theorem not_lifted_of_few_digits (few : d.digits < 10 ^ 15)
    (small : |shifted d places| < 2 ^ 52 - 1 / 2) : ¬Lifted (shifted d places) := by
  obtain ⟨n, digits, value⟩ : ∃ n : ℤ, |n| < 10 ^ 15 ∧ d.value = n * 10 ^ d.exponent := by
    have digits : |(d.digits : ℤ)| < 10 ^ 15 := by
      rw [Nat.abs_cast]
      exact_mod_cast few
    unfold Decimal.value Decimal.size
    split
    · exact ⟨-d.digits, by rwa [abs_neg], by push_cast; ring⟩
    · exact ⟨d.digits, digits, rfl⟩
  have shift : shifted d places = n * 10 ^ (d.exponent + places) := by
    rw [shifted, value, zpow_add₀ (by norm_num), zpow_natCast, mul_assoc]
  rw [shift] at small ⊢
  rcases lt_or_ge (d.exponent + places) 0 with fraction | whole
  · obtain ⟨k, exponent⟩ : ∃ k : Nat, d.exponent + places = -((k + 1 : Nat) : ℤ) :=
      ⟨(-(d.exponent + places) - 1).toNat, by omega⟩
    have step : (0 : ℚ) < 10 ^ (d.exponent + places) := by positivity
    have size : (|n| : ℚ) ≤ 2 ^ 50 := by
      have room : |n| ≤ 2 ^ 50 := digits.le.trans (by decide)
      exact_mod_cast room
    refine not_lifted_of_steps step ?_
      ⟨⌊(n * 10 ^ (d.exponent + places) + 1 / 2 : ℚ)⌋ * 10 ^ (k + 1) + 5 * 10 ^ k - n, ?_⟩
    · rw [abs_mul, abs_of_pos step]
      exact mul_le_mul_of_nonneg_right size step.le
    · generalize ⌊(n * 10 ^ (d.exponent + places) + 1 / 2 : ℚ)⌋ = m
      rw [exponent, zpow_neg, zpow_natCast]
      push_cast
      field_simp
      ring
  · obtain ⟨k, exponent⟩ := Int.eq_ofNat_of_zero_le whole
    have integer : (n * 10 ^ (d.exponent + places) : ℚ) = (n * 10 ^ k : ℤ) := by
      rw [exponent, zpow_natCast]
      push_cast
      rfl
    rw [integer] at small ⊢
    refine not_lifted_of_whole ?_
    have below : ((|n * 10 ^ k| : ℤ) : ℚ) < (2 ^ 52 : ℤ) := by
      push_cast at small ⊢
      linarith
    have below' : |n * 10 ^ k| < 2 ^ 52 := by exact_mod_cast below
    omega

/-- A double is rounded half up on its shortest decimal if and only if that is not lifted. -/
theorem roundHalfUp_exact_iff (shortest : x.shortest? = some d) (few : places ≤ 22)
    (isFinite : (x.shift places).isFinite = true) :
    RoundedHalfUp d places (roundHalfUp x places) := by
  refine ⟨roundHalfUp_isFinite isFinite, fun small => ?_, fun small lifted => ?_,
    roundHalfUp_near shortest few isFinite⟩
  · have size := abs_lt.mp (abs_floor_add_half_lt small)
    rw [roundHalfUp_of_small shortest isFinite small]
    split
    · next lifted =>
      refine iff_of_false (Ne.symm (scaled_ne few ?_ ?_)) (not_not.mpr lifted)
      · exact size.1.le
      · exact size.2
    · next unlifted => rw [add_zero, iff_true_intro unlifted, iff_true]
  · rw [roundHalfUp_of_small shortest isFinite small, if_pos lifted]

/-- The tie `1.005`, whose double is below it, is not lifted and rounded up. -/
theorem roundHalfUp_exact_iff_1005 :
    (Decimal.nearest { digits := 1005, exponent := -3 }).shortest? =
        some { digits := 1005, exponent := -3 } ∧
      ((Decimal.nearest { digits := 1005, exponent := -3 }).shift (2 : Nat)).isFinite = true ∧
      roundHalfUp (Decimal.nearest { digits := 1005, exponent := -3 }) 2 =
        Decimal.nearest { digits := 101, exponent := -2 } := by
  have shortest : (Decimal.nearest { digits := 1005, exponent := -3 }).shortest? =
      some { digits := 1005, exponent := -3 } := by decide +kernel
  have isFinite : ((Decimal.nearest { digits := 1005, exponent := -3 }).shift (2 : Nat)).isFinite =
      true := by decide +kernel
  refine ⟨shortest, isFinite, ?_⟩
  have small : |shifted { digits := 1005, exponent := -3 } 2| < 2 ^ 52 - 1 / 2 := by decide +kernel
  rw [((roundHalfUp_exact_iff shortest (by decide) isFinite).exact small).mpr
    (not_lifted_of_few_digits (by decide) small)]
  decide +kernel

/-- The double `-22517998136852.496` is lifted to the tie above it, when its point is shifted. -/
theorem roundHalfUp_lifts :
    (Decimal.nearest { negative := true, digits := 22517998136852496, exponent := -3 }).shortest? =
        some { negative := true, digits := 22517998136852496, exponent := -3 } ∧
      halfUp { negative := true, digits := 22517998136852496, exponent := -3 } 2 =
        -2251799813685250 ∧
      roundHalfUp (Decimal.nearest
          { negative := true, digits := 22517998136852496, exponent := -3 }) 2 =
        (Decimal.scaled (-2251799813685249) 2).nearest ∧
      (Decimal.scaled (-2251799813685249) 2).nearest ≠
        (Decimal.scaled (-2251799813685250) 2).nearest := by
  decide +kernel

end Dashboard.Figure
