import Mathlib.Algebra.Order.Field.Power
import Mathlib.Data.Nat.Cast.Order.Field
import Mathlib.Tactic.FieldSimp
import Mathlib.Tactic.Linarith
import Mathlib.Tactic.NormNum
import Mathlib.Tactic.Positivity
import Mathlib.Tactic.Ring
import Dashboard.Proofs.Numeric.Rounding

/-!
# Exact values

`Decimal.value` is the number that a decimal stands for. The double nearest to it is off by at most
half a unit or one part in `2 ^ 53` (`abs_roundUnits_sub_le`), and it is finite exactly for numbers
below `finiteBound` (`nearest_isFinite_iff`).
-/

namespace Dashboard.Numeric

theorem roundDiv_near {n d : Nat} (positive : 0 < d) :
    2 * (roundDiv n d * d) ≤ 2 * n + d ∧ 2 * n ≤ 2 * (roundDiv n d * d) + d := by
  have split := Nat.div_add_mod n d
  have rest := Nat.mod_lt n positive
  rw [Nat.mul_comm] at split
  unfold roundDiv
  split
  · rw [Nat.add_mul]
    omega
  · omega

/-- A quotient is moved by at most half of its last place. -/
theorem roundUnits_near {n d : Nat} (positive : 0 < d) :
    2 * (roundUnits n d * d) ≤ 2 * n + d * lastPlace (n / d) ∧
      2 * n ≤ 2 * (roundUnits n d * d) + d * lastPlace (n / d) := by
  have regroup : roundUnits n d * d =
      roundDiv n (d * lastPlace (n / d)) * (d * lastPlace (n / d)) := by
    rw [roundUnits]
    ring
  rw [regroup]
  exact roundDiv_near (Nat.mul_pos positive (lastPlace_pos _))

theorem lastPlace_le (n : Nat) : lastPlace n * 2 ^ 52 ≤ n + 2 ^ 52 := by
  rw [lastPlace, Nat.pow_eq, ← Nat.pow_add]
  rcases Nat.le_total 52 n.log2 with coarse | fine
  · rw [Nat.sub_add_cancel coarse]
    have nonzero : n ≠ 0 := by
      rintro rfl
      rw [Nat.log2_zero] at coarse
      omega
    exact Nat.le_trans (Nat.log2_self_le nonzero) (Nat.le_add_right ..)
  · rw [Nat.sub_eq_zero_of_le fine, Nat.zero_add]
    exact Nat.le_add_left ..

/-- A quotient is moved by at most half a unit and one part in `2 ^ 53`. -/
theorem abs_roundUnits_sub_le (n : Nat) {d : Nat} (positive : 0 < d) :
    |(roundUnits n d : ℚ) - n / d| ≤ n / d / 2 ^ 53 + 1 / 2 := by
  have hd : (0 : ℚ) < d := by exact_mod_cast positive
  obtain ⟨above, below⟩ := roundUnits_near (n := n) positive
  have place := lastPlace_le (n / d)
  have floor : ((n / d : Nat) : ℚ) ≤ n / d := Nat.cast_div_le
  have above' : (2 * (roundUnits n d * d) : ℚ) ≤ 2 * n + d * lastPlace (n / d) := by
    exact_mod_cast above
  have below' : (2 * n : ℚ) ≤ 2 * (roundUnits n d * d) + d * lastPlace (n / d) := by
    exact_mod_cast below
  have place' : (lastPlace (n / d) * 2 ^ 52 : ℚ) ≤ (n / d : Nat) + 2 ^ 52 := by exact_mod_cast place
  have exact : (n : ℚ) = n / d * d := by field_simp
  generalize (n / d : ℚ) = x at *
  rw [abs_sub_le_iff]
  constructor <;> refine le_of_mul_le_mul_right ?_ hd <;> nlinarith

/-! ### Where doubles end -/

/-- The middle between the largest double and `2 ^ 1024`, the first number that is rounded to an
infinity. -/
@[irreducible] def finiteBound : Nat :=
  (2 ^ 54 - 1) * 2 ^ 970

/-- The last place of the largest doubles, in units. -/
@[irreducible] def coarsestPlace : Nat :=
  Nat.pow 2 2045

theorem log2_lt_of_lt {n k : Nat} (positive : 0 < k) (small : n < Nat.pow 2 k) : n.log2 < k := by
  rcases Nat.eq_zero_or_pos n with rfl | some
  · rwa [Nat.log2_zero]
  · exact (Nat.log2_lt (Nat.ne_of_gt some)).mpr small

theorem lastPlace_le_of_lt {n : Nat} (bounded : n < unitLimit) : lastPlace n ≤ coarsestPlace := by
  unfold unitLimit at bounded
  have log := log2_lt_of_lt (by decide) bounded
  have exponent : n.log2 - 52 ≤ 2045 := by omega
  unfold lastPlace coarsestPlace
  -- The exponent stays a variable, or the power would be computed.
  generalize 2045 = k at *
  exact Nat.pow_le_pow_right (by decide) exponent

theorem finiteBound_units :
    2 * (finiteBound * Binary64.unitsPerOne) + coarsestPlace = 2 * unitLimit ∧
      unitLimit ≤ roundUnits (finiteBound * Binary64.unitsPerOne) 1 := by
  decide +kernel

theorem roundUnits_lt_iff {n d : Nat} (positive : 0 < d) :
    roundUnits (n * Binary64.unitsPerOne) d < unitLimit ↔ n < finiteBound * d := by
  obtain ⟨middle, reached⟩ := finiteBound_units
  constructor
  · intro bounded
    by_contra large
    have le : finiteBound * Binary64.unitsPerOne * d ≤ n * Binary64.unitsPerOne := by
      rw [Nat.mul_right_comm]
      exact Nat.mul_le_mul_right _ (Nat.le_of_not_lt large)
    have rounded := roundUnits_mono le d
    have same := roundUnits_mul_right (finiteBound * Binary64.unitsPerOne) 1 positive
    rw [Nat.one_mul] at same
    rw [same] at rounded
    omega
  · intro small
    have less : n * Binary64.unitsPerOne < finiteBound * Binary64.unitsPerOne * d := by
      rw [Nat.mul_right_comm]
      exact Nat.mul_lt_mul_of_pos_right small Binary64.unitsPerOne_pos
    have quotient : n * Binary64.unitsPerOne / d < unitLimit := by
      have below := (Nat.div_lt_iff_lt_mul positive).mpr less
      omega
    have above := (roundUnits_near (n := n * Binary64.unitsPerOne) positive).1
    have place := Nat.mul_le_mul_left d (lastPlace_le_of_lt quotient)
    have bound : 2 * (finiteBound * Binary64.unitsPerOne * d) + d * coarsestPlace =
        2 * (unitLimit * d) := by
      calc
        _ = (2 * (finiteBound * Binary64.unitsPerOne) + coarsestPlace) * d := by ring
        _ = _ := by rw [middle, Nat.mul_assoc]
    refine Nat.lt_of_mul_lt_mul_right (a := d) ?_
    omega

namespace Decimal

def size (x : Decimal) : ℚ :=
  x.digits * 10 ^ x.exponent

def value (x : Decimal) : ℚ :=
  if x.negative then -x.size else x.size

theorem size_nonneg (x : Decimal) : 0 ≤ x.size := by
  unfold size
  positivity

theorem abs_value (x : Decimal) : |x.value| = x.size := by
  unfold value
  split
  · rw [abs_neg, abs_of_nonneg x.size_nonneg]
  · exact abs_of_nonneg x.size_nonneg

theorem size_eq (x : Decimal) :
    x.size = ((x.digits * Nat.pow 10 x.exponent.toNat : Nat) : ℚ) /
      (Nat.pow 10 (-x.exponent).toNat : Nat) := by
  have ten : (10 : ℚ) ≠ 0 := by norm_num
  have exponent : x.exponent = x.exponent.toNat - (-x.exponent).toNat := by omega
  rw [size]
  conv_lhs => rw [exponent]
  rw [zpow_sub₀ ten, zpow_natCast, zpow_natCast]
  push_cast [Nat.pow_eq]
  ring

theorem nearest_isFinite_iff (x : Decimal) :
    x.nearest.isFinite = true ↔ |x.value| < finiteBound := by
  have positive : 0 < Nat.pow 10 (-x.exponent).toNat := Nat.pow_pos (by decide)
  have bounded := roundUnits_lt_iff (n := x.digits * Nat.pow 10 x.exponent.toNat) positive
  rw [abs_value, size_eq, div_lt_iff₀ (by exact_mod_cast positive), nearest_eq,
    Binary64.ofQuotient, Binary64.ofUnits]
  norm_cast
  rw [← bounded]
  split
  · next small => exact iff_of_true rfl small
  · next large => exact iff_of_false Bool.false_ne_true large

/-- Decimals of the same size and sign are rounded alike. -/
theorem nearest_of_size {d : Decimal} {n m : Nat} (positive : 0 < m)
    (size : d.size = n / m) : d.nearest = .ofQuotient d.negative n m := by
  have power : 0 < Nat.pow 10 (-d.exponent).toNat := Nat.pow_pos (by decide)
  rw [size_eq, div_eq_div_iff (by positivity) (by positivity)] at size
  have cross : d.digits * Nat.pow 10 d.exponent.toNat * m = n * Nat.pow 10 (-d.exponent).toNat := by
    exact_mod_cast size
  rw [nearest_eq, Binary64.ofQuotient, Binary64.ofQuotient, ← Binary64.ofUnits_mul_right _ _ _ positive,
    ← Binary64.ofUnits_mul_right _ _ m power]
  congr 1
  · calc
      _ = d.digits * Nat.pow 10 d.exponent.toNat * m * Binary64.unitsPerOne := by ring
      _ = _ := by rw [cross]; ring
  · ring

/-! ### Shifted decimals -/

def scaled (n : ℤ) (places : Nat) : Decimal where
  negative := n < 0
  digits := n.natAbs
  exponent := -places

theorem size_scaled (n : ℤ) (places : Nat) : (scaled n places).size = |(n : ℚ)| / 10 ^ places := by
  rw [size, scaled, Nat.cast_natAbs, Int.cast_abs, zpow_neg, zpow_natCast, div_eq_mul_inv]

theorem value_scaled (n : ℤ) (places : Nat) : (scaled n places).value = n / 10 ^ places := by
  have sign : (scaled n places).negative = true ↔ n < 0 := decide_eq_true_iff
  rw [value, size_scaled, ← neg_div]
  split
  · next negative =>
    have below : (n : ℚ) < 0 := by exact_mod_cast sign.mp negative
    rw [abs_of_neg below, neg_neg]
  · next nonneg =>
    have above : (0 : ℚ) ≤ n := by exact_mod_cast not_lt.mp (mt sign.mpr nonneg)
    rw [abs_of_nonneg above]

theorem size_shift (d : Decimal) (places : ℤ) : (d.shift places).size = d.size * 10 ^ places := by
  rw [size, size, shift, zpow_add₀ (by norm_num), mul_assoc]

theorem value_shift (d : Decimal) (places : ℤ) :
    (d.shift places).value = d.value * 10 ^ places := by
  have sign : (d.shift places).negative = d.negative := rfl
  rw [value, value, size_shift, sign]
  split
  · rw [neg_mul]
  · rfl

theorem nearest_congr {c d : Decimal} (sign : c.negative = d.negative) (size : c.size = d.size) :
    c.nearest = d.nearest := by
  have power : 0 < Nat.pow 10 (-d.exponent).toNat := Nat.pow_pos (by decide)
  rw [nearest_of_size power (size.trans d.size_eq), sign, nearest_eq]

end Decimal

end Dashboard.Numeric
