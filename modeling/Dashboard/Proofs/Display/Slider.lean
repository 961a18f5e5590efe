import Mathlib.Data.Rat.Floor
import Dashboard.Proofs.Display.Percent
import Dashboard.Proofs.Reading

/-!
# Sliders of written levels

A level is written as a decimal. It is rounded to a double, a hundred times the double is rounded
again, and the fraction is cut off. `slider_of_written` tells how far the percent is from a hundred
times what was written: three of the levels `n / 100` fall below `n`.
-/

namespace Dashboard

open Numeric

namespace Numeric

namespace Binary64

variable {n : Nat} (small : n < UInt32.size)
include small

theorem finite_mul_ofNat (negative : Bool) (x : Magnitude) :
    finite negative x * ofNat n = ofUnits negative (x.units * n) 1 := by
  obtain ⟨y, factor, units⟩ := ofNat_eq_finite small
  have same := ofUnits_mul_right negative (x.units * n) 1 unitsPerOne_pos
  rw [Nat.mul_assoc, Nat.one_mul, ← units] at same
  rw [factor, ← same]
  cases negative <;> rfl

theorem infinity_mul_ofNat (positive : 0 < n) (negative : Bool) :
    infinity negative * ofNat n = infinity negative := by
  obtain ⟨y, factor, units⟩ := ofNat_eq_finite small
  have nonzero : y.units ≠ 0 := units ▸ Nat.ne_of_gt (Nat.mul_pos positive unitsPerOne_pos)
  rw [factor]
  show mul _ _ = _
  rw [mul, if_neg nonzero]
  cases negative <;> rfl

/-- Which whole numbers are at most a double is told by the units it is rounded to. -/
theorem ofNat_le_ofUnits (m d : Nat) :
    (ofNat n).le (ofUnits false m d) = true ↔ n * unitsPerOne ≤ roundUnits m d := by
  unfold ofUnits
  split
  · rw [le_iff (position?_ofNat small) rfl]
    exact Int.ofNat_le
  · next large =>
    rw [ofNat_le_infinity small]
    have limit := Nat.mul_lt_mul_of_pos_right small unitsPerOne_pos
    exact iff_of_true rfl (by have := size_mul_unitsPerOne_le; omega)

theorem not_ofNat_le_negative (positive : 0 < n) (m d : Nat) :
    ¬(ofNat n).le (ofUnits true m d) = true := by
  unfold ofUnits
  split
  · rw [ofNat_le_finite small positive]
    exact fun both => Bool.noConfusion both.1
  · rw [ofNat_le_infinity small]
    exact Bool.noConfusion

end Binary64

end Numeric

/-! ### How far the percent is off -/

theorem percentOf_eq_zero {level : Binary64}
    (low : ∀ n, 0 < n → n < UInt32.size → ¬(Binary64.ofNat n).le (level * .ofNat 100) = true) :
    percentOf level = 0 := by
  rcases (le_percentOf_iff level _).mp le_rfl with zero | ⟨small, le⟩
  · exact UInt32.toNat_inj.mp zero
  · by_contra nonzero
    have positive : 0 < (percentOf level).toNat :=
      Nat.pos_of_ne_zero fun zero => nonzero (UInt32.toNat_inj.mp zero)
    exact low _ positive small le

theorem percentOf_negative (m d : Nat) : percentOf (.ofUnits true m d) = 0 := by
  refine percentOf_eq_zero fun n positive small => ?_
  rw [Binary64.ofUnits]
  split
  · rw [Binary64.finite_mul_ofNat (by decide)]
    exact Binary64.not_ofNat_le_negative small positive _ _
  · rw [Binary64.infinity_mul_ofNat (by decide) (by decide), Binary64.ofNat_le_infinity small]
    exact Bool.noConfusion

/-- The units of one are so many that two roundings move a percent by less than one part in
`2 ^ 51`. -/
theorem unitsPerOne_large : 2 ^ 60 ≤ Binary64.unitsPerOne := by
  decide +kernel

theorem le_percentOf_ofQuotient {n d : Nat}
    (finite : roundUnits (n * Binary64.unitsPerOne) d < unitLimit) (k : Nat) :
    k ≤ (percentOf (.ofQuotient false n d)).toNat ↔
      k = 0 ∨ k < UInt32.size ∧
        k * Binary64.unitsPerOne ≤
          roundUnits (roundUnits (n * Binary64.unitsPerOne) d * 100) 1 := by
  rw [le_percentOf_iff, Binary64.ofQuotient, Binary64.ofUnits, dif_pos finite,
    Binary64.finite_mul_ofNat (by decide)]
  refine or_congr_right (and_congr_right fun small => ?_)
  exact Binary64.ofNat_le_ofUnits small _ _

/-- The units of a percent before the fraction is cut off. The error of the first rounding counts
a hundred times. -/
theorem abs_percentUnits_sub_le (n : Nat) {d : Nat} (positive : 0 < d) :
    |(roundUnits (roundUnits (n * Binary64.unitsPerOne) d * 100) 1 : ℚ) -
        100 * (n / d) * Binary64.unitsPerOne| ≤
      100 * (n / d) * Binary64.unitsPerOne * (3 / 2 ^ 53) + 52 := by
  have first := abs_roundUnits_sub_le (n * Binary64.unitsPerOne) positive
  have second := abs_roundUnits_sub_le (roundUnits (n * Binary64.unitsPerOne) d * 100) one_pos
  have level : ((n * Binary64.unitsPerOne : Nat) : ℚ) / d = n / d * Binary64.unitsPerOne := by
    push_cast
    ring
  have nonneg : (0 : ℚ) ≤ n / d * Binary64.unitsPerOne := by positivity
  rw [level] at first
  rw [Nat.cast_one, div_one, Nat.cast_mul, Nat.cast_ofNat] at second
  rw [mul_assoc, abs_le] at *
  constructor <;> linarith

section
variable {n d : Nat} (positive : 0 < d) (range : 100 * (n / d : ℚ) < UInt32.size)
include positive range

theorem roundUnits_of_percent : roundUnits (n * Binary64.unitsPerOne) d < unitLimit := by
  rw [roundUnits_lt_iff positive]
  have bound : UInt32.size ≤ finiteBound := by decide +kernel
  have level : (n : ℚ) < UInt32.size * d := by
    have dividend : (0 : ℚ) ≤ n := n.cast_nonneg
    rw [mul_div_assoc', div_lt_iff₀ (by exact_mod_cast positive)] at range
    linarith
  exact Nat.lt_of_lt_of_le (by exact_mod_cast level) (Nat.mul_le_mul_right d bound)

theorem percentOf_le :
    ((percentOf (.ofQuotient false n d)).toNat : ℚ) ≤ 100 * (n / d) * (1 + 1 / 2 ^ 51) := by
  have spec := le_percentOf_ofQuotient (roundUnits_of_percent positive range)
  obtain ⟨_, high⟩ := abs_le.mp (abs_percentUnits_sub_le n positive)
  have large : (2 ^ 60 : ℚ) ≤ Binary64.unitsPerOne := by exact_mod_cast unitsPerOne_large
  have units_pos : (0 : ℚ) < Binary64.unitsPerOne := by linarith
  generalize (percentOf (.ofQuotient false n d)).toNat = p at *
  rcases Nat.eq_zero_or_pos p with rfl | some
  · positivity
  obtain ⟨_, le⟩ := ((spec p).mp le_rfl).resolve_left some.ne'
  have reached : (p * Binary64.unitsPerOne : ℚ) ≤
      roundUnits (roundUnits (n * Binary64.unitsPerOne) d * 100) 1 := by exact_mod_cast le
  have unit : (Binary64.unitsPerOne : ℚ) ≤ p * Binary64.unitsPerOne := by
    exact_mod_cast Nat.le_mul_of_pos_left _ some
  by_contra above
  have product := mul_lt_mul_of_pos_right (not_le.mp above) units_pos
  linarith

theorem lt_percentOf_add_one :
    (100 * (n / d) * (1 - 1 / 2 ^ 51) : ℚ) < (percentOf (.ofQuotient false n d)).toNat + 1 := by
  have spec := le_percentOf_ofQuotient (roundUnits_of_percent positive range)
  obtain ⟨low, _⟩ := abs_le.mp (abs_percentUnits_sub_le n positive)
  have large : (2 ^ 60 : ℚ) ≤ Binary64.unitsPerOne := by exact_mod_cast unitsPerOne_large
  have nonneg : (0 : ℚ) ≤ n / d := by positivity
  generalize (percentOf (.ofQuotient false n d)).toNat = p, (n / d : ℚ) = level at *
  by_contra below
  rw [not_lt] at below
  have room : p + 1 < UInt32.size := by
    have bound : ((p + 1 : Nat) : ℚ) < UInt32.size := by
      rw [Nat.cast_add, Nat.cast_one]
      linarith
    exact_mod_cast bound
  have missed : ¬(p + 1) * Binary64.unitsPerOne ≤
      roundUnits (roundUnits (n * Binary64.unitsPerOne) d * 100) 1 := fun le =>
    absurd ((spec (p + 1)).mpr (.inr ⟨room, le⟩)) (Nat.not_succ_le_self p)
  have less : (roundUnits (roundUnits (n * Binary64.unitsPerOne) d * 100) 1 : ℚ) <
      (p + 1) * Binary64.unitsPerOne := by exact_mod_cast not_le.mp missed
  have unit : (Binary64.unitsPerOne : ℚ) ≤ (p + 1) * Binary64.unitsPerOne := by
    exact_mod_cast Nat.le_mul_of_pos_left _ (Nat.succ_pos p)
  have product := mul_le_mul_of_nonneg_right below (Nat.cast_nonneg Binary64.unitsPerOne)
  linarith

/-- The percent of a level is a hundred times the level without the fraction, with an error of at
most one part in `2 ^ 51` before the fraction is cut off. -/
theorem percentOf_near :
    ∃ x : ℚ, |x - 100 * (n / d)| ≤ 100 * (n / d) / 2 ^ 51 ∧
      (percentOf (.ofQuotient false n d)).toNat = ⌊x⌋₊ := by
  have above := percentOf_le positive range
  have below := lt_percentOf_add_one positive range
  have nonneg : (0 : ℚ) ≤ n / d := by positivity
  generalize (percentOf (.ofQuotient false n d)).toNat = p at *
  generalize (n / d : ℚ) = v at *
  refine ⟨max p (100 * v * (1 - 1 / 2 ^ 51)), ?_, ?_⟩
  · have low := le_max_right (p : ℚ) (100 * v * (1 - 1 / 2 ^ 51))
    have high : max (p : ℚ) (100 * v * (1 - 1 / 2 ^ 51)) ≤ 100 * v * (1 + 1 / 2 ^ 51) :=
      max_le above (by linarith)
    rw [abs_le]
    constructor <;> linarith
  · symm
    rw [Nat.floor_eq_iff (le_max_of_le_left p.cast_nonneg)]
    exact ⟨le_max_left _ _, max_lt (by linarith) below⟩

end

/-! ### Levels of whole percents -/

/-- Three levels are a little less than what was written when they are scaled. -/
theorem percentOf_hundredths :
    ∀ n ≤ 100, (percentOf (.ofQuotient false n 100)).toNat =
      if n ∈ [29, 57, 58] then n - 1 else n := by
  decide +kernel

theorem ofReading_dimmer {raw : String} {d : Decimal} {quantity : Quantity}
    (read : Numeral.ofChars? (Text.trim raw).toList = some (.decimal d))
    (flag : quantity.isFlag = true) (device : String) (style : Figure.Style) :
    Display.ofReading (.ofRaw device .dimmer quantity raw) style =
      .slider (percentOf d.nearest) := by
  rw [Display.ofReading, Reading.ofRaw, flag, Value.ofRaw, if_pos flag, dimmerLevel,
    flagLevel_of_decimal read]

/-- The slider of a dimmer that is sent a decimal as its level: 0 for a negative one, and for
others a hundred times the level without the fraction, with an error of at most one part in
`2 ^ 51` before the fraction is cut off. So a level of whole percents is shown as it was written,
except 29%, 57% and 58%. -/
theorem slider_of_written {raw : String} {d : Decimal} {quantity : Quantity}
    (read : Numeral.ofChars? (Text.trim raw).toList = some (.decimal d))
    (flag : quantity.isFlag = true) (device : String) (style : Figure.Style) :
    ∃ percent, Display.ofReading (.ofRaw device .dimmer quantity raw) style = .slider percent ∧
      (d.value < 0 → percent = 0) ∧
      (0 ≤ d.value → 100 * d.value < UInt32.size →
        ∃ x : ℚ, |x - 100 * d.value| ≤ 100 * d.value / 2 ^ 51 ∧ percent.toNat = ⌊x⌋₊) ∧
      ∀ n : Nat, n ≤ 100 → d.value = n / 100 →
        percent.toNat = if n ∈ [29, 57, 58] then n - 1 else n := by
  refine ⟨percentOf d.nearest, ofReading_dimmer read flag device style, ?_⟩
  have nonneg := d.size_nonneg
  cases negative : d.negative with
  | true =>
    have zero : percentOf d.nearest = 0 := by
      rw [Decimal.nearest_eq, negative, Binary64.ofQuotient]
      exact percentOf_negative _ _
    have value : d.value = -d.size := by rw [Decimal.value, negative, if_pos rfl]
    rw [zero, value]
    refine ⟨fun _ => rfl, fun high _ => ?_, fun n _ whole => ?_⟩
    · have none : d.size = 0 := by linarith
      exact ⟨0, by simp [none], by simp⟩
    · have none : (n : ℚ) ≤ 0 := by linarith
      obtain rfl : n = 0 := Nat.le_zero.mp (by exact_mod_cast none)
      rfl
  | false =>
    have value : d.value = d.size := by rw [Decimal.value, negative, if_neg Bool.false_ne_true]
    rw [value]
    refine ⟨fun low => absurd low nonneg.not_gt, fun _ range => ?_, fun n le whole => ?_⟩
    · rw [Decimal.nearest_eq, negative, Decimal.size_eq] at *
      exact percentOf_near (Nat.pow_pos (by decide)) range
    · rw [Decimal.nearest_of_size (by decide) whole, negative]
      exact percentOf_hundredths n le

theorem slider_of_written_42 :
    Numeral.ofChars? (Text.trim "0.42").toList = some (.decimal { digits := 42, exponent := -2 }) ∧
      Quantity.isFlag .switch = true ∧
      ∃ percent, Display.ofReading (.ofRaw "lamp" .dimmer .switch "0.42") {} = .slider percent ∧
        percent.toNat = 42 := by
  have read : Numeral.ofChars? (Text.trim "0.42").toList =
      some (.decimal { digits := 42, exponent := -2 }) := by decide
  have value : Decimal.value { digits := 42, exponent := -2 } = (42 : Nat) / 100 := by
    norm_num [Decimal.value, Decimal.size]
  have flag : Quantity.isFlag .switch = true := rfl
  obtain ⟨percent, shown, -, -, whole⟩ := slider_of_written read flag "lamp" {}
  exact ⟨read, flag, percent, shown, whole 42 (by decide) value⟩

/-- A dimmer that is sent 0.29 is shown at 28%. -/
theorem slider_below_written :
    ∃ d : Decimal, Numeral.ofChars? (Text.trim "0.29").toList = some (.decimal d) ∧
      ⌊100 * d.value⌋ = 29 ∧
      Display.ofReading (.ofRaw "lamp" .dimmer .switch "0.29") {} = .slider 28 := by
  refine ⟨{ digits := 29, exponent := -2 }, by decide, ?_, by decide +kernel⟩
  norm_num [Decimal.value, Decimal.size]

end Dashboard
