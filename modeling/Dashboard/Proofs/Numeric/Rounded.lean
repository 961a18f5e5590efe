import Mathlib.Data.Rat.Floor
import Dashboard.Proofs.Numeric.Order
import Dashboard.Proofs.Numeric.Value

/-!
# Rounded numbers

`rounded` rounds a number to 53 significant bits and has no bound. It keeps the order
(`rounded_mono`), every number of few bits (`rounded_short`), halves and small powers of ten, and
moves a number by one part in `2 ^ 53` at most (`abs_rounded_sub_le`).
-/

namespace Dashboard.Numeric

open Binary64 (unitsPerOne unitsPerOne_pos)

def roundedSize (q : ℚ) : ℚ :=
  (roundUnits (q.num.natAbs * unitsPerOne) q.den : ℚ) / unitsPerOne

theorem roundUnits_congr {n d n' d' : Nat} (positive : 0 < d) (positive' : 0 < d')
    (same : n * d' = n' * d) : roundUnits n d = roundUnits n' d' := by
  rw [← roundUnits_mul_right n d positive', ← roundUnits_mul_right n' d' positive, same,
    Nat.mul_comm d]

theorem cast_unitsPerOne_pos : (0 : ℚ) < unitsPerOne := by
  exact_mod_cast unitsPerOne_pos

theorem cast_natAbs_num {q : ℚ} (nonneg : 0 ≤ q) : (q.num.natAbs : ℚ) = q * q.den := by
  rw [Rat.mul_den_eq_num, Nat.cast_natAbs, abs_of_nonneg (Rat.num_nonneg.mpr nonneg)]

theorem exists_quotient {q : ℚ} (nonneg : 0 ≤ q) : ∃ n d : Nat, 0 < d ∧ q = n / d := by
  have nonzero : (q.den : ℚ) ≠ 0 := by exact_mod_cast q.den_nz
  exact ⟨q.num.natAbs, q.den, q.den_pos, by rw [cast_natAbs_num nonneg, mul_div_cancel_right₀ _ nonzero]⟩

theorem roundedSize_div (n : Nat) {d : Nat} (positive : 0 < d) :
    roundedSize (n / d) = (roundUnits (n * unitsPerOne) d : ℚ) / unitsPerOne := by
  have nonneg : (0 : ℚ) ≤ n / d := by positivity
  have exact : (n / d : ℚ) * d = n := div_mul_cancel₀ _ (by exact_mod_cast positive.ne')
  generalize (n / d : ℚ) = q at *
  have cross : q.num.natAbs * d = n * q.den := by
    have cast : (q.num.natAbs * d : ℚ) = n * q.den := by
      rw [cast_natAbs_num nonneg, ← exact]
      ring
    exact_mod_cast cast
  have units : q.num.natAbs * unitsPerOne * d = n * unitsPerOne * q.den := by
    rw [Nat.mul_right_comm, cross, Nat.mul_right_comm]
  rw [roundedSize, roundUnits_congr q.den_pos positive units]

theorem roundedSize_neg (q : ℚ) : roundedSize (-q) = roundedSize q := by
  rw [roundedSize, roundedSize, Rat.num_neg_eq_neg_num, Rat.den_neg_eq_den, Int.natAbs_neg]

theorem roundedSize_zero : roundedSize 0 = 0 := by
  have zero : roundUnits 0 1 = 0 := by decide
  have quotient := roundedSize_div 0 one_pos
  rw [Nat.zero_mul, zero] at quotient
  simpa using quotient

theorem roundedSize_nonneg (q : ℚ) : 0 ≤ roundedSize q := by
  unfold roundedSize
  positivity

theorem roundedSize_mono {q r : ℚ} (nonneg : 0 ≤ q) (le : q ≤ r) :
    roundedSize q ≤ roundedSize r := by
  obtain ⟨n, d, positive, rfl⟩ := exists_quotient nonneg
  obtain ⟨n', d', positive', rfl⟩ := exists_quotient (nonneg.trans le)
  have cross : n * d' ≤ n' * d := by
    rw [div_le_div_iff₀ (by exact_mod_cast positive) (by exact_mod_cast positive')] at le
    exact_mod_cast le
  have units : roundUnits (n * unitsPerOne) d ≤ roundUnits (n' * unitsPerOne) d' := by
    rw [← roundUnits_mul_right _ d positive', ← roundUnits_mul_right _ d' positive,
      Nat.mul_comm d', Nat.mul_right_comm, Nat.mul_right_comm n']
    exact roundUnits_mono (Nat.mul_le_mul_right _ cross) _
  rw [roundedSize_div n positive, roundedSize_div n' positive']
  have size := cast_unitsPerOne_pos
  gcongr

/-! ### Rounding numbers -/

/-- The number rounded to 53 significant bits and to whole units. -/
def rounded (q : ℚ) : ℚ :=
  if q < 0 then -roundedSize q else roundedSize q

theorem rounded_of_nonneg {q : ℚ} (nonneg : 0 ≤ q) : rounded q = roundedSize q :=
  if_neg nonneg.not_gt

theorem rounded_zero : rounded 0 = 0 := by
  rw [rounded_of_nonneg le_rfl, roundedSize_zero]

theorem rounded_neg (q : ℚ) : rounded (-q) = -rounded q := by
  rcases lt_trichotomy q 0 with negative | rfl | positive
  · rw [rounded_of_nonneg (by linarith), rounded, if_pos negative, roundedSize_neg, neg_neg]
  · rw [neg_zero, rounded_zero, neg_zero]
  · rw [rounded_of_nonneg positive.le, rounded, if_pos (by linarith), roundedSize_neg]

theorem rounded_div (n : Nat) {d : Nat} (positive : 0 < d) :
    rounded (n / d) = (roundUnits (n * unitsPerOne) d : ℚ) / unitsPerOne := by
  rw [rounded_of_nonneg (by positivity), roundedSize_div n positive]

theorem rounded_mono {q r : ℚ} (le : q ≤ r) : rounded q ≤ rounded r := by
  rcases lt_or_ge q 0 with negative | nonneg
  · rw [rounded, if_pos negative]
    rcases lt_or_ge r 0 with negative' | nonneg'
    · rw [rounded, if_pos negative', neg_le_neg_iff, ← roundedSize_neg r, ← roundedSize_neg q]
      exact roundedSize_mono (by linarith) (by linarith)
    · rw [rounded_of_nonneg nonneg']
      have left := roundedSize_nonneg q
      have right := roundedSize_nonneg r
      linarith
  · rw [rounded_of_nonneg nonneg, rounded_of_nonneg (nonneg.trans le)]
    exact roundedSize_mono nonneg le

theorem rounded_units {n : Nat} (short : lastPlace n ∣ n) :
    rounded (n / unitsPerOne) = n / unitsPerOne := by
  have same := roundUnits_mul_right n 1 unitsPerOne_pos
  rw [Nat.one_mul, roundUnits_of_dvd short] at same
  rw [rounded_div n unitsPerOne_pos, same]

theorem rounded_rounded (q : ℚ) : rounded (rounded q) = rounded q := by
  have size (q : ℚ) : rounded (roundedSize q) = roundedSize q :=
    rounded_units (lastPlace_dvd_roundUnits _ _)
  rcases lt_or_ge q 0 with negative | nonneg
  · have value : rounded q = -roundedSize q := if_pos negative
    rw [value, rounded_neg, size]
  · rw [rounded_of_nonneg nonneg, size]

theorem cast_unitsPerOne : (unitsPerOne : ℚ) = 2 ^ (1074 : ℤ) := by
  have natural : (1074 : ℤ) = (1074 : Nat) := rfl
  rw [natural, zpow_natCast]
  unfold unitsPerOne
  generalize 1074 = k
  rw [Nat.pow_eq, Nat.cast_pow, Nat.cast_ofNat]

theorem rounded_short {m : ℤ} (short : |m| ≤ 2 ^ 53) {e : ℤ} (whole : -1074 ≤ e) :
    rounded (m * 2 ^ e) = m * 2 ^ e := by
  have natural (n : Nat) (short : n ≤ 2 ^ 53) : rounded (n * 2 ^ e) = n * 2 ^ e := by
    have exponent : e = (e + 1074).toNat - 1074 := by omega
    have units : (n * 2 ^ e : ℚ) = ((n * Nat.pow 2 (e + 1074).toNat : Nat) : ℚ) / unitsPerOne := by
      rw [cast_unitsPerOne, eq_div_iff (by positivity), mul_assoc, ← zpow_add₀ two_ne_zero,
        Nat.cast_mul, Nat.pow_eq, Nat.cast_pow, Nat.cast_ofNat, ← zpow_natCast]
      congr 2
      omega
    rw [units]
    exact rounded_units (lastPlace_dvd_mul_pow short _)
  rw [Int.abs_eq_natAbs] at short
  rcases Int.natAbs_eq m with positive | negative
  · rw [positive, Int.cast_natCast]
    exact natural _ (by omega)
  · rw [negative, Int.cast_neg, Int.cast_natCast, neg_mul, rounded_neg, natural _ (by omega)]

theorem rounded_whole {z : ℤ} (short : |z| ≤ 2 ^ 53) : rounded z = z := by
  have exact := rounded_short short (e := 0) (by decide)
  rwa [zpow_zero, mul_one] at exact

theorem rounded_one : rounded 1 = 1 := by
  have exact := rounded_whole (z := 1) (by decide)
  rwa [Int.cast_one] at exact

/-- A number is moved by at most half a unit and one part in `2 ^ 53`. -/
theorem abs_rounded_sub_le (q : ℚ) : |rounded q - q| ≤ |q| / 2 ^ 53 + 1 / 2 / unitsPerOne := by
  have natural {q : ℚ} (nonneg : 0 ≤ q) :
      |rounded q - q| ≤ q / 2 ^ 53 + 1 / 2 / unitsPerOne := by
    obtain ⟨n, d, positive, rfl⟩ := exists_quotient nonneg
    have units := cast_unitsPerOne_pos
    have near := abs_roundUnits_sub_le (n * unitsPerOne) positive
    rw [rounded_div n positive]
    have scaled : (roundUnits (n * unitsPerOne) d : ℚ) / unitsPerOne - n / d =
        ((roundUnits (n * unitsPerOne) d : ℚ) - (n * unitsPerOne : Nat) / d) / unitsPerOne := by
      push_cast
      field_simp
    rw [scaled, abs_div, abs_of_pos units, div_le_iff₀ units]
    refine near.trans_eq ?_
    push_cast
    field_simp
  rcases le_total 0 q with nonneg | negative
  · rw [abs_of_nonneg nonneg]
    exact natural nonneg
  · have opposite := natural (neg_nonneg.mpr negative)
    rw [rounded_neg, ← abs_neg] at opposite
    rw [abs_of_nonpos negative]
    convert opposite using 2
    ring

theorem rounded_half {n : ℤ} (short : |n| ≤ 2 ^ 53) : rounded (n / 2) = n / 2 := by
  have exact := rounded_short short (e := -1) (by decide)
  rwa [zpow_neg_one, ← div_eq_mul_inv] at exact

theorem rounded_ten_pow {k : Nat} (few : k ≤ 22) : rounded (10 ^ k) = 10 ^ k := by
  have power : (10 ^ k : ℚ) = (5 ^ k : ℤ) * 2 ^ (k : ℤ) := by
    push_cast
    rw [zpow_natCast, ← mul_pow]
    norm_num
  have short : |(5 ^ k : ℤ)| ≤ 2 ^ 53 := by
    rw [abs_of_nonneg (by positivity)]
    exact (pow_le_pow_right₀ (by decide) few).trans (by decide)
  rw [power, rounded_short short (by omega)]

theorem ten_pow_le_rounded {k : Nat} (few : k ≤ 22) {q : ℚ} (least : 10 ^ k ≤ q) :
    10 ^ k ≤ rounded q := by
  rw [← rounded_ten_pow few]
  exact rounded_mono least

theorem rounded_le_ten_pow {k : Nat} (few : k ≤ 22) {q : ℚ} (most : q ≤ 10 ^ k) :
    rounded q ≤ 10 ^ k := by
  rw [← rounded_ten_pow few]
  exact rounded_mono most

end Dashboard.Numeric
