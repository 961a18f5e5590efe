import Mathlib.Algebra.Group.Nat.Defs
import Dashboard.Numeric.Decimal

/-!
# Rounding keeps the order

A number that is not below another is not below it when both are rounded (`roundUnits_mono`), so
the range of what a literal is read as is known from its ends.
-/

namespace Dashboard.Numeric

theorem div_le_roundDiv (n d : Nat) : n / d ≤ roundDiv n d := by
  unfold roundDiv
  split <;> omega

theorem roundDiv_mono {n n' : Nat} (le : n ≤ n') (d : Nat) : roundDiv n d ≤ roundDiv n' d := by
  rcases Nat.lt_or_eq_of_le (Nat.div_le_div_right le : n / d ≤ n' / d) with below | same
  · exact Nat.le_trans (roundDiv_le n d) (Nat.le_trans below (div_le_roundDiv n' d))
  · have split := Nat.div_add_mod n d
    have split' := Nat.div_add_mod n' d
    rw [same] at split
    have rest : n % d ≤ n' % d := by omega
    unfold roundDiv
    rw [same]
    split <;> split <;> omega

theorem log2_mono {n n' : Nat} (le : n ≤ n') : n.log2 ≤ n'.log2 := by
  rcases Nat.eq_zero_or_pos n with rfl | positive
  · exact Nat.zero_le _
  · exact (Nat.le_log2 (by omega)).mpr (Nat.le_trans (Nat.log2_self_le (by omega)) le)

/-- Where the last place is finer, nothing is rounded to more than the first number that has a
coarser one. -/
theorem roundUnits_le_of_finer {n d k : Nat} (finer : (n / d).log2 - 52 < k) :
    roundUnits n d ≤ 2 ^ (52 + k) := by
  have place : significandLimit * lastPlace (n / d) = 2 ^ (53 + ((n / d).log2 - 52)) := by
    rw [significandLimit, lastPlace, Nat.pow_eq, Nat.pow_eq, Nat.pow_add]
  refine Nat.le_trans (Nat.mul_le_mul_right _ (roundUnits_count_le n d)) ?_
  rw [place]
  exact Nat.pow_le_pow_right (by decide) (by omega)

theorem le_roundUnits_of_coarse {n d k : Nat} (coarse : (n / d).log2 = 52 + k) :
    2 ^ (52 + k) ≤ roundUnits n d := by
  have place : lastPlace (n / d) = 2 ^ k := by
    rw [lastPlace, Nat.pow_eq, coarse, Nat.add_sub_cancel_left]
  have nonzero : n / d ≠ 0 := by
    intro zero
    rw [zero, Nat.log2_zero] at coarse
    omega
  have count : 2 ^ 52 ≤ n / d / 2 ^ k := by
    rw [Nat.le_div_iff_mul_le (Nat.two_pow_pos k), ← Nat.pow_add, ← coarse]
    exact Nat.log2_self_le nonzero
  rw [Nat.div_div_eq_div_mul] at count
  rw [roundUnits, place, Nat.pow_add]
  exact Nat.mul_le_mul_right _ (Nat.le_trans count (div_le_roundDiv ..))

/-- A number that is not below another is not rounded to less. -/
theorem roundUnits_mono {n n' : Nat} (le : n ≤ n') (d : Nat) :
    roundUnits n d ≤ roundUnits n' d := by
  -- Up to 53 bits the last place is the unit, so only a difference beyond them makes it coarser.
  have logs := log2_mono (Nat.div_le_div_right le : n / d ≤ n' / d)
  rcases Nat.lt_or_ge ((n / d).log2 - 52) ((n' / d).log2 - 52) with finer | alike
  · have coarse : (n' / d).log2 = 52 + ((n' / d).log2 - 52) := by omega
    exact Nat.le_trans (roundUnits_le_of_finer finer) (le_roundUnits_of_coarse coarse)
  · have same : lastPlace (n / d) = lastPlace (n' / d) := by
      rw [lastPlace, lastPlace]
      congr 1
      omega
    rw [roundUnits, roundUnits, same]
    exact Nat.mul_le_mul_right _ (roundDiv_mono le _)

theorem Binary64.unitsPerOne_pos : 0 < unitsPerOne := by
  decide +kernel

end Dashboard.Numeric
