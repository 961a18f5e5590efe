import Dashboard.Display
import Dashboard.Proofs.Numeric.Order

/-!
# Levels in whole percent

`percentOf` scales a level, cuts off the fraction and keeps within 32 bits. `le_percentOf_iff` says
so in the order of doubles alone: which whole numbers are at most the percent is decided by
comparing them with a hundred times the level.
-/

namespace Dashboard

open Numeric

theorem toNat_top : (UInt32.ofNat (UInt32.size - 1)).toNat = UInt32.size - 1 :=
  UInt32.toNat_ofNat_of_lt (by decide)

theorem toNat_ofNat_min (n : Nat) :
    (UInt32.ofNat (min n (UInt32.size - 1))).toNat = min n (UInt32.size - 1) := by
  have small : min n (UInt32.size - 1) < UInt32.size :=
    Nat.lt_of_le_of_lt (Nat.min_le_right ..) (by decide)
  exact UInt32.toNat_ofNat_of_lt small

/-- The percent is the largest whole number of 32 bits that is not above a hundred times the level,
and 0 where there is none. -/
theorem le_percentOf_iff (level : Binary64) (n : Nat) :
    n ≤ (percentOf level).toNat ↔
      n = 0 ∨ n < UInt32.size ∧ (Binary64.ofNat n).le (level * .ofNat 100) = true := by
  by_cases zero : n = 0
  · simp [zero]
  have positive : 0 < n := Nat.pos_of_ne_zero zero
  rw [or_iff_right zero]
  by_cases small : n < UInt32.size
  · have last : n ≤ UInt32.size - 1 := Nat.le_sub_one_of_lt small
    rw [and_iff_right small, percentOf]
    cases level * .ofNat 100 with
    | nan =>
      rw [Binary64.le_nan, Binary64.lt_nan]
      exact iff_of_false (Nat.not_le_of_gt positive) Bool.false_ne_true
    | infinity negative =>
      rw [Binary64.ofNat_le_infinity small]
      simp only [Binary64.truncate?, Binary64.zero_lt_infinity]
      cases negative with
      | false => exact iff_of_true (toNat_top.symm ▸ last) rfl
      | true => exact iff_of_false (Nat.not_le_of_gt positive) Bool.noConfusion
    | finite negative x =>
      rw [Binary64.ofNat_le_finite small positive]
      simp only [Binary64.truncate?, toNat_ofNat_min, Nat.le_min, and_iff_left last,
        Binary64.toNat_signed]
      cases negative with
      | false => exact (and_iff_right rfl).symm
      | true =>
        exact iff_of_false (Nat.not_le_of_gt positive) (fun both => Bool.noConfusion both.1)
  · have range := (percentOf level).toNat_lt_size
    have above := Nat.lt_of_lt_of_le range (Nat.le_of_not_lt small)
    exact iff_of_false (Nat.not_le_of_gt above) (fun both => small both.1)

end Dashboard
