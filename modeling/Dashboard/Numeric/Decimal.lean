import Dashboard.Numeric.Arithmetic

/-!
# Decimal numbers

A decimal is a signed whole number times a power of ten. `nearest` rounds it to a double once,
however many digits it has; `nearest_eq` says so without the two short cuts for exponents far
outside the range of doubles.
-/

namespace Dashboard.Numeric

/-- The number `± digits * 10 ^ exponent`. -/
structure Decimal where
  negative : Bool := false
  digits : Nat
  exponent : Int := 0
  deriving DecidableEq

namespace Decimal

/-- The same digits, the point moved `places` to the right. -/
def shift (x : Decimal) (places : Int) : Decimal :=
  { x with exponent := x.exponent + places }

/-- A power of ten with this exponent is far out of the range of doubles, whatever its sign. -/
@[irreducible] def farExponent : Nat :=
  400

/-- The double nearest to the decimal, correctly rounded. No power of ten is computed for an
exponent that decides the result alone. -/
def nearest (x : Decimal) : Binary64 :=
  match x.exponent with
  | .ofNat e =>
    if x.digits = 0 then .ofQuotient x.negative 0 1
    else if farExponent ≤ e then .infinity x.negative
    else .ofQuotient x.negative (x.digits * Nat.pow 10 e) 1
  | .negSucc e =>
    if x.digits.log2 + farExponent ≤ e then .ofQuotient x.negative 0 1
    else .ofQuotient x.negative x.digits (Nat.pow 10 (e + 1))

def tenPow (n : Nat) : Binary64 :=
  nearest { digits := 1, exponent := n }

theorem ofUnits_zero (negative : Bool) {n d : Nat} (h : 2 * n < d) :
    Binary64.ofUnits negative n d = Binary64.ofUnits negative 0 1 := by
  have hq : n / d = 0 := Nat.div_eq_of_lt (by omega)
  have hr : roundUnits n d = roundUnits 0 1 := by
    have hm : n % d = n := Nat.mod_eq_of_lt (by omega)
    simp [roundUnits, roundDiv, lastPlace, hq, hm]
    omega
  simp [Binary64.ofUnits, hr]

theorem nearest_tiny (x : Decimal) (e : Nat) (h : x.digits.log2 + farExponent ≤ e) :
    Binary64.ofQuotient x.negative x.digits (Nat.pow 10 (e + 1)) = .ofQuotient x.negative 0 1 := by
  rw [Nat.pow_eq]
  have hd : x.digits < 2 ^ (x.digits.log2 + 1) := Nat.lt_log2_self
  have hlog : 2 ^ (x.digits.log2 + 1) ≤ 10 ^ (x.digits.log2 + 1) :=
    Nat.pow_le_pow_left (by decide) _
  have hunit : 2 * Binary64.unitsPerOne < Nat.pow 10 farExponent := by decide +kernel
  have hsplit : 10 ^ (x.digits.log2 + 1) * Nat.pow 10 farExponent ≤ 10 ^ (e + 1) := by
    rw [Nat.pow_eq, ← Nat.pow_add]; exact Nat.pow_le_pow_right (by decide) (by omega)
  have hlt : x.digits * (2 * Binary64.unitsPerOne) < 10 ^ (e + 1) :=
    Nat.lt_of_lt_of_le
      (Nat.mul_lt_mul_of_lt_of_le (Nat.lt_of_lt_of_le hd hlog) (Nat.le_of_lt hunit)
        (Nat.zero_lt_of_lt hunit))
      hsplit
  unfold Binary64.ofQuotient
  rw [ofUnits_zero _ (by rw [Nat.mul_left_comm]; exact hlt), Nat.zero_mul]

theorem unitLimit_le_roundUnits {n : Nat} (h : 2 * unitLimit ≤ n) : unitLimit ≤ roundUnits n 1 := by
  have hn := lt_mul_lastPlace n
  have hle : n / lastPlace n ≤ roundDiv n (1 * lastPlace (n / 1)) := by
    rw [Nat.div_one, Nat.one_mul]
    unfold roundDiv; split <;> omega
  have hlp : lastPlace n ≤ n := by
    rw [lastPlace]
    exact Nat.le_trans (Nat.pow_le_pow_right (by decide) (by omega))
      (Nat.log2_self_le (by have := unitLimit_pos; omega))
  have hone := Nat.mul_le_mul_right (lastPlace n) (Nat.div_pos hlp (lastPlace_pos n))
  have hmul := Nat.mul_le_mul_right (lastPlace n) hle
  have hdm := Nat.div_add_mod n (lastPlace n)
  have hmod := Nat.mod_lt n (lastPlace_pos n)
  rw [Nat.mul_comm] at hdm
  rw [roundUnits, Nat.div_one]
  rw [Nat.div_one] at hmul
  omega

theorem nearest_huge (x : Decimal) (e : Nat) (hd : x.digits ≠ 0) (h : farExponent ≤ e) :
    Binary64.ofQuotient x.negative (x.digits * Nat.pow 10 e) 1 = .infinity x.negative := by
  rw [Nat.pow_eq]
  have hten : 2 * unitLimit ≤ Nat.pow 10 farExponent * Binary64.unitsPerOne := by decide +kernel
  have hpow : Nat.pow 10 farExponent ≤ 10 ^ e := Nat.pow_le_pow_right (by decide) h
  have hle : 2 * unitLimit ≤ x.digits * 10 ^ e * Binary64.unitsPerOne :=
    Nat.le_trans hten (Nat.mul_le_mul_right _
      (Nat.le_trans hpow (Nat.le_mul_of_pos_left _ (Nat.pos_of_ne_zero hd))))
  unfold Binary64.ofQuotient Binary64.ofUnits
  rw [dif_neg (Nat.not_lt.mpr (unitLimit_le_roundUnits hle))]

/-- A decimal is rounded as the quotient that it is. -/
theorem nearest_eq (x : Decimal) :
    x.nearest = .ofQuotient x.negative (x.digits * Nat.pow 10 x.exponent.toNat)
      (Nat.pow 10 (-x.exponent).toNat) := by
  have hone : Nat.pow 10 0 = 1 := rfl
  unfold nearest
  split
  · next e he =>
    simp only [he, Int.ofNat_eq_natCast, Int.toNat_natCast, Int.toNat_neg_natCast, hone]
    split
    · next h => simp [h]
    · split
      · next hfar => rw [nearest_huge x e (by assumption) hfar]
      · rfl
  · next e he =>
    simp only [he, Int.toNat_negSucc, Int.neg_negSucc, Int.toNat_natCast, hone, Nat.mul_one]
    split
    · next h => exact (nearest_tiny x e h).symm
    · rfl

end Decimal

end Dashboard.Numeric
