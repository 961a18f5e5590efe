/-!
# Floating point numbers of 64 bits

A double is NaN, an infinity, or a sign and a whole number of units of `2 ^ -1074` with at most 53
significant bits. `roundUnits` is the one place where a value is rounded: to the nearest, ties to
even. `roundUnits_units` says that it changes no magnitude.
-/

namespace Dashboard.Numeric

/-- The whole number nearest to `n / d`, of two the even one. -/
def roundDiv (n d : Nat) : Nat :=
  if d < 2 * (n % d) ∨ (2 * (n % d) = d ∧ n / d % 2 = 1) then n / d + 1 else n / d

/-- The place value of the last of the 53 leading bits of `n`. -/
def lastPlace (n : Nat) : Nat :=
  Nat.pow 2 (n.log2 - 52)

/-- The quotient `n / d` rounded to at most 53 significant bits. -/
def roundUnits (n d : Nat) : Nat :=
  roundDiv n (d * lastPlace (n / d)) * lastPlace (n / d)

/-- The first number of units that is too large for a double. It is `2 ^ 1024`. -/
@[irreducible] def unitLimit : Nat :=
  Nat.pow 2 2098

/-- How many leading bits a double keeps, as the first number that needs more. -/
def significandLimit : Nat :=
  Nat.pow 2 53

/-- The size of a finite double, in units of `2 ^ -1074`. -/
@[ext] structure Magnitude where
  units : Nat
  units_lt : units < unitLimit
  lastPlace_dvd : lastPlace units ∣ units
  deriving DecidableEq

inductive Binary64 where
  | nan
  | infinity (negative : Bool)
  | finite (negative : Bool) (size : Magnitude)
  deriving DecidableEq

theorem unitLimit_pos : 0 < unitLimit := by
  decide +kernel

theorem roundDiv_le (n d : Nat) : roundDiv n d ≤ n / d + 1 := by
  unfold roundDiv; split <;> omega

theorem roundDiv_of_dvd {n d : Nat} (hd : 0 < d) (h : d ∣ n) : roundDiv n d = n / d := by
  have hm : n % d = 0 := Nat.mod_eq_zero_of_dvd h
  simp only [roundDiv, hm, Nat.mul_zero, Nat.not_lt_zero, false_or]
  rw [if_neg (by omega)]

theorem roundDiv_mul_right (n d : Nat) {k : Nat} (hk : 0 < k) :
    roundDiv (n * k) (d * k) = roundDiv n d := by
  have hmod : n * k % (d * k) = n % d * k := Nat.mul_mod_mul_right k n d
  have hlt : d * k < 2 * (n % d * k) ↔ d < 2 * (n % d) := by
    rw [← Nat.mul_assoc]; exact Nat.mul_lt_mul_right hk
  have heq : 2 * (n % d * k) = d * k ↔ 2 * (n % d) = d := by
    rw [← Nat.mul_assoc]; exact Nat.mul_left_inj (Nat.ne_of_gt hk)
  simp only [roundDiv, hmod, Nat.mul_div_mul_right _ _ hk, hlt, heq]

theorem lastPlace_pos (n : Nat) : 0 < lastPlace n :=
  Nat.two_pow_pos _

/-- A number has at most 53 bits in front of the last of them. -/
theorem lt_mul_lastPlace (n : Nat) : n < significandLimit * lastPlace n := by
  simp only [significandLimit, lastPlace, Nat.pow_eq]
  rw [← Nat.pow_add]
  exact Nat.lt_of_lt_of_le Nat.lt_log2_self (Nat.pow_le_pow_right (by decide) (by omega))

theorem roundUnits_count_le (n d : Nat) :
    roundDiv n (d * lastPlace (n / d)) ≤ significandLimit := by
  have hq : n / d / lastPlace (n / d) < significandLimit := by
    rw [Nat.div_lt_iff_lt_mul (lastPlace_pos _)]
    exact lt_mul_lastPlace _
  rw [Nat.div_div_eq_div_mul] at hq
  exact Nat.le_trans (roundDiv_le _ _) hq

theorem lastPlace_dvd_mul_pow {m : Nat} (hm : m ≤ significandLimit) (k : Nat) :
    lastPlace (m * Nat.pow 2 k) ∣ m * Nat.pow 2 k := by
  simp only [significandLimit, lastPlace, Nat.pow_eq] at *
  rcases Nat.eq_zero_or_pos m with rfl | hpos
  · simp
  rcases Nat.lt_or_eq_of_le hm with hlt | rfl
  · have hlog : (m * 2 ^ k).log2 < 53 + k := by
      rw [Nat.log2_lt (Nat.ne_of_gt (Nat.mul_pos hpos (Nat.two_pow_pos k))), Nat.pow_add]
      exact Nat.mul_lt_mul_of_pos_right hlt (Nat.two_pow_pos k)
    exact Nat.dvd_trans (Nat.pow_dvd_pow 2 (by omega)) (Nat.dvd_mul_left _ _)
  · rw [← Nat.pow_add, Nat.log2_two_pow]
    exact Nat.pow_dvd_pow 2 (by omega)

theorem lastPlace_dvd_roundUnits (n d : Nat) : lastPlace (roundUnits n d) ∣ roundUnits n d :=
  lastPlace_dvd_mul_pow (roundUnits_count_le n d) _

theorem roundUnits_mul_right (n d : Nat) {k : Nat} (hk : 0 < k) :
    roundUnits (n * k) (d * k) = roundUnits n d := by
  rw [roundUnits, Nat.mul_div_mul_right _ _ hk, Nat.mul_right_comm, roundDiv_mul_right _ _ hk,
    roundUnits]

/-- The rounding of a whole number with at most 53 significant bits is the number. -/
theorem roundUnits_of_dvd {n : Nat} (h : lastPlace n ∣ n) : roundUnits n 1 = n := by
  rw [roundUnits, Nat.div_one, Nat.one_mul, roundDiv_of_dvd (lastPlace_pos n) h]
  exact Nat.div_mul_cancel h

theorem roundUnits_units (x : Magnitude) : roundUnits x.units 1 = x.units :=
  roundUnits_of_dvd x.lastPlace_dvd

namespace Binary64

/-- The double nearest to `n / d` units with the given sign, an infinity if it is too large. -/
def ofUnits (negative : Bool) (n : Nat) (d : Nat) : Binary64 :=
  if h : roundUnits n d < unitLimit then
    .finite negative ⟨roundUnits n d, h, lastPlace_dvd_roundUnits n d⟩
  else
    .infinity negative

@[irreducible] def unitsPerOne : Nat :=
  Nat.pow 2 1074

def ofQuotient (negative : Bool) (n d : Nat) : Binary64 :=
  ofUnits negative (n * unitsPerOne) d

def ofNat (n : Nat) : Binary64 :=
  ofQuotient false n 1

/-- The double nearest to a whole number; zero is positive. -/
def ofInt (z : Int) : Binary64 :=
  ofQuotient (z < 0) z.natAbs 1

theorem ofUnits_units (negative : Bool) (x : Magnitude) :
    ofUnits negative x.units 1 = .finite negative x := by
  have h := roundUnits_units x
  have hlt : roundUnits x.units 1 < unitLimit := by rw [h]; exact x.units_lt
  rw [ofUnits, dif_pos hlt]
  congr 1
  exact Magnitude.ext h

theorem ofUnits_mul_right (negative : Bool) (n d : Nat) {k : Nat} (hk : 0 < k) :
    ofUnits negative (n * k) (d * k) = ofUnits negative n d := by
  simp only [ofUnits, roundUnits_mul_right n d hk]

end Binary64

end Dashboard.Numeric
