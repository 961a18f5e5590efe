import Dashboard.Proofs.Numeric.Rounding

/-!
# Whole numbers among doubles

Whole numbers of 32 bits are doubles, and they are compared with other doubles by their places on
the number line (`position?_ofNat`, `le_iff`).
-/

namespace Dashboard.Numeric.Binary64

theorem size_mul_unitsPerOne_le : UInt32.size * unitsPerOne ≤ unitLimit := by
  decide +kernel

theorem lastPlace_dvd_mul_unitsPerOne {n : Nat} (short : n ≤ significandLimit) :
    lastPlace (n * unitsPerOne) ∣ n * unitsPerOne := by
  unfold unitsPerOne
  -- The exponent stays a variable, or the power would be computed.
  generalize 1074 = k
  exact lastPlace_dvd_mul_pow short k

/-- Whole numbers of 32 bits are doubles. -/
theorem ofNat_eq_finite {n : Nat} (small : n < UInt32.size) :
    ∃ x : Magnitude, ofNat n = finite false x ∧ x.units = n * unitsPerOne := by
  have short : n ≤ significandLimit := Nat.le_trans (Nat.le_of_lt small) (by decide)
  have kept := roundUnits_of_dvd (lastPlace_dvd_mul_unitsPerOne short)
  have below : n * unitsPerOne < unitLimit :=
    Nat.lt_of_lt_of_le (Nat.mul_lt_mul_of_pos_right small unitsPerOne_pos) size_mul_unitsPerOne_le
  have fits : roundUnits (n * unitsPerOne) 1 < unitLimit := kept.symm ▸ below
  rw [ofNat, ofQuotient, ofUnits, dif_pos fits]
  exact ⟨_, rfl, kept⟩

theorem position?_ofNat {n : Nat} (small : n < UInt32.size) :
    (ofNat n).position? = some ((n * unitsPerOne : Nat) : Int) := by
  obtain ⟨x, whole, units⟩ := ofNat_eq_finite small
  rw [whole, ← units]
  rfl

theorem position?_zero : zero.position? = some 0 := by
  rw [zero, position?_ofNat (by decide), Nat.zero_mul, Int.natCast_zero]

theorem toNat_signed (negative : Bool) (units : Nat) :
    (signed negative units).toNat = if negative then 0 else units := by
  cases negative <;> simp [signed]

theorem lt_nan (x : Binary64) : x.lt nan = false := by
  unfold lt
  cases x.position? <;> rfl

theorem le_nan (x : Binary64) : x.le nan = false := by
  unfold le
  cases x.position? <;> rfl

section
variable {x y : Binary64} {a b : Int} (left : x.position? = some a) (right : y.position? = some b)
include left right

theorem lt_iff : x.lt y = true ↔ a < b := by
  rw [lt, left, right]
  exact decide_eq_true_iff

theorem le_iff : x.le y = true ↔ a ≤ b := by
  rw [le, left, right]
  exact decide_eq_true_iff

end

theorem zero_lt_infinity (negative : Bool) :
    zero.lt (infinity negative) = true ↔ negative = false := by
  have limit := unitLimit_pos
  rw [lt_iff position?_zero rfl, signed]
  cases negative <;> simp
  omega

theorem ofNat_le_infinity {n : Nat} (small : n < UInt32.size) (negative : Bool) :
    (ofNat n).le (infinity negative) = true ↔ negative = false := by
  have room := size_mul_unitsPerOne_le
  have below : n * unitsPerOne < UInt32.size * unitsPerOne :=
    Nat.mul_lt_mul_of_pos_right small unitsPerOne_pos
  have limit := unitLimit_pos
  rw [le_iff (position?_ofNat small) rfl, signed]
  cases negative <;> simp <;> omega

theorem ofNat_le_finite {n : Nat} (small : n < UInt32.size) (positive : 0 < n) (negative : Bool)
    (x : Magnitude) :
    (ofNat n).le (finite negative x) = true ↔ negative = false ∧ n ≤ x.units / unitsPerOne := by
  have units : 0 < n * unitsPerOne := Nat.mul_pos positive unitsPerOne_pos
  rw [le_iff (position?_ofNat small) rfl, signed, Nat.le_div_iff_mul_le unitsPerOne_pos]
  cases negative with
  | false => rw [if_neg Bool.false_ne_true, Int.ofNat_le, and_iff_right rfl]
  | true =>
    rw [if_pos rfl]
    exact iff_of_false (by omega) (fun both => Bool.noConfusion both.1)

end Dashboard.Numeric.Binary64
