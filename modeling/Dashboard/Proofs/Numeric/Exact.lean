import Dashboard.Proofs.Numeric.Rounded

/-!
# Doubles as exact numbers

An operation on doubles that does not leave the finite range gives the exact result rounded
(`value_add`, `value_mul`, `value_div`, `Decimal.value_nearest`), and `value_floor` is exact.
Finite doubles are compared by their values.
-/

namespace Dashboard.Numeric

open Binary64 (unitsPerOne unitsPerOne_pos)

namespace Magnitude

def value (x : Magnitude) : ℚ :=
  x.units / unitsPerOne

theorem value_nonneg (x : Magnitude) : 0 ≤ x.value := by
  unfold value
  positivity

theorem rounded_value (x : Magnitude) : rounded x.value = x.value :=
  rounded_units x.lastPlace_dvd

theorem units_eq_zero_iff {x : Magnitude} : x.units = 0 ↔ x.value = 0 := by
  rw [value, div_eq_zero_iff, or_iff_left cast_unitsPerOne_pos.ne', Nat.cast_eq_zero]

end Magnitude

namespace Binary64

/-- The number that a finite double is. -/
def value : Binary64 → ℚ
  | finite negative x => if negative then -x.value else x.value
  | _ => 0

theorem value_finite (negative : Bool) (x : Magnitude) :
    (finite negative x).value = signed negative x.units / unitsPerOne := by
  cases negative <;> simp [value, signed, Magnitude.value, neg_div]

theorem value_eq_zero_iff (negative : Bool) (m : Magnitude) :
    (finite negative m).value = 0 ↔ m.units = 0 := by
  rw [Magnitude.units_eq_zero_iff]
  cases negative
  · rfl
  · exact neg_eq_zero

theorem isFinite_of_value {x : Binary64} (nonzero : x.value ≠ 0) : x.isFinite = true := by
  rcases x with _ | _ | _
  · exact absurd rfl nonzero
  · exact absurd rfl nonzero
  · rfl

theorem value_ofUnits {negative : Bool} {n d : Nat} (positive : 0 < d)
    (finite : (ofUnits negative n d).isFinite = true) :
    (ofUnits negative n d).value = rounded (signed negative n / (d * unitsPerOne)) := by
  have size : rounded (n / (d * unitsPerOne : Nat)) = roundUnits n d / unitsPerOne := by
    rw [rounded_div n (Nat.mul_pos positive unitsPerOne_pos),
      roundUnits_mul_right n d unitsPerOne_pos]
  push_cast at size
  unfold ofUnits at *
  split
  · rw [value_finite]
    cases negative <;> simp [signed, neg_div, rounded_neg, size]
  · next large =>
    rw [dif_neg large] at finite
    cases finite

theorem ofUnits_sign {s t : Bool} {n d : Nat} {m : Magnitude} (rounds : ofUnits s n d = finite t m) :
    s = t ∧ m.units = roundUnits n d := by
  unfold ofUnits at rounds
  split at rounds
  · injection rounds with sign size
    exact ⟨sign, (congrArg Magnitude.units size).symm⟩
  · cases rounds

theorem exists_finite {x : Binary64} (isFinite : x.isFinite = true) :
    ∃ negative m, x = finite negative m := by
  rcases x with _ | _ | ⟨negative, m⟩
  · cases isFinite
  · cases isFinite
  · exact ⟨negative, m, rfl⟩

section
variable {x y : Binary64}

theorem isFinite_of_add (sum : (x + y).isFinite = true) :
    x.isFinite = true ∧ y.isFinite = true := by
  change (add x y).isFinite = true at sum
  unfold add at sum
  split at sum
  · cases sum
  · cases sum
  · split at sum <;> cases sum
  · cases sum
  · cases sum
  · exact ⟨rfl, rfl⟩

theorem isFinite_of_mul (product : (x * y).isFinite = true) :
    x.isFinite = true ∧ y.isFinite = true := by
  change (mul x y).isFinite = true at product
  unfold mul at product
  split at product
  · cases product
  · cases product
  · cases product
  · split at product <;> cases product
  · split at product <;> cases product
  · exact ⟨rfl, rfl⟩

theorem isFinite_of_div (quotient : (x / y).isFinite = true) : x.isFinite = true := by
  change (div x y).isFinite = true at quotient
  unfold div at quotient
  split at quotient <;> first | cases quotient | rfl

theorem isFinite_of_floor (whole : x.floor.isFinite = true) : x.isFinite = true := by
  rcases x with _ | _ | _
  · cases whole
  · cases whole
  · rfl

theorem finite_add_finite (s t : Bool) (a b : Magnitude) :
    finite s a + finite t b =
      ofUnits (if signed s a.units + signed t b.units = 0 then s && t
        else signed s a.units + signed t b.units < 0)
        (signed s a.units + signed t b.units).natAbs 1 :=
  rfl

/-- The sign of a sum of zero does not matter. -/
theorem signed_natAbs (zero : Bool) (z : ℤ) :
    signed (if z = 0 then zero else z < 0) z.natAbs = z := by
  unfold signed
  rcases lt_trichotomy z 0 with negative | rfl | positive
  · rw [if_neg negative.ne, if_pos (decide_eq_true negative)]
    omega
  · cases zero <;> rfl
  · rw [if_neg positive.ne', if_neg (by simpa using positive.le)]
    omega

theorem value_add (sum : (x + y).isFinite = true) :
    (x + y).value = rounded (x.value + y.value) := by
  obtain ⟨left, right⟩ := isFinite_of_add sum
  obtain ⟨s, a, rfl⟩ := exists_finite left
  obtain ⟨t, b, rfl⟩ := exists_finite right
  refine (value_ofUnits one_pos sum).trans (congrArg rounded ?_)
  rw [signed_natAbs, value_finite, value_finite, Nat.cast_one, one_mul, Int.cast_add, add_div]

theorem value_mul (product : (x * y).isFinite = true) :
    (x * y).value = rounded (x.value * y.value) := by
  obtain ⟨left, right⟩ := isFinite_of_mul product
  obtain ⟨s, a, rfl⟩ := exists_finite left
  obtain ⟨t, b, rfl⟩ := exists_finite right
  refine (value_ofUnits unitsPerOne_pos product).trans (congrArg rounded ?_)
  rw [value_finite, value_finite, div_mul_div_comm]
  cases s <;> cases t <;> simp [signed]

theorem finite_div_finite (s t : Bool) (a b : Magnitude) :
    finite s a / finite t b =
      if b.units = 0 then if a.units = 0 then nan else infinity (s != t)
      else ofQuotient (s != t) a.units b.units :=
  rfl

theorem value_div (quotient : (x / y).isFinite = true) (divisor : y.isFinite = true) :
    (x / y).value = rounded (x.value / y.value) := by
  obtain ⟨s, a, rfl⟩ := exists_finite (isFinite_of_div quotient)
  obtain ⟨t, b, rfl⟩ := exists_finite divisor
  rw [finite_div_finite] at *
  split at quotient
  · split at quotient <;> cases quotient
  · next nonzero =>
    have units := cast_unitsPerOne_pos
    have size : (0 : ℚ) < b.units := by exact_mod_cast Nat.pos_of_ne_zero nonzero
    rw [if_neg nonzero]
    refine (value_ofUnits (Nat.pos_of_ne_zero nonzero) quotient).trans (congrArg rounded ?_)
    rw [value_finite, value_finite]
    cases s <;> cases t <;> simp [signed] <;> field_simp

end

/-! ### Order and whole parts -/

section
variable {x y : Binary64} (left : x.isFinite = true) (right : y.isFinite = true)
include left right

theorem le_iff_value : x.le y = true ↔ x.value ≤ y.value := by
  obtain ⟨s, a, rfl⟩ := exists_finite left
  obtain ⟨t, b, rfl⟩ := exists_finite right
  rw [le_iff rfl rfl, value_finite, value_finite, div_le_div_iff_of_pos_right cast_unitsPerOne_pos,
    Int.cast_le]

theorem equals_iff_value : x.equals y = true ↔ x.value = y.value := by
  obtain ⟨s, a, rfl⟩ := exists_finite left
  obtain ⟨t, b, rfl⟩ := exists_finite right
  rw [value_finite, value_finite, div_left_inj' cast_unitsPerOne_pos.ne', Int.cast_inj]
  exact decide_eq_true_iff

end

theorem value_ofQuotient {negative : Bool} {n d : Nat} (positive : 0 < d)
    (finite : (ofQuotient negative n d).isFinite = true) :
    (ofQuotient negative n d).value = rounded (signed negative n / d) := by
  have units := cast_unitsPerOne_pos
  refine (value_ofUnits positive finite).trans (congrArg rounded ?_)
  rw [← mul_div_mul_right _ (d : ℚ) units.ne']
  cases negative <;> simp [signed]

/-- A double is a whole number, or a short one. -/
theorem unitsPerOne_dvd_or_lt (m : Magnitude) :
    unitsPerOne ∣ m.units ∨ m.units < significandLimit * unitsPerOne := by
  have bits := lt_mul_lastPlace m.units
  have dvd := m.lastPlace_dvd
  unfold lastPlace unitsPerOne at *
  generalize 1074 = k
  rcases Nat.le_total k (m.units.log2 - 52) with coarse | fine
  · exact .inl (Nat.dvd_trans (Nat.pow_dvd_pow 2 coarse) dvd)
  · exact .inr (Nat.lt_of_lt_of_le bits (Nat.mul_le_mul_left _ (Nat.pow_le_pow_right (by decide) fine)))

theorem ofQuotient_whole (negative : Bool) {n : Nat}
    (short : lastPlace (n * unitsPerOne) ∣ n * unitsPerOne) (bounded : n * unitsPerOne < unitLimit) :
    (ofQuotient negative n 1).isFinite = true ∧
      (ofQuotient negative n 1).value = signed negative n := by
  have whole : ofQuotient negative n 1 = finite negative ⟨n * unitsPerOne, bounded, short⟩ :=
    ofUnits_units negative ⟨n * unitsPerOne, bounded, short⟩
  have units := cast_unitsPerOne_pos
  rw [whole, value_finite]
  refine ⟨rfl, ?_⟩
  cases negative <;> simp [signed] <;> field_simp

theorem significandLimit_mul_lt : significandLimit * unitsPerOne < unitLimit := by
  decide +kernel

/-- The whole numbers next to a double are doubles. -/
theorem whole_of_near {m : Magnitude} {n : Nat} (above : n * unitsPerOne < m.units + unitsPerOne)
    (below : m.units < n * unitsPerOne + unitsPerOne) :
    lastPlace (n * unitsPerOne) ∣ n * unitsPerOne ∧ n * unitsPerOne < unitLimit := by
  have positive := unitsPerOne_pos
  rcases unitsPerOne_dvd_or_lt m with ⟨k, whole⟩ | short
  · have same : n = k := by
      rw [whole, Nat.mul_comm unitsPerOne, ← Nat.succ_mul] at above
      rw [whole, Nat.mul_comm unitsPerOne, ← Nat.succ_mul] at below
      have left := Nat.lt_of_mul_lt_mul_right above
      have right := Nat.lt_of_mul_lt_mul_right below
      omega
    have units : n * unitsPerOne = m.units := by rw [same, whole, Nat.mul_comm]
    rw [units]
    exact ⟨m.lastPlace_dvd, m.units_lt⟩
  · have small : n ≤ significandLimit := by
      have room : n * unitsPerOne < (significandLimit + 1) * unitsPerOne := by
        rw [Nat.succ_mul]
        omega
      exact Nat.le_of_lt_succ (Nat.lt_of_mul_lt_mul_right room)
    exact ⟨lastPlace_dvd_mul_unitsPerOne small,
      Nat.lt_of_le_of_lt (Nat.mul_le_mul_right _ small) significandLimit_mul_lt⟩

/-- The whole part of a double is a double, so nothing is rounded. -/
theorem value_floor {x : Binary64} (finite : x.isFinite = true) :
    x.floor.isFinite = true ∧ x.floor.value = ⌊x.value⌋ := by
  obtain ⟨negative, m, rfl⟩ := exists_finite finite
  have positive := unitsPerOne_pos
  have units := cast_unitsPerOne_pos
  cases negative with
  | false =>
    have split := Nat.div_add_mod' m.units unitsPerOne
    have rest := Nat.mod_lt m.units positive
    obtain ⟨short, bounded⟩ :=
      whole_of_near (m := m) (n := m.units / unitsPerOne) (by omega) (by omega)
    obtain ⟨fits, value⟩ := ofQuotient_whole false short bounded
    refine ⟨fits, value.trans (congrArg Int.cast ?_)⟩
    rw [value_finite, eq_comm, Int.floor_eq_iff, le_div_iff₀ units, div_lt_iff₀ units]
    generalize m.units / unitsPerOne = n at *
    have lower : n * unitsPerOne ≤ m.units := by omega
    have upper : m.units < (n + 1) * unitsPerOne := by rw [Nat.succ_mul]; omega
    simp only [signed, Bool.false_eq_true, if_false, Int.cast_natCast]
    exact ⟨by exact_mod_cast lower, by exact_mod_cast upper⟩
  | true =>
    have split := Nat.div_add_mod' (m.units + (unitsPerOne - 1)) unitsPerOne
    have rest := Nat.mod_lt (m.units + (unitsPerOne - 1)) positive
    obtain ⟨short, bounded⟩ := whole_of_near (m := m)
      (n := (m.units + (unitsPerOne - 1)) / unitsPerOne) (by omega) (by omega)
    obtain ⟨fits, value⟩ := ofQuotient_whole true short bounded
    refine ⟨fits, value.trans (congrArg Int.cast ?_)⟩
    rw [value_finite, eq_comm, Int.floor_eq_iff, le_div_iff₀ units, div_lt_iff₀ units]
    generalize (m.units + (unitsPerOne - 1)) / unitsPerOne = n at *
    have upper : m.units ≤ n * unitsPerOne := by omega
    have lower : n * unitsPerOne < m.units + unitsPerOne := by omega
    have upper' : (m.units : ℚ) ≤ n * unitsPerOne := by exact_mod_cast upper
    have lower' : (n * unitsPerOne : ℚ) < m.units + unitsPerOne := by exact_mod_cast lower
    simp only [signed, if_true, Int.cast_neg, Int.cast_natCast]
    constructor <;> linarith

end Binary64

namespace Decimal

theorem value_eq (d : Decimal) :
    d.value = Binary64.signed d.negative (d.digits * Nat.pow 10 d.exponent.toNat) /
      (Nat.pow 10 (-d.exponent).toNat : Nat) := by
  rw [value, size_eq]
  cases d.negative <;> simp [Binary64.signed, neg_div]

theorem value_nearest {d : Decimal} (finite : d.nearest.isFinite = true) :
    d.nearest.value = rounded d.value := by
  rw [nearest_eq] at *
  rw [value_eq]
  exact Binary64.value_ofQuotient (Nat.pow_pos (by decide)) finite

theorem nearest_eq_finite_iff (d : Decimal) (negative : Bool) (x : Magnitude) :
    d.nearest = .finite negative x ↔ d.negative = negative ∧ rounded d.size = x.value := by
  have power : 0 < Nat.pow 10 (-d.exponent).toNat := Nat.pow_pos (by decide)
  rw [size_eq, rounded_div _ power, Magnitude.value, div_left_inj' cast_unitsPerOne_pos.ne',
    Nat.cast_inj, nearest_eq, Binary64.ofQuotient, Binary64.ofUnits]
  constructor
  · intro read
    split at read
    · injection read with sign size
      exact ⟨sign, congrArg Magnitude.units size⟩
    · cases read
  · rintro ⟨rfl, same⟩
    rw [dif_pos (same ▸ x.units_lt)]
    congr 1
    exact Magnitude.ext same

/-! ### Powers of ten -/

theorem tenPow_isFinite {k : Nat} (few : k ≤ 22) : (tenPow k).isFinite = true := by
  have room : 10 ^ 22 < finiteBound := by decide +kernel
  rw [tenPow, nearest_isFinite_iff, abs_value, size]
  rw [Nat.cast_one, one_mul, zpow_natCast]
  have bound : 10 ^ k < finiteBound := lt_of_le_of_lt (Nat.pow_le_pow_right (by decide) few) room
  exact_mod_cast bound

theorem value_tenPow {k : Nat} (few : k ≤ 22) : (tenPow k).value = 10 ^ k := by
  have value : Decimal.value { digits := 1, exponent := k } = 10 ^ k := by
    simp [Decimal.value, size]
  rw [tenPow, value_nearest (tenPow_isFinite few), value, rounded_ten_pow few]

end Decimal

end Dashboard.Numeric
