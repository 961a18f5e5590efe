import Mathlib.Data.Int.Log
import Dashboard.Proofs.Numeric.Exact

/-!
# A half added and rounded down

The sum of a double and one half is rounded before its whole part is taken. Below `2 ^ 52` that
changes the whole part of one sum only, the one with the largest double below one half
(`floor_rounded_add_half`). A number that is rounded before one half is added may be lifted to
the next half, and then it is rounded up (`floor_halfUp`).
-/

namespace Dashboard.Numeric

open Binary64 (unitsPerOne unitsPerOne_pos)

theorem exists_units {q : ℚ} (exact : rounded q = q) (nonneg : 0 ≤ q) :
    ∃ u : Nat, lastPlace u ∣ u ∧ q = u / unitsPerOne := by
  refine ⟨_, lastPlace_dvd_roundUnits (q.num.natAbs * unitsPerOne) q.den, ?_⟩
  rw [rounded_of_nonneg nonneg] at exact
  exact exact.symm

theorem two_zpow_mul_unitsPerOne {e : ℤ} {b : Nat} (exponent : e + 1074 = b) :
    2 ^ e * (unitsPerOne : ℚ) = 2 ^ b := by
  rw [cast_unitsPerOne, ← zpow_add₀ two_ne_zero, exponent, zpow_natCast]

theorem exists_multiple {q : ℚ} (exact : rounded q = q) {a : ℤ} (normal : -1022 ≤ a)
    (large : 2 ^ a ≤ |q|) : ∃ k : ℤ, q = k * 2 ^ (a - 52) := by
  have natural {q : ℚ} (exact : rounded q = q) (nonneg : 0 ≤ q) (large : 2 ^ a ≤ q) :
      ∃ k : ℤ, q = k * 2 ^ (a - 52) := by
    have units := cast_unitsPerOne_pos
    obtain ⟨u, short, rfl⟩ := exists_units exact nonneg
    obtain ⟨b, exponent⟩ := Int.eq_ofNat_of_zero_le (by omega : 0 ≤ a + 1022)
    have size : 2 ^ (b + 52) ≤ u := by
      rw [le_div_iff₀ units, two_zpow_mul_unitsPerOne (b := b + 52) (by omega)] at large
      exact_mod_cast large
    have nonzero : u ≠ 0 := (lt_of_lt_of_le (Nat.two_pow_pos _) size).ne'
    have log : b + 52 ≤ u.log2 := (Nat.le_log2 nonzero).mpr size
    have place : 2 ^ b ∣ u := (Nat.pow_dvd_pow 2 (by omega)).trans short
    obtain ⟨k, rfl⟩ := place
    refine ⟨k, ?_⟩
    rw [div_eq_iff units.ne', mul_assoc, two_zpow_mul_unitsPerOne (b := b) (by omega), mul_comm]
    push_cast
    rfl
  rcases le_total 0 q with nonneg | negative
  · exact natural exact nonneg (by rwa [abs_of_nonneg nonneg] at large)
  · obtain ⟨k, opposite⟩ := natural (q := -q) (by rw [rounded_neg, exact]) (by linarith)
      (by rwa [abs_of_nonpos negative] at large)
    exact ⟨-k, by rw [Int.cast_neg, neg_mul, ← opposite, neg_neg]⟩

/-! ### One half added -/

/-- A double below `n + 1 / 2` that is no finer than `2 ^ (a - 52)` stays below `n + 1`. -/
theorem rounded_add_half_lt_of_size {q : ℚ} (exact : rounded q = q) {a n : ℤ} (normal : -1022 ≤ a)
    (fine : a ≤ 51) (large : 2 ^ a ≤ |q|) (below : q < n + 1 / 2)
    (short : |(n + 1) * 2 ^ (52 - a).toNat - 1| ≤ 2 ^ 53) : rounded (q + 1 / 2) < n + 1 := by
  obtain ⟨k, multiple⟩ := exists_multiple exact normal large
  have grid : (0 : ℚ) < 2 ^ (a - 52) := by positivity
  have one : ((2 ^ (52 - a).toNat : ℤ) : ℚ) * 2 ^ (a - 52) = 1 := by
    have exponent : a - 52 = -((52 - a).toNat : ℤ) := by omega
    rw [exponent, Int.cast_pow, Int.cast_ofNat, zpow_neg, zpow_natCast]
    exact mul_inv_cancel₀ (by positivity)
  have half : ((2 ^ (51 - a).toNat : ℤ) : ℚ) * 2 ^ (a - 52) = 1 / 2 := by
    have exponent : (52 - a).toNat = (51 - a).toNat + 1 := by omega
    rw [exponent, pow_succ] at one
    push_cast at one ⊢
    linarith
  -- The sum and the whole number are multiples of one grid, so one step is between them.
  have count : k + 2 ^ (51 - a).toNat ≤ (n + 1) * 2 ^ (52 - a).toNat - 1 := by
    have less : ((k + 2 ^ (51 - a).toNat : ℤ) : ℚ) < ((n + 1) * 2 ^ (52 - a).toNat : ℤ) := by
      refine lt_of_mul_lt_mul_right ?_ grid.le
      rw [Int.cast_add, add_mul, half, ← multiple, Int.cast_mul, mul_assoc, one]
      push_cast
      linarith
    have less' : k + 2 ^ (51 - a).toNat < (n + 1) * 2 ^ (52 - a).toNat := by exact_mod_cast less
    omega
  have le : q + 1 / 2 ≤ ((n + 1) * 2 ^ (52 - a).toNat - 1 : ℤ) * 2 ^ (a - 52) := by
    calc q + 1 / 2 = (k + 2 ^ (51 - a).toNat : ℤ) * 2 ^ (a - 52) := by
          rw [Int.cast_add, add_mul, half, ← multiple]
      _ ≤ _ := mul_le_mul_of_nonneg_right (by exact_mod_cast count) grid.le
  have kept := rounded_mono le
  rw [rounded_short short (by omega)] at kept
  refine kept.trans_lt ?_
  rw [Int.cast_sub, sub_mul, Int.cast_mul, mul_assoc, one]
  push_cast
  linarith

def belowHalf : ℚ :=
  1 / 2 - 1 / 2 ^ 54

theorem count_le_of_log2 {m : Nat} (positive : 0 < m) (small : m < 2 ^ 52) :
    m.log2 ≤ 51 ∧ (m + 1) * 2 ^ (52 - m.log2) ≤ 2 ^ 53 := by
  have log : m.log2 < 52 := (Nat.log2_lt positive.ne').mpr small
  have above : m + 1 ≤ 2 ^ (m.log2 + 1) := Nat.lt_log2_self
  refine ⟨by omega, (Nat.mul_le_mul_right _ above).trans ?_⟩
  rw [← Nat.pow_add]
  exact Nat.pow_le_pow_right (by decide) (by omega)

theorem two_zpow_log2_le {m : Nat} (positive : 0 < m) : (2 : ℚ) ^ (m.log2 : ℤ) ≤ m := by
  rw [zpow_natCast]
  exact_mod_cast Nat.log2_self_le positive.ne'

theorem rounded_add_half_lt_one {q : ℚ} (exact : rounded q = q) (below : q < 1 / 2)
    (other : q ≠ belowHalf) : rounded (q + 1 / 2) < 1 := by
  rcases lt_or_ge q (1 / 4) with low | high
  · have le := rounded_mono (by linarith : q + 1 / 2 ≤ (3 : ℤ) * 2 ^ (-2 : ℤ))
    rw [rounded_short (by norm_num) (by decide)] at le
    exact le.trans_lt (by norm_num)
  · have large : (2 : ℚ) ^ (-2 : ℤ) ≤ |q| := by
      rw [abs_of_nonneg (by linarith)]
      exact le_trans (by norm_num) high
    obtain ⟨k, multiple⟩ := exists_multiple exact (by decide) large
    have scale : (2 : ℚ) ^ (-2 - 52 : ℤ) = 1 / 2 ^ 54 := by norm_num
    rw [scale] at multiple
    have few : k < 2 ^ 53 := by
      rw [multiple] at below
      have cast : (k : ℚ) < (2 ^ 53 : ℤ) := by
        push_cast
        linarith
      exact_mod_cast cast
    have fewer : k ≠ 2 ^ 53 - 1 := by
      rintro rfl
      refine other ?_
      rw [multiple, belowHalf]
      norm_num
    have count : (k : ℚ) ≤ (2 ^ 53 - 2 : ℤ) := by exact_mod_cast (by omega : k ≤ 2 ^ 53 - 2)
    have le := rounded_mono (q := q + 1 / 2) (r := (2 ^ 53 - 1 : ℤ) * 2 ^ (-53 : ℤ)) (by
      rw [multiple]
      push_cast at count ⊢
      norm_num at count ⊢
      linarith)
    rw [rounded_short (by norm_num) (by decide)] at le
    exact le.trans_lt (by norm_num)

theorem rounded_add_half_lt {q : ℚ} (exact : rounded q = q) {n : ℤ} (small : |n| < 2 ^ 52)
    (below : q < n + 1 / 2) (other : q ≠ belowHalf) : rounded (q + 1 / 2) < n + 1 := by
  rw [abs_lt] at small
  -- The grid is that of the whole number next to the double, on the side of zero.
  rcases lt_trichotomy n 0 with negative | rfl | positive
  · obtain ⟨m, rfl⟩ : ∃ m : Nat, n = -m - 1 := ⟨(-n - 1).toNat, by omega⟩
    push_cast at below
    rcases Nat.eq_zero_or_pos m with rfl | some
    · refine rounded_add_half_lt_of_size exact (a := -1) (by decide) (by decide) ?_ ?_ (by decide)
      · rw [abs_of_nonpos (by push_cast at below; linarith)]
        norm_num at below ⊢
        linarith
      · exact_mod_cast below
    · obtain ⟨fine, count⟩ := count_le_of_log2 some (by omega)
      have size := two_zpow_log2_le some
      have positive : (0 : ℚ) < m := by exact_mod_cast some
      refine rounded_add_half_lt_of_size exact (a := m.log2) (by omega) (by omega) ?_ ?_ ?_
      · rw [abs_of_nonpos (by linarith)]
        linarith
      · push_cast
        exact below
      · have power : 0 < 2 ^ (52 - m.log2) := Nat.two_pow_pos _
        have exponent : (52 - (m.log2 : ℤ)).toNat = 52 - m.log2 := by omega
        have regroup : ((-m - 1 : ℤ) + 1) * 2 ^ (52 - m.log2) - 1 =
            -((m * 2 ^ (52 - m.log2) + 1 : Nat) : ℤ) := by
          push_cast
          ring
        rw [exponent, regroup, abs_neg, Nat.abs_cast]
        rw [Nat.succ_mul] at count
        exact_mod_cast (by omega : m * 2 ^ (52 - m.log2) + 1 ≤ 2 ^ 53)
  · rw [Int.cast_zero, zero_add] at *
    exact rounded_add_half_lt_one exact below other
  · obtain ⟨m, rfl⟩ := Int.eq_ofNat_of_zero_le positive.le
    rcases lt_or_ge q m with less | more
    · have le := rounded_mono (q := q + 1 / 2) (r := (2 * m + 1 : ℤ) / 2) (by
        push_cast
        linarith)
      rw [rounded_half (by rw [abs_of_nonneg] <;> omega)] at le
      push_cast at le ⊢
      linarith
    · obtain ⟨fine, count⟩ := count_le_of_log2 (m := m) (by omega) (by omega)
      have size := two_zpow_log2_le (m := m) (by omega)
      refine rounded_add_half_lt_of_size exact (a := m.log2) (by omega) (by omega)
        (size.trans (more.trans (le_abs_self q))) below ?_
      have power : 0 < 2 ^ (52 - m.log2) := Nat.two_pow_pos _
      have exponent : (52 - (m.log2 : ℤ)).toNat = 52 - m.log2 := by omega
      rw [exponent, abs_le]
      have count' : ((m : ℤ) + 1) * 2 ^ (52 - m.log2) ≤ 2 ^ 53 := by exact_mod_cast count
      have positive' : 0 < ((m : ℤ) + 1) * 2 ^ (52 - m.log2) := by positivity
      exact ⟨by omega, by omega⟩

/-- Below `2 ^ 52` a double is rounded half up exactly, except for the largest below one half. -/
theorem floor_rounded_add_half {q : ℚ} (exact : rounded q = q) (small : |⌊q + 1 / 2⌋| < 2 ^ 52)
    (other : q ≠ belowHalf) : ⌊rounded (q + 1 / 2)⌋ = ⌊q + 1 / 2⌋ := by
  have bounds := abs_lt.mp small
  rw [Int.floor_eq_iff]
  constructor
  · have lower := rounded_mono (Int.floor_le (q + 1 / 2))
    rwa [rounded_whole (by omega)] at lower
  · have upper := Int.lt_floor_add_one (q + 1 / 2)
    exact rounded_add_half_lt exact small (by linarith) other

/-! ### Numbers that are rounded first -/

/-- Rounding takes the number to the next half, or just below one half, whose sum with one half is
rounded to one. -/
def Lifted (s : ℚ) : Prop :=
  rounded s = ⌊s + 1 / 2⌋ + 1 / 2 ∨ rounded s = belowHalf

instance (s : ℚ) : Decidable (Lifted s) :=
  inferInstanceAs (Decidable (_ ∨ _))

theorem rounded_belowHalf : rounded (belowHalf + 1 / 2) = 1 := by
  have units : roundUnits ((2 ^ 54 - 1) * unitsPerOne) (2 ^ 54) = unitsPerOne := by
    decide +kernel
  have quotient := rounded_div (2 ^ 54 - 1) (d := 2 ^ 54) (by decide)
  have sum : belowHalf + 1 / 2 = (2 ^ 54 - 1 : Nat) / (2 ^ 54 : Nat) := by
    rw [belowHalf]
    norm_num
  rw [sum, quotient, units, div_self cast_unitsPerOne_pos.ne']

theorem floor_of_rounded_belowHalf {s : ℚ} (below : rounded s = belowHalf) : ⌊s + 1 / 2⌋ = 0 := by
  have half := rounded_half (n := 1) (by decide)
  rw [Int.cast_one] at half
  rw [Int.floor_eq_iff, Int.cast_zero]
  constructor
  · by_contra negative
    have le := rounded_mono (by linarith : s ≤ 0)
    rw [below, rounded_zero, belowHalf] at le
    norm_num at le
  · by_contra large
    have le := rounded_mono (by linarith : 1 / 2 ≤ s)
    rw [below, half, belowHalf] at le
    norm_num at le

theorem abs_floor_add_half_lt {s : ℚ} (small : |s| < 2 ^ 52 - 1 / 2) : |⌊s + 1 / 2⌋| < 2 ^ 52 := by
  have bounds := abs_lt.mp small
  have floor_le := Int.floor_le (s + 1 / 2)
  have lt_floor := Int.lt_floor_add_one (s + 1 / 2)
  have low : (-(2 ^ 52 : ℤ) : ℚ) < ⌊s + 1 / 2⌋ := by
    push_cast
    linarith
  have high : (⌊s + 1 / 2⌋ : ℚ) < (2 ^ 52 : ℤ) := by
    push_cast
    linarith
  rw [abs_lt]
  exact ⟨by exact_mod_cast low, by exact_mod_cast high⟩

/-- One half is added to a rounded number: what is lifted is rounded up, and nothing else is
changed. -/
theorem floor_halfUp {s : ℚ} (small : |s| < 2 ^ 52 - 1 / 2) :
    ⌊rounded (rounded s + 1 / 2)⌋ = ⌊s + 1 / 2⌋ + if Lifted s then 1 else 0 := by
  have size := abs_lt.mp (abs_floor_add_half_lt small)
  have floor_le := Int.floor_le (s + 1 / 2)
  have lt_floor := Int.lt_floor_add_one (s + 1 / 2)
  have belowHalf_floor := floor_of_rounded_belowHalf (s := s)
  obtain ⟨n, halfUp⟩ : ∃ n : ℤ, ⌊s + 1 / 2⌋ = n := ⟨_, rfl⟩
  rw [halfUp] at size floor_le lt_floor belowHalf_floor ⊢
  split
  · next lifted =>
    unfold Lifted at lifted
    rw [halfUp] at lifted
    rcases lifted with next | below
    · have sum : rounded s + 1 / 2 = (n + 1 : ℤ) := by
        rw [next]
        push_cast
        ring
      rw [sum, rounded_whole (by rw [abs_le]; omega), Int.floor_intCast]
    · rw [below, rounded_belowHalf, belowHalf_floor below]
      exact Int.floor_one
  · next unlifted =>
    unfold Lifted at unlifted
    rw [halfUp, not_or] at unlifted
    have upper := rounded_mono (q := s) (r := (2 * n + 1 : ℤ) / 2) (by push_cast; linarith)
    have lower := rounded_mono (q := (2 * n - 1 : ℤ) / 2) (r := s) (by push_cast; linarith)
    rw [rounded_half (by rw [abs_le]; omega)] at upper lower
    push_cast at upper lower
    have below : rounded s < n + 1 / 2 := lt_of_le_of_ne (by linarith) unlifted.1
    have floor : ⌊rounded s + 1 / 2⌋ = n := by
      rw [Int.floor_eq_iff]
      constructor <;> linarith
    rw [floor_rounded_add_half (rounded_rounded s) (by rw [floor, abs_lt]; omega) unlifted.2, floor,
      add_zero]

theorem not_lifted_of_whole {n : ℤ} (small : |n| ≤ 2 ^ 53) : ¬Lifted n := by
  unfold Lifted
  rw [rounded_whole small]
  rintro (half | below)
  · have lt_floor := Int.lt_floor_add_one (n + 1 / 2 : ℚ)
    linarith
  · rw [belowHalf] at below
    have low : (0 : ℚ) < n := by
      rw [below]
      norm_num
    have high : (n : ℚ) < 1 := by
      rw [below]
      norm_num
    have positive : 0 < n := by exact_mod_cast low
    have less : n < 1 := by exact_mod_cast high
    omega

/-- A number is not lifted if it is not too many steps from zero, and so no less than one step from
the next half. -/
theorem not_lifted_of_steps {s step : ℚ} (positive : 0 < step) (few : |s| ≤ 2 ^ 50 * step)
    (steps : ∃ n : ℤ, ⌊s + 1 / 2⌋ + 1 / 2 - s = n * step) : ¬Lifted s := by
  intro lifted
  obtain ⟨n, apart⟩ := steps
  have lt_floor := Int.lt_floor_add_one (s + 1 / 2)
  have next : step ≤ ⌊s + 1 / 2⌋ + 1 / 2 - s := by
    have some : (0 : ℚ) < n := pos_of_mul_pos_left (by rw [← apart]; linarith) positive.le
    have one : (1 : ℚ) ≤ n := by exact_mod_cast Int.add_one_le_of_lt (Int.cast_pos.mp some)
    rw [apart]
    exact le_mul_of_one_le_left positive.le one
  have reached : ⌊s + 1 / 2⌋ + 1 / 2 - 1 / 2 ^ 54 ≤ rounded s := by
    rcases lifted with half | below
    · linarith
    · rw [below, floor_of_rounded_belowHalf below, belowHalf]
      norm_num
  have large : 1 / 4 ≤ |s| := by
    by_contra small
    have bounds := abs_lt.mp (lt_of_not_ge small)
    have zero : ⌊s + 1 / 2⌋ = 0 := by
      rw [Int.floor_eq_iff]
      constructor <;> norm_num <;> linarith
    have most := rounded_mono (by norm_num; linarith : s ≤ (1 : ℤ) * 2 ^ (-2 : ℤ))
    rw [rounded_short (by decide) (by decide)] at most
    rw [zero] at reached
    norm_num at reached most
    linarith
  have near := (abs_le.mp (abs_rounded_sub_le s)).2
  have unit : (1 / 2 / unitsPerOne : ℚ) ≤ 1 / 2 ^ 60 := by
    have room : 2 ^ 60 ≤ unitsPerOne := by decide +kernel
    have room' : (2 ^ 60 : ℚ) ≤ unitsPerOne := by exact_mod_cast room
    rw [div_div]
    exact one_div_le_one_div_of_le (by positivity) (by linarith)
  linarith

/-! ### The sum of a double and one half -/

namespace Binary64

theorem exists_half : ∃ h : Magnitude, half = finite false h ∧ 2 * h.units = unitsPerOne := by
  have isFinite : half.isFinite = true := by decide +kernel
  have units : 2 * roundUnits (1 * unitsPerOne) 2 = unitsPerOne := by decide +kernel
  obtain ⟨s, h, finite⟩ := exists_finite isFinite
  obtain ⟨rfl, size⟩ := ofUnits_sign finite
  exact ⟨h, finite, by rw [size, units]⟩

theorem value_half : half.value = 1 / 2 := by
  obtain ⟨h, finite, units⟩ := exists_half
  have positive := cast_unitsPerOne_pos
  have cast : (2 * h.units : ℚ) = unitsPerOne := by exact_mod_cast units
  rw [finite, value_finite, div_eq_iff positive.ne']
  simp only [signed, Bool.false_eq_true, if_false, Int.cast_natCast]
  linarith

/-- A sum with one half is never minus zero. -/
theorem add_half_ne_zero {x : Binary64} {m : Magnitude} (sum : x + half = finite true m) :
    m.units ≠ 0 := by
  have isFinite : (x + half).isFinite = true := by rw [sum]; rfl
  obtain ⟨s, a, rfl⟩ := exists_finite (isFinite_of_add isFinite).1
  obtain ⟨h, half_eq, -⟩ := exists_half
  rw [half_eq, finite_add_finite] at sum
  obtain ⟨sign, size⟩ := ofUnits_sign sum
  have nonzero : signed s a.units + signed false h.units ≠ 0 := by
    intro zero
    rw [if_pos zero, Bool.and_false] at sign
    cases sign
  have one : roundUnits 1 1 = 1 := by decide
  have least : roundUnits 1 1 ≤ _ :=
    roundUnits_mono (Nat.pos_of_ne_zero (Int.natAbs_ne_zero.mpr nonzero)) 1
  omega

/-- Adding one half and rounding down, zero gets no minus. -/
theorem floor_add_half_sign {x : Binary64} {negative : Bool} {m : Magnitude}
    (whole : (x + half).floor = finite negative m) :
    negative = decide ((x + half).floor.value < 0) := by
  have isFinite : (x + half).isFinite = true := isFinite_of_floor (by rw [whole]; rfl)
  obtain ⟨t, b, sum⟩ := exists_finite isFinite
  have value := (value_floor isFinite).2
  have size := m.value_nonneg
  cases t with
  | false =>
    have quotient : ofQuotient false (b.units / unitsPerOne) 1 = finite negative m := by
      rw [← whole, sum]
      rfl
    obtain ⟨rfl, -⟩ := ofUnits_sign quotient
    rw [whole, eq_comm, decide_eq_false_iff_not]
    exact size.not_gt
  | true =>
    have quotient : ofQuotient true ((b.units + (unitsPerOne - 1)) / unitsPerOne) 1 =
        finite negative m := by
      rw [← whole, sum]
      rfl
    obtain ⟨rfl, -⟩ := ofUnits_sign quotient
    have positive : 0 < b.value := by
      have units : (0 : ℚ) < b.units := by exact_mod_cast Nat.pos_of_ne_zero (add_half_ne_zero sum)
      exact div_pos units cast_unitsPerOne_pos
    have below : ⌊(x + half).value⌋ < 0 := by
      rw [Int.floor_lt, sum]
      exact_mod_cast neg_lt_zero.mpr positive
    rw [value, eq_comm, decide_eq_true_iff]
    exact_mod_cast below

theorem coarsestPlace_sizes :
    Nat.pow 2 2097 + coarsestPlace ≤ unitLimit ∧ unitLimit = significandLimit * coarsestPlace ∧
      unitsPerOne < coarsestPlace := by
  decide +kernel

theorem coarsestPlace_dvd {m : Magnitude} (large : Nat.pow 2 2097 ≤ m.units) :
    coarsestPlace ∣ m.units := by
  have log : 2097 ≤ m.units.log2 := by
    generalize 2097 = k at *
    have nonzero : m.units ≠ 0 := (Nat.lt_of_lt_of_le (Nat.pow_pos (by decide)) large).ne'
    exact (Nat.le_log2 nonzero).mpr large
  have exponent : 2045 ≤ m.units.log2 - 52 := by omega
  refine Nat.dvd_trans ?_ m.lastPlace_dvd
  unfold lastPlace coarsestPlace
  generalize 2045 = k at *
  exact Nat.pow_dvd_pow 2 exponent

/-- The largest double is one of its places below the limit, and one half is less than that. -/
theorem units_add_half_lt (m : Magnitude) :
    2 * m.units + unitsPerOne < 2 * (finiteBound * unitsPerOne) := by
  obtain ⟨middle, -⟩ := finiteBound_units
  obtain ⟨normal, places, half⟩ := coarsestPlace_sizes
  by_contra large
  obtain ⟨k, units⟩ := coarsestPlace_dvd (m := m) (by omega)
  have few : k < significandLimit := by
    have bounded := m.units_lt
    rw [units, places, Nat.mul_comm] at bounded
    exact Nat.lt_of_mul_lt_mul_right bounded
  have whole : (k + 1) * coarsestPlace ≤ unitLimit := places ▸ Nat.mul_le_mul_right _ few
  rw [Nat.succ_mul, Nat.mul_comm, ← units] at whole
  omega

theorem isFinite_add_half {x : Binary64} (isFinite : x.isFinite = true) :
    (x + half).isFinite = true := by
  obtain ⟨s, a, rfl⟩ := exists_finite isFinite
  obtain ⟨h, half_eq, units⟩ := exists_half
  have room := units_add_half_lt a
  have size : (signed s a.units + signed false h.units).natAbs < finiteBound * unitsPerOne := by
    cases s <;> simp only [signed, Bool.false_eq_true, if_true, if_false] <;> omega
  have bounded := (roundUnits_lt_iff unitsPerOne_pos).mpr size
  have same := roundUnits_mul_right (signed s a.units + signed false h.units).natAbs 1 unitsPerOne_pos
  rw [Nat.one_mul] at same
  rw [same] at bounded
  rw [half_eq, finite_add_finite, ofUnits, dif_pos bounded]
  rfl

end Binary64

end Dashboard.Numeric
