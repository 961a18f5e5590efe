import Dashboard.Numeric.Numeral
import Dashboard.Proofs.Numeric.Exact

/-!
# Shortest decimals

The shortest decimal of a double stands on the coarsest grid of powers of ten that has a decimal
read as the double (`exponent_le_shortest`). So a double that some decimal with a few places is
read as is written with no more places, and a whole number below `2 ^ 53` is written exactly.
-/

namespace Dashboard.Numeric

open Binary64 (unitsPerOne unitsPerOne_pos)

namespace Magnitude

variable {x : Magnitude}

theorem isRead_iff (n : Nat) (e : ℤ) : x.isRead n e = true ↔ rounded (n * 10 ^ e) = x.value := by
  rw [isRead, decide_eq_true_iff, Decimal.nearest_eq_finite_iff, and_iff_right rfl]
  rfl

theorem ten_zpow (e : ℤ) : (10 ^ e : ℚ) * Nat.pow 10 (-e).toNat = Nat.pow 10 e.toNat := by
  have power : ((Nat.pow 10 (-e).toNat : Nat) : ℚ) ≠ 0 := by
    exact_mod_cast (Nat.pow_pos (by decide : 0 < 10)).ne'
  have size := Decimal.size_eq { digits := 1, exponent := e }
  rwa [Decimal.size, Nat.cast_one, one_mul, Nat.one_mul, eq_div_iff power] at size

/-- Multiples of a power of ten are compared with a magnitude as whole numbers. -/
theorem grid_compare (x : Magnitude) (b : Nat) (e : ℤ) :
    (b * 10 ^ e ≤ x.value ↔
        b * (unitsPerOne * Nat.pow 10 e.toNat) ≤ x.units * Nat.pow 10 (-e).toNat) ∧
      (x.value ≤ b * 10 ^ e ↔
        x.units * Nat.pow 10 (-e).toNat ≤ b * (unitsPerOne * Nat.pow 10 e.toNat)) := by
  have power : (0 : ℚ) < Nat.pow 10 (-e).toNat := by
    exact_mod_cast Nat.pow_pos (by decide : 0 < 10)
  have factor := mul_pos cast_unitsPerOne_pos power
  have multiple : ((b * (unitsPerOne * Nat.pow 10 e.toNat) : Nat) : ℚ) =
      b * 10 ^ e * (unitsPerOne * Nat.pow 10 (-e).toNat) := by
    rw [Nat.cast_mul, Nat.cast_mul, ← ten_zpow]
    ring
  have magnitude : ((x.units * Nat.pow 10 (-e).toNat : Nat) : ℚ) =
      x.value * (unitsPerOne * Nat.pow 10 (-e).toNat) := by
    rw [value, Nat.cast_mul, ← mul_assoc, div_mul_cancel₀ _ cast_unitsPerOne_pos.ne']
  rw [← Nat.cast_le (α := ℚ), ← Nat.cast_le (α := ℚ), multiple, magnitude,
    mul_le_mul_iff_left₀ factor, mul_le_mul_iff_left₀ factor]
  exact ⟨Iff.rfl, Iff.rfl⟩

theorem exists_neighbours (x : Magnitude) (e : ℤ) :
    ∃ b : Nat, b ∈ x.neighbours e ∧ b + 1 ∈ x.neighbours e ∧
      b * 10 ^ e ≤ x.value ∧ x.value ≤ (b + 1 : Nat) * 10 ^ e := by
  have lower (b : Nat) := (x.grid_compare b e).1
  have upper (b : Nat) := (x.grid_compare b e).2
  have positive : 0 < unitsPerOne * Nat.pow 10 e.toNat :=
    Nat.mul_pos unitsPerOne_pos (Nat.pow_pos (by decide))
  simp only [neighbours]
  generalize x.units * Nat.pow 10 (-e).toNat = numerator at *
  generalize unitsPerOne * Nat.pow 10 e.toNat = denominator at *
  have split := Nat.div_add_mod' numerator denominator
  have rest := Nat.mod_lt numerator positive
  refine ⟨numerator / denominator, ?_, ?_, (lower _).mpr (by omega), (upper _).mpr ?_⟩
  · split <;> simp
  · split <;> simp
  · rw [Nat.succ_mul]
    omega

/-- A grid with a decimal that is read as the magnitude has a hit. -/
theorem onGrid?_isSome {n : Nat} {e : ℤ} (read : rounded (n * 10 ^ e) = x.value) :
    (x.onGrid? e).isSome = true := by
  obtain ⟨b, below, above, lower, upper⟩ := exists_neighbours x e
  have scale : (0 : ℚ) ≤ 10 ^ e := by positivity
  rw [onGrid?, List.find?_isSome]
  -- What is read as the magnitude does not stand nearer than its neighbour on the same side.
  rcases Nat.lt_or_ge b n with beyond | under
  · refine ⟨b + 1, above, (isRead_iff _ e).mpr (le_antisymm ?_ ?_)⟩
    · rw [← read]
      exact rounded_mono (mul_le_mul_of_nonneg_right (by exact_mod_cast beyond) scale)
    · rw [← x.rounded_value]
      exact rounded_mono upper
  · refine ⟨b, below, (isRead_iff _ e).mpr (le_antisymm ?_ ?_)⟩
    · rw [← x.rounded_value]
      exact rounded_mono lower
    · rw [← read]
      exact rounded_mono (mul_le_mul_of_nonneg_right (by exact_mod_cast under) scale)

/-! ### The search over the grids -/

theorem finestGrid_le_searchGrids (x : Magnitude) (steps : Nat) :
    finestGrid ≤ (x.searchGrids steps).exponent := by
  induction steps with
  | zero => exact le_rfl
  | succ steps ih =>
    rw [searchGrids]
    split
    · change finestGrid ≤ finestGrid + (steps + 1)
      omega
    · exact ih

theorem le_searchGrids {k steps : Nat} (hit : (x.onGrid? (finestGrid + k)).isSome = true)
    (within : k ≤ steps) : finestGrid + k ≤ (x.searchGrids steps).exponent := by
  induction steps with
  | zero =>
    rw [Nat.le_zero.mp within, Nat.cast_zero, add_zero]
    exact x.finestGrid_le_searchGrids 0
  | succ steps ih =>
    rw [searchGrids]
    split
    · change finestGrid + k ≤ finestGrid + (steps + 1)
      omega
    · next none =>
      refine ih (Nat.le_of_lt_succ (Nat.lt_of_le_of_ne within ?_))
      rintro rfl
      rw [Nat.cast_succ, none] at hit
      cases hit

/-! ### Where the search starts -/

theorem ten_pow_le_two_pow {m k : Nat} (few : 10 * m ≤ 3 * k) : 10 ^ m ≤ 2 ^ k := by
  refine le_of_pow_le_pow_left₀ (n := 10) (by decide) (Nat.zero_le _) ?_
  calc (10 ^ m) ^ 10 = 10 ^ (10 * m) := by rw [← pow_mul, Nat.mul_comm]
    _ ≤ 10 ^ (3 * k) := Nat.pow_le_pow_right (by decide) few
    _ = 1000 ^ k := pow_mul 10 3 k
    _ ≤ 1024 ^ k := Nat.pow_le_pow_left (by decide) k
    _ = (2 ^ k) ^ 10 := by rw [← pow_mul, Nat.mul_comm, pow_mul]; rfl

theorem two_pow_le_ten_pow {m k : Nat} (many : 28 * k ≤ 93 * m) : 2 ^ k ≤ 10 ^ m := by
  refine le_of_pow_le_pow_left₀ (n := 93) (by decide) (Nat.zero_le _) ?_
  calc (2 ^ k) ^ 93 = (2 ^ 93) ^ k := by rw [← pow_mul, Nat.mul_comm, pow_mul]
    _ ≤ (10 ^ 28) ^ k := Nat.pow_le_pow_left (by decide) k
    _ = 10 ^ (28 * k) := (pow_mul 10 28 k).symm
    _ ≤ 10 ^ (93 * m) := Nat.pow_le_pow_right (by decide) many
    _ = (10 ^ m) ^ 93 := by rw [← pow_mul, Nat.mul_comm]

theorem value_lt_two_pow (x : Magnitude) : x.value < 2 ^ ((x.units.log2 + 1 : Nat) - 1074 : ℤ) := by
  have log : x.units < 2 ^ (x.units.log2 + 1) := Nat.lt_log2_self
  rw [value, cast_unitsPerOne, div_lt_iff₀ (by positivity), ← zpow_add₀ two_ne_zero, sub_add_cancel,
    zpow_natCast]
  exact_mod_cast log

/-- No magnitude is above the unit of the grid where its search starts. -/
theorem value_le_start (x : Magnitude) : x.value ≤ 10 ^ (finestGrid + x.coarseSteps) := by
  refine x.value_lt_two_pow.le.trans ?_
  unfold coarseSteps finestGrid
  generalize x.units.log2 + 1 = bits
  simp only
  split
  · next small =>
    have bound : 10 ^ ((1074 - bits) * 3 / 10) ≤ 2 ^ (1074 - bits) := ten_pow_le_two_pow (by omega)
    have left : (bits : ℤ) - 1074 = -(1074 - bits : Nat) := by omega
    have right : (-1074 : ℤ) + (1074 - (1074 - bits) * 3 / 10 : Nat) =
        -((1074 - bits) * 3 / 10 : Nat) := by omega
    rw [left, right, zpow_neg, zpow_neg, zpow_natCast, zpow_natCast]
    exact inv_anti₀ (by positivity) (by exact_mod_cast bound)
  · next large =>
    have bound : 2 ^ (bits - 1074) ≤ 10 ^ ((bits - 1074) * 28 / 93 + 1) :=
      two_pow_le_ten_pow (by omega)
    have left : (bits : ℤ) - 1074 = (bits - 1074 : Nat) := by omega
    have right : (-1074 : ℤ) + (1074 + (bits - 1074) * 28 / 93 + 1 : Nat) =
        ((bits - 1074) * 28 / 93 + 1 : Nat) := by omega
    rw [left, right, zpow_natCast, zpow_natCast]
    exact_mod_cast bound

/-- A decimal of a coarser grid is too large to be read as the magnitude. -/
theorem le_start_of_read {n : Nat} {e : ℤ} (nonzero : x.units ≠ 0)
    (read : rounded (n * 10 ^ e) = x.value) : e ≤ finestGrid + x.coarseSteps := by
  by_contra coarser
  have units := cast_unitsPerOne_pos
  have unit : 1 / unitsPerOne ≤ x.value := by
    unfold value
    gcongr
    exact_mod_cast Nat.pos_of_ne_zero nonzero
  have positive : 0 < x.value := lt_of_lt_of_le (by positivity) unit
  have some : (1 : ℚ) ≤ n := by
    rw [Nat.one_le_cast, Nat.one_le_iff_ne_zero]
    rintro rfl
    rw [Nat.cast_zero, zero_mul, rounded_zero] at read
    exact positive.ne read
  have large : 10 * x.value ≤ n * 10 ^ e := by
    calc 10 * x.value ≤ 10 * 10 ^ (finestGrid + x.coarseSteps) := by
          have start := x.value_le_start
          gcongr
      _ = 10 ^ (1 + (finestGrid + x.coarseSteps) : ℤ) := by
          rw [zpow_one_add₀ (by norm_num)]
      _ ≤ 10 ^ e := zpow_le_zpow_right₀ (by norm_num) (by omega)
      _ ≤ n * 10 ^ e := le_mul_of_one_le_left (by positivity) some
  have near := (abs_le.mp (abs_rounded_sub_le (n * 10 ^ e))).1
  rw [read, abs_of_nonneg (by positivity)] at near
  have half : (1 / 2 / unitsPerOne : ℚ) = 1 / unitsPerOne / 2 := by ring
  rw [half] at near
  generalize (n * 10 ^ e : ℚ) = q at *
  linarith

theorem exponent_le_shortest_of_read {n : Nat} {e : ℤ} (nonzero : x.units ≠ 0)
    (read : rounded (n * 10 ^ e) = x.value) : e ≤ x.shortest.exponent := by
  rw [shortest, if_neg nonzero]
  rcases le_total e finestGrid with fine | coarse
  · exact fine.trans (x.finestGrid_le_searchGrids _)
  · obtain ⟨k, rfl⟩ := Int.le.dest coarse
    have start := le_start_of_read nonzero read
    exact le_searchGrids (onGrid?_isSome read) (by omega)

theorem rounded_size_shortest (x : Magnitude) : rounded x.shortest.size = x.value :=
  ((Decimal.nearest_eq_finite_iff _ _ _).mp x.nearest_shortest).2

theorem shortest_of_zero (zero : x.units = 0) : x.shortest = { digits := 0 } :=
  if_pos zero

theorem exponent_nonneg_of_whole {n : Nat} (whole : x.value = n) : 0 ≤ x.shortest.exponent := by
  by_cases zero : x.units = 0
  · rw [shortest_of_zero zero]
  · refine exponent_le_shortest_of_read (n := n) zero ?_
    rw [zpow_zero, mul_one, ← whole, x.rounded_value]

/-- A whole number below `2 ^ 53` is its own shortest decimal. -/
theorem size_shortest_of_whole {n : Nat} (whole : x.value = n) (small : n < 2 ^ 53) :
    x.shortest.size = n := by
  obtain ⟨e, exponent⟩ := Int.eq_ofNat_of_zero_le (exponent_nonneg_of_whole whole)
  have size : x.shortest.size = (x.shortest.digits * 10 ^ e : Nat) := by
    rw [Decimal.size, exponent, zpow_natCast]
    push_cast
    rfl
  have read := x.rounded_size_shortest
  rw [whole] at read
  rw [size] at read ⊢
  generalize x.shortest.digits * 10 ^ e = w at *
  rcases le_or_gt w (2 ^ 53) with few | many
  · rw [← read]
    exact (rounded_whole (z := w) (by rw [abs_of_nonneg (by positivity)]; exact_mod_cast few)).symm
  · have above : rounded ((2 ^ 53 : ℤ) : ℚ) ≤ rounded w :=
      rounded_mono (by exact_mod_cast many.le)
    rw [rounded_whole (by norm_num), read] at above
    exact absurd small (by exact_mod_cast above.not_gt)

end Magnitude

namespace Binary64

variable {x : Binary64} {d : Decimal}

/-! ### The shortest decimal of a double -/

theorem exists_shortest? (isFinite : x.isFinite = true) : ∃ d, x.shortest? = some d := by
  obtain ⟨negative, m, rfl⟩ := exists_finite isFinite
  exact ⟨_, rfl⟩

theorem sign_of_shortest? {negative : Bool} {m : Magnitude}
    (shortest : (finite negative m).shortest? = some d) : d.negative = negative := by
  cases shortest
  rfl

theorem exists_of_shortest? (shortest : x.shortest? = some d) :
    ∃ m : Magnitude, x = finite d.negative m ∧ d.size = m.shortest.size ∧
      d.exponent = m.shortest.exponent := by
  rcases x with _ | _ | ⟨negative, m⟩
  · cases shortest
  · cases shortest
  · cases shortest
    exact ⟨m, rfl, rfl, rfl⟩

theorem nearest_of_shortest? (shortest : x.shortest? = some d) : d.nearest = x := by
  obtain ⟨m, rfl, size, -⟩ := exists_of_shortest? shortest
  rw [Decimal.nearest_eq_finite_iff, size]
  exact ⟨rfl, m.rounded_size_shortest⟩

/-- A decimal with a digit stands on no coarser grid than the shortest decimal of the double that
it is read as. -/
theorem exponent_le_shortest {c : Decimal} (some : c.digits ≠ 0)
    (shortest : c.nearest.shortest? = .some d) : c.exponent ≤ d.exponent := by
  obtain ⟨m, read, -, exponent⟩ := exists_of_shortest? shortest
  have size := ((Decimal.nearest_eq_finite_iff _ _ _).mp read).2
  rw [exponent]
  by_cases zero : m.units = 0
  · -- Only fractions are read as zero.
    rw [Magnitude.shortest_of_zero zero]
    by_contra positive
    have one : (1 : ℚ) ≤ c.size := by
      have digit : (1 : ℚ) ≤ c.digits := by exact_mod_cast Nat.pos_of_ne_zero some
      have power : (1 : ℚ) ≤ 10 ^ c.exponent := one_le_zpow₀ (by norm_num) (le_of_not_ge positive)
      exact one_le_mul_of_one_le_of_one_le digit power
    have least := rounded_mono one
    rw [rounded_one, size, Magnitude.value, zero, Nat.cast_zero, zero_div] at least
    exact absurd least (by norm_num)
  · exact Magnitude.exponent_le_shortest_of_read zero size

/-- No decimal that is read as a double has fewer digits than its shortest one. -/
theorem digits_lt_of_few {c : Decimal} {k : Nat} (some : c.digits ≠ 0)
    (shortest : c.nearest.shortest? = .some d) (few : c.digits < 10 ^ k) : d.digits < 10 ^ k := by
  obtain ⟨m, read, size, -⟩ := exists_of_shortest? shortest
  have left := ((Decimal.nearest_eq_finite_iff _ _ _).mp read).2
  have right := m.rounded_size_shortest
  rw [← size] at right
  by_contra many
  -- A power of ten stands between the two, so it is read as the double as well.
  have below : c.size ≤ 10 ^ (k + d.exponent : ℤ) := by
    rw [Decimal.size, zpow_add₀ (by norm_num), zpow_natCast]
    have exponent := exponent_le_shortest some shortest
    have power : (10 : ℚ) ^ c.exponent ≤ 10 ^ d.exponent :=
      zpow_le_zpow_right₀ (by norm_num) exponent
    have digits : (c.digits : ℚ) ≤ 10 ^ k := by exact_mod_cast few.le
    gcongr
  have above : 10 ^ (k + d.exponent : ℤ) ≤ d.size := by
    rw [Decimal.size, zpow_add₀ (by norm_num), zpow_natCast]
    have digits : (10 : ℚ) ^ k ≤ d.digits := by exact_mod_cast le_of_not_gt many
    gcongr
  have power : Decimal.nearest { negative := d.negative, digits := 1, exponent := k + d.exponent } =
      c.nearest := by
    rw [read, Decimal.nearest_eq_finite_iff, Decimal.size, Nat.cast_one, one_mul]
    exact ⟨rfl, le_antisymm ((rounded_mono above).trans_eq right)
      (left.symm.trans_le (rounded_mono below))⟩
  have coarsest := exponent_le_shortest one_ne_zero (power.symm ▸ shortest)
  have none : k = 0 := by
    change (k : ℤ) + d.exponent ≤ d.exponent at coarsest
    omega
  rw [none] at few
  exact some (Nat.lt_one_iff.mp few)

theorem rounded_shortest (shortest : x.shortest? = some d) : rounded d.value = x.value := by
  have read := nearest_of_shortest? shortest
  obtain ⟨m, finite, -⟩ := exists_of_shortest? shortest
  have isFinite : d.nearest.isFinite = true := by
    rw [read, finite]
    rfl
  rw [← Decimal.value_nearest isFinite, read]

theorem size_of_whole {negative : Bool} {m : Magnitude} {z : ℤ}
    (whole : (finite negative m).value = z) : m.value = z.natAbs := by
  have nonneg := m.value_nonneg
  rw [Nat.cast_natAbs, Int.cast_abs, ← whole, value]
  split
  · rw [abs_neg, abs_of_nonneg nonneg]
  · rw [abs_of_nonneg nonneg]

theorem exponent_nonneg_of_whole {z : ℤ} (whole : x.value = z) (shortest : x.shortest? = some d) :
    0 ≤ d.exponent := by
  obtain ⟨m, rfl, -, exponent⟩ := exists_of_shortest? shortest
  rw [exponent]
  exact Magnitude.exponent_nonneg_of_whole (size_of_whole whole)

theorem value_shortest_of_whole {z : ℤ} (whole : x.value = z) (small : |z| < 2 ^ 53)
    (shortest : x.shortest? = some d) : d.value = z := by
  obtain ⟨m, rfl, size, -⟩ := exists_of_shortest? shortest
  have exact := size_of_whole whole
  have same := Magnitude.size_shortest_of_whole exact (by rw [Int.abs_eq_natAbs] at small; omega)
  rw [Decimal.value, size, same, ← exact, ← whole]
  rfl

theorem one_le_shortest (shortest : x.shortest? = some d) (least : 1 ≤ x.value) : 1 ≤ d.value := by
  by_contra below
  have most := rounded_mono (le_of_not_ge below)
  rw [rounded_shortest shortest, rounded_one] at most
  have whole := value_shortest_of_whole (z := 1) (le_antisymm most least) (by decide) shortest
  exact below whole.ge

theorem value_nonpos_of_shortest? (shortest : x.shortest? = some d) (nonpos : x.value ≤ 0) :
    d.value ≤ 0 := by
  obtain ⟨m, rfl, size, -⟩ := exists_of_shortest? shortest
  rw [Decimal.value]
  split
  · exact neg_nonpos.mpr d.size_nonneg
  · next positive =>
    rw [Binary64.value, if_neg positive] at nonpos
    have zero := Magnitude.units_eq_zero_iff.mpr (le_antisymm nonpos m.value_nonneg)
    rw [size, Magnitude.shortest_of_zero zero, Decimal.size, Nat.cast_zero, zero_mul]

theorem shift_of_shortest? (shortest : x.shortest? = some d) (places : ℤ) :
    x.shift places = (d.shift places).nearest := by
  rw [shift, shortest]

theorem isFinite_of_shift {places : ℤ} (isFinite : (x.shift places).isFinite = true) :
    x.isFinite = true := by
  rcases x with _ | _ | _
  · cases isFinite
  · cases isFinite
  · rfl

end Binary64

end Dashboard.Numeric
