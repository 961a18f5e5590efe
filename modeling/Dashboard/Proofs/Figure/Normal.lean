import Dashboard.Proofs.Figure.Rounded

/-!
# The normal form of abbreviated figures

An abbreviation is rounded before its suffix is chosen, rounded again in terms of the suffix, and
may be carried to the next one. `abbreviate_normal` says that it is nevertheless in normal form: no
more places than asked for, no suffix exactly below 1000, and in front of a suffix a number from 1
on that stays below 1000 unless the suffix is the last one.
-/

namespace Dashboard.Figure

open Numeric Binary64
open Decimal (tenPow tenPow_isFinite value_tenPow)

variable {x : Binary64} {d : Decimal} {places : Nat}

theorem point_not_mem_toDigits (n : Nat) : '.' ∉ Nat.toDigits 10 n := by
  intro point
  have digit := Nat.isDigit_of_mem_toDigits (by decide) (by decide) point
  exact absurd digit (by decide)

/-- Behind the point a decimal has as many characters as places. -/
theorem length_behind_point {before after : List Char}
    (split : d.text.toList = before ++ '.' :: after) : (after.length : ℤ) = -d.exponent := by
  have sign : '.' ∉ (if d.negative then ['-'] else [] : List Char) := by
    cases d.negative <;> decide
  have digits := point_not_mem_toDigits d.digits
  unfold Decimal.text at split
  simp only at split
  split at split
  · next e exponent =>
    rw [String.toList_ofList] at split
    have point : '.' ∈ before ++ '.' :: after := List.mem_append_right _ List.mem_cons_self
    rw [← split] at point
    simp only [List.mem_append, List.mem_replicate] at point
    rcases point with (point | point) | ⟨-, point⟩
    · exact absurd point sign
    · exact absurd point digits
    · cases point
  · next e exponent =>
    rw [String.toList_ofList] at split
    have padded : '.' ∉ List.replicate (e + 2 - (Nat.toDigits 10 d.digits).length) '0' ++
        Nat.toDigits 10 d.digits := by
      simp only [List.mem_append, List.mem_replicate, not_or]
      exact ⟨fun zero => absurd zero.2 (by decide), digits⟩
    have length : e + 2 ≤ (List.replicate (e + 2 - (Nat.toDigits 10 d.digits).length) '0' ++
        Nat.toDigits 10 d.digits).length := by
      rw [List.length_append, List.length_replicate]
      omega
    generalize List.replicate (e + 2 - (Nat.toDigits 10 d.digits).length) '0' ++
      Nat.toDigits 10 d.digits = cs at *
    have front : '.' ∉ (if d.negative then ['-'] else []) ++ cs.take (cs.length - (e + 1)) := by
      rw [List.mem_append, not_or]
      exact ⟨sign, fun point => padded (List.mem_of_mem_take point)⟩
    have behind : '.' ∉ cs.drop (cs.length - (e + 1)) :=
      fun point => padded (List.mem_of_mem_drop point)
    obtain ⟨-, -, rfl⟩ := (List.append_cons_inj_of_notMem front behind).mp split
    rw [List.length_drop, exponent]
    omega

/-- A decimal that is read as the double bounds the places of the shortest one. -/
theorem places_le {c : Decimal} (shortest : c.nearest.shortest? = some d)
    (few : -(places : ℤ) ≤ c.exponent) : -(places : ℤ) ≤ d.exponent := by
  by_cases zero : c.digits = 0
  · obtain ⟨m, read, -, exponent⟩ := exists_of_shortest? shortest
    have size := ((Decimal.nearest_eq_finite_iff _ _ _).mp read).2
    have nothing : m.units = 0 := by
      rw [Magnitude.units_eq_zero_iff, ← size, Decimal.size, zero, Nat.cast_zero, zero_mul,
        rounded_zero]
    rw [exponent, Magnitude.shortest_of_zero nothing]
    exact neg_nonpos.mpr (Int.natCast_nonneg _)
  · exact few.trans (exponent_le_shortest zero shortest)

/-- Only minus zero is not shown with its shortest decimal. -/
theorem digits_of_shortest? (shortest : x.shortest? = some d)
    (unsigned : x.value = 0 → d.negative = false) : Abbreviated.digits x = d.text := by
  have zero : Binary64.zero.isFinite = true ∧ Binary64.zero.value = 0 := by decide +kernel
  rcases x with _ | _ | ⟨negative, m⟩
  · cases shortest
  · cases shortest
  · cases shortest
    unfold Abbreviated.digits
    split
    · next equal =>
      rw [equals_iff_value rfl zero.1, zero.2] at equal
      have positive : negative = false := unsigned equal
      rw [Magnitude.shortest_of_zero ((value_eq_zero_iff negative m).mp equal), positive]
      decide
    · rfl

theorem size_le_iff {y : Binary64} (isFinite : y.isFinite = true) (s : Suffix) :
    s.size.le y = true ↔ (10 : ℚ) ^ s.exponent ≤ y.value := by
  have few : s.exponent ≤ 22 := by cases s <;> decide
  rw [Suffix.size, le_iff_value (tenPow_isFinite few) isFinite, value_tenPow few]

theorem of?_eq_none_iff {y : Binary64} (isFinite : y.isFinite = true) :
    Suffix.of? y = none ↔ y.value < 1000 := by
  rw [Suffix.of?, List.find?_eq_none]
  constructor
  · intro none
    have below := none .thousand (by decide)
    rw [size_le_iff isFinite] at below
    exact (lt_of_not_ge below).trans_eq (by norm_num [Suffix.exponent])
  · intro below s _ fits
    rw [size_le_iff isFinite] at fits
    have least : (10 : ℚ) ^ 3 ≤ 10 ^ s.exponent :=
      pow_le_pow_right₀ (by norm_num) (by cases s <;> decide)
    linarith

theorem of?_eq_some {y : Binary64} (isFinite : y.isFinite = true) {s : Suffix}
    (largest : Suffix.of? y = some s) :
    (10 : ℚ) ^ s.exponent ≤ y.value ∧
      ∀ t, s.next? = some t → y.value < 10 ^ t.exponent := by
  have beyond (t : Suffix) (small : ¬t.size.le y = true) : y.value < 10 ^ t.exponent := by
    rw [size_le_iff isFinite] at small
    exact lt_of_not_ge small
  have fits := List.find?_some (p := fun t : Suffix => t.size.le y) largest
  refine ⟨(size_le_iff isFinite s).mp fits, ?_⟩
  unfold Suffix.of? Suffix.descending at largest
  simp only [List.find?_cons, List.find?_nil] at largest
  intro t next
  split at largest
  · cases largest
    cases next
  · next trillion =>
    split at largest
    · cases largest
      cases next
      exact beyond .trillion (by simp [trillion])
    · next billion =>
      split at largest
      · cases largest
        cases next
        exact beyond .billion (by simp [billion])
      · next million =>
        split at largest
        · cases largest
          cases next
          exact beyond .million (by simp [million])
        · cases largest

/-! ### The number in terms of its suffix -/

/-- What a rounded number is in terms of a suffix, before it is carried. -/
def scaleTo (y : Binary64) (places : Nat) (s : Suffix) : Binary64 :=
  (y * tenPow places / s.size + half).floor / tenPow places

section
variable {y : Binary64} {s : Suffix} (few : places ≤ 10)
  (isFinite : (scaleTo y places s).isFinite = true)
include few isFinite

theorem value_scaleTo : ∃ g : ℤ,
    g = ⌊rounded (rounded (rounded (y.value * 10 ^ places) / 10 ^ s.exponent) + 1 / 2)⌋ ∧
      (y * tenPow places / s.size + half).floor.value = g ∧
      (scaleTo y places s).value = rounded (g / 10 ^ places) := by
  have small : s.exponent ≤ 22 := by cases s <;> decide
  have whole := isFinite_of_div isFinite
  have sum := isFinite_of_floor whole
  have quotient := (isFinite_of_add sum).1
  have product := isFinite_of_div quotient
  have value := (value_floor sum).2
  rw [value_add sum, value_half, value_div quotient (tenPow_isFinite small), value_mul product,
    value_tenPow (by omega), Suffix.size, value_tenPow small] at value
  refine ⟨_, rfl, value, ?_⟩
  rw [scaleTo, value_div isFinite (tenPow_isFinite (by omega)), value_tenPow (by omega), Suffix.size,
    value]

theorem one_le_scaleTo (least : (10 : ℚ) ^ s.exponent ≤ y.value) :
    1 ≤ (scaleTo y places s).value := by
  obtain ⟨g, floor, -, value⟩ := value_scaleTo few isFinite
  have small : s.exponent ≤ 12 := by cases s <;> decide
  have power : (0 : ℚ) < 10 ^ places := by positivity
  have product : (10 : ℚ) ^ (s.exponent + places) ≤ rounded (y.value * 10 ^ places) := by
    refine ten_pow_le_rounded (by omega) ?_
    rw [pow_add]
    exact mul_le_mul_of_nonneg_right least power.le
  have quotient : (10 : ℚ) ^ places ≤ rounded (rounded (y.value * 10 ^ places) / 10 ^ s.exponent) := by
    refine ten_pow_le_rounded (by omega) ?_
    rwa [le_div_iff₀' (by positivity), ← pow_add]
  have sum : (10 : ℚ) ^ places ≤
      rounded (rounded (rounded (y.value * 10 ^ places) / 10 ^ s.exponent) + 1 / 2) :=
    ten_pow_le_rounded (by omega) (by linarith)
  have whole : 10 ^ places ≤ g := by
    rw [floor, Int.le_floor]
    exact_mod_cast sum
  have one : (10 : ℚ) ^ 0 ≤ g / 10 ^ places := by
    rw [pow_zero, one_le_div power]
    exact_mod_cast whole
  rw [value]
  exact ten_pow_le_rounded (Nat.zero_le _) one

theorem scaleTo_le (below : y.value ≤ 10 ^ (s.exponent + 3)) (room : s.exponent ≤ 9) :
    (scaleTo y places s).value ≤ 1000 := by
  obtain ⟨g, floor, -, value⟩ := value_scaleTo few isFinite
  have power : (0 : ℚ) < 10 ^ places := by positivity
  have product : rounded (y.value * 10 ^ places) ≤ 10 ^ (s.exponent + (places + 3)) := by
    refine rounded_le_ten_pow (by omega) ?_
    rw [Nat.add_comm places, ← Nat.add_assoc, pow_add]
    exact mul_le_mul_of_nonneg_right below power.le
  have quotient : rounded (rounded (y.value * 10 ^ places) / 10 ^ s.exponent) ≤ 10 ^ (places + 3) := by
    refine rounded_le_ten_pow (by omega) ?_
    rwa [div_le_iff₀' (by positivity), ← pow_add]
  have few' : (10 : ℤ) ^ (places + 3) ≤ 10 ^ 13 := pow_le_pow_right₀ (by decide) (by omega)
  -- The half that is added does not reach the next whole number.
  have sum : rounded (rounded (rounded (y.value * 10 ^ places) / 10 ^ s.exponent) + 1 / 2) ≤
      (2 * 10 ^ (places + 3) + 1 : ℤ) / 2 := by
    rw [← rounded_half (n := 2 * 10 ^ (places + 3) + 1) (by rw [abs_of_nonneg (by positivity)]; omega)]
    refine rounded_mono ?_
    push_cast
    linarith
  have whole : g ≤ 10 ^ (places + 3) := by
    have floor_le := Int.floor_le
      (rounded (rounded (rounded (y.value * 10 ^ places) / 10 ^ s.exponent) + 1 / 2))
    rw [← floor] at floor_le
    have less : (g : ℚ) < (10 ^ (places + 3) + 1 : ℤ) := by
      push_cast at sum ⊢
      linarith
    exact Int.lt_add_one_iff.mp (by exact_mod_cast less)
  have thousand : (g / 10 ^ places : ℚ) ≤ 10 ^ 3 := by
    rw [div_le_iff₀' power, ← pow_add]
    exact_mod_cast whole
  rw [value]
  exact (rounded_le_ten_pow (by decide) thousand).trans_eq (by norm_num)

theorem exists_scaled (least : 1 ≤ (scaleTo y places s).value) :
    ∃ n : ℤ, (Decimal.scaled n places).nearest = scaleTo y places s := by
  obtain ⟨g, -, -, value⟩ := value_scaleTo few isFinite
  obtain ⟨negative, m, number⟩ := exists_finite isFinite
  have power : (0 : ℚ) < 10 ^ places := by positivity
  have nonneg : 0 ≤ g := by
    by_contra below
    have quotient : (g / 10 ^ places : ℚ) ≤ 0 :=
      div_nonpos_of_nonpos_of_nonneg (by exact_mod_cast (not_le.mp below).le) power.le
    have zero := rounded_mono quotient
    rw [← value, rounded_zero] at zero
    linarith
  have sign : negative = false := by
    cases negative
    · rfl
    · have below : (finite true m).value ≤ 0 := neg_nonpos.mpr m.value_nonneg
      rw [← number] at below
      linarith
  subst sign
  refine ⟨g, ?_⟩
  rw [number, Decimal.nearest_eq_finite_iff, Decimal.size_scaled,
    abs_of_nonneg (by exact_mod_cast nonneg), ← value, number]
  exact ⟨decide_eq_false nonneg.not_gt, rfl⟩

end

/-- What an abbreviation with a suffix is in front of it. -/
structure Scaled (places : Nat) (a : Abbreviated) : Prop where
  suffix : a.suffix ≠ none
  read : ∃ c : Decimal, -(places : ℤ) ≤ c.exponent ∧ c.nearest = a.value
  least : 1 ≤ a.value.value
  below : ∀ s, a.suffix = some s → s ≠ .trillion → a.value.value < 1000

theorem scaled_carry {y : Binary64} {s : Suffix} (few : places ≤ 10)
    (isFinite : (scaleTo y places s).isFinite = true) (yFinite : y.isFinite = true)
    (largest : Suffix.of? y = some s) :
    Scaled places { value := scaleTo y places s, suffix := some s : Abbreviated }.carry := by
  obtain ⟨least, most⟩ := of?_eq_some yFinite largest
  have one := one_le_scaleTo few isFinite least
  obtain ⟨n, read⟩ := exists_scaled few isFinite one
  have thousand : (tenPow 3).isFinite = true ∧ (tenPow 3).value = 10 ^ 3 :=
    ⟨tenPow_isFinite (by decide), value_tenPow (by decide)⟩
  unfold Abbreviated.carry
  rw [Option.bind_some]
  split
  · next larger next =>
    have exponent : larger.exponent = s.exponent + 3 ∧ s.exponent ≤ 9 := by
      cases s <;> cases next <;> decide
    have below := scaleTo_le few isFinite (exponent.1 ▸ (most larger next).le) exponent.2
    split
    · have unit : Decimal.nearest { digits := 1 } = Binary64.one ∧ Binary64.one.value = 1 := by
        decide +kernel
      refine ⟨Option.some_ne_none _, ⟨_, neg_nonpos.mpr (Int.natCast_nonneg _), unit.1⟩,
        unit.2.ge, fun _ _ _ => ?_⟩
      rw [unit.2]
      norm_num
    · next other =>
      rw [equals_iff_value isFinite thousand.1, thousand.2] at other
      refine ⟨Option.some_ne_none _, ⟨_, le_rfl, read⟩, one, fun _ _ _ => lt_of_le_of_ne below ?_⟩
      intro same
      exact other (same.trans (by norm_num))
  · next last =>
    refine ⟨Option.some_ne_none _, ⟨_, le_rfl, read⟩, one, ?_⟩
    rintro t same other
    cases same
    cases s <;> first | exact absurd rfl other | cases last

/-! ### The number without a suffix -/

section
variable (isFinite : (roundHalfUp x places).isFinite = true)
include isFinite

theorem exists_floor : ∃ c : Decimal, (x.shift places + half).floor.shortest? = some c ∧
    roundHalfUp x places = (c.shift (-places)).nearest ∧ 0 ≤ c.exponent := by
  have whole := isFinite_of_shift isFinite
  obtain ⟨c, shortest⟩ := exists_shortest? whole
  have value := (value_floor (isFinite_of_floor whole)).2
  exact ⟨c, shortest, shift_of_shortest? shortest _, exponent_nonneg_of_whole value shortest⟩

theorem roundHalfUp_nonpos (nonpos : x.value ≤ 0) : (roundHalfUp x places).value ≤ 0 := by
  have shifts := (isFinite_of_add (isFinite_of_floor (isFinite_of_shift isFinite))).1
  obtain ⟨d, shortest⟩ := exists_shortest? (isFinite_of_shift shifts)
  obtain ⟨c, short, result, -⟩ := exists_floor isFinite
  have shifted_nonpos : shifted d places ≤ 0 :=
    mul_nonpos_of_nonpos_of_nonneg (value_nonpos_of_shortest? shortest nonpos) (by positivity)
  have first := rounded_mono shifted_nonpos
  rw [rounded_zero] at first
  have sum := rounded_mono (by linarith : rounded (shifted d places) + 1 / 2 ≤ (1 : ℤ) / 2)
  rw [rounded_half (by decide)] at sum
  have whole : (x.shift places + half).floor.value ≤ 0 := by
    have floor : ⌊rounded (rounded (shifted d places) + 1 / 2)⌋ < 1 := by
      rw [Int.floor_lt]
      exact sum.trans_lt (by norm_num)
    rw [(value_floor_shifted shortest shifts).2]
    exact_mod_cast Int.lt_add_one_iff.mp floor
  have back : (c.shift (-places)).value ≤ 0 := by
    rw [Decimal.value_shift]
    exact mul_nonpos_of_nonpos_of_nonneg (value_nonpos_of_shortest? short whole) (by positivity)
  rw [result] at isFinite ⊢
  rw [Decimal.value_nearest isFinite, ← rounded_zero]
  exact rounded_mono back

/-- A rounded number that is zero has no minus. -/
theorem roundHalfUp_unsigned (few : places ≤ 10) (zero : (roundHalfUp x places).value = 0)
    (shortest : (roundHalfUp x places).shortest? = some d) : d.negative = false := by
  obtain ⟨c, short, result, fraction⟩ := exists_floor isFinite
  obtain ⟨m, number, -⟩ := exists_of_shortest? shortest
  obtain ⟨k, whole, -⟩ := exists_of_shortest? short
  rw [number, value_eq_zero_iff, Magnitude.units_eq_zero_iff] at zero
  rw [result, Decimal.nearest_eq_finite_iff, zero] at number
  obtain ⟨sign, size⟩ := number
  rw [← sign]
  change c.negative = false
  by_contra negative
  rw [Bool.not_eq_false] at negative
  have below := floor_add_half_sign whole
  rw [negative, eq_comm, decide_eq_true_iff, ← rounded_shortest short] at below
  have digit : (1 : ℚ) ≤ c.digits := by
    rw [Nat.one_le_cast, Nat.one_le_iff_ne_zero]
    intro none
    rw [Decimal.value, Decimal.size, none, Nat.cast_zero, zero_mul, neg_zero, ite_self,
      rounded_zero] at below
    exact lt_irrefl _ below
  have least : ((1 : ℤ) : ℚ) * 2 ^ (-40 : ℤ) ≤ (c.shift (-places)).size := by
    have power : (10 : ℚ) ^ places ≤ 10 ^ 10 := pow_le_pow_right₀ (by norm_num) few
    have one : (1 : ℚ) ≤ c.size :=
      one_le_mul_of_one_le_of_one_le digit (one_le_zpow₀ (by norm_num) fraction)
    have back : (10 : ℚ) ^ (-(places : ℤ)) = (10 ^ places)⁻¹ := by rw [zpow_neg, zpow_natCast]
    rw [Decimal.size_shift, back, ← div_eq_mul_inv, le_div_iff₀ (by positivity)]
    norm_num at power ⊢
    linarith
  have kept := rounded_mono least
  rw [rounded_short (by decide) (by decide), size] at kept
  norm_num at kept

end

/-! ### The figure -/

/-- A double is written as its shortest decimal, with at most `places` places. -/
structure Written (v : Binary64) (places : Nat) (d : Decimal) : Prop where
  text : Abbreviated.digits v = d.text
  read : d.nearest = v
  coarsest : ∀ c : Decimal, c.digits ≠ 0 → c.nearest = v → c.exponent ≤ d.exponent
  fewest : ∀ (c : Decimal) (k : Nat), c.digits ≠ 0 → c.nearest = v → c.digits < 10 ^ k →
    d.digits < 10 ^ k
  behind_point : ∀ before after, d.text.toList = before ++ '.' :: after → after.length ≤ places

theorem exists_written {v : Binary64} (isFinite : v.isFinite = true)
    (read : ∃ c : Decimal, -(places : ℤ) ≤ c.exponent ∧ c.nearest = v)
    (unsigned : ∀ d, v.shortest? = some d → v.value = 0 → d.negative = false) :
    ∃ d, v.shortest? = some d ∧ Written v places d := by
  obtain ⟨d, shortest⟩ := exists_shortest? isFinite
  refine ⟨d, shortest, digits_of_shortest? shortest (unsigned d shortest),
    nearest_of_shortest? shortest, fun c some same => ?_, fun c k some same few => ?_,
    fun before after split => ?_⟩
  · exact exponent_le_shortest some (same ▸ shortest)
  · exact digits_lt_of_few some (same ▸ shortest) few
  · obtain ⟨c, few, same⟩ := read
    have most := places_le (same ▸ shortest) few
    have length := length_behind_point split
    omega

/-- The normal form of a figure: what stands in front of its suffix. -/
structure Normal (x : Binary64) (places : Nat) (a : Abbreviated) (d : Decimal) : Prop
    extends Written a.value places d where
  figure : abbreviate x places = d.text ++ (a.suffix.map Suffix.letter).getD ""
  plain : a.suffix = none ↔ (roundHalfUp x places).value < 1000
  negative : x.value < 0 → a.suffix = none
  least : a.suffix ≠ none → 1 ≤ d.value
  below : ∀ s, a.suffix = some s → s ≠ .trillion → d.value < 1000

theorem shortest_lt_thousand (shortest : x.shortest? = some d) (below : x.value < 1000) :
    d.value < 1000 := by
  by_contra least
  have most := ten_pow_le_rounded (k := 3) (by decide) (q := d.value) (by linarith)
  rw [rounded_shortest shortest] at most
  linarith

/-- Every abbreviated figure is in normal form. -/
theorem abbreviate_normal {a : Abbreviated} (few : places ≤ 10)
    (abbreviated : abbreviated? x places = some a) : ∃ d, Normal x places a d := by
  have shown : abbreviate x places = a.text := by rw [abbreviate, abbreviated]
  have nonpos (isFinite : (roundHalfUp x places).isFinite = true) (negative : x.value < 0) :
      (roundHalfUp x places).value < 1000 :=
    (roundHalfUp_nonpos isFinite negative.le).trans_lt (by norm_num)
  unfold abbreviated? at abbreviated
  simp only at abbreviated
  split at abbreviated
  · cases abbreviated
  · next finite =>
    rw [Bool.not_eq_true, Bool.not_eq_false'] at finite
    split at abbreviated
    · next small =>
      cases abbreviated
      obtain ⟨c, -, result, fraction⟩ := exists_floor finite
      have few' : -(places : ℤ) ≤ (c.shift (-places)).exponent :=
        le_add_of_nonneg_left fraction
      obtain ⟨d, -, written⟩ := exists_written finite ⟨_, few', result.symm⟩
        fun d shortest zero => roundHalfUp_unsigned finite few zero shortest
      exact ⟨d, written, shown.trans (congrArg (· ++ "") written.text),
        iff_of_true rfl ((of?_eq_none_iff finite).mp small), fun _ => rfl,
        fun some => absurd rfl some, fun _ some => nomatch some⟩
    · next s largest =>
      split at abbreviated
      · next fits =>
        cases abbreviated
        have scaled := scaled_carry few fits finite largest
        have large : ¬(roundHalfUp x places).value < 1000 := by
          rw [← of?_eq_none_iff finite, largest]
          exact Option.some_ne_none s
        obtain ⟨d, shortest, written⟩ := exists_written (isFinite_of_value (by linarith [scaled.least]))
          scaled.read fun _ _ zero => absurd zero (by linarith [scaled.least])
        exact ⟨d, written, shown.trans (congrArg (· ++ _) written.text),
          iff_of_false scaled.suffix large, fun negative => absurd (nonpos finite negative) large,
          fun _ => one_le_shortest shortest scaled.least,
          fun t same other => shortest_lt_thousand shortest (scaled.below t same other)⟩
      · cases abbreviated

/-- Just below a million, the number is carried from a thousand of its suffix. -/
theorem abbreviate_normal_carried :
    abbreviated? (.ofNat 999996) 2 = some { value := .one, suffix := some .million } ∧
      ∃ d, Normal (.ofNat 999996) 2 { value := .one, suffix := some .million } d := by
  have abbreviated :
      abbreviated? (.ofNat 999996) 2 = some { value := .one, suffix := some .million } := by
    decide +kernel
  exact ⟨abbreviated, abbreviate_normal (by decide) abbreviated⟩

end Dashboard.Figure
