import Dashboard.Proofs.Json.Integers
import Dashboard.Proofs.Numeric.Numerals
import Dashboard.Proofs.Numeric.Rounding

/-!
# Integer literals that 64 bits do not hold

Such a literal is read as the product of two doubles, one for its leading digits and one for the
power of ten behind them. Both factors and the product are rounded, so literals are too large from
`literalLimit` on, which is somewhat below the largest double. A literal that is not too large is
read as a double beyond the integers of 64 bits (`double?_of_lt`).
-/

namespace Dashboard.Json

open Numeric Numeric.Binary64

/-- The number begins with the digits of `lead`, with `places` digits behind, and 64 bits do not
hold one digit more. -/
structure Leads (n lead places : Nat) : Prop where
  small : lead < UInt64.size
  low : lead * 10 ^ places ≤ n
  high : n < (lead + 1) * 10 ^ places
  full : places = 0 ∨ UInt64.size ≤ 10 * lead + 9

theorem leads_takeDigits {ds : List Char} (digits : ∀ c ∈ ds, c.isDigit = true) {n : Nat}
    (small : n < UInt64.size) :
    Leads (Nat.ofDigitChars 10 ds n) (Number.takeDigits n ds).1
      (Number.takeDigits n ds).2.length := by
  induction ds generalizing n with
  | nil => exact ⟨small, by simp [Number.takeDigits], by simp [Number.takeDigits], .inl rfl⟩
  | cons c ds ih =>
    rw [Number.takeDigits]
    split
    · next more => exact ih (List.forall_mem_cons.mp digits).2 more
    · next full =>
      obtain ⟨low, high⟩ := ofDigitChars_lt digits n
      have last := digit_le (digits c List.mem_cons_self)
      exact ⟨small, low, high, .inr (by omega)⟩

def wholeUnits (n : Nat) : Nat :=
  roundUnits (n * unitsPerOne) 1

/-- The units of the product that stands for leading digits and a power of ten. -/
def productUnits (lead places : Nat) : Nat :=
  roundUnits (wholeUnits lead * wholeUnits (10 ^ places)) unitsPerOne

theorem wholeUnits_mono {n n' : Nat} (le : n ≤ n') : wholeUnits n ≤ wholeUnits n' :=
  roundUnits_mono (Nat.mul_le_mul_right _ le) 1

theorem productUnits_mono {lead lead' places places' : Nat} (leads : lead ≤ lead')
    (powers : places ≤ places') : productUnits lead places ≤ productUnits lead' places' := by
  have power : 10 ^ places ≤ 10 ^ places' := Nat.pow_le_pow_right (by decide) powers
  exact roundUnits_mono (Nat.mul_le_mul (wholeUnits_mono leads) (wholeUnits_mono power)) _

theorem exists_ofUnits {n d : Nat} (bounded : roundUnits n d < unitLimit) :
    ∃ size : Magnitude, size.units = roundUnits n d ∧ ofUnits false n d = .finite false size :=
  ⟨⟨_, bounded, lastPlace_dvd_roundUnits n d⟩, rfl, dif_pos bounded⟩

theorem ofUnits_of_le {n d : Nat} (large : unitLimit ≤ roundUnits n d) :
    ofUnits false n d = .infinity false :=
  dif_neg (Nat.not_lt.mpr large)

theorem exists_ofNat {n : Nat} (bounded : wholeUnits n < unitLimit) :
    ∃ size : Magnitude, size.units = wholeUnits n ∧ ofNat n = .finite false size :=
  exists_ofUnits bounded

/-- What the ends of the ranges of both factors are rounded to. -/
theorem wholeUnits_ends :
    (wholeUnits 0 = 0 ∧ 0 < wholeUnits 1) ∧ 2 ^ 63 * unitsPerOne ≤ wholeUnits (2 ^ 63) ∧
      wholeUnits (UInt64.size - 1) < unitLimit ∧ wholeUnits (10 ^ Number.maxScale) < unitLimit := by
  decide +kernel

theorem wholeUnits_lead {lead : Nat} (small : lead < UInt64.size) :
    wholeUnits lead < unitLimit := by
  have largest := wholeUnits_ends.2.2.1
  exact Nat.lt_of_le_of_lt (wholeUnits_mono (by omega)) largest

theorem wholeUnits_power {places : Nat} (short : places ≤ Number.maxScale) :
    wholeUnits (10 ^ places) < unitLimit := by
  have largest := wholeUnits_ends.2.2.2
  have power : 10 ^ places ≤ 10 ^ Number.maxScale := Nat.pow_le_pow_right (by decide) short
  exact Nat.lt_of_le_of_lt (wholeUnits_mono power) largest

theorem tenPow_eq (places : Nat) : Decimal.tenPow places = ofNat (10 ^ places) := by
  rw [Decimal.tenPow, Decimal.nearest_eq, ofNat]
  simp

variable {lead places : Nat}

theorem scale?_of_short (small : lead < UInt64.size) (short : places ≤ Number.maxScale) :
    Number.scale? (ofNat lead) places =
      (ofUnits false (wholeUnits lead * wholeUnits (10 ^ places)) unitsPerOne).finite? := by
  have scaled : Number.scale? (ofNat lead) places =
      (ofNat lead * Decimal.tenPow places).finite? := if_neg (Nat.not_lt.mpr short)
  obtain ⟨x, units, factor⟩ := exists_ofNat (wholeUnits_lead small)
  obtain ⟨y, units', power⟩ := exists_ofNat (wholeUnits_power short)
  rw [scaled, tenPow_eq, factor, power, ← units, ← units']
  rfl

theorem scale?_of_lt (small : lead < UInt64.size) (short : places ≤ Number.maxScale)
    (bounded : productUnits lead places < unitLimit) :
    ∃ size : Magnitude, size.units = productUnits lead places ∧
      Number.scale? (ofNat lead) places = some (.finite false size) := by
  obtain ⟨size, units, product⟩ := exists_ofUnits bounded
  exact ⟨size, units, by rw [scale?_of_short small short, product]; rfl⟩

theorem scale?_of_le (small : lead < UInt64.size) (short : places ≤ Number.maxScale)
    (large : unitLimit ≤ productUnits lead places) :
    Number.scale? (ofNat lead) places = none := by
  rw [scale?_of_short small short, ofUnits_of_le large]
  rfl

theorem scale?_of_long (small : lead < UInt64.size) (positive : 0 < lead)
    (long : Number.maxScale < places) : Number.scale? (ofNat lead) places = none := by
  have scaled : Number.scale? (ofNat lead) places =
      if (ofNat lead).equals zero then some (ofNat lead) else none := if_pos long
  obtain ⟨nothing, one⟩ := wholeUnits_ends.1
  have units : wholeUnits 1 ≤ wholeUnits lead := wholeUnits_mono positive
  obtain ⟨x, own, factor⟩ := exists_ofNat (wholeUnits_lead small)
  obtain ⟨y, none, zeroth⟩ := exists_ofNat (wholeUnits_lead (by decide : 0 < UInt64.size))
  have differs : (ofNat lead).equals zero = false := by
    rw [zero, factor, zeroth]
    simp only [equals, position?, signed, Bool.false_eq_true, if_false, own, none, nothing]
    exact decide_eq_false (by omega)
  rw [scaled, differs]
  rfl

/-! ### The range of literals -/

/-- The least leading digits that fill 64 bits. -/
def leastFull : Nat :=
  1844674407370955161

/-- The least leading digits that are too large with 289 places behind. -/
def leastTooLarge : Nat :=
  17976931348623156225

/-- The first whole number that is too large for a literal. -/
@[irreducible] def literalLimit : Nat :=
  leastTooLarge * 10 ^ 289

/-- The largest double that is no infinity, which is a whole number. -/
@[irreducible] def largestDouble : Nat :=
  (2 ^ 53 - 1) * 2 ^ 971

theorem exists_largestDouble :
    ∃ size : Magnitude, (finite false size).toInt? = some (largestDouble : Int) := by
  have ⟨bounded, exact⟩ : largestDouble * unitsPerOne < unitLimit ∧
      lastPlace (largestDouble * unitsPerOne) ∣ largestDouble * unitsPerOne := by
    decide +kernel
  refine ⟨⟨largestDouble * unitsPerOne, bounded, exact⟩, ?_⟩
  rw [Binary64.toInt?, if_pos (Nat.mul_mod_left ..), Nat.mul_div_cancel _ unitsPerOne_pos]
  rfl

theorem literalLimit_between :
    UInt64.size * 10 ^ 288 ≤ literalLimit ∧ literalLimit ≤ leastFull * 10 ^ 290 ∧
      UInt64.size < literalLimit ∧ literalLimit ≤ largestDouble := by
  decide +kernel

/-- The products on both sides of the limit, and those of the shortest literals. -/
theorem productUnits_ends :
    (2 ^ 63 * unitsPerOne ≤ productUnits (2 ^ 63) 0 ∧
      2 ^ 63 * unitsPerOne ≤ productUnits leastFull 1) ∧
    (productUnits (UInt64.size - 1) 288 < unitLimit ∧
      productUnits (leastTooLarge - 1) 289 < unitLimit) ∧
    unitLimit ≤ productUnits leastTooLarge 289 ∧ unitLimit ≤ productUnits leastFull 290 := by
  decide +kernel

theorem Leads.leastFull_le {n : Nat} (leads : Leads n lead places) (more : 0 < places) :
    leastFull ≤ lead := by
  have size : UInt64.size = 10 * leastFull + 6 := by decide
  have full := leads.full
  omega

theorem Leads.lt_of_few {n most : Nat} (leads : Leads n lead places) (few : places ≤ most) :
    n < UInt64.size * 10 ^ most := calc
  n < (lead + 1) * 10 ^ places := leads.high
  _ ≤ UInt64.size * 10 ^ most :=
    Nat.mul_le_mul leads.small (Nat.pow_le_pow_right (by decide) few)

theorem Leads.le_of_many {n least : Nat} (leads : Leads n lead places) (more : 0 < places)
    (many : least ≤ places) : leastFull * 10 ^ least ≤ n := calc
  leastFull * 10 ^ least ≤ lead * 10 ^ places :=
    Nat.mul_le_mul (leads.leastFull_le more) (Nat.pow_le_pow_right (by decide) many)
  _ ≤ n := leads.low

theorem Leads.le_places {n : Nat} (leads : Leads n lead places) (large : literalLimit ≤ n) :
    289 ≤ places := by
  have limit := literalLimit_between.1
  by_contra few
  have below := leads.lt_of_few (Nat.le_of_lt_succ (Nat.not_le.mp few))
  omega

theorem Leads.places_le {n : Nat} (leads : Leads n lead places) (bounded : n < literalLimit) :
    places ≤ 289 := by
  have limit := literalLimit_between.2.1
  by_contra many
  have above := leads.le_of_many (by omega) (Nat.not_le.mp many)
  omega

theorem Leads.scale?_of_le {n : Nat} (leads : Leads n lead places) (large : literalLimit ≤ n) :
    Number.scale? (ofNat lead) places = none := by
  have many := leads.le_places large
  have full := leads.leastFull_le (by omega)
  -- With 290 places any leading digits are too many, with 289 those of the limit.
  rcases Nat.lt_or_ge Number.maxScale places with long | short
  · exact scale?_of_long leads.small (Nat.lt_of_lt_of_le (by decide) full) long
  · refine Json.scale?_of_le leads.small short ?_
    rcases Nat.lt_or_eq_of_le many with more | rfl
    · exact Nat.le_trans productUnits_ends.2.2.2 (productUnits_mono full more)
    · unfold literalLimit at large
      have above := Nat.lt_of_mul_lt_mul_right (Nat.lt_of_le_of_lt large leads.high)
      have product := productUnits_mono (Nat.le_of_lt_succ above) (Nat.le_refl 289)
      exact Nat.le_trans productUnits_ends.2.2.1 product

theorem Leads.productUnits_lt {n : Nat} (leads : Leads n lead places)
    (bounded : n < literalLimit) : productUnits lead places < unitLimit := by
  obtain ⟨fewest, most⟩ := productUnits_ends.2.1
  rcases Nat.lt_or_eq_of_le (leads.places_le bounded) with fewer | rfl
  · have small := Nat.le_sub_one_of_lt leads.small
    exact Nat.lt_of_le_of_lt (productUnits_mono small (Nat.le_of_lt_succ fewer)) fewest
  · unfold literalLimit at bounded
    have below := Nat.lt_of_mul_lt_mul_right (Nat.lt_of_le_of_lt leads.low bounded)
    have small := Nat.le_sub_one_of_lt below
    exact Nat.lt_of_le_of_lt (productUnits_mono small (Nat.le_refl _)) most

theorem Leads.le_productUnits {n : Nat} (leads : Leads n lead places) (long : 2 ^ 63 ≤ n) :
    2 ^ 63 * unitsPerOne ≤ productUnits lead places := by
  obtain ⟨alone, first⟩ := productUnits_ends.1
  rcases Nat.eq_zero_or_pos places with rfl | more
  · have high := leads.high
    exact Nat.le_trans alone (productUnits_mono (by omega) (Nat.le_refl 0))
  · exact Nat.le_trans first (productUnits_mono (leads.leastFull_le more) more)

theorem Leads.scale?_of_lt {n : Nat} (leads : Leads n lead places) (long : 2 ^ 63 ≤ n)
    (bounded : n < literalLimit) :
    ∃ size : Magnitude, 2 ^ 63 * unitsPerOne ≤ size.units ∧
      Number.scale? (ofNat lead) places = some (.finite false size) := by
  have short : places ≤ Number.maxScale := Nat.le_trans (leads.places_le bounded) (by decide)
  obtain ⟨size, units, read⟩ :=
    Json.scale?_of_lt leads.small short (leads.productUnits_lt bounded)
  exact ⟨size, units ▸ leads.le_productUnits long, read⟩

theorem exists_leads (negative : Bool) (n : Nat) : ∃ lead places, Leads n lead places ∧
    Number.double? { negative, whole := Nat.toDigits 10 n } =
      if negative then (Number.scale? (ofNat lead) places).map neg
      else Number.scale? (ofNat lead) places := by
  have leads := leads_takeDigits (fun c => isDigit_of_mem_toDigits (n := n) c)
    (by decide : 0 < UInt64.size)
  rw [Nat.ofDigitChars_ten_toDigits] at leads
  refine ⟨_, _, leads, ?_⟩
  simp [Number.double?, Number.takeDigits]

theorem double?_of_le {n : Nat} (negative : Bool) (large : literalLimit ≤ n) :
    Number.double? { negative, whole := Nat.toDigits 10 n } = none := by
  obtain ⟨lead, places, leads, read⟩ := exists_leads negative n
  rw [read, leads.scale?_of_le large]
  cases negative <;> rfl

theorem double?_of_lt {n : Nat} (negative : Bool) (long : 2 ^ 63 ≤ n)
    (bounded : n < literalLimit) :
    ∃ size : Magnitude, 2 ^ 63 * unitsPerOne ≤ size.units ∧
      Number.double? { negative, whole := Nat.toDigits 10 n } = some (.finite negative size) := by
  obtain ⟨lead, places, leads, read⟩ := exists_leads negative n
  obtain ⟨size, units, scaled⟩ := leads.scale?_of_lt long bounded
  refine ⟨size, units, ?_⟩
  rw [read, scaled]
  cases negative <;> rfl

theorem exists_ofInt {n : Nat} (long : 2 ^ 63 ≤ n) (small : n < UInt64.size) :
    ∃ size : Magnitude, 2 ^ 63 * unitsPerOne ≤ size.units ∧
      ofInt n = .finite false size := by
  have least := wholeUnits_ends.2.1
  obtain ⟨size, units, read⟩ := exists_ofNat (wholeUnits_lead small)
  refine ⟨size, units ▸ Nat.le_trans least (wholeUnits_mono long), ?_⟩
  rw [← read, ofInt, ofNat, decide_eq_false (by omega), Int.natAbs_natCast]

end Dashboard.Json
