import Dashboard.Proofs.Numeric.Value
import Dashboard.Reading

/-!
# Levels of texts

The level of a flag is the double nearest to the number that its text is a numeral of, and never
NaN. It is finite unless the text is `Boundless` (`flagLevel_isFinite_iff`).
-/

namespace Dashboard

open Numeric

/-- The text is a numeral of an infinity or of a number beyond all doubles, blank characters around
it apart. -/
inductive Boundless (raw : String) : Prop where
  | infinity {negative : Bool}
      (read : Numeral.ofChars? (Text.trim raw).toList = some (.infinity negative))
  | beyond {d : Decimal} (read : Numeral.ofChars? (Text.trim raw).toList = some (.decimal d))
      (large : finiteBound ≤ |d.value|)

theorem Numeric.Decimal.nearest_ne_nan (d : Decimal) : d.nearest ≠ .nan := by
  rw [nearest_eq, Binary64.ofQuotient, Binary64.ofUnits]
  split <;> exact Binary64.noConfusion

/-- The level in terms of the numeral that is read. -/
theorem flagLevel_eq (raw : String) :
    flagLevel raw =
      match Numeral.ofChars? (Text.trim raw).toList with
      | some (.infinity negative) => .infinity negative
      | some (.decimal d) => d.nearest
      | none | some .nan => if Text.trim raw = "" then .zero else .one := by
  rw [flagLevel, Binary64.ofText?, Binary64.ofChars?]
  cases read : Numeral.ofChars? (Text.trim raw).toList with
  | none => rfl
  | some n =>
    have text : Text.trim raw ≠ "" := by
      intro empty
      rw [empty] at read
      cases read
    rw [if_neg text, Option.map_some]
    cases n with
    | nan => exact (if_neg text).symm
    | infinity negative => rfl
    | decimal d =>
      dsimp only [Numeral.nearest]
      split
      · next none => cases none
      · next nan => exact absurd (Option.some.inj nan) d.nearest_ne_nan
      · next same => exact (Option.some.inj same).symm

theorem flagLevel_of_decimal {raw : String} {d : Decimal}
    (read : Numeral.ofChars? (Text.trim raw).toList = some (.decimal d)) :
    flagLevel raw = d.nearest := by
  rw [flagLevel_eq, read]

theorem zero_or_one_isFinite (p : Prop) [Decidable p] :
    (if p then Binary64.zero else Binary64.one).isFinite = true := by
  split <;> decide +kernel

theorem flagLevel_isFinite_iff (raw : String) :
    (flagLevel raw).isFinite = true ↔ ¬Boundless raw := by
  rw [flagLevel_eq]
  cases read : Numeral.ofChars? (Text.trim raw).toList with
  | none =>
    refine iff_of_true (zero_or_one_isFinite _) ?_
    rintro (⟨read'⟩ | ⟨read', _⟩) <;> rw [read] at read' <;> cases read'
  | some n =>
    cases n with
    | nan =>
      refine iff_of_true (zero_or_one_isFinite _) ?_
      rintro (⟨read'⟩ | ⟨read', _⟩) <;> rw [read] at read' <;> cases read'
    | infinity negative =>
      exact iff_of_false Bool.false_ne_true (not_not_intro (.infinity read))
    | decimal d =>
      dsimp only
      rw [d.nearest_isFinite_iff, ← not_le, not_iff_not]
      refine ⟨.beyond read, ?_⟩
      rintro (⟨read'⟩ | ⟨read', large⟩) <;> rw [read] at read' <;> cases read'
      exact large

theorem flagLevel_ne_nan (raw : String) : flagLevel raw ≠ .nan := by
  intro nan
  have finite := zero_or_one_isFinite (Text.trim raw = "")
  rw [flagLevel_eq] at nan
  split at nan
  · cases nan
  · exact Decimal.nearest_ne_nan _ nan
  · rw [nan] at finite
    cases finite
  · rw [nan] at finite
    cases finite

end Dashboard
