import Mathlib.Algebra.Group.Int.Defs
import Dashboard.Proofs.Json.LongIntegers
import Dashboard.Proofs.Payload.Quoted

/-!
# Integers of any size in a payload

`IntegerText` lists the texts of an integer: a literal, or a string with its digits, in which a
sign, leading zeros and blank characters around it do not matter. Whatever the text is, the scalar
stands for the integer if 64 bits hold it and for none otherwise (`exists_integer_read`). Only a
literal from `Json.literalLimit` on cannot be read at all.
-/

namespace Dashboard

/-- Decimal digits of the integer, with an optional sign in front of them. -/
inductive SignedDigits : Int → List Char → Prop where
  | plain {ds : List Char} (some : ds ≠ []) (digits : ∀ c ∈ ds, c.isDigit = true) :
      SignedDigits (Nat.ofDigitChars 10 ds 0) ds
  | plus {ds : List Char} (some : ds ≠ []) (digits : ∀ c ∈ ds, c.isDigit = true) :
      SignedDigits (Nat.ofDigitChars 10 ds 0) ('+' :: ds)
  | minus {ds : List Char} (some : ds ≠ []) (digits : ∀ c ∈ ds, c.isDigit = true) :
      SignedDigits (-Nat.ofDigitChars 10 ds 0) ('-' :: ds)

inductive PaddedInteger (z : Int) : List Char → Prop where
  | mk {front text back : List Char} (blank : ∀ c ∈ front, Text.isBlank c = true)
      (signed : SignedDigits z text) (blank' : ∀ c ∈ back, Text.isBlank c = true) :
      PaddedInteger z (front ++ text ++ back)

namespace SignedDigits

variable {z : Int} {text : List Char}

theorem integer?_eq (signed : SignedDigits z text) : Numeric.integer? text = some z := by
  have read {ds : List Char} (some : ds ≠ []) (digits : ∀ c ∈ ds, c.isDigit = true) :
      Numeric.digits? ds = .some (Nat.ofDigitChars 10 ds 0) := by
    simp [Numeric.digits?, some, List.all_eq_true.mpr digits]
  cases signed with
  | plain some digits =>
    obtain ⟨c, cs, rfl⟩ := List.exists_cons_of_ne_nil some
    simp [Numeric.integer?, Numeric.takeSign_of_isDigit (digits c List.mem_cons_self),
      read some digits]
  | plus some digits => simp [Numeric.integer?, Numeric.takeSign, read some digits]
  | minus some digits => simp [Numeric.integer?, Numeric.takeSign, read some digits]

theorem not_blank (signed : SignedDigits z text) : ∀ c ∈ text, Text.isBlank c = false := by
  cases signed with
  | plain _ digits => exact fun c member => Text.isBlank_of_isDigit (digits c member)
  | plus _ digits | minus _ digits =>
    refine List.forall_mem_cons.mpr ⟨by decide, fun c member => ?_⟩
    exact Text.isBlank_of_isDigit (digits c member)

end SignedDigits

namespace Payload

open Json (IntegerLiteral EndsWord Writes Spelled literalLimit)
open Numeric (Magnitude)
open Numeric.Binary64 (unitsPerOne unitsPerOne_pos signed toInt?)

/-! ### Scalars that stand for an integer -/

/-- The scalar stands for the integer, unless it is too large for 64 bits. -/
def Scalar.Stands (s : Scalar) (z : Int) : Prop :=
  s.toInt? = if isInt64 z then some z else none

theorem stands_padded {z : Int} {cs : List Char} (padded : PaddedInteger z cs) :
    (Scalar.text (String.ofList cs)).Stands z := by
  obtain ⟨blank, signed, blank'⟩ := padded
  rw [Scalar.Stands, Scalar.toInt?, Text.toList_trim, String.toList_ofList,
    Text.trimBlank_around blank signed.not_blank blank', signed.integer?_eq]
  exact Option.filter_some

theorem padded_literal {z : Int} {text : List Char} (literal : IntegerLiteral z text) :
    PaddedInteger z text := by
  have none : ∀ c ∈ ([] : List Char), Text.isBlank c = true := List.forall_mem_nil _
  have signed : SignedDigits z text := by
    cases literal with
    | plain n =>
      have plain := SignedDigits.plain Nat.toDigits_ne_nil (Json.isDigit_of_mem_toDigits (n := n))
      rwa [Nat.ofDigitChars_ten_toDigits] at plain
    | minus n =>
      have minus := SignedDigits.minus Nat.toDigits_ne_nil (Json.isDigit_of_mem_toDigits (n := n))
      rwa [Nat.ofDigitChars_ten_toDigits] at minus
  have padded := PaddedInteger.mk none signed none
  rwa [List.nil_append, List.append_nil] at padded

theorem isInt64_iff {z : Int} : isInt64 z = true ↔ -2 ^ 63 ≤ z ∧ z < 2 ^ 63 := by
  have lowest : Int64.minValue.toInt = -2 ^ 63 := by decide
  have highest : Int64.maxValue.toInt = 2 ^ 63 - 1 := by decide
  rw [isInt64, lowest, highest, Bool.and_eq_true, decide_eq_true_eq, decide_eq_true_eq]
  omega

theorem le_natAbs_of_outside {z : Int} (outside : isInt64 z = false) : 2 ^ 63 ≤ z.natAbs := by
  have far := mt isInt64_iff.mpr (Bool.eq_false_iff.mp outside)
  omega

theorem stands_double {z : Int} (outside : isInt64 z = false) (negative : Bool) {size : Magnitude}
    (large : 2 ^ 63 * unitsPerOne ≤ size.units) :
    (Scalar.double (.finite negative size)).Stands z := by
  have whole := (Nat.le_div_iff_mul_le unitsPerOne_pos).mpr large
  have absolute (n : Nat) : (signed negative n).natAbs = n := by cases negative <;> simp [signed]
  have most : Int64.maxValue.toInt.toNat = 2 ^ 63 - 1 := by decide
  rw [Scalar.Stands, outside, Scalar.toInt?, toInt?]
  split
  · refine Option.filter_some_neg (decide_eq_false ?_)
    rw [absolute, most]
    omega
  · rfl

theorem ofJson?_of_double {n : Json.Number} (outside : n.integer? = none) :
    Scalar.ofJson? (.number n) = n.double?.map .double := by
  rw [Scalar.ofJson?, Json.Number.value?, outside]
  cases n.double? <;> rfl

/-- The scalar that is read of a value of a member stands for the integer, or none can be read
because the value is a literal that is too large. -/
inductive IntegerRead (z : Int) (tooLarge : Bool) (v : Json) : Prop where
  | refused (large : tooLarge = true) (unread : v.nullable? Scalar.ofJson? = none)
  | read {s : Scalar} (bounded : tooLarge = false)
      (some : v.nullable? Scalar.ofJson? = some (some s)) (stands : s.Stands z)

theorem integerRead_double {z : Int} {negative : Bool} {n : Nat} (size : z.natAbs = n)
    (outside : isInt64 z = false)
    (noInteger : Json.Number.integer? { negative, whole := Nat.toDigits 10 n } = none) :
    IntegerRead z (literalLimit ≤ z.natAbs) (.number { negative, whole := Nat.toDigits 10 n }) := by
  have long : 2 ^ 63 ≤ n := size ▸ le_natAbs_of_outside outside
  have read := ofJson?_of_double noInteger
  rcases Nat.lt_or_ge n literalLimit with bounded | large
  · obtain ⟨x, units, double⟩ := Json.double?_of_lt negative long bounded
    rw [double] at read
    exact .read (decide_eq_false (by omega)) (nullable?_of_read read)
      (stands_double outside negative units)
  · rw [Json.double?_of_le negative large] at read
    exact .refused (decide_eq_true (by omega)) (congrArg (Option.map some) read)

theorem exists_literal_read {z : Int} {text post : List Char} (literal : IntegerLiteral z text)
    (ends : EndsWord post) :
    ∃ v, Writes text post v ∧ IntegerRead z (literalLimit ≤ z.natAbs) v := by
  cases fits : isInt64 z with
  | true =>
    obtain ⟨v, s, writes, read, alike⟩ := exists_scalar literal fits ends
    have stands : s.Stands z := alike.integer.trans (stands_padded (padded_literal literal))
    have below : 2 ^ 63 < literalLimit :=
      Nat.lt_trans (by decide : 2 ^ 63 < UInt64.size) Json.literalLimit_between.2.2.1
    have range := isInt64_iff.mp fits
    exact ⟨v, writes, .read (decide_eq_false (by omega)) (nullable?_of_read read) stands⟩
  | false =>
    have long := le_natAbs_of_outside fits
    cases literal with
    | plain n =>
      refine ⟨_, Json.writes_plain n ends, ?_⟩
      by_cases small : n < UInt64.size
      · -- What the sign bit keeps out of 64 bits is a double as well.
        obtain ⟨size, units, double⟩ := Json.exists_ofInt (n := n) long small
        have below := Json.literalLimit_between.2.2.1
        have read : Scalar.ofJson? (.number { whole := Nat.toDigits 10 n }) =
            some (.double (.finite false size)) := by
          rw [Scalar.ofJson?, Json.Number.value?, Json.integer?_plain, if_pos small]
          simp only [Option.map_some, fits, Bool.false_eq_true, if_false, double]
        exact .read (decide_eq_false (by omega)) (nullable?_of_read read)
          (stands_double fits false units)
      · refine integerRead_double (Int.natAbs_natCast n) fits ?_
        rw [Json.integer?_plain, if_neg small]
    | minus n =>
      have outside : ¬(0 < n ∧ Int64.minValue.toInt ≤ -n) := by
        rintro ⟨_, low⟩
        have lowest : Int64.minValue.toInt = -2 ^ 63 := by decide
        have inside : isInt64 (-n) = true := isInt64_iff.mpr (by omega)
        rw [fits] at inside
        cases inside
      refine ⟨_, Json.writes_minus n ends, integerRead_double (by omega) fits ?_⟩
      rw [Json.integer?_minus, if_neg outside]

/-! ### Texts of an integer -/

/-- The texts of an integer in front of this: a literal, or a quoted string of its digits. -/
inductive IntegerText (z : Int) (post : List Char) : Bool → List Char → Prop where
  | literal {text : List Char} (literal : IntegerLiteral z text) (ends : EndsWord post) :
      IntegerText z post false text
  | quoted {cs inner : List Char} (padded : PaddedInteger z cs) (spelled : Spelled cs inner) :
      IntegerText z post true ('\"' :: (inner ++ ['\"']))

/-- Whatever the text of the integer is, 64 bits decide whether the scalar stands for it. -/
theorem exists_integer_read {z : Int} {post text : List Char} {quoted : Bool}
    (written : IntegerText z post quoted text) :
    ∃ v, Writes text post v ∧ IntegerRead z (!quoted && literalLimit ≤ z.natAbs) v := by
  cases written with
  | literal literal ends => exact exists_literal_read literal ends
  | @quoted cs _ padded spelled =>
    rw [← String.toList_ofList (l := cs)] at spelled
    exact ⟨_, Json.writes_string spelled post, .read rfl rfl (stands_padded padded)⟩

theorem literal_toString (n : Nat) : IntegerLiteral n (toString n).toList := by
  have text : (toString n).toList = Nat.toDigits 10 n := Nat.toList_repr
  rw [text]
  exact .plain n

/-- A literal that is too large cannot be read for any member. -/
theorem decode_of_too_large {pre text post : String} {m : Member} {index : Nat} {z : Int}
    (place : At pre m index) (literal : IntegerLiteral z text.toList) (ends : EndsWord post.toList)
    (large : literalLimit ≤ z.natAbs) : decode (pre ++ text ++ post) = .error .unreadable := by
  obtain ⟨v, writes, read⟩ := exists_literal_read literal ends
  rcases decode_at_member place post with refused | ⟨before, after, base, _, decoded⟩
  · exact refused text v writes
  · rw [decoded text v writes]
    cases read with
    | refused _ unread =>
      rw [unread]
      rfl
    | read bounded => exact absurd large (of_decide_eq_false bounded)

end Payload

end Dashboard
