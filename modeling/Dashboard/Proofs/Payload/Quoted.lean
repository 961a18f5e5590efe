import Dashboard.Proofs.Json.Integers
import Dashboard.Proofs.Payload.Places

/-!
# Quoted integers

A collector may quote an integer or not. Scalars with the same text, the same integer and the same
look in a message are `Alike`, and records do not tell them apart. An integer literal is alike to
its own text, so quoting it changes neither the records of a payload nor its fault
(`decode_quoted`).
-/

namespace Dashboard.Payload

open Json (IntegerLiteral EndsWord Writes)

structure Scalar.Alike (s s' : Scalar) : Prop where
  text : s.toText = s'.toText
  integer : s.toInt? = s'.toInt?
  shown : s.shown = s'.shown

theorem Scalar.Alike.refl (s : Scalar) : s.Alike s :=
  ⟨rfl, rfl, rfl⟩

namespace Entry

def Alike (e e' : Entry) : Prop :=
  ∀ m, Option.Rel Scalar.Alike (e m) (e' m)

variable {e e' : Entry}

theorem Alike.member (alike : e.Alike e') (m : Member) :
    (e m = none ∧ e' m = none) ∨ ∃ s s', e m = some s ∧ e' m = some s' ∧ s.Alike s' := by
  have scalars := alike m
  generalize e m = o, e' m = o' at scalars
  cases scalars with
  | some scalars => exact .inr ⟨_, _, rfl, rfl, scalars⟩
  | none => exact .inl ⟨rfl, rfl⟩

theorem Alike.text (alike : e.Alike e') (m : Member) : e.text m = e'.text m := by
  rw [Entry.text, Entry.text]
  obtain ⟨no, no'⟩ | ⟨s, s', some, some', scalars⟩ := alike.member m
  · rw [no, no']
  · rw [some, some', Option.map_some, Option.map_some, scalars.text]

theorem Alike.isNone (alike : e.Alike e') (m : Member) : (e m).isNone = (e' m).isNone := by
  obtain ⟨no, no'⟩ | ⟨s, s', some, some', _⟩ := alike.member m
  · rw [no, no']
  · rw [some, some']
    rfl

theorem Alike.integer (alike : e.Alike e') (index : Nat) (m : Member) (default : Int) :
    e.integer index m default = e'.integer index m default := by
  rw [Entry.integer, Entry.integer]
  obtain ⟨no, no'⟩ | ⟨s, s', some, some', scalars⟩ := alike.member m
  · rw [no, no']
  · rw [some, some']
    dsimp only
    rw [scalars.integer, scalars.shown]

theorem Alike.report (alike : e.Alike e') (index : Nat) (alarm : String) :
    e.report index alarm = e'.report index alarm := by
  simp only [Entry.report, Entry.integerIn, alike.text, alike.isNone, alike.integer]

theorem Alike.reading (alike : e.Alike e') (index : Nat) (device : String) :
    e.reading index device = e'.reading index device := by
  simp only [Entry.reading, alike.text, alike.integer]

/-- Neither the record nor its fault tells the entries apart. -/
theorem Alike.record (alike : e.Alike e') (index : Nat) : e.record index = e'.record index := by
  rw [Entry.record, Entry.record]
  obtain ⟨noAlarm, noAlarm'⟩ | ⟨a, a', alarm, alarm', ids⟩ := alike.member .alarm
  · obtain ⟨no, no'⟩ | ⟨d, d', device, device', ids⟩ := alike.member .device
    · rw [noAlarm, noAlarm', no, no']
    · rw [noAlarm, noAlarm', device, device']
      dsimp only
      rw [ids.text, alike.reading]
  · rw [alarm, alarm']
    dsimp only
    rw [ids.text, alike.report]

theorem alike_update (base : Entry) (m : Member) {s s' : Scalar} (scalars : s.Alike s') :
    Alike (Function.update base m (some s)) (Function.update base m (some s')) := by
  intro m'
  by_cases same : m' = m
  · rw [same, Function.update_self, Function.update_self]
    exact .some scalars
  · rw [Function.update_of_ne same, Function.update_of_ne same]
    cases base m' with
    | some s => exact .some (.refl s)
    | none => exact .none

end Entry

theorem nullable?_of_read {v : Json} {s : Scalar} (read : Scalar.ofJson? v = some s) :
    v.nullable? Scalar.ofJson? = some (some s) := by
  cases v with
  | null => cases read
  | _ => simp [Json.nullable?, Json.isNull, read]

theorem alike_integer {z : Int} (fits : isInt64 z = true) :
    (Scalar.integer z).Alike (.text (toString z)) :=
  ⟨rfl, (Scalar.toInt?_text_toString fits).symm, rfl⟩

/-- A minus zero is no integer but a double. -/
theorem alike_minus_zero :
    ∃ s, Scalar.ofJson? (.number { negative := true, whole := ['0'] }) = some s ∧
      s.Alike (.text "-0") := by
  let v : Json := .number { negative := true, whole := ['0'] }
  have readable : (Scalar.ofJson? v).isSome := by decide +kernel
  exact ⟨(Scalar.ofJson? v).get readable, (Option.some_get readable).symm,
    by decide +kernel +revert, by decide +kernel +revert, by decide +kernel +revert⟩

theorem ofJson?_of_integer {n : Json.Number} {z : Int} (read : n.integer? = some z)
    (fits : isInt64 z = true) : Scalar.ofJson? (.number n) = some (.integer z) := by
  rw [Scalar.ofJson?, Json.Number.value?, read]
  exact congrArg some (if_pos fits)

/-- An integer literal that 64 bits hold is alike to its own text. -/
theorem exists_scalar {z : Int} {text post : List Char} (literal : IntegerLiteral z text)
    (fits : isInt64 z = true) (ends : EndsWord post) :
    ∃ v s, Writes text post v ∧ Scalar.ofJson? v = some s ∧
      s.Alike (.text (String.ofList text)) := by
  have bounds := fits
  rw [isInt64, Bool.and_eq_true, decide_eq_true_eq, decide_eq_true_eq] at bounds
  have ownText (z : Int) (text : List Char) (written : (toString z).toList = text) :
      String.ofList text = toString z := by
    rw [← written, String.ofList_toList]
  cases literal with
  | plain n =>
    have small : n < UInt64.size := by
      have highest : Int64.maxValue.toInt < UInt64.size := by decide
      omega
    refine ⟨_, .integer n, Json.writes_plain n ends, ofJson?_of_integer ?_ fits, ?_⟩
    · rw [Json.integer?_plain, if_pos small]
    · have written : (toString (n : Int)).toList = Nat.toDigits 10 n := by
        rw [Numeric.toList_toString_int, if_neg (by omega)]
        rfl
      rw [ownText _ _ written]
      exact alike_integer fits
  | minus n =>
    rcases Nat.eq_zero_or_pos n with rfl | positive
    · obtain ⟨s, read, alike⟩ := alike_minus_zero
      exact ⟨_, s, Json.writes_minus 0 ends, read, alike⟩
    · refine ⟨_, .integer (-n), Json.writes_minus n ends, ofJson?_of_integer ?_ fits, ?_⟩
      · rw [Json.integer?_minus, if_pos ⟨positive, bounds.1⟩]
      · have written : (toString (-n : Int)).toList = '-' :: Nat.toDigits 10 n := by
          rw [Numeric.toList_toString_int, if_pos (by omega), Int.natAbs_neg, Int.natAbs_natCast]
          rfl
        rw [ownText _ _ written]
        exact alike_integer fits

theorem plain_of_isDigit {c : Char} (digit : c.isDigit = true) : Json.Plain c := by
  refine ⟨?_, ?_, ?_⟩
  · simp only [Char.isDigit, Bool.and_eq_true, decide_eq_true_eq] at digit
    have low : 48 ≤ c.toNat := UInt32.le_iff_toNat_le.mp digit.1
    omega
  all_goals
    rintro rfl
    cases digit

theorem plain_literal {z : Int} {text : List Char} (literal : IntegerLiteral z text) :
    ∀ c ∈ text, Json.Plain c := by
  have digits (n : Nat) : ∀ c ∈ Nat.toDigits 10 n, Json.Plain c := fun c member =>
    plain_of_isDigit (Json.isDigit_of_mem_toDigits c member)
  cases literal with
  | plain n => exact digits n
  | minus n => exact List.forall_mem_cons.mpr ⟨by decide, digits n⟩

/-! ### Payloads -/

/-- An integer literal that 64 bits hold can be put between quotes anywhere in a payload where a
member of a record stands: the records stay the same, and so does the fault if there is one. -/
theorem decode_quoted {pre lit post : String} {m : Member} {index : Nat} {z : Int}
    (place : At pre m index) (literal : IntegerLiteral z lit.toList) (fits : isInt64 z = true)
    (ends : EndsWord post.toList) :
    decode (pre ++ ("\"" ++ lit ++ "\"") ++ post) = decode (pre ++ lit ++ post) := by
  obtain ⟨v, s, writes, read, alike⟩ := exists_scalar literal fits ends
  rw [String.ofList_toList] at alike
  have quoted : Writes ("\"" ++ lit ++ "\"").toList post.toList (.string (some lit)) := by
    rw [String.toList_append, String.toList_append]
    exact Json.writes_string (Json.spelled_plain (plain_literal literal)) _
  rcases decode_at_member place post with refused | ⟨before, after, base, _, decoded⟩
  · rw [refused _ _ quoted, refused _ _ writes]
  · rw [decoded _ _ quoted, decoded _ _ writes, nullable?_of_read read]
    refine recordsAround_congr (fun index => ?_) before after
    exact ((Entry.alike_update base m alike).record index).symm

/-- A minus zero is the code of a kind, quoted or not. -/
theorem decode_quoted_minus_zero :
    At "[\x7b\"uid\":\"a\",\"type\":" .kind 0 ∧ IntegerLiteral 0 "-0".toList ∧
      isInt64 0 = true ∧ EndsWord "\x7d]".toList ∧
      decode ("[\x7b\"uid\":\"a\",\"type\":" ++ ("\"" ++ "-0" ++ "\"") ++ "\x7d]") =
        decode ("[\x7b\"uid\":\"a\",\"type\":" ++ "-0" ++ "\x7d]") := by
  have place : At "[\x7b\"uid\":\"a\",\"type\":" .kind 0 :=
    .mk (by decide +kernel) (.value [.object [(some "uid", .string (some "a"))] (some "type"), .array []])
      (.named [(some "uid", .string (some "a"))] .kind)
  have literal : IntegerLiteral 0 "-0".toList := .minus 0
  have fits : isInt64 0 = true := by decide
  have ends : EndsWord "\x7d]".toList := Json.endsWord_mark .closeObject [']']
  exact ⟨place, literal, fits, ends, decode_quoted place literal fits ends⟩

end Dashboard.Payload
