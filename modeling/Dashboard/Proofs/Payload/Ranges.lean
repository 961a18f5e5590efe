import Dashboard.Proofs.Payload.Integers
import Dashboard.Proofs.Payload.Routed

/-!
# Ranges of integer members

A member holds integers of its own range (`Fits`), and an integer of this range is what the record
gets (`Gives`). An integer outside, of any size and however it is written, is never wrapped or cut
off: the payload is refused for this member of this record, or because a literal is too large
(`decode_integer`).
-/

namespace Dashboard

/-- The element has the code, or no element has it and this is the default. -/
def Coded {α : Type} (code : α → Nat) (default : α) (z : Int) (a : α) : Prop :=
  (code a : Int) = z ∨ a = default ∧ ∀ b, (code b : Int) ≠ z

theorem elementAt?_eq_some_iff {α : Type} [DecidableEq α] {table : List α} (unique : table.Nodup)
    {a : α} (member : a ∈ table) {z : Int} :
    elementAt? table z = some a ↔ (table.idxOf a : Int) = z := by
  unfold elementAt?
  constructor
  · intro found
    split at found
    · cases found
    · obtain ⟨inside, rfl⟩ := List.getElem?_eq_some_iff.mp found
      rw [unique.idxOf_getElem]
      omega
  · rintro rfl
    rw [if_neg (by omega), Int.toNat_natCast, List.getElem?_idxOf member]

theorem coded_elementAt? {α : Type} [DecidableEq α] {table : List α} (unique : table.Nodup)
    (complete : ∀ a, a ∈ table) (default : α) (z : Int) :
    Coded table.idxOf default z ((elementAt? table z).getD default) := by
  cases found : elementAt? table z with
  | none =>
    refine .inr ⟨rfl, fun b same => ?_⟩
    rw [(elementAt?_eq_some_iff unique (complete b)).mpr same] at found
    cases found
  | some a => exact .inl ((elementAt?_eq_some_iff unique (complete a)).mp found)

theorem Kind.coded_ofCode (z : Int) : Coded Kind.code .unspecified z (.ofCode z) := by
  have unique : Kind.table.Nodup := by decide
  exact coded_elementAt? unique (fun k => by cases k <;> decide) .unspecified z

theorem Quantity.coded_ofCode (z : Int) : Coded Quantity.code .unspecified z (.ofCode z) := by
  have unique : Quantity.table.Nodup := by decide
  exact coded_elementAt? unique (fun q => by cases q <;> decide) .unspecified z

namespace Payload

def numbers (isAlarm : Bool) : List Member :=
  if isAlarm then [.severity, .channels] else [.kind, .quantity]

def Fits : Member → Int → Prop
  | .severity, z => Int32.minValue.toInt ≤ z ∧ z ≤ Int32.maxValue.toInt
  | .channels, z => 0 ≤ z ∧ z ≤ UInt32.size - 1
  | _, z => isInt64 z = true

instance (m : Member) (z : Int) : Decidable (Fits m z) :=
  match m with
  | .severity | .channels => inferInstanceAs (Decidable (_ ∧ _))
  | .device | .kind | .quantity | .value | .alarm | .alarmText =>
    inferInstanceAs (Decidable (_ = _))

/-- What a record becomes when the member holds the integer. -/
inductive Gives (z : Int) : Member → Record → Record → Prop where
  | severity {r : Alarm.Report} {severity : Int32} (same : severity.toInt = z) :
      Gives z .severity (.alarm r) (.alarm { r with severity })
  | channels {r : Alarm.Report} {bits : UInt32} (same : (bits.toNat : Int) = z) :
      Gives z .channels (.alarm r) (.alarm { r with channels := ⟨bits⟩ })
  | kind {r : Reading} {kind : Kind} (coded : Coded Kind.code .unspecified z kind) :
      Gives z .kind (.reading r) (.reading { r with kind })
  | quantity {r : Reading} {quantity : Quantity}
      (coded : Coded Quantity.code .unspecified z quantity) :
      Gives z .quantity (.reading r) (.reading (.ofRaw r.device r.kind quantity r.value.raw))

/-- What comes of a record when the integer is written for the member. -/
inductive Outcome (z : Int) (m : Member) (index : Nat) (record : Record) :
    Except Fault Record → Prop where
  | given {record' : Record} (fits : Fits m z) (gives : Gives z m record record') :
      Outcome z m index record (.ok record')
  | refused (outside : ¬Fits m z) (shown : String) :
      Outcome z m index record (.error (.invalidNumber index m shown))

namespace Entry

variable {e : Entry} {m : Member} {s : Scalar} {z : Int} (own : e m = some s) (stands : s.Stands z)
  (index : Nat)
include own stands

theorem integer_stands (default : Int) :
    (isInt64 z = true ∧ e.integer index m default = .ok z) ∨
      (isInt64 z = false ∧ ∃ shown,
        e.integer index m default = .error (.invalidNumber index m shown)) := by
  rw [Entry.integer, own]
  dsimp only
  rw [stands]
  cases isInt64 z with
  | true => exact .inl ⟨rfl, rfl⟩
  | false => exact .inr ⟨rfl, s.shown, rfl⟩

theorem integerIn_stands (low high : Int) (least : isInt64 low = true)
    (most : isInt64 high = true) :
    ((low ≤ z ∧ z ≤ high) ∧ e.integerIn index m low high = .ok z) ∨
      (¬(low ≤ z ∧ z ≤ high) ∧ ∃ shown,
        e.integerIn index m low high = .error (.invalidNumber index m shown)) := by
  rw [Entry.integerIn]
  rcases integer_stands own stands index 0 with ⟨fits, read⟩ | ⟨outside, shown, refused⟩
  · rw [read]
    by_cases range : low ≤ z ∧ z ≤ high
    · exact .inl ⟨range, by simp [bind, Except.bind, pure, Except.pure, range]⟩
    · refine .inr ⟨range, toString z, ?_⟩
      have no : (decide (low ≤ z) && decide (z ≤ high)) = false := by
        rw [← Bool.decide_and]
        exact decide_eq_false range
      simp [bind, Except.bind, no]
      rfl
  · have range : ¬(low ≤ z ∧ z ≤ high) := by
      rw [isInt64_iff] at least most
      have far := mt isInt64_iff.mpr (Bool.eq_false_iff.mp outside)
      omega
    exact .inr ⟨range, shown, by rw [refused]; rfl⟩

end Entry

/-! ### Records with one member changed -/

section
variable {e e₀ : Entry} {index : Nat}

theorem integer_congr {m : Member} (same : e m = e₀ m) (default : Int) :
    e.integer index m default = e₀.integer index m default := by
  rw [Entry.integer, Entry.integer, same]

theorem integerIn_congr {m : Member} (same : e m = e₀ m) (low high : Int) :
    e.integerIn index m low high = e₀.integerIn index m low high := by
  rw [Entry.integerIn, Entry.integerIn, integer_congr same]

theorem text_congr {m : Member} (same : e m = e₀ m) : e.text m = e₀.text m := by
  rw [Entry.text, Entry.text, same]

theorem record_of_alarm {a s : Scalar} (alarm : e .alarm = some a)
    (severity : e .severity = some s) :
    e.record index = do
      let severity ← e.integerIn index .severity Int32.minValue.toInt Int32.maxValue.toInt
      let channels ← e.integerIn index .channels 0 (UInt32.size - 1)
      return .alarm {
        id := a.toText, severity := .ofInt severity, channels := ⟨.ofNat channels.toNat⟩
        text := e.text .alarmText } := by
  rw [Entry.record, alarm]
  dsimp only
  rw [Entry.report, severity]
  cases e.integerIn index .severity Int32.minValue.toInt Int32.maxValue.toInt with
  | error fault => rfl
  | ok severity => cases e.integerIn index .channels 0 (UInt32.size - 1) <;> rfl

theorem record_of_device {d : Scalar} (noAlarm : e .alarm = none) (device : e .device = some d) :
    e.record index = do
      let kind ← e.integer index .kind 0
      let quantity ← e.integer index .quantity 0
      return .reading (.ofRaw d.toText (.ofCode kind) (.ofCode quantity) (e.text .value)) := by
  rw [Entry.record, noAlarm, device]
  dsimp only
  rw [Entry.reading]
  cases e.integer index .kind 0 with
  | error fault => rfl
  | ok kind => cases e.integer index .quantity 0 <;> rfl

theorem exists_alarm_of_ok {record : Record} (read : e.record index = .ok record)
    (isAlarm : record.isAlarm = true) :
    ∃ a s, e .alarm = some a ∧ e .severity = some s := by
  rw [isAlarm_of_record read] at isAlarm
  obtain ⟨a, alarm⟩ := Option.isSome_iff_exists.mp isAlarm
  cases severity : e .severity with
  | some s => exact ⟨a, s, alarm, rfl⟩
  | none =>
    rw [Entry.record, alarm] at read
    dsimp only at read
    rw [Entry.report, severity] at read
    cases read

theorem exists_device_of_ok {record : Record} (read : e.record index = .ok record)
    (isReading : record.isAlarm = false) : e .alarm = none ∧ ∃ d, e .device = some d := by
  rw [isAlarm_of_record read, Option.isSome_eq_false_iff, Option.isNone_iff_eq_none] at isReading
  refine ⟨isReading, ?_⟩
  cases device : e .device with
  | some d => exact ⟨d, rfl⟩
  | none =>
    rw [Entry.record, isReading, device] at read
    cases read

variable {s : Scalar} {z : Int} {record : Record} (stands : s.Stands z)
  (read : e₀.record index = .ok record)
include stands read

theorem outcome_severity (isAlarm : record.isAlarm = true) (others : ∀ m ≠ .severity, e m = e₀ m)
    (own : e .severity = some s) : Outcome z .severity index record (e.record index) := by
  obtain ⟨a, s₀, alarm, own₀⟩ := exists_alarm_of_ok read isAlarm
  rw [record_of_alarm alarm own₀] at read
  obtain ⟨severity, _, made⟩ := bind_eq_ok_iff.mp read
  obtain ⟨channels, channelsRead, ⟨⟩⟩ := bind_eq_ok_iff.mp made
  rw [record_of_alarm ((others .alarm (by decide)).trans alarm) own,
    text_congr (others .alarmText (by decide)), integerIn_congr (others .channels (by decide)),
    channelsRead]
  rcases Entry.integerIn_stands own stands index Int32.minValue.toInt Int32.maxValue.toInt
    (by decide) (by decide) with ⟨range, number⟩ | ⟨outside, shown, refused⟩
  · have same := Int32.toInt_ofInt_of_le range.1 (Int.lt_of_le_sub_one range.2)
    rw [number]
    exact .given range (.severity same)
  · rw [refused]
    exact .refused (m := .severity) outside shown

theorem outcome_channels (isAlarm : record.isAlarm = true) (others : ∀ m ≠ .channels, e m = e₀ m)
    (own : e .channels = some s) : Outcome z .channels index record (e.record index) := by
  obtain ⟨a, s₀, alarm, severity⟩ := exists_alarm_of_ok read isAlarm
  rw [record_of_alarm alarm severity] at read
  obtain ⟨severityValue, severityRead, made⟩ := bind_eq_ok_iff.mp read
  obtain ⟨channels, _, ⟨⟩⟩ := bind_eq_ok_iff.mp made
  rw [record_of_alarm ((others .alarm (by decide)).trans alarm)
    ((others .severity (by decide)).trans severity), text_congr (others .alarmText (by decide)),
    integerIn_congr (others .severity (by decide)), severityRead]
  rcases Entry.integerIn_stands own stands index 0 (UInt32.size - 1) (by decide) (by decide) with
    ⟨range, number⟩ | ⟨outside, shown, refused⟩
  · have small : z.toNat < UInt32.size := by omega
    have same : ((UInt32.ofNat z.toNat).toNat : Int) = z := by
      rw [UInt32.toNat_ofNat_of_lt' small]
      omega
    rw [number]
    exact .given range (.channels same)
  · rw [refused]
    exact .refused (m := .channels) outside shown

theorem outcome_kind (isReading : record.isAlarm = false) (others : ∀ m ≠ .kind, e m = e₀ m)
    (own : e .kind = some s) : Outcome z .kind index record (e.record index) := by
  obtain ⟨noAlarm, d, device⟩ := exists_device_of_ok read isReading
  rw [record_of_device noAlarm device] at read
  obtain ⟨kind, _, made⟩ := bind_eq_ok_iff.mp read
  obtain ⟨quantity, quantityRead, ⟨⟩⟩ := bind_eq_ok_iff.mp made
  rw [record_of_device ((others .alarm (by decide)).trans noAlarm)
    ((others .device (by decide)).trans device), text_congr (others .value (by decide)),
    integer_congr (others .quantity (by decide)), quantityRead]
  rcases Entry.integer_stands own stands index 0 with ⟨fits, number⟩ | ⟨outside, shown, refused⟩
  · rw [number]
    exact .given fits (.kind (Kind.coded_ofCode z))
  · rw [refused]
    exact .refused (m := .kind) (Bool.eq_false_iff.mp outside) shown

theorem outcome_quantity (isReading : record.isAlarm = false)
    (others : ∀ m ≠ .quantity, e m = e₀ m) (own : e .quantity = some s) :
    Outcome z .quantity index record (e.record index) := by
  obtain ⟨noAlarm, d, device⟩ := exists_device_of_ok read isReading
  rw [record_of_device noAlarm device] at read
  obtain ⟨kind, kindRead, made⟩ := bind_eq_ok_iff.mp read
  obtain ⟨quantity, _, ⟨⟩⟩ := bind_eq_ok_iff.mp made
  rw [record_of_device ((others .alarm (by decide)).trans noAlarm)
    ((others .device (by decide)).trans device), text_congr (others .value (by decide)),
    integer_congr (others .kind (by decide)), kindRead]
  rcases Entry.integer_stands own stands index 0 with ⟨fits, number⟩ | ⟨outside, shown, refused⟩
  · let r := Reading.ofRaw d.toText (.ofCode kind) (.ofCode quantity) (e₀.text .value)
    have raw : r.value.raw = e₀.text .value := Value.raw_ofRaw ..
    have gives := Gives.quantity (Quantity.coded_ofCode z) (r := r)
    rw [raw] at gives
    rw [number]
    exact .given fits gives
  · rw [refused]
    exact .refused (m := .quantity) (Bool.eq_false_iff.mp outside) shown

theorem outcome {m : Member} (number : m ∈ numbers record.isAlarm)
    (others : ∀ m' ≠ m, e m' = e₀ m') (own : e m = some s) :
    Outcome z m index record (e.record index) := by
  unfold numbers at number
  cases kind : record.isAlarm with
  | true =>
    rw [kind, if_pos rfl] at number
    simp only [List.mem_cons, List.not_mem_nil, or_false] at number
    rcases number with rfl | rfl
    · exact outcome_severity stands read kind others own
    · exact outcome_channels stands read kind others own
  | false =>
    rw [kind, if_neg Bool.false_ne_true] at number
    simp only [List.mem_cons, List.not_mem_nil, or_false] at number
    rcases number with rfl | rfl
    · exact outcome_kind stands read kind others own
    · exact outcome_quantity stands read kind others own

end

/-! ### Payloads -/

open Json (Writes literalLimit)

theorem isInt64_of_fits {m : Member} {z : Int} (fits : Fits m z) : isInt64 z = true := by
  have lowest : Int32.minValue.toInt = -2 ^ 31 := by decide
  have highest : Int32.maxValue.toInt = 2 ^ 31 - 1 := by decide
  have most : (UInt32.size : Int) = 2 ^ 32 := by decide
  unfold Fits at fits
  split at fits
  · exact isInt64_iff.mpr (by omega)
  · exact isInt64_iff.mpr (by omega)
  · exact fits

theorem not_too_large_of_fits {m : Member} {z : Int} (fits : Fits m z) :
    z.natAbs < literalLimit := by
  have range := isInt64_iff.mp (isInt64_of_fits fits)
  have below : 2 ^ 63 < literalLimit :=
    Nat.lt_trans (by decide : 2 ^ 63 < UInt64.size) Json.literalLimit_between.2.2.1
  omega

section
variable {pre text post : String} {m : Member} {index : Nat} (place : At pre m index)
  {batch : List Record} {record : Record} (valid : decode (pre ++ "\"0\"" ++ post) = .ok batch)
  (own : batch[index]? = some record) (number : m ∈ numbers record.isAlarm) {z : Int}
  {quoted : Bool} (written : IntegerText z post.toList quoted text.toList)
include place valid own number written

theorem decode_outcome :
    ((!quoted && literalLimit ≤ z.natAbs) = true ∧
      decode (pre ++ text ++ post) = .error .unreadable) ∨
    ((!quoted && literalLimit ≤ z.natAbs) = false ∧ ∃ result, Outcome z m index record result ∧
      decode (pre ++ text ++ post) = result.map (batch.set index)) := by
  have zero : Writes "\"0\"".toList post.toList (.string (some "0")) :=
    Json.writes_string (Json.spelled_plain (by simp [Json.Plain])) post.toList
  obtain ⟨v, writes, read⟩ := exists_integer_read written
  rcases decode_at_member place post with refused | ⟨before, after, base, rfl, decoded⟩
  · rw [refused _ _ zero] at valid
    cases valid
  · -- The entry with a zero makes a record, so only the member itself can make a fault.
    rw [decoded _ _ zero] at valid
    obtain ⟨_, made, own₀, changed⟩ := recordsAround_of_ok valid
    obtain rfl := Option.some.inj (own₀.symm.trans own)
    rw [decoded _ _ writes]
    cases read with
    | refused large unread => exact .inl ⟨large, by rw [unread]; rfl⟩
    | @read s bounded some stands =>
      have others (m' : Member) (other : m' ≠ m) :
          Function.update base m (.some s) m' = Function.update base m (.some (.text "0")) m' := by
        rw [Function.update_of_ne other, Function.update_of_ne other]
      have comes := outcome stands made number others (Function.update_self ..)
      exact .inr ⟨bounded, _, comes, by rw [some, Option.map_some, changed]⟩

/-- Where a payload is decoded with a zero as the integer of a record, it is decoded as well with
every other integer that the member holds, and this record gets it. An integer that the member does
not hold makes the payload refused: it names the member and the record, unless the text is a literal
that is too large to be read. -/
theorem decode_integer :
    (Fits m z → ∃ record', Gives z m record record' ∧
      decode (pre ++ text ++ post) = .ok (batch.set index record')) ∧
    (¬Fits m z → quoted = false → literalLimit ≤ z.natAbs →
      decode (pre ++ text ++ post) = .error .unreadable) ∧
    (¬Fits m z → quoted = true ∨ z.natAbs < literalLimit →
      ∃ shown, decode (pre ++ text ++ post) = .error (.invalidNumber index m shown)) := by
  rcases decode_outcome place valid own number written with
    ⟨large, refused⟩ | ⟨bounded, result, comes, decoded⟩
  · simp only [Bool.and_eq_true, Bool.not_eq_true', decide_eq_true_eq] at large
    refine ⟨fun fits => ?_, fun _ _ _ => refused, fun _ small => ?_⟩
    · exact absurd large.2 (Nat.not_le_of_lt (not_too_large_of_fits fits))
    · rcases small with string | small
      · exact absurd (string.symm.trans large.1) Bool.true_eq_false.mp
      · exact absurd large.2 (Nat.not_le_of_lt small)
  · rw [decoded]
    cases comes with
    | given fits gives =>
      exact ⟨fun _ => ⟨_, gives, rfl⟩, fun outside => absurd fits outside,
        fun outside => absurd fits outside⟩
    | refused outside shown =>
      refine ⟨fun fits => absurd fits outside, fun _ literal large => ?_, fun _ _ => ⟨shown, rfl⟩⟩
      rw [literal, decide_eq_true large] at bounded
      cases bounded

end

/-- A sign, a leading zero and a space do not matter. -/
theorem decode_integer_padded_severity :
    decode ("[\x7b\"aluid\":\"a\",\"alsev\":" ++ "\" +07\"" ++ "\x7d]") =
      .ok [.alarm ⟨"a", 7, ⟨0⟩, ""⟩] := by
  have place : At "[\x7b\"aluid\":\"a\",\"alsev\":" .severity 0 :=
    .mk (by decide +kernel) (.value [.object [(some "aluid", .string (some "a"))] (some "alsev"), .array []])
      (.named [(some "aluid", .string (some "a"))] .severity)
  have valid : decode ("[\x7b\"aluid\":\"a\",\"alsev\":" ++ "\"0\"" ++ "\x7d]") =
      .ok [.alarm ⟨"a", 0, ⟨0⟩, ""⟩] := by decide +kernel
  have digits : ∀ c ∈ ['0', '7'], c.isDigit = true := by simp
  have signed : SignedDigits 7 ['+', '0', '7'] := .plus (List.cons_ne_nil _ _) digits
  have padded : PaddedInteger 7 " +07".toList :=
    .mk (List.forall_mem_singleton.mpr (by decide) : ∀ c ∈ [' '], _) signed (List.forall_mem_nil _)
  have written : IntegerText 7 "\x7d]".toList true "\" +07\"".toList :=
    .quoted padded (Json.spelled_plain (by simp [Json.Plain]))
  have fits : Fits .severity 7 := by decide
  obtain ⟨_, gives, decoded⟩ :=
    (decode_integer place valid rfl List.mem_cons_self written).1 fits
  cases gives with
  | severity same =>
    have seven : (7 : Int32).toInt = 7 := by decide
    obtain rfl := Int32.toInt_inj.mp (same.trans seven.symm)
    exact decoded

/-- A literal can be too large to be read though its integer is a double. -/
theorem severity_largest_double :
    (∃ size, (Numeric.Binary64.finite false size).toInt? = some (Json.largestDouble : Int)) ∧
      decode ("[\x7b\"aluid\":\"a\",\"alsev\":" ++ "\"0\"" ++ "\x7d]") =
        .ok [.alarm ⟨"a", 0, ⟨0⟩, ""⟩] ∧
      decode ("[\x7b\"aluid\":\"a\",\"alsev\":" ++ toString Json.largestDouble ++ "\x7d]") =
        .error .unreadable := by
  have place : At "[\x7b\"aluid\":\"a\",\"alsev\":" .severity 0 :=
    .mk (by decide +kernel) (.value [.object [(some "aluid", .string (some "a"))] (some "alsev"), .array []])
      (.named [(some "aluid", .string (some "a"))] .severity)
  have ends : Json.EndsWord "\x7d]".toList := Json.endsWord_mark .closeObject [']']
  have refused := decode_of_too_large place (literal_toString Json.largestDouble) ends
    Json.literalLimit_between.2.2.2
  exact ⟨Json.exists_largestDouble, by decide +kernel, refused⟩

end Payload

end Dashboard
