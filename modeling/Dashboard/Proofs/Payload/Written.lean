import Mathlib.Data.List.Nodup
import Dashboard.Proofs.Json.Members
import Dashboard.Proofs.Json.Objects
import Dashboard.Proofs.Payload.Joined

/-!
# Payloads as collectors write them

A collector writes an array of flat objects in which every value is a string (`membersOf`).
The members may come in any order, strings may be spelled and tokens laid out in any way that JSON
allows (`Written`). What is decoded is what was written (`decode_written`).
-/

namespace Dashboard

/-- The record is an alarm report, or a reading made of the text that the device sent. -/
inductive Record.Made : Record → Prop where
  | reading (device : String) (kind : Kind) (quantity : Quantity) (raw : String) :
      Made (.reading (.ofRaw device kind quantity raw))
  | alarm (r : Alarm.Report) : Made (.alarm r)

namespace Payload

def membersOf : Record → List (Member × String)
  | .reading r =>
    [(.device, r.device), (.kind, toString (r.kind.code : Int)),
      (.quantity, toString (r.quantity.code : Int)), (.value, r.value.raw)]
  | .alarm r =>
    [(.alarm, r.id), (.alarmText, r.text), (.severity, toString r.severity.toInt),
      (.channels, toString (r.channels.bits.toNat : Int))]

def named (members : List (Member × String)) : List (String × String) :=
  members.map fun m => (m.1.name, m.2)

/-- The payload is a text of the records, the members of each in some order. -/
def Written (records : List Record) (payload : String) : Prop :=
  ∃ orders : List (List (Member × String)),
    List.Forall₂ (fun order record => order.Perm (membersOf record)) orders records ∧
    Json.Laid (Json.arrayPieces (orders.map fun order => Json.objectPieces (named order)))
      payload.toList

def entryOf (members : List (Member × String)) : Entry :=
  fun m => (members.lookup m).map .text

theorem name_injective : Function.Injective Member.name := by
  intro m m'
  cases m <;> cases m' <;> decide

theorem declared_name (m : Member) : Member.fields.any (·.name = m.name) = true := by
  cases m <;> decide

theorem members?_named {members : List (Member × String)} (unique : (members.map (·.1)).Nodup) :
    (Json.ofMembers (named members)).members? Member.fields =
      some (members.map fun m => (m.1.name, .string (some m.2))) := by
  have object : Json.ofMembers (named members) =
      .ofNamed (members.map fun m => (m.1.name, .string (some m.2))) := by
    simp [Json.ofMembers, Json.ofNamed, named]
  rw [object]
  refine Json.members?_of_declared (fun m member => ?_) ?_ fun f declared required => ?_
  · obtain ⟨p, _, rfl⟩ := List.mem_map.mp member
    obtain ⟨f, declared, same⟩ := List.any_eq_true.mp (declared_name p.1)
    exact of_decide_eq_true same ▸ List.mem_map_of_mem declared
  · have mapped := unique.map name_injective
    rw [List.map_map] at mapped ⊢
    exact mapped
  · obtain ⟨m, _, rfl⟩ := List.mem_map.mp declared
    exact Json.Presence.noConfusion required

theorem lookup_named (members : List (Member × String)) (m : Member) :
    (members.map fun m => (m.1.name, Json.string (some m.2))).lookup m.name =
      (members.lookup m).map fun s => .string (some s) := by
  induction members with
  | nil => rfl
  | cons p rest ih =>
    obtain ⟨m', s⟩ := p
    rw [List.map_cons, Table.lookup_cons, Table.lookup_cons, ih]
    by_cases same : m = m'
    · simp [same]
    · rw [if_neg same, if_neg fun names => same (name_injective names)]

theorem ofJson?_named {members : List (Member × String)} (unique : (members.map (·.1)).Nodup) :
    Entry.ofJson? (Json.ofMembers (named members)) = some (entryOf members) := by
  have read (m : Member) : Json.Members.readNullable?
      (members.map fun m => (m.1.name, Json.string (some m.2))) m.name Scalar.ofJson? =
      some (entryOf members m) := by
    rw [Json.Members.readNullable?, Json.Members.readOr?, lookup_named, entryOf]
    cases members.lookup m <;> rfl
  rw [Entry.ofJson?, members?_named unique]
  simp [read]

theorem entryOf_perm {members members' : List (Member × String)} (perm : members.Perm members')
    (unique : (members.map (·.1)).Nodup) : entryOf members = entryOf members' := by
  funext m
  rw [entryOf, entryOf, Table.lookup_perm perm unique]

/-! ### Records -/

theorem unique_membersOf (record : Record) : ((membersOf record).map (·.1)).Nodup := by
  cases record with
  | reading r => exact (by decide : [Member.device, .kind, .quantity, .value].Nodup)
  | alarm r => exact (by decide : [Member.alarm, .alarmText, .severity, .channels].Nodup)

section
variable {e : Entry} {m : Member} {z : Int}

theorem integer_decimal (written : e m = some (.text (toString z))) (fits : isInt64 z = true)
    (index : Nat) (default : Int) : e.integer index m default = .ok z := by
  rw [Entry.integer, written]
  dsimp only
  rw [Scalar.toInt?_text_toString fits]

theorem integerIn_decimal (written : e m = some (.text (toString z))) (fits : isInt64 z = true)
    {low high : Int} (above : low ≤ z) (below : z ≤ high) (index : Nat) :
    e.integerIn index m low high = .ok z := by
  rw [Entry.integerIn, integer_decimal written fits]
  simp [bind, Except.bind, above, below, pure, Except.pure]

end

theorem isInt64_of_natCast {n : Nat} (small : n < UInt32.size) : isInt64 (n : Int) = true := by
  have lowest : Int64.minValue.toInt ≤ 0 := by decide
  have highest : (UInt32.size : Int) ≤ Int64.maxValue.toInt := by decide
  rw [isInt64, Bool.and_eq_true, decide_eq_true_eq, decide_eq_true_eq]
  omega

theorem isInt64_of_int32 (x : Int32) : isInt64 x.toInt = true := by
  have lowest : Int64.minValue.toInt ≤ Int32.minValue.toInt := by decide
  have highest : Int32.maxValue.toInt ≤ Int64.maxValue.toInt := by decide
  have above := x.minValue_le_toInt
  have below := x.toInt_le
  rw [isInt64, Bool.and_eq_true, decide_eq_true_eq, decide_eq_true_eq]
  omega

theorem kind_code_lt (k : Kind) : k.code < UInt32.size := by
  cases k <;> decide

theorem quantity_code_lt (q : Quantity) : q.code < UInt32.size := by
  cases q <;> decide

theorem record_reading (index : Nat) (device : String) (kind : Kind) (quantity : Quantity)
    (raw : String) :
    (entryOf (membersOf (.reading (.ofRaw device kind quantity raw)))).record index =
      .ok (.reading (.ofRaw device kind quantity raw)) := by
  generalize written : entryOf (membersOf (.reading (.ofRaw device kind quantity raw))) = e
  have noAlarm : e .alarm = none := by rw [← written]; rfl
  have sender : e .device = some (.text device) := by rw [← written]; rfl
  have kindWritten : e .kind = some (.text (toString (kind.code : Int))) := by rw [← written]; rfl
  have kindRead : e.integer index .kind 0 = .ok kind.code :=
    integer_decimal kindWritten (isInt64_of_natCast (kind_code_lt kind)) index 0
  have quantityWritten : e .quantity = some (.text (toString (quantity.code : Int))) := by
    rw [← written]; rfl
  have quantityRead : e.integer index .quantity 0 = .ok quantity.code :=
    integer_decimal quantityWritten (isInt64_of_natCast (quantity_code_lt quantity)) index 0
  have value : e.text .value = raw := by
    rw [← written]
    exact Value.raw_ofRaw quantity raw
  rw [Entry.record, noAlarm, sender]
  dsimp only
  rw [Entry.reading, kindRead, quantityRead, value]
  simp only [bind, Except.bind, pure, Except.pure, Except.map, Kind.ofCode_code,
    Quantity.ofCode_code]
  rfl

theorem record_report (index : Nat) (r : Alarm.Report) :
    (entryOf (membersOf (.alarm r))).record index = .ok (.alarm r) := by
  generalize written : entryOf (membersOf (.alarm r)) = e
  have alarm : e .alarm = some (.text r.id) := by rw [← written]; rfl
  have severity : e .severity = some (.text (toString r.severity.toInt)) := by rw [← written]; rfl
  have channels : e .channels = some (.text (toString (r.channels.bits.toNat : Int))) := by
    rw [← written]; rfl
  have text : e.text .alarmText = r.text := by rw [← written]; rfl
  have severityRead := integerIn_decimal severity (isInt64_of_int32 r.severity)
    r.severity.minValue_le_toInt r.severity.toInt_le index
  have most : (r.channels.bits.toNat : Int) ≤ UInt32.size - 1 := by
    have small := r.channels.bits.toNat_lt_size
    omega
  have channelsRead := integerIn_decimal channels
    (isInt64_of_natCast r.channels.bits.toNat_lt_size) (Int.natCast_nonneg _) most index
  rw [Entry.record, alarm]
  dsimp only
  rw [Entry.report, severity, severityRead, channelsRead, text]
  simp only [bind, Except.bind, pure, Except.pure, Except.map, Option.isNone_some,
    Bool.false_eq_true, if_false, Int32.ofInt_toInt, Int.toNat_natCast, UInt32.ofNat_toNat]
  rfl

theorem record_entryOf {record : Record} (made : record.Made) (index : Nat) :
    (entryOf (membersOf record)).record index = .ok record := by
  cases made with
  | reading device kind quantity raw => exact record_reading index device kind quantity raw
  | alarm r => exact record_report index r

/-! ### Payloads -/

theorem exists_written (records : List Record) : ∃ payload, Written records payload := by
  obtain ⟨text, laid⟩ := Json.exists_laid
    (Json.arrayPieces (records.map fun record => Json.objectPieces (named (membersOf record))))
  refine ⟨String.ofList text, records.map membersOf, ?_, ?_⟩
  · apply List.forall₂_map_left_iff.mpr
    exact List.forall₂_same.mpr fun record _ => .refl _
  · rw [List.map_map, String.toList_ofList]
    exact laid

theorem Written.parsed {records : List Record} {payload : String}
    (written : Written records payload) :
    ∃ orders : List (List (Member × String)),
      List.Forall₂ (fun order record => order.Perm (membersOf record)) orders records ∧
      Json.parse? payload =
        some (.array (orders.map fun order => Json.ofMembers (named order))) := by
  obtain ⟨orders, perms, laid⟩ := written
  refine ⟨orders, perms, Json.parse?_laid laid (Json.reads_array ?_)⟩
  apply List.forall₂_map_left_iff.mpr
  apply List.forall₂_map_right_iff.mpr
  exact List.forall₂_same.mpr fun order _ => Json.reads_object (named order)

theorem entries_written {orders : List (List (Member × String))} {records : List Record}
    (perms : List.Forall₂ (fun order record => order.Perm (membersOf record)) orders records) :
    (orders.map fun order => Json.ofMembers (named order)).map Entry.ofJson? =
      (records.map fun record => entryOf (membersOf record)).map some := by
  induction perms with
  | nil => rfl
  | cons perm rest ih =>
    have unique := (perm.map (·.1)).nodup_iff.mpr (unique_membersOf _)
    rw [List.map_cons, List.map_cons, ih, ofJson?_named unique, entryOf_perm perm unique]
    rfl

theorem records_written {records : List Record} (made : ∀ record ∈ records, record.Made)
    (index : Nat) :
    ((records.map fun record => entryOf (membersOf record)).zipIdx index).map
      (fun e => e.1.record e.2) = records.map .ok := by
  induction records generalizing index with
  | nil => rfl
  | cons record rest ih =>
    obtain ⟨head, tail⟩ := List.forall_mem_cons.mp made
    rw [List.map_cons, List.zipIdx_cons, List.map_cons, record_entryOf head, ih tail]
    rfl

theorem Entry.record_made {e : Entry} {index : Nat} {record : Record}
    (read : e.record index = .ok record) : record.Made := by
  unfold Entry.record at read
  split at read
  · obtain ⟨r, _, rfl⟩ := map_eq_ok_iff.mp read
    exact .alarm r
  · obtain ⟨r, made, rfl⟩ := map_eq_ok_iff.mp read
    obtain ⟨kind, _, made⟩ := bind_eq_ok_iff.mp made
    obtain ⟨quantity, _, made⟩ := bind_eq_ok_iff.mp made
    cases made
    exact .reading ..
  · cases read

theorem decode_made {payload : String} {records : List Record}
    (done : decode payload = .ok records) : ∀ record ∈ records, record.Made := by
  obtain ⟨items, entries, _, _, made⟩ := decode_eq_ok_iff.mp done
  intro record member
  have among : Except.ok record ∈ records.map (Except.ok (ε := Fault)) := List.mem_map_of_mem member
  rw [← made] at among
  obtain ⟨e, _, read⟩ := List.mem_map.mp among
  exact Entry.record_made read

/-- Every list of records can be written as collectors write them, and every payload in which it is
written so is decoded to exactly these records, in their order. -/
theorem decode_written {records : List Record} (made : ∀ record ∈ records, record.Made) :
    (∃ payload, Written records payload) ∧
      ∀ payload, Written records payload → decode payload = .ok records := by
  refine ⟨exists_written records, ?_⟩
  intro payload written
  obtain ⟨orders, perms, parsed⟩ := written.parsed
  exact decode_eq_ok_iff.mpr ⟨_, _, parsed, entries_written perms, records_written made 0⟩

open Json in
/-- In the report the severity comes first, the identifier and the text are escaped and a colon is
set off. In the reading the value comes first. -/
theorem decode_written_report_and_reading :
    (∀ record ∈ [Record.alarm ⟨"a", -1, ⟨1⟩, "🔥"⟩,
        .reading (.ofRaw "a" .sensor .temperature "21.5")], record.Made) ∧
      decode ("[" ++ ("\x7b\"alsev\":\"-1\",\"aluid\" : \"\\u0061\"," ++
          "\"altext\":\"\\ud83d\\uDD25\",\"alchan\":\"1\"\x7d") ++ ", " ++
          "\x7b\"value\":\"21.5\",\"uid\":\"a\",\"subt\":\"3\",\"type\":\"3\"\x7d" ++ "]") =
        .ok [.alarm ⟨"a", -1, ⟨1⟩, "🔥"⟩, .reading (.ofRaw "a" .sensor .temperature "21.5")] := by
  have made : ∀ record ∈ [Record.alarm ⟨"a", -1, ⟨1⟩, "🔥"⟩,
      .reading (.ofRaw "a" .sensor .temperature "21.5")], record.Made :=
    List.forall_mem_cons.mpr ⟨.alarm _, List.forall_mem_singleton.mpr (.reading ..)⟩
  have report : [(Member.severity, "-1"), (.alarm, "a"), (.alarmText, "🔥"), (.channels, "1")].Perm
      (membersOf (.alarm ⟨"a", -1, ⟨1⟩, "🔥"⟩)) := by
    decide
  have reading : [(Member.value, "21.5"), (.device, "a"), (.quantity, "3"), (.kind, "3")].Perm
      (membersOf (.reading (.ofRaw "a" .sensor .temperature "21.5"))) := by
    decide
  have id : Escaped 'a'.toNat "\\u0061".toList :=
    .mk (.lower (by decide : 0 < 16)) (.lower (by decide : 0 < 16)) (.lower (by decide : 6 < 16))
      (.lower (by decide : 1 < 16))
  have high : Escaped (0xd800 + 0x3d) "\\ud83d".toList :=
    .mk (.lower (by decide : 13 < 16)) (.lower (by decide : 8 < 16)) (.lower (by decide : 3 < 16))
      (.lower (by decide : 13 < 16))
  have low : Escaped (0xdc00 + 0x125) "\\uDD25".toList :=
    .mk (.upper (by decide : 13 < 16)) (.upper (by decide : 13 < 16)) (.lower (by decide : 2 < 16))
      (.lower (by decide : 5 < 16))
  have spelledId : Spelled "a".toList "\\u0061".toList :=
    .cons (.code id) .nil
  have spelledText : Spelled "🔥".toList "\\ud83d\\uDD25".toList :=
    .cons (.surrogates (by decide) (by decide) (by decide) high low) .nil
  have asItIs (s : String) (plain : ∀ c ∈ s.toList, Plain c) : Spelled s.toList s.toList :=
    spelled_plain plain
  have tight : Blank [] := List.forall_mem_nil _
  have space : Blank [' '] := List.forall_mem_singleton.mpr (by decide)
  have first : Laid [.mark .openArray] "[".toList := .mark tight .openArray (.nil tight)
  have laidReport := Laid.mark tight .openObject <|
    laid_member (m := ("alsev", "-1")) (by simp [Plain]) (by simp [Plain]) <|
    .mark tight .comma <|
    .string tight (asItIs "aluid" (by simp [Plain])) <| .mark space .colon <|
    .string space spelledId <| .mark tight .comma <|
    .string tight (asItIs "altext" (by simp [Plain])) <| .mark tight .colon <|
    .string tight spelledText <| .mark tight .comma <|
    laid_member (m := ("alchan", "1")) (by simp [Plain]) (by simp [Plain]) <|
    .mark tight .closeObject <| .nil tight
  have comma : Laid [.mark .comma] ", ".toList := .mark tight .comma (.nil space)
  have laidReading := Laid.mark tight .openObject <|
    laid_member (m := ("value", "21.5")) (by simp [Plain]) (by simp [Plain]) <|
    .mark tight .comma <|
    laid_member (m := ("uid", "a")) (by simp [Plain]) (by simp [Plain]) <|
    .mark tight .comma <|
    laid_member (m := ("subt", "3")) (by simp [Plain]) (by simp [Plain]) <|
    .mark tight .comma <|
    laid_member (m := ("type", "3")) (by simp [Plain]) (by simp [Plain]) <|
    .mark tight .closeObject <| .nil tight
  have last : Laid [.mark .closeArray] "]".toList := .mark tight .closeArray (.nil tight)
  have laid := (((first.append laidReport).append comma).append laidReading).append last
  refine ⟨made, (decode_written made).2 _ ⟨[_, _], .cons report (.cons reading .nil), ?_⟩⟩
  rw [String.toList_append, String.toList_append, String.toList_append, String.toList_append]
  exact laid

end Payload

end Dashboard
