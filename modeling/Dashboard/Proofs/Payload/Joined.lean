import Mathlib.Control.Monad.Basic
import Dashboard.Session
import Dashboard.Proofs.Json.Arrays

/-!
# Joined payloads

Only a fault says where in its payload a record stands, and `Fault.later` moves it. An array of
entries behind another is decoded as alone, its faults moved behind the other (`records_append`),
so a payload is decoded in parts as it is at once.
-/

namespace Dashboard

namespace Payload

/-- The fault of a record that stands `n` places further behind. -/
def Fault.later (n : Nat) : Fault → Fault
  | unreadable => unreadable
  | missingIdentity index => missingIdentity (index + n)
  | missingSeverity index alarm => missingSeverity (index + n) alarm
  | invalidNumber index m value => invalidNumber (index + n) m value

theorem mapError_bind {ε ε' α β : Type} (f : ε → ε') (x : Except ε α) (next : α → Except ε β) :
    (x >>= next).mapError f = x.mapError f >>= fun a => (next a).mapError f := by
  cases x <;> rfl

namespace Entry

variable (e : Entry) (index n : Nat)

theorem integer_later (m : Member) (default : Int) :
    e.integer (index + n) m default = (e.integer index m default).mapError (.later n) := by
  rw [integer, integer]
  cases e m with
  | none => rfl
  | some s =>
    dsimp only
    cases s.toInt? <;> rfl

theorem integerIn_later (m : Member) (low high : Int) :
    e.integerIn (index + n) m low high = (e.integerIn index m low high).mapError (.later n) := by
  rw [integerIn, integerIn, mapError_bind, integer_later]
  congr
  funext z
  split <;> rfl

theorem report_later (alarm : String) :
    e.report (index + n) alarm = (e.report index alarm).mapError (.later n) := by
  rw [report, report]
  cases e .severity with
  | none => rfl
  | some s =>
    simp only [Option.isNone_some, Bool.false_eq_true, if_false, mapError_bind, integerIn_later]
    rfl

theorem reading_later (device : String) :
    e.reading (index + n) device = (e.reading index device).mapError (.later n) := by
  rw [reading, reading]
  simp only [mapError_bind, integer_later]
  rfl

theorem record_later : e.record (index + n) = (e.record index).mapError (.later n) := by
  rw [record, record]
  cases e .alarm with
  | some alarm =>
    dsimp only
    rw [report_later]
    cases e.report index alarm.toText <;> rfl
  | none =>
    cases e .device with
    | none => rfl
    | some device =>
      dsimp only
      rw [reading_later]
      cases e.reading index device.toText <;> rfl

end Entry

theorem records_later (index n : Nat) (entries : List Entry) :
    records (index + n) entries = (records index entries).mapError (.later n) := by
  induction entries generalizing index with
  | nil => rfl
  | cons e rest ih =>
    simp only [records, mapError_bind, Entry.record_later, Nat.add_right_comm index n 1, ih]
    rfl

theorem records_append (index : Nat) (front back : List Entry) :
    records index (front ++ back) = do
      let before ← records index front
      let after ← records (index + front.length) back
      return before ++ after := by
  induction front generalizing index with
  | nil => exact (bind_pure (records index back)).symm
  | cons e rest ih =>
    have place : index + 1 + rest.length = index + (rest.length + 1) := by omega
    simp [records, ih, place]

theorem bind_eq_ok_iff {ε α β : Type} {x : Except ε α} {next : α → Except ε β} {b : β} :
    x >>= next = .ok b ↔ ∃ a, x = .ok a ∧ next a = .ok b := by
  cases x with
  | error fault => exact ⟨nofun, nofun⟩
  | ok a => simp [bind, Except.bind]

theorem map_eq_ok_iff {ε α β : Type} {x : Except ε α} {f : α → β} {b : β} :
    x.map f = .ok b ↔ ∃ a, x = .ok a ∧ f a = b := by
  cases x <;> simp [Except.map]

/-- Records are read only if each of the entries makes one in its place. -/
theorem records_eq_ok_iff {index : Nat} {entries : List Entry} {read : List Record} :
    records index entries = .ok read ↔
      (entries.zipIdx index).map (fun e => e.1.record e.2) = read.map .ok := by
  induction entries generalizing index read with
  | nil => cases read <;> simp [records]
  | cons e rest ih =>
    simp only [records, bind_eq_ok_iff, ih, List.zipIdx_cons, List.map_cons]
    cases read with
    | nil =>
      constructor
      · rintro ⟨_, _, _, _, made⟩
        cases made
      · intro same
        cases same
    | cons first others =>
      rw [List.map_cons, List.cons.injEq]
      constructor
      · rintro ⟨_, one, _, all, made⟩
        cases made
        exact ⟨one, all⟩
      · rintro ⟨one, all⟩
        exact ⟨first, one, others, all, rfl⟩

/-! ### Payloads in parts -/

theorem mapM_eq_some_iff {α β : Type} {read : α → Option β} {items : List α} {results : List β} :
    items.mapM read = some results ↔ items.map read = results.map some := by
  induction items generalizing results with
  | nil => cases results <;> simp
  | cons a rest ih => cases results <;> simp [List.mapM_cons, Option.bind_eq_some_iff, ih]

/-- The payload is an array of these values, and each of them can be read as an entry. -/
structure Holds (payload : String) (items : List Json) : Prop where
  parsed : Json.parse? payload = some (.array items)
  readable : ∀ v ∈ items, (Entry.ofJson? v).isSome

theorem decode_of_parsed {payload : String} {items : List Json}
    (parsed : Json.parse? payload = some (.array items)) :
    decode payload =
      match items.mapM Entry.ofJson? with
      | some entries => records 0 entries
      | none => .error .unreadable := by
  rw [decode, parsed]
  rfl

theorem entries_of_readable {items : List Json} (readable : ∀ v ∈ items, (Entry.ofJson? v).isSome) :
    ∃ entries, items.mapM Entry.ofJson? = some entries ∧ entries.length = items.length := by
  induction items with
  | nil => exact ⟨[], rfl, rfl⟩
  | cons v rest ih =>
    obtain ⟨e, read⟩ := Option.isSome_iff_exists.mp (readable v List.mem_cons_self)
    obtain ⟨entries, others, same⟩ := ih fun w member => readable w (List.mem_cons_of_mem v member)
    exact ⟨e :: entries, by simp [List.mapM_cons, read, others], by simp [same]⟩

theorem Holds.decode {payload : String} {items : List Json} (h : Holds payload items) :
    ∃ entries, items.mapM Entry.ofJson? = some entries ∧ entries.length = items.length ∧
      Payload.decode payload = records 0 entries := by
  obtain ⟨entries, read, same⟩ := entries_of_readable h.readable
  exact ⟨entries, read, same, by rw [decode_of_parsed h.parsed, read]⟩

theorem decode_unreadable {payload : String} {items : List Json}
    (parsed : Json.parse? payload = some (.array items)) {v : Json} (member : v ∈ items)
    (unreadable : Entry.ofJson? v = none) : decode payload = .error .unreadable := by
  rw [decode_of_parsed parsed]
  cases read : items.mapM Entry.ofJson? with
  | none => rfl
  | some entries =>
    have all := mapM_eq_some_iff.mp read
    have image := List.mem_map_of_mem (f := Entry.ofJson?) member
    rw [all, unreadable] at image
    simp at image

theorem decode_append {p q pq : String} {xs ys : List Json} (hp : Holds p xs) (hq : Holds q ys)
    (joined : Json.parse? pq = some (.array (xs ++ ys))) :
    decode pq =
      match decode p, decode q with
      | .ok a, .ok b => .ok (a ++ b)
      | .error fault, _ => .error fault
      | .ok _, .error fault => .error (fault.later xs.length) := by
  obtain ⟨front, readp, same, dp⟩ := hp.decode
  obtain ⟨back, readq, _, dq⟩ := hq.decode
  have read : (xs ++ ys).mapM Entry.ofJson? = some (front ++ back) := by
    simp [List.mapM_append, readp, readq]
  rw [decode_of_parsed joined, read, dp, dq]
  dsimp only
  have later := records_later 0 front.length back
  rw [Nat.zero_add] at later
  rw [records_append, Nat.zero_add, later, same]
  cases records 0 front with
  | error fault => rfl
  | ok a => cases records 0 back <;> rfl

theorem parsed_of_ok {payload : String} {read : List Record} (done : decode payload = .ok read) :
    ∃ items, Json.parse? payload = some (.array items) := by
  rw [decode] at done
  cases parsed : Json.parse? payload with
  | none => rw [parsed] at done; cases done
  | some v =>
    rw [parsed] at done
    cases v with
    | array items => exact ⟨items, rfl⟩
    | _ => cases done

/-- A payload is decoded only if every item of its array is read, and every entry makes a record. -/
theorem decode_eq_ok_iff {payload : String} {read : List Record} :
    decode payload = .ok read ↔
      ∃ items, ∃ entries : List Entry, Json.parse? payload = some (.array items) ∧
        items.map Entry.ofJson? = entries.map some ∧
        entries.zipIdx.map (fun e => e.1.record e.2) = read.map .ok := by
  constructor
  · intro done
    obtain ⟨items, parsed⟩ := parsed_of_ok done
    rw [decode_of_parsed parsed] at done
    cases all : items.mapM Entry.ofJson? with
    | none => rw [all] at done; cases done
    | some entries =>
      rw [all] at done
      exact ⟨items, entries, parsed, mapM_eq_some_iff.mp all, records_eq_ok_iff.mp done⟩
  · rintro ⟨items, entries, parsed, all, made⟩
    rw [decode_of_parsed parsed, mapM_eq_some_iff.mpr all]
    exact records_eq_ok_iff.mpr made

end Payload

/-! ### Ingesting in parts -/

namespace Session

variable {s : Session} {prefs : Preferences}

theorem ingest_of_decode {payload : String} {read : List Record}
    (done : Payload.decode payload = .ok read) :
    s.ingest prefs payload = .ok (s.applyAll prefs read) := by
  rw [ingest, done]
  rfl

theorem ingest_append {p q pq : String} {a b : List Record} (first : Payload.decode p = .ok a)
    (second : Payload.decode q = .ok b) (both : Payload.decode pq = .ok (a ++ b)) :
    ∃ f g, s.ingest prefs p = .ok f ∧ f.session.ingest prefs q = .ok g ∧
      s.ingest prefs pq = .ok { changes := f.changes ++ g.changes, session := g.session } := by
  refine ⟨_, _, ingest_of_decode first, ingest_of_decode second, ?_⟩
  obtain ⟨changes, session⟩ := s.applyAll_append prefs a b
  rw [ingest_of_decode both, ← changes, ← session]

end Session

namespace Payload

/-- Decoding is all or nothing, and it can be done in parts. A payload that holds the items of two
others is decoded and ingested as the one after the other; a comma in place of the end of the first
and the start of the second makes such a payload. An item that cannot be read makes the payload
unreadable, whatever stands before it, and a session stays as it is when it refuses a payload. -/
theorem decode_joined :
    (∀ p q pq xs ys, Holds p xs → Holds q ys → Json.parse? pq = some (.array (xs ++ ys)) →
      (decode pq =
        match decode p, decode q with
        | .ok a, .ok b => .ok (a ++ b)
        | .error fault, _ => .error fault
        | .ok _, .error fault => .error (fault.later xs.length)) ∧
      ∀ (s : Session) (prefs : Preferences) (a b : List Record),
        decode p = .ok a → decode q = .ok b →
        ∃ f g, s.ingest prefs p = .ok f ∧ f.session.ingest prefs q = .ok g ∧
          s.ingest prefs pq = .ok { changes := f.changes ++ g.changes, session := g.session }) ∧
    (∀ a b x xs y ys, Json.parse? (a ++ "]") = some (.array (x :: xs)) →
      Json.parse? ("[" ++ b) = some (.array (y :: ys)) →
      Json.parse? (a ++ "," ++ b) = some (.array (x :: xs ++ y :: ys))) ∧
    (∀ payload read, decode payload = .ok read ↔
      ∃ items, ∃ entries : List Entry, Json.parse? payload = some (.array items) ∧
        items.map Entry.ofJson? = entries.map some ∧
        entries.zipIdx.map (fun e => e.1.record e.2) = read.map .ok) ∧
    (∀ payload items v, Json.parse? payload = some (.array items) → v ∈ items →
      Entry.ofJson? v = none → decode payload = .error .unreadable) ∧
    ∀ (s : Session) (prefs : Preferences) (payload : String) (fault : Fault),
      s.ingest prefs payload = .error fault → s.after prefs payload = s := by
  refine ⟨fun p q pq xs ys hp hq joined => ⟨decode_append hp hq joined, ?_⟩,
    fun a b x xs y ys => Json.parse?_joined, fun payload read => decode_eq_ok_iff,
    fun payload items v parsed => decode_unreadable parsed, ?_⟩
  · intro s prefs a b first second
    refine Session.ingest_append first second ?_
    rw [decode_append hp hq joined, first, second]
  · intro s prefs payload fault refused
    rw [Session.after, refused]

/-- A report without severity is missed where it stands in the joined payload. -/
theorem decode_joined_reading_report :
    decode ("[\x7b\"uid\":\"a\"\x7d" ++ "," ++ "\x7b\"aluid\":\"b\"\x7d]") =
      .error (.missingSeverity 1 "b") := by
  have first : Holds "[\x7b\"uid\":\"a\"\x7d]" [.object [(some "uid", .string "a")]] :=
    ⟨by decide +kernel, by decide⟩
  have second : Holds "[\x7b\"aluid\":\"b\"\x7d]" [.object [(some "aluid", .string "b")]] :=
    ⟨by decide +kernel, by decide⟩
  have joined := decode_joined.2.1 "[\x7b\"uid\":\"a\"\x7d" "\x7b\"aluid\":\"b\"\x7d]" _ _ _ _
    first.parsed second.parsed
  have reading : decode "[\x7b\"uid\":\"a\"\x7d]" =
      .ok [.reading (.ofRaw "a" .unspecified .unspecified "")] := by decide +kernel
  have report : decode "[\x7b\"aluid\":\"b\"\x7d]" = .error (.missingSeverity 0 "b") := by
    decide +kernel
  rw [(decode_joined.1 _ _ _ _ _ first second joined).1, reading, report]
  rfl

end Payload

end Dashboard
