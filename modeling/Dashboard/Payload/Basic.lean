import Dashboard.Payload.Scalar
import Dashboard.Record

/-!
# Payloads

A payload is a JSON array of records. A record with an alarm id is a report on that alarm, any other
is a reading of a device. `decode` reads all records of a payload or none: a payload that is no
array of records comes before a fault in one of them, and the first fault wins.
-/

namespace Dashboard.Payload

inductive Member where
  | device | kind | quantity | value | alarm | alarmText | severity | channels
  deriving DecidableEq

def Member.name : Member → String
  | device => "uid"
  | kind => "type"
  | quantity => "subt"
  | value => "value"
  | alarm => "aluid"
  | alarmText => "altext"
  | severity => "alsev"
  | channels => "alchan"

/-- The members in the order in which an array lists them. -/
def Member.all : List Member :=
  [device, kind, quantity, value, alarm, alarmText, severity, channels]

/-- One record as it is written: the scalar of each member that is neither missing nor null. -/
abbrev Entry :=
  Member → Option Scalar

def Member.fields : List Json.Field :=
  all.map fun m => { name := m.name, presence := .optional }

def Entry.ofJson? (v : Json) : Option Entry := do
  let members ← v.members? Member.fields
  let read (m : Member) := members.readNullable? m.name Scalar.ofJson?
  if Member.all.all fun m => (read m).isSome then some fun m => (read m).join else none

/-- Why a payload is refused. Records are counted from 0. -/
inductive Fault where
  /-- The payload is no array of records. -/
  | unreadable
  | missingIdentity (index : Nat)
  | missingSeverity (index : Nat) (alarm : String)
  | invalidNumber (index : Nat) (member : Member) (value : String)
  deriving DecidableEq

def Fault.message : Fault → String
  | unreadable => "Malformed push payload"
  | missingIdentity index =>
    "Record " ++ toString index ++ " carries neither a device id nor an alarm id"
  | missingSeverity index alarm =>
    "Alarm record " ++ toString index ++ " [" ++ alarm ++ "] has no severity"
  | invalidNumber index member value =>
    "Record " ++ toString index ++ ": field \x60" ++ member.name ++
      "\x60 is not a valid integer: " ++ value

namespace Entry

variable (e : Entry) (index : Nat)

def text (m : Member) : String :=
  ((e m).map Scalar.toText).getD ""

def integer (m : Member) (default : Int) : Except Fault Int :=
  match e m with
  | none => .ok default
  | some s =>
    match s.toInt? with
    | some z => .ok z
    | none => .error (.invalidNumber index m s.shown)

def integerIn (m : Member) (low high : Int) : Except Fault Int := do
  let z ← e.integer index m 0
  if low ≤ z && z ≤ high then return z else throw (.invalidNumber index m (toString z))

def report (alarm : String) : Except Fault Alarm.Report := do
  if (e .severity).isNone then throw (.missingSeverity index alarm)
  let severity ← e.integerIn index .severity Int32.minValue.toInt Int32.maxValue.toInt
  let channels ← e.integerIn index .channels 0 (UInt32.size - 1)
  return {
    id := alarm
    severity := .ofInt severity
    channels := ⟨.ofNat channels.toNat⟩
    text := e.text .alarmText }

def reading (device : String) : Except Fault Reading := do
  let kind ← e.integer index .kind 0
  let quantity ← e.integer index .quantity 0
  return .ofRaw device (.ofCode kind) (.ofCode quantity) (e.text .value)

def record : Except Fault Record :=
  match e .alarm, e .device with
  | some alarm, _ => (e.report index alarm.toText).map .alarm
  | none, some device => (e.reading index device.toText).map .reading
  | none, none => .error (.missingIdentity index)

end Entry

/-- The records of entries of which the first has the given index. -/
def records (index : Nat) : List Entry → Except Fault (List Record)
  | [] => .ok []
  | e :: rest => do
    let record ← e.record index
    let others ← records (index + 1) rest
    return record :: others

def ofJson (v : Json) : Except Fault (List Record) :=
  match v.toList? Entry.ofJson? with
  | some entries => records 0 entries
  | none => .error .unreadable

def decode (payload : String) : Except Fault (List Record) :=
  match Json.parse? payload with
  | some v => ofJson v
  | none => .error .unreadable

end Dashboard.Payload
