import Dashboard.Change
import Dashboard.Json.Fields
import Dashboard.Stored.Settings

/-!
# Stored values

The JSON forms of readings, alarm reports, displays and changes. A stored value is kept as it is and
not derived again. Live alarms have no stored form, and so changes that tell of one have none.
-/

namespace Dashboard

open Json

def Kind.ofJson? : Json → Option Kind :=
  unitVariant? ofName?

def Quantity.ofJson? : Json → Option Quantity :=
  unitVariant? ofName?

def UnitSign.ofJson? : Json → Option UnitSign :=
  unitVariant? ofName?

def Value.ofJson? (v : Json) : Option Value :=
  match v.variant? with
  | some ("Binary", some content) => do
    let ms ← content.members? [{ name := "level" }, { name := "raw" }]
    return .flag (← ms.read? "level" toDouble?) (← ms.read? "raw" toText?)
  | some ("Decimal", some content) => content.toText?.map .text
  | _ => none

def Reading.ofJson? (v : Json) : Option Reading := do
  let ms ← v.members?
    [{ name := "device_id" }, { name := "kind" }, { name := "subkind" }, { name := "value" }]
  return {
    device := ← ms.read? "device_id" toText?
    kind := ← ms.read? "kind" Kind.ofJson?
    quantity := ← ms.read? "subkind" Quantity.ofJson?
    value := ← ms.read? "value" Value.ofJson? }

def Alarm.Report.ofJson? (v : Json) : Option Alarm.Report := do
  let ms ← v.members?
    [{ name := "alarm_id" }, { name := "severity" }, { name := "channel" }, { name := "text" }]
  return {
    id := ← ms.read? "alarm_id" toText?
    severity := ← ms.read? "severity" toInt32?
    channels := ← ms.read? "channel" Alarm.Channels.ofJson?
    text := ← ms.read? "text" toText? }

def Display.ofJson? (v : Json) : Option Display :=
  match v.variant? with
  | some ("Switch", some content) => do
    let ms ← content.members? [{ name := "on" }, { name := "indicator", presence := .optional }]
    return .toggle (← ms.read? "on" toBool?) (← ms.readNullable? "indicator" toBool?)
  | some ("Dimmer", some content) => do
    let ms ← content.members? [{ name := "percent" }]
    return .slider (← ms.read? "percent" toUInt32?)
  | some ("Numeric", some content) => do
    let ms ← content.members? [{ name := "text" }, { name := "unit" }]
    return .figure (← ms.read? "text" toText?) (← ms.read? "unit" UnitSign.ofJson?)
  | _ => none

def Change.ofJson? (v : Json) : Option Change :=
  match v.variant? with
  | some ("Reading", some content) => do
    let ms ← content.members?
      [{ name := "device_id" }, { name := "projection" }, { name := "changed" }]
    return .reading (← ms.read? "device_id" toText?) (← ms.read? "projection" Display.ofJson?)
      (← ms.read? "changed" toBool?)
  | some ("AlarmCleared", some content) => do
    let ms ← content.members? [{ name := "alarm_id" }]
    return .alarmCleared (← ms.read? "alarm_id" toText?)
  | _ => none

end Dashboard
