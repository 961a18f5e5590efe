import Dashboard.Config
import Dashboard.Json.Fields
import Dashboard.Preferences

/-!
# Stored settings

The JSON forms of configurations and preferences. A setting that is left out has its default.
-/

namespace Dashboard

open Json

def Alarm.Channels.ofJson? (v : Json) : Option Alarm.Channels :=
  v.toUInt32?.map Alarm.Channels.mk

def Alarm.Panel.fields : List Field :=
  [{ name := "name", presence := .defaulted }, { name := "min_severity", presence := .defaulted },
    { name := "max_severity", presence := .defaulted },
    { name := "channel_mask", presence := .defaulted }, { name := "slot_count" },
    { name := "text_width", presence := .defaulted }]

def Alarm.Panel.ofJson? (v : Json) : Option Alarm.Panel := do
  let ms ← v.members? fields
  let slotCount ← ms.read? "slot_count" toNat?
  let default : Alarm.Panel := { slotCount }
  return {
    name := ← ms.readOr? "name" default.name toText?
    minSeverity := ← ms.readOr? "min_severity" default.minSeverity toInt32?
    maxSeverity := ← ms.readOr? "max_severity" default.maxSeverity toInt32?
    mask := ← ms.readOr? "channel_mask" default.mask Alarm.Channels.ofJson?
    slotCount
    textWidth := ← ms.readOr? "text_width" default.textWidth toNat? }

def Config.fields : List Field :=
  [{ name := "history_capacity", presence := .defaulted },
    { name := "large_value_threshold", presence := .defaulted },
    { name := "alarm_panels", presence := .defaulted },
    { name := "channel_size", presence := .defaulted }]

def Config.ofJson? (v : Json) : Option Config := do
  let ms ← v.members? fields
  let default : Config := {}
  return {
    historyCapacity := ← ms.readOr? "history_capacity" default.historyCapacity toNat?
    largeAbove := ← ms.readOr? "large_value_threshold" default.largeAbove toDouble?
    panels := ← ms.readOr? "alarm_panels" default.panels (toList? Alarm.Panel.ofJson?)
    queueCapacity := ← ms.readOr? "channel_size" default.queueCapacity toNat? }

def Config.ofText? (text : String) : Option Config :=
  (parse? text).bind ofJson?

def Preferences.fields : List Field :=
  [{ name := "abbreviate", presence := .defaulted }]

def Preferences.ofJson? (v : Json) : Option Preferences := do
  let ms ← v.members? fields
  return { abbreviate := ← ms.readOr? "abbreviate" false toBool? }

end Dashboard
