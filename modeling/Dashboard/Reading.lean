import Dashboard.Device
import Dashboard.Figure.Style

/-!
# Readings

A reading is one value that a device reports. Its text is taken as a flag or left as it is when the
reading is made, by what the device measures.
-/

namespace Dashboard

open Numeric

/-- The level that a text stands for: 0 if there is none, 1 if it is no number. -/
def flagLevel (raw : String) : Binary64 :=
  if Text.trim raw = "" then .zero else
    match Binary64.ofText? (Text.trim raw) with
    | none | some .nan => .one
    | some level => level

/-- The value of a reading. The text as received is always kept. -/
inductive Value where
  /-- A switch is on unless the level is zero; a dimmer takes it as a part of one. -/
  | flag (level : Binary64) (raw : String)
  | text (raw : String)
  deriving DecidableEq

namespace Value

def ofRaw (quantity : Quantity) (raw : String) : Value :=
  if quantity.isFlag then .flag (flagLevel raw) raw else .text raw

def raw : Value → String
  | flag _ raw | text raw => raw

def level : Value → Binary64
  | flag level _ => level
  | text raw => flagLevel raw

def isOn (v : Value) : Bool :=
  !v.level.equals .zero

def sample? : Value → Option Binary64
  | flag level _ => some level
  | text raw => Figure.finiteNumber? raw

theorem raw_ofRaw (quantity : Quantity) (raw : String) : (ofRaw quantity raw).raw = raw := by
  unfold ofRaw; split <;> rfl

end Value

structure Reading where
  device : String
  kind : Kind
  quantity : Quantity
  value : Value
  deriving DecidableEq

def Reading.ofRaw (device : String) (kind : Kind) (quantity : Quantity) (raw : String) : Reading :=
  { device, kind, quantity, value := .ofRaw quantity raw }

end Dashboard
