import Dashboard.Reading

/-!
# What a widget displays

The kind of a device and what it measures decide whether its widget shows a switch, the position of
a slider, or a figure with its unit.
-/

namespace Dashboard

open Numeric

/-- What follows a figure. -/
inductive UnitSign where
  | plain | degrees | percent
  deriving DecidableEq

namespace UnitSign

def table : List UnitSign :=
  [plain, degrees, percent]

def name : UnitSign → String
  | plain => "None"
  | degrees => "Degrees"
  | percent => "Percent"

def ofName? (name : String) : Option UnitSign :=
  table.find? (·.name = name)

def degreeSign : String :=
  "\u00b0"

def text : UnitSign → String
  | plain => ""
  | degrees => degreeSign
  | percent => "%"

def ofQuantity : Quantity → UnitSign
  | .temperature | .direction => degrees
  | .humidity | .wetness | .percentage => percent
  | _ => plain

end UnitSign

inductive Display where
  /-- A widget that can be switched also has an indicator. -/
  | toggle (on : Bool) (indicator : Option Bool)
  | slider (percent : UInt32)
  | figure (text : String) (unit : UnitSign)
  deriving DecidableEq

/-- The level that a dimmer takes. Of a text it takes the number, or 0 if the text is none. -/
def dimmerLevel : Value → Binary64
  | .flag level _ => level
  | .text raw => (Binary64.ofText? (Text.trim raw)).getD .zero

/-- The level in whole percent, without its fraction, in the range of 32 bits. -/
def percentOf (level : Binary64) : UInt32 :=
  let percent := level * .ofNat 100
  match percent.truncate? with
  | some n => UInt32.ofNat (min n.toNat (UInt32.size - 1))
  | none => if Binary64.zero.lt percent then UInt32.ofNat (UInt32.size - 1) else 0

namespace Display

def ofReading (r : Reading) (style : Figure.Style) : Display :=
  match r.quantity.isFlag, r.kind with
  | true, .switch => toggle r.value.isOn (some r.value.isOn)
  | true, .sensor => toggle r.value.isOn none
  | true, .dimmer => slider (percentOf (dimmerLevel r.value))
  | _, _ => figure (style.figure r.value.raw) (.ofQuantity r.quantity)

def text : Display → String
  | toggle on _ => if on then "ON" else "OFF"
  | slider percent => toString percent.toNat ++ "%"
  | figure text unit => text ++ unit.text

/-- The state of a switch that the widget is bound to. -/
def indicator? : Display → Option Bool
  | toggle _ indicator => indicator
  | _ => none

def position? : Display → Option UInt32
  | slider percent => some percent
  | _ => none

end Display

end Dashboard
