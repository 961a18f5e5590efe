/-!
# Device kinds and quantities

What a device is and what it measures, with the codes that stand for them in records and the names
that stand for them in stored values. `Quantity.ofCode_code` and `Kind.ofCode_code` say that codes
are read as they are given out.
-/

namespace Dashboard

inductive Kind where
  | unspecified | switch | dimmer | sensor | timer | blind
  deriving DecidableEq

inductive Quantity where
  | unspecified | switch | outlet | temperature | humidity | counter | pressure | speed
  | direction | ph | wetness | hub | lux | voltage | wattSecond | watt | amps | rainRate | weather
  | alarmStatus | number | percentage | flowRate | distance | volume | timer | thermostatMode
  | thermostatState | smallNumber | blind | collector | trigger | orp | salinity | boolean
  deriving DecidableEq

/-- The element with the given code in a table of them, counted from 0, if the code has one. -/
def elementAt? {α : Type} (table : List α) (code : Int) : Option α :=
  if code < 0 then none else table[code.toNat]?

namespace Kind

/-- The kinds in the order of their codes, which start at 0. -/
def table : List Kind :=
  [unspecified, switch, dimmer, sensor, timer, blind]

def code (k : Kind) : Nat :=
  table.idxOf k

/-- The kind with the given code. Codes without one are `unspecified`. -/
def ofCode (code : Int) : Kind :=
  (elementAt? table code).getD unspecified

def name : Kind → String
  | unspecified => "None"
  | switch => "Switch"
  | dimmer => "Dimmer"
  | sensor => "Sensor"
  | timer => "Timer"
  | blind => "Blind"

def ofName? (name : String) : Option Kind :=
  table.find? (·.name = name)

theorem ofCode_code (k : Kind) : ofCode k.code = k := by
  cases k <;> rfl

end Kind

namespace Quantity

def table : List Quantity :=
  [unspecified, switch, outlet, temperature, humidity, counter, pressure, speed, direction, ph,
    wetness, hub, lux, voltage, wattSecond, watt, amps, rainRate, weather, alarmStatus, number,
    percentage, flowRate, distance, volume, timer, thermostatMode, thermostatState, smallNumber,
    blind, collector, trigger, orp, salinity, boolean]

def code (q : Quantity) : Nat :=
  table.idxOf q

def ofCode (code : Int) : Quantity :=
  (elementAt? table code).getD unspecified

def name : Quantity → String
  | unspecified => "None"
  | switch => "Switch"
  | outlet => "Outlet"
  | temperature => "Temp"
  | humidity => "Humid"
  | counter => "Counter"
  | pressure => "Pressure"
  | speed => "Speed"
  | direction => "Dir"
  | ph => "Ph"
  | wetness => "Wetness"
  | hub => "Hub"
  | lux => "Lux"
  | voltage => "Voltage"
  | wattSecond => "WattSec"
  | watt => "Watt"
  | amps => "Amps"
  | rainRate => "RainRate"
  | weather => "Weather"
  | alarmStatus => "AlarmStatus"
  | number => "Number"
  | percentage => "Percentage"
  | flowRate => "FlowRate"
  | distance => "Distance"
  | volume => "Volume"
  | timer => "Timer"
  | thermostatMode => "ThMode"
  | thermostatState => "ThState"
  | smallNumber => "SmNumber"
  | blind => "Blind"
  | collector => "Collector"
  | trigger => "Trigger"
  | orp => "Orp"
  | salinity => "Salinity"
  | boolean => "Bool"

def ofName? (name : String) : Option Quantity :=
  table.find? (·.name = name)

/-- Whether a value of the quantity is a flag, or the level of a dimmer. -/
def isFlag : Quantity → Bool
  | switch | outlet | boolean => true
  | _ => false

theorem ofCode_code (q : Quantity) : ofCode q.code = q := by
  cases q <;> rfl

end Quantity

end Dashboard
