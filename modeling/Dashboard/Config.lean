import Dashboard.Alarm.Panel
import Dashboard.Figure.Style
import Dashboard.History

/-!
# Configuration

How long histories are, which alarm panels there are, and how many payloads may wait.
-/

namespace Dashboard

open Numeric

structure Config where
  historyCapacity : Nat := defaultHistoryCapacity
  largeAbove : Binary64 := Figure.largeNumber
  panels : List Alarm.Panel := []
  queueCapacity : Nat := 64
  deriving DecidableEq

namespace Config

def withHistoryCapacity (c : Config) (historyCapacity : Nat) : Config :=
  { c with historyCapacity }

def withLargeAbove (c : Config) (largeAbove : Binary64) : Config :=
  { c with largeAbove }

def withPanel (c : Config) (panel : Alarm.Panel) : Config :=
  { c with panels := c.panels ++ [panel] }

/-- A capacity of zero is refused and changes nothing. -/
def withQueueCapacity (c : Config) (queueCapacity : Nat) : Config :=
  if queueCapacity = 0 then c else { c with queueCapacity }

def panel? (c : Config) (name : String) : Option Alarm.Panel :=
  c.panels.find? (·.name = name)

/-- Whether two configurations hold the same settings; numbers are compared by value. -/
def agrees (a b : Config) : Bool :=
  a.historyCapacity = b.historyCapacity && a.largeAbove.equals b.largeAbove &&
    a.panels = b.panels && a.queueCapacity = b.queueCapacity

end Config

end Dashboard
