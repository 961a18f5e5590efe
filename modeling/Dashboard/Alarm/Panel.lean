import Dashboard.Alarm.Board

/-!
# Alarm panels

A panel is a list of a fixed number of slots for alarms of some severities and channels. The board
fills it from the lowest severity, and slots that are left stay empty.
-/

namespace Dashboard.Alarm

def defaultTextWidth : Nat :=
  48

structure Panel where
  name : String := ""
  minSeverity : Int32 := 1
  maxSeverity : Int32 := Int32.maxValue
  mask : Channels := .all
  slotCount : Nat
  textWidth : Nat := defaultTextWidth
  deriving DecidableEq

namespace Panel

def withSeverity (p : Panel) (min max : Int32) : Panel :=
  { p with minSeverity := min, maxSeverity := max }

def withMask (p : Panel) (mask : Channels) : Panel :=
  { p with mask }

def withTextWidth (p : Panel) (textWidth : Nat) : Panel :=
  { p with textWidth }

end Panel

inductive Slot where
  | active (id : String) (severity : Int32) (channels : Channels) (text : String)
  | empty
  deriving DecidableEq

namespace Slot

def isEmpty : Slot → Bool
  | empty => true
  | active .. => false

def text : Slot → String
  | empty => ""
  | active _ _ _ text => text

end Slot

namespace Panel

def shows (p : Panel) (e : Entry) : Bool :=
  p.minSeverity ≤ e.severity && e.severity ≤ p.maxSeverity && e.channels.meets p.mask

/-- The slot that shows the alarm, with as much of its text as is wide enough. -/
def slot (p : Panel) (e : Entry) : Slot :=
  .active e.id e.severity e.channels (String.ofList (e.text.toList.take p.textWidth))

/-- The slots of the panel for alarms in the given order. -/
def fill (p : Panel) (entries : List Entry) : List Slot :=
  let shown := ((entries.filter p.shows).take p.slotCount).map p.slot
  shown ++ List.replicate (p.slotCount - shown.length) .empty

theorem length_fill (p : Panel) (entries : List Entry) :
    (p.fill entries).length = p.slotCount := by
  simp only [fill, List.length_append, List.length_replicate, List.length_map, List.length_take]
  omega

end Panel

def Board.slots (b : Board) (p : Panel) : List Slot :=
  p.fill b.entries

end Dashboard.Alarm
