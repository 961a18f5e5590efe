import Dashboard.Alarm.Board
import Dashboard.Display

/-!
# Changes

What applying one record changed, as viewers are told.
-/

namespace Dashboard

inductive Change where
  /-- A device sent a reading, which may have changed what its widget displays. -/
  | reading (device : String) (display : Display) (changed : Bool)
  | alarmRaised (entry : Alarm.Entry)
  | alarmUpdated (old new : Alarm.Entry)
  | alarmCleared (id : String)
  deriving DecidableEq

namespace Change

def isAlarm : Change → Bool
  | reading .. => false
  | _ => true

/-- What viewers are told about the outcome of an alarm report, if anything. -/
def ofOutcome? : Alarm.Outcome → Option Change
  | .raised entry => some (alarmRaised entry)
  | .updated old new => some (alarmUpdated old new)
  | .cleared entry => some (alarmCleared entry.id)
  | .same | .ignored => none

end Change

end Dashboard
