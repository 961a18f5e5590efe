import Dashboard.Alarm.Board
import Dashboard.Reading

/-!
# Records

What a collector pushes: a reading of a device, or a report on an alarm.
-/

namespace Dashboard

inductive Record where
  | reading (r : Reading)
  | alarm (r : Alarm.Report)
  deriving DecidableEq

end Dashboard
