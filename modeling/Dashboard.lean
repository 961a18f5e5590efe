import Dashboard.Text.Blank
import Dashboard.Numeric.Arithmetic
import Dashboard.Numeric.Decimal
import Dashboard.Numeric.Shortest
import Dashboard.Numeric.Numeral
import Dashboard.Figure.Style
import Dashboard.EventStream
import Dashboard.Display
import Dashboard.Alarm.Panel
import Dashboard.History
import Dashboard.Screen
import Dashboard.Json.Basic
import Dashboard.Json.Fields
import Dashboard.Payload.Basic
import Dashboard.Stored.Values
import Dashboard.Intake
import Dashboard.Proofs.EventStream.Chunks
import Dashboard.Proofs.EventStream.Reference
import Dashboard.Proofs.Alarm.Board
import Dashboard.Proofs.Alarm.Latest
import Dashboard.Proofs.Replica
import Dashboard.Proofs.Json.Arrays
import Dashboard.Proofs.Payload.Joined
import Dashboard.Proofs.Intake.Applied
import Dashboard.Proofs.Intake.Schedule
import Dashboard.Proofs.History.Samples
import Dashboard.Proofs.Session.Styles
import Dashboard.Proofs.Session.Subjects
import Dashboard.Proofs.Json.Spelled
import Dashboard.Proofs.Json.Objects
import Dashboard.Proofs.Payload.Written
import Dashboard.Proofs.Alarm.Ties
import Dashboard.Proofs.Alarm.Placement
import Dashboard.Proofs.Alarm.Panels
import Dashboard.Proofs.Alarm.Commute
import Dashboard.Proofs.EventStream.Framing
import Dashboard.Proofs.EventStream.Breaks
import Dashboard.Proofs.Session.Readings
import Dashboard.Proofs.Display.Percent
import Dashboard.Proofs.Session.Levels
import Dashboard.Proofs.Session.Redelivered
import Dashboard.Proofs.Json.Integers
import Dashboard.Proofs.Payload.Places
import Dashboard.Proofs.Payload.Quoted
import Dashboard.Proofs.Payload.Routed
import Dashboard.Proofs.Json.LongIntegers
import Dashboard.Proofs.Payload.Integers
import Dashboard.Proofs.Payload.Ranges
import Dashboard.Proofs.Figure.Unchanged
import Dashboard.Proofs.Numeric.Numerals
import Dashboard.Proofs.Numeric.Value
import Dashboard.Proofs.Figure.Numbers
import Dashboard.Proofs.Figure.Truncated
import Dashboard.Proofs.Figure.Normal
import Dashboard.Proofs.Display.Slider
import Dashboard.Proofs.Session.Finite
import Dashboard.Proofs.Stored.Settings
import Dashboard.Proofs.Reading
