import Dashboard.Change
import Dashboard.Config
import Dashboard.Payload.Basic
import Dashboard.Preferences
import Dashboard.Screen

/-!
# Dashboard sessions

A session is the state behind one dashboard: its alarm board, its screen and its sample history.
Records are applied one after the other, and each tells what it changed. A payload is applied as a
whole or not at all.
-/

namespace Dashboard

open Numeric

structure Session where
  config : Config := {}
  board : Alarm.Board := {}
  screen : Screen := {}
  history : History := .ofCapacity config.historyCapacity
  deriving DecidableEq

/-- What applying a payload gives: the changes in order and the session after them. -/
structure Frame where
  changes : List Change
  session : Session
  deriving DecidableEq

namespace Session

def ofConfig (config : Config) : Session :=
  { config }

def style (s : Session) (prefs : Preferences) : Figure.Style :=
  { abbreviated := prefs.abbreviate, largeAbove := s.config.largeAbove }

def keepSample (history : History) (r : Reading) : History :=
  match r.value.sample? with
  | some sample => history.push { device := r.device, quantity := r.quantity } sample
  | none => history

def applyReading (s : Session) (prefs : Preferences) (r : Reading) : Change × Session :=
  let display := Display.ofReading r (s.style prefs)
  let stored := s.screen.store r display
  (.reading r.device display stored.1.isChanged,
    { s with screen := stored.2, history := keepSample s.history r })

def applyReport (s : Session) (r : Alarm.Report) : Option Change × Session :=
  let received := s.board.receive r
  (Change.ofOutcome? received.1, { s with board := received.2 })

def apply (s : Session) (prefs : Preferences) : Record → Option Change × Session
  | .reading r =>
    let applied := s.applyReading prefs r
    (some applied.1, applied.2)
  | .alarm r => s.applyReport r

def applyAll (s : Session) (prefs : Preferences) : List Record → Frame
  | [] => { changes := [], session := s }
  | record :: rest =>
    let first := s.apply prefs record
    let others := first.2.applyAll prefs rest
    { others with changes := first.1.toList ++ others.changes }

def ingest (s : Session) (prefs : Preferences) (payload : String) : Except Payload.Fault Frame :=
  (Payload.decode payload).map (s.applyAll prefs)

/-- The session after a payload, which is the same session if the payload was refused. -/
def after (s : Session) (prefs : Preferences) (payload : String) : Session :=
  match s.ingest prefs payload with
  | .ok frame => frame.session
  | .error _ => s

def ingestAll (s : Session) (prefs : Preferences) :
    List String → List (Except Payload.Fault (List Change)) × Session
  | [] => ([], s)
  | payload :: rest =>
    let first := s.ingest prefs payload
    let others := (s.after prefs payload).ingestAll prefs rest
    (first.map Frame.changes :: others.1, others.2)

def panelSlots? (s : Session) (name : String) : Option (List Alarm.Slot) :=
  (s.config.panel? name).map s.board.slots

/-- The trend of the quantity that a device reported last. -/
def trend? (s : Session) (device : String) (style : ChartStyle) : Option Trend := do
  let widget ← s.screen.widget? device
  s.history.trend? { device, quantity := widget.quantity } style

theorem applyAll_append (s : Session) (prefs : Preferences) (rs rs' : List Record) :
    (s.applyAll prefs (rs ++ rs')).changes =
        (s.applyAll prefs rs).changes ++
          ((s.applyAll prefs rs).session.applyAll prefs rs').changes ∧
      (s.applyAll prefs (rs ++ rs')).session =
        ((s.applyAll prefs rs).session.applyAll prefs rs').session := by
  induction rs generalizing s with
  | nil => simp [applyAll]
  | cons r rs ih =>
    obtain ⟨hc, hs⟩ := ih (s.apply prefs r).2
    simp [applyAll, hc, hs]

end Session

end Dashboard
