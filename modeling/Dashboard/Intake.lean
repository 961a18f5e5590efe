import Dashboard.Session

/-!
# Payload intake

Payloads wait in a bounded queue until the one consumer of a session takes them, the oldest first.
The consumer applies a payload as a whole before it looks for the next one. It ends when it finds
that it has been cancelled, which drops what is waiting, or that no sender is left and nothing is
waiting.
-/

namespace Dashboard

/-- How many payloads were taken and refused, and how many changes the viewers were told. -/
@[ext]
structure Tally where
  batches : Nat := 0
  dropped : Nat := 0
  changes : Nat := 0
  deriving DecidableEq

structure Intake where
  session : Session
  capacity : Nat
  /-- The preferences that the next payload is applied with. -/
  preferences : Preferences := {}
  queue : List String := []
  tally : Tally := {}
  /-- What the viewers were shown, one frame per payload that was not refused. -/
  frames : List Frame := []
  /-- No sender is left. -/
  closed : Bool := false
  /-- The consumer has been asked to end. -/
  cancelled : Bool := false
  ended : Bool := false

inductive Admission where
  | queued | full | closed
  deriving DecidableEq

namespace Intake

/-- An intake for the session. At least one payload can wait. -/
def opened (session : Session) (size : Nat) (preferences : Preferences) : Intake :=
  { session, capacity := max size 1, preferences }

def ofConfig (config : Config) : Intake :=
  opened (.ofConfig config) config.queueCapacity {}

/-- Offers a payload without waiting for room. -/
def offer (i : Intake) (payload : String) : Admission × Intake :=
  if i.closed || i.ended then (.closed, i)
  else if i.capacity ≤ i.queue.length then (.full, i)
  else (.queued, { i with queue := i.queue ++ [payload] })

/-- No more payloads are taken in. Those that wait will still be applied. -/
def close (i : Intake) : Intake :=
  { i with closed := true }

/-- Asks the consumer to end before its next payload. -/
def requestCancel (i : Intake) : Intake :=
  { i with cancelled := true }

def setPreferences (i : Intake) (preferences : Preferences) : Intake :=
  { i with preferences }

/-- Applies one payload and counts it. A payload that is refused is dropped as a whole. -/
def process (i : Intake) (payload : String) : Intake :=
  match i.session.ingest i.preferences payload with
  | .ok frame =>
    { i with
      session := frame.session
      frames := i.frames ++ [frame]
      tally := { i.tally with
        batches := i.tally.batches + 1
        changes := i.tally.changes + frame.changes.length } }
  | .error _ =>
    { i with
      tally := { i.tally with
        batches := i.tally.batches + 1
        dropped := i.tally.dropped + 1 } }

/-- One step of the consumer. It asks for the cancellation before it asks for a payload, and it
waits where there is neither. -/
def consume (i : Intake) : Intake :=
  if i.ended then i
  else if i.cancelled then { i with queue := [], ended := true }
  else match i.queue with
    | [] => { i with ended := i.closed }
    | payload :: rest => { i with queue := rest }.process payload

def cancel (i : Intake) : Intake :=
  i.requestCancel.consume

def drain (i : Intake) : Intake :=
  (i.queue.foldl (fun i _ => i.consume) i).consume

/-- Waits for room, hands over a payload and waits until it has been applied. -/
def send (i : Intake) (payload : String) : Admission × Intake :=
  let offered := i.drain.offer payload
  (offered.1, offered.2.drain)

end Intake

end Dashboard
