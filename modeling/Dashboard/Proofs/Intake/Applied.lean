import Mathlib.Algebra.GroupWithZero.Nat
import Dashboard.Intake
import Dashboard.Proofs.Replica

/-!
# What an intake has applied

What payloads leave behind is said here without a consumer. A payload that decodes is a batch of
records, the records of all batches are applied one by one, and every batch is shown as one frame.
`Applied` says that an intake has got so far with the payloads that it took, and `process_applied`
that one payload more keeps it so.
-/

namespace Dashboard

structure Delivery where
  preferences : Preferences
  payload : String

structure Batch where
  preferences : Preferences
  records : List Record

def Delivery.batch? (d : Delivery) : Option Batch :=
  match Payload.decode d.payload with
  | .ok records => some { preferences := d.preferences, records }
  | .error _ => none

def Batch.steps (b : Batch) : List (Preferences × Record) :=
  b.records.map (b.preferences, ·)

def batchesOf (taken : List Delivery) : List Batch :=
  taken.filterMap Delivery.batch?

theorem length_batchesOf (taken : List Delivery) :
    (batchesOf taken).length + taken.countP (·.batch?.isNone) = taken.length := by
  induction taken with
  | nil => rfl
  | cons d rest ih =>
    simp only [batchesOf] at ih ⊢
    cases read : d.batch? <;> simp [read] <;> omega

namespace Session

theorem applyEach_append (s : Session) (before after : List (Preferences × Record)) :
    s.applyEach (before ++ after) =
      let first := s.applyEach before
      let second := first.session.applyEach after
      { changes := first.changes ++ second.changes, session := second.session } := by
  induction before generalizing s with
  | nil => rfl
  | cons step rest ih =>
    obtain ⟨prefs, record⟩ := step
    simp [applyEach, ih]

theorem applyAll_eq_applyEach (s : Session) (prefs : Preferences) (records : List Record) :
    s.applyAll prefs records = s.applyEach (records.map (prefs, ·)) := by
  induction records generalizing s with
  | nil => rfl
  | cons record rest ih => simp [applyAll, applyEach, ih]

def afterBatches (s : Session) (batches : List Batch) : Session :=
  (s.applyEach (batches.flatMap Batch.steps)).session

/-- What is shown of each batch: its changes, and the session right after it. -/
def framesOf (s : Session) : List Batch → List Frame
  | [] => []
  | b :: rest =>
    let frame := s.applyEach b.steps
    frame :: frame.session.framesOf rest

theorem afterBatches_concat (s : Session) (batches : List Batch) (b : Batch) :
    s.afterBatches (batches ++ [b]) = ((s.afterBatches batches).applyEach b.steps).session := by
  simp [afterBatches, applyEach_append]

theorem framesOf_concat (s : Session) (batches : List Batch) (b : Batch) :
    s.framesOf (batches ++ [b]) =
      s.framesOf batches ++ [(s.afterBatches batches).applyEach b.steps] := by
  induction batches generalizing s with
  | nil => rfl
  | cons first rest ih =>
    have later : (s.applyEach first.steps).session.afterBatches rest =
        s.afterBatches (first :: rest) := by
      simp [afterBatches, applyEach_append]
    rw [List.cons_append, framesOf, ih, later, framesOf, List.cons_append]

theorem length_framesOf (s : Session) (batches : List Batch) :
    (s.framesOf batches).length = batches.length := by
  induction batches generalizing s with
  | nil => rfl
  | cons b rest ih => simp [framesOf, ih]

end Session

/-! ### The state of an intake -/

namespace Intake

/-- The intake has applied exactly these payloads to the session, in this order. -/
structure Applied (s : Session) (taken : List Delivery) (i : Intake) : Prop where
  session : i.session = s.afterBatches (batchesOf taken)
  frames : i.frames = s.framesOf (batchesOf taken)
  batches : i.tally.batches = taken.length
  dropped : i.tally.dropped = taken.countP (·.batch?.isNone)
  changes : i.tally.changes = (i.frames.map (·.changes.length)).sum

theorem Applied.of_eq {s : Session} {taken : List Delivery} {i j : Intake} (h : i.Applied s taken)
    (session : j.session = i.session) (frames : j.frames = i.frames) (tally : j.tally = i.tally) :
    j.Applied s taken := by
  obtain ⟨h₁, h₂, h₃, h₄, h₅⟩ := h
  exact ⟨session.trans h₁, frames.trans h₂, tally ▸ h₃, tally ▸ h₄, by rw [tally, frames, h₅]⟩

theorem opened_applied (s : Session) (size : Nat) (preferences : Preferences) :
    (opened s size preferences).Applied s [] :=
  ⟨rfl, rfl, rfl, rfl, rfl⟩

theorem Applied.shown {s : Session} {taken : List Delivery} {i : Intake} (h : i.Applied s taken) :
    i.frames.length + i.tally.dropped = i.tally.batches := by
  rw [h.frames, h.dropped, h.batches, Session.length_framesOf, length_batchesOf]

theorem Applied.unique {s : Session} {taken : List Delivery} {i j : Intake} (h : i.Applied s taken)
    (h' : j.Applied s taken) : i.session = j.session ∧ i.frames = j.frames ∧ i.tally = j.tally := by
  have frames : i.frames = j.frames := h.frames.trans h'.frames.symm
  have changes : i.tally.changes = j.tally.changes := by rw [h.changes, h'.changes, frames]
  exact ⟨h.session.trans h'.session.symm, frames,
    Tally.ext (h.batches.trans h'.batches.symm) (h.dropped.trans h'.dropped.symm) changes⟩

/-- A payload that is refused leaves no trace but in the tally. -/
theorem Applied.insert_refused {s : Session} {before after : List Delivery} {bad : Delivery}
    {i j : Intake} (h : i.Applied s (before ++ after)) (h' : j.Applied s (before ++ bad :: after))
    (refused : bad.batch? = none) :
    j.session = i.session ∧ j.frames = i.frames ∧
      j.tally = { i.tally with
        batches := i.tally.batches + 1
        dropped := i.tally.dropped + 1 } := by
  have same : batchesOf (before ++ bad :: after) = batchesOf (before ++ after) := by
    simp [batchesOf, refused]
  have frames : j.frames = i.frames := by rw [h'.frames, h.frames, same]
  have batches : j.tally.batches = i.tally.batches + 1 := by
    simp [h'.batches, h.batches, Nat.add_assoc]
  have dropped : j.tally.dropped = i.tally.dropped + 1 := by
    simp [h'.dropped, h.dropped, refused, Nat.add_assoc]
  have changes : j.tally.changes = i.tally.changes := by rw [h'.changes, h.changes, frames]
  exact ⟨by rw [h'.session, h.session, same], frames, Tally.ext batches dropped changes⟩

theorem process_of_ok {i : Intake} {payload : String} {records : List Record}
    (decoded : Payload.decode payload = .ok records) :
    i.process payload =
      let frame := i.session.applyAll i.preferences records
      { i with
        session := frame.session
        frames := i.frames ++ [frame]
        tally := { i.tally with
          batches := i.tally.batches + 1
          changes := i.tally.changes + frame.changes.length } } := by
  rw [process, Session.ingest, decoded]
  rfl

theorem process_of_error {i : Intake} {payload : String} {fault : Payload.Fault}
    (refused : Payload.decode payload = .error fault) :
    i.process payload =
      { i with tally := { i.tally with
          batches := i.tally.batches + 1
          dropped := i.tally.dropped + 1 } } := by
  rw [process, Session.ingest, refused]
  rfl

theorem process_applied {s : Session} {taken : List Delivery} {i : Intake} (h : i.Applied s taken)
    (payload : String) :
    (i.process payload).Applied s (taken ++ [{ preferences := i.preferences, payload }]) := by
  cases decoded : Payload.decode payload with
  | ok records =>
    let b : Batch := { preferences := i.preferences, records }
    have read : Delivery.batch? { preferences := i.preferences, payload } = some b := by
      rw [Delivery.batch?, decoded]
    have frame : i.session.applyAll i.preferences records =
        (s.afterBatches (batchesOf taken)).applyEach b.steps := by
      rw [Session.applyAll_eq_applyEach, h.session]
      rfl
    have batches : batchesOf (taken ++ [{ preferences := i.preferences, payload }]) =
        batchesOf taken ++ [b] := by
      simp [batchesOf, read]
    rw [process_of_ok decoded]
    constructor
    · rw [batches, Session.afterBatches_concat, ← frame]
    · rw [batches, Session.framesOf_concat, ← frame, ← h.frames]
    · simp [h.batches]
    · simp [h.dropped, read]
    · simp [h.changes]
  | error fault =>
    have refused : Delivery.batch? { preferences := i.preferences, payload } = none := by
      rw [Delivery.batch?, decoded]
    have batches : batchesOf (taken ++ [{ preferences := i.preferences, payload }]) =
        batchesOf taken := by
      simp [batchesOf, refused]
    rw [process_of_error decoded]
    constructor
    · rw [batches]
      exact h.session
    · rw [batches]
      exact h.frames
    · simp [h.batches]
    · simp [h.dropped, refused]
    · exact h.changes

end Intake

end Dashboard
