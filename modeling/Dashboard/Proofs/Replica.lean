import Dashboard.Proofs.Alarm.Latest
import Dashboard.Session

/-!
# Following the changes

A replica starts empty and is told nothing but the changes. `follow?` refuses a change that does not
fit what the replica holds. A replica that follows a session from its start refuses none and mirrors
the session (`follow_applyEach`), and it can tell which readings changed what is displayed
(`reading_flag`).
-/

namespace Dashboard

open Alarm (Board Entry Index Report)

/-- What a viewer holds who has been told nothing but the changes. -/
structure Replica where
  alarms : String → Option Entry := fun _ => none
  displays : String → Option Display := fun _ => none

namespace Replica

def setAlarm (v : Replica) (id : String) (entry : Option Entry) : Replica :=
  { v with alarms := fun other => if other = id then entry else v.alarms other }

def setDisplay (v : Replica) (device : String) (display : Display) : Replica :=
  { v with displays := fun other => if other = device then some display else v.displays other }

/-- The replica after a change, unless the change does not fit what it holds. -/
def follow? (v : Replica) : Change → Option Replica
  | .reading device display _ => some (v.setDisplay device display)
  | .alarmRaised entry =>
    if v.alarms entry.id = none then some (v.setAlarm entry.id (some entry)) else none
  | .alarmUpdated old new =>
    if v.alarms old.id = some old ∧ new.id = old.id ∧ new.serial = old.serial then
      some (v.setAlarm old.id (some new))
    else none
  | .alarmCleared id => if (v.alarms id).isSome then some (v.setAlarm id none) else none

def followAll? (v : Replica) : List Change → Option Replica
  | [] => some v
  | change :: rest => (v.follow? change).bind fun next => next.followAll? rest

theorem followAll?_append {v next : Replica} {first : List Change}
    (followed : v.followAll? first = some next) (rest : List Change) :
    v.followAll? (first ++ rest) = next.followAll? rest := by
  induction first generalizing v with
  | nil => cases followed; rfl
  | cons change first ih =>
    obtain ⟨middle, step, after⟩ := Option.bind_eq_some_iff.mp followed
    rw [List.cons_append, followAll?, step, Option.bind_some]
    exact ih after

def HoldsAlarms (v : Replica) (b : Board) : Prop :=
  ∀ id e, v.alarms id = some e ↔ e ∈ b.entries ∧ e.id = id

def HoldsDisplays (v : Replica) (s : Screen) : Prop :=
  ∀ device, v.displays device = (s.widget? device).map Widget.display

structure Mirrors (v : Replica) (s : Session) : Prop where
  alarms : v.HoldsAlarms s.board
  displays : v.HoldsDisplays s.screen

theorem initial_mirrors (config : Config) : Mirrors {} (Session.ofConfig config) where
  alarms := fun id e => by simp [Session.ofConfig]
  displays := fun _ => rfl

theorem follow_outcome {v : Replica} {b : Board} (holds : v.HoldsAlarms b) (h : b.WellFormed)
    (r : Report) :
    ∃ next, v.followAll? (Change.ofOutcome? (b.receive r).1).toList = some next ∧
      next.HoldsAlarms (b.receive r).2 ∧ next.displays = v.displays := by
  have index : Index.Of v.alarms b := holds
  have step := b.received r
  generalize (b.receive r).1 = outcome, (b.receive r).2 = board at step ⊢
  cases step with
  | ignored | same => exact ⟨v, rfl, holds, rfl⟩
  | raised absent live =>
    have free : v.alarms (b.newEntry r).id = none := index.absent absent
    refine ⟨v.setAlarm r.id (some (b.newEntry r)), ?_, index.raised absent, rfl⟩
    simp only [Change.ofOutcome?, Option.toList, followAll?, follow?, if_pos free]
    rfl
  | @cleared before after held split named first ended =>
    have known := index.held split
    refine ⟨v.setAlarm held.id none, ?_, index.cleared h split, rfl⟩
    simp [Change.ofOutcome?, followAll?, follow?, known]
  | @updated before after held split named first live differs =>
    have known := index.held split
    refine ⟨v.setAlarm held.id (some (held.update r b.changes)), ?_, index.updated h split rfl, rfl⟩
    simp [Change.ofOutcome?, followAll?, follow?, known, Entry.update]

/-- The flag of a reading says whether the replica has yet to learn what is displayed. -/
theorem follow_reading {v : Replica} {s : Session} (mirrors : v.Mirrors s) (prefs : Preferences)
    (r : Reading) :
    ∃ display changed, (s.applyReading prefs r).1 = .reading r.device display changed ∧
      (changed = true ↔ v.displays r.device ≠ some display) ∧
      (v.setDisplay r.device display).Mirrors (s.applyReading prefs r).2 := by
  refine ⟨_, _, rfl, ?_, mirrors.alarms, ?_⟩
  · rw [mirrors.displays, Screen.store]
    dsimp only
    split
    · next same => simp [same, Redraw.isChanged]
    · next differs => simp [differs, Redraw.isChanged]
  · intro device
    rw [Session.applyReading]
    dsimp only
    rw [Screen.widget?_store, setDisplay]
    dsimp only
    split
    · rfl
    · exact mirrors.displays device

/-! ### Runs -/

theorem follow_apply {v : Replica} {s : Session} (mirrors : v.Mirrors s) (h : s.board.WellFormed)
    (prefs : Preferences) (record : Record) :
    ∃ next, v.followAll? (s.apply prefs record).1.toList = some next ∧
      next.Mirrors (s.apply prefs record).2 := by
  cases record with
  | reading r =>
    obtain ⟨display, changed, told, _, after⟩ := follow_reading mirrors prefs r
    refine ⟨v.setDisplay r.device display, ?_, after⟩
    simp only [Session.apply, Option.toList_some, told, followAll?, follow?, Option.bind_some]
  | alarm r =>
    obtain ⟨next, followed, holds, same⟩ := follow_outcome mirrors.alarms h r
    refine ⟨next, followed, holds, ?_⟩
    intro device
    rw [same]
    exact mirrors.displays device

end Replica

namespace Session

theorem apply_wellFormed {s : Session} (h : s.board.WellFormed) (prefs : Preferences)
    (record : Record) : (s.apply prefs record).2.board.WellFormed := by
  cases record with
  | reading r => exact h
  | alarm r => exact Board.receive_wellFormed h r

/-- Applies records in order, each for a viewer with preferences of their own. -/
def applyEach (s : Session) : List (Preferences × Record) → Frame
  | [] => { changes := [], session := s }
  | (prefs, record) :: rest =>
    let first := s.apply prefs record
    let others := first.2.applyEach rest
    { others with changes := first.1.toList ++ others.changes }

theorem applyEach_wellFormed {s : Session} (h : s.board.WellFormed)
    (run : List (Preferences × Record)) : (s.applyEach run).session.board.WellFormed := by
  induction run generalizing s with
  | nil => exact h
  | cons entry rest ih => exact ih (apply_wellFormed h entry.1 entry.2)

end Session

namespace Replica

theorem follow_applyEach {v : Replica} {s : Session} (mirrors : v.Mirrors s)
    (h : s.board.WellFormed) (run : List (Preferences × Record)) :
    ∃ next, v.followAll? (s.applyEach run).changes = some next ∧
      next.Mirrors (s.applyEach run).session := by
  induction run generalizing v s with
  | nil => exact ⟨v, rfl, mirrors⟩
  | cons entry rest ih =>
    obtain ⟨prefs, record⟩ := entry
    obtain ⟨middle, followed, inStep⟩ := follow_apply mirrors h prefs record
    obtain ⟨next, rest, after⟩ := ih inStep (Session.apply_wellFormed h prefs record)
    refine ⟨next, ?_, after⟩
    rw [Session.applyEach, followAll?_append followed]
    exact rest

theorem flag_of_apply {v : Replica} {s : Session} (mirrors : v.Mirrors s) {prefs : Preferences}
    {record : Record} {device : String} {display : Display} {changed : Bool}
    (told : (s.apply prefs record).1 = some (.reading device display changed)) :
    changed = true ↔ v.displays device ≠ some display := by
  cases record with
  | reading r =>
    obtain ⟨_, _, given, flag, _⟩ := follow_reading mirrors prefs r
    cases given.symm.trans (Option.some.inj told)
    exact flag
  | alarm r =>
    simp only [Session.apply, Session.applyReport] at told
    cases outcome : (s.board.receive r).1 <;> rw [outcome] at told <;> cases told

/-- At every reading of a run, its flag tells whether the changes before it leave the display of its
device unknown or different. -/
theorem reading_flag {v : Replica} {s : Session} (mirrors : v.Mirrors s) (h : s.board.WellFormed)
    {run : List (Preferences × Record)} {before after : List Change} {device : String}
    {display : Display} {changed : Bool}
    (told : (s.applyEach run).changes = before ++ .reading device display changed :: after) :
    ∃ seen, v.followAll? before = some seen ∧
      (changed = true ↔ seen.displays device ≠ some display) := by
  induction run generalizing v s before with
  | nil => simp [Session.applyEach] at told
  | cons entry rest ih =>
    obtain ⟨prefs, record⟩ := entry
    obtain ⟨middle, followed, inStep⟩ := follow_apply mirrors h prefs record
    have later := Session.apply_wellFormed h prefs record
    rw [Session.applyEach] at told
    dsimp only at told
    -- The reading is told by this record, or `before` starts with what this record tells.
    cases first : (s.apply prefs record).1 with
    | none =>
      rw [first] at told followed
      cases followed
      exact ih inStep later told
    | some change =>
      rw [first] at told followed
      cases before with
      | nil =>
        obtain ⟨rfl, _⟩ := List.cons.inj told
        exact ⟨v, rfl, flag_of_apply mirrors first⟩
      | cons head before =>
        obtain ⟨same, others⟩ := List.cons.inj told
        subst same
        obtain ⟨seen, read, flag⟩ := ih inStep later others
        exact ⟨seen, (followAll?_append followed before).trans read, flag⟩

/-- An alarm report is told to nobody exactly when it leaves the alarms as they are. -/
theorem silent_iff {s : Session} (h : s.board.WellFormed) (r : Report) :
    (s.applyReport r).1 = none ↔ (s.applyReport r).2.board.entries = s.board.entries := by
  have kept := Board.receive_entries_eq_iff h r
  simp only [Session.applyReport]
  rw [kept]
  cases (s.board.receive r).1 <;> simp [Change.ofOutcome?]

/-- The changes of a new session, whatever records it is given and whoever looks at it, are all a
viewer needs: followed from nothing they fit at every step and lead to exactly the alarms and displays
of the session. A reading is flagged exactly when it changes what the viewer holds, and an alarm
report that is not told leaves the alarms as they are. -/
theorem changes_suffice (config : Config) (run : List (Preferences × Record)) :
    let frame := (Session.ofConfig config).applyEach run
    (∃ v, followAll? {} frame.changes = some v ∧
      (∀ id e, v.alarms id = some e ↔ e ∈ frame.session.board.entries ∧ e.id = id) ∧
      ∀ device, v.displays device = (frame.session.screen.widget? device).map Widget.display) ∧
    (∀ before device display changed after,
      frame.changes = before ++ .reading device display changed :: after →
      ∃ seen, followAll? {} before = some seen ∧
        (changed = true ↔ seen.displays device ≠ some display)) ∧
    ∀ before prefs report after, run = before ++ (prefs, .alarm report) :: after →
      let s := ((Session.ofConfig config).applyEach before).session
      (s.apply prefs (.alarm report)).1 = none ↔
        (s.apply prefs (.alarm report)).2.board.entries = s.board.entries := by
  intro frame
  have start := initial_mirrors config
  have h : (Session.ofConfig config).board.WellFormed := Board.initial_wellFormed
  refine ⟨?_, ?_, ?_⟩
  · obtain ⟨v, followed, mirrors⟩ := follow_applyEach start h run
    exact ⟨v, followed, mirrors.alarms, mirrors.displays⟩
  · intro before device display changed after told
    exact reading_flag start h told
  · intro before prefs report after _
    exact silent_iff (Session.applyEach_wellFormed h before) report

end Replica

end Dashboard
