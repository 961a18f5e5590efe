import Dashboard.Proofs.Alarm.Board
import Mathlib.Data.List.Induction

/-!
# The board as a map of latest reports

Looked up by id, a board is a map, and `Told` lists what a report can do to that map and what its
outcome then is (`receive_told`). `latest?` reads the last report on an alarm off the calls and
goes back no further than the last clear. A board shows nothing but latest reports: it holds those
that are not over (`report_find?_run`).
-/

namespace Dashboard.Alarm

/-- Where the alarm of an id is found, if it is live. -/
abbrev Index :=
  String → Option Entry

namespace Index

/-- The index where the alarm of one id is set, or ended. -/
def put (find : Index) (id : String) (entry : Option Entry) : Index :=
  fun other => if other = id then entry else find other

theorem put_self (find : Index) (id : String) (entry : Option Entry) :
    find.put id entry id = entry :=
  if_pos rfl

theorem put_other (find : Index) {id other : String} (differs : other ≠ id) (entry : Option Entry) :
    find.put id entry other = find other :=
  if_neg differs

/-- The index finds the alarms of the board, each under its id. -/
def Of (find : Index) (b : Board) : Prop :=
  ∀ id e, find id = some e ↔ e ∈ b.entries ∧ e.id = id

theorem Of.unique {find find' : Index} {b : Board} (of : find.Of b) (of' : find'.Of b) :
    find = find' := by
  funext id
  apply Option.ext
  intro e
  rw [of id e, of' id e]

theorem Of.absent {find : Index} {b : Board} {id : String} (of : find.Of b)
    (absent : ∀ e ∈ b.entries, e.id ≠ id) : find id = none := by
  apply Option.eq_none_iff_forall_ne_some.mpr
  intro e found
  obtain ⟨member, named⟩ := (of id e).mp found
  exact absent e member named

theorem Of.held {find : Index} {b : Board} {before after : List Entry} {held : Entry}
    (of : find.Of b) (split : b.entries = before ++ held :: after) :
    find held.id = some held := by
  refine (of _ _).mpr ⟨?_, rfl⟩
  rw [split]
  exact Board.mem_around.mpr (.inl rfl)

theorem Of.put {find : Index} {b next : Board} {id : String} {entry : Option Entry} (of : find.Of b)
    (named : ∀ e, entry = some e → e.id = id)
    (members : ∀ e, e ∈ next.entries ↔ entry = some e ∨ e ∈ b.entries ∧ e.id ≠ id) :
    (find.put id entry).Of next := by
  intro other e
  rw [members e, Index.put]
  split
  · next same =>
    subst same
    constructor
    · exact fun told => ⟨.inl told, named e told⟩
    · rintro ⟨told | ⟨_, differs⟩, same⟩
      · exact told
      · exact (differs same).elim
  · next differs =>
    rw [of other e]
    constructor
    · rintro ⟨member, rfl⟩
      exact ⟨.inr ⟨member, differs⟩, rfl⟩
    · rintro ⟨told | ⟨member, _⟩, rfl⟩
      · exact (differs (named e told)).elim
      · exact ⟨member, rfl⟩

theorem Of.raised {find : Index} {b : Board} {r : Report} (of : find.Of b)
    (absent : ∀ e ∈ b.entries, e.id ≠ r.id) :
    (find.put r.id (some (b.newEntry r))).Of
      { b.settle (b.entries ++ [b.newEntry r]) with raised := b.raised + 1 } := by
  refine of.put (by rintro e ⟨⟩; rfl) ?_
  intro e
  rw [Option.some_inj, eq_comm]
  exact Board.mem_raised absent

theorem Of.cleared {find : Index} {b : Board} {before after : List Entry} {held : Entry}
    (of : find.Of b) (h : b.WellFormed) (split : b.entries = before ++ held :: after) :
    (find.put held.id none).Of (b.settle (before ++ after)) := by
  refine of.put nofun ?_
  intro e
  rw [Board.mem_cleared h split, or_iff_right nofun]

theorem Of.updated {find : Index} {b : Board} {before after : List Entry} {held new : Entry}
    (of : find.Of b) (h : b.WellFormed) (split : b.entries = before ++ held :: after)
    (same : new.id = held.id) :
    (find.put held.id (some new)).Of (b.settle (before ++ new :: after)) := by
  refine of.put (by rintro e ⟨⟩; exact same) ?_
  intro e
  rw [Option.some_inj, eq_comm]
  exact Board.mem_updated h split

end Index

namespace Board

theorem index_find? {b : Board} (h : b.WellFormed) : Index.Of b.find? b := by
  intro id e
  constructor
  · intro found
    exact ⟨List.mem_of_find?_eq_some found, by simpa using List.find?_some found⟩
  · rintro ⟨member, rfl⟩
    obtain ⟨before, after, split⟩ := List.append_of_mem member
    have unique := h.unique
    rw [split, List.map_append, List.map_cons, List.nodup_append] at unique
    obtain ⟨_, _, apart⟩ := unique
    have absent : before.find? (·.id = e.id) = none := by
      apply List.find?_eq_none.mpr
      intro other front
      simpa using apart _ (List.mem_map_of_mem front) _ List.mem_cons_self
    rw [find?, split, List.find?_append, absent]
    simp

end Board

/-! ### What an outcome tells -/

def Report.Repeats (r : Report) (e : Entry) : Prop :=
  e.severity = r.severity ∧ e.channels = r.channels ∧ e.text = r.text

theorem Report.repeats_iff {r : Report} {e : Entry} (named : e.id = r.id) :
    r.Repeats e ↔ e.report = r := by
  obtain ⟨id, severity, channels, text⟩ := r
  simp_all [Repeats, Entry.report]

namespace Board

/-- What a report did, told by the alarms that are found before and after it. -/
inductive Told (find : Index) (r : Report) : Outcome → Index → Prop where
  | ignored (absent : find r.id = none) (ended : r.severity = 0) : Told find r .ignored find
  | raised {new : Entry} (absent : find r.id = none) (live : r.severity ≠ 0)
      (now : new.report = r) : Told find r (.raised new) (find.put r.id (some new))
  | cleared {held : Entry} (found : find r.id = some held) (lived : held.severity ≠ 0)
      (ended : r.severity = 0) : Told find r (.cleared held) (find.put r.id none)
  | same {held : Entry} (found : find r.id = some held) (named : held.id = r.id)
      (live : r.severity ≠ 0) (known : held.report = r) : Told find r .same find
  | updated {old new : Entry} (found : find r.id = some old) (named : old.id = r.id)
      (live : r.severity ≠ 0) (differs : old.report ≠ r) (now : new.report = r)
      (kept : new.serial = old.serial) :
      Told find r (.updated old new) (find.put r.id (some new))

theorem receive_told {b : Board} (h : b.WellFormed) (r : Report) :
    Told b.find? r (b.receive r).1 (b.receive r).2.find? := by
  have of := index_find? h
  have later := index_find? (receive_wellFormed h r)
  have step := b.received r
  generalize (b.receive r).1 = outcome, (b.receive r).2 = next at step later ⊢
  cases step with
  | ignored absent ended => exact .ignored (of.absent absent) (isClear_iff.mp ended)
  | same split named first live known =>
    exact .same (named ▸ of.held split) named (live_of_not_clear live) known
  | raised absent live =>
    rw [later.unique (of.raised absent)]
    exact .raised (of.absent absent) (live_of_not_clear live) rfl
  | cleared split named first ended =>
    have found := of.held split
    rw [later.unique (of.cleared h split), named]
    exact .cleared (named ▸ found) (h.live _ ((of _ _).mp found).1) (isClear_iff.mp ended)
  | updated split named first live differs =>
    rw [later.unique (of.updated h split rfl), named]
    exact .updated (named ▸ of.held split) named (live_of_not_clear live) differs
      (Entry.report_update named _) rfl

section
variable {find after : Index} {r : Report} {outcome : Outcome}

theorem Told.raised_iff (told : Told find r outcome after) :
    (∃ new, outcome = .raised new) ↔ find r.id = none ∧ r.severity ≠ 0 := by
  cases told <;> simp_all

theorem Told.cleared_iff (told : Told find r outcome after) (held : Entry) :
    outcome = .cleared held ↔ find r.id = some held ∧ r.severity = 0 := by
  cases told <;> simp_all

theorem Told.ignored_iff (told : Told find r outcome after) :
    outcome = .ignored ↔ find r.id = none ∧ r.severity = 0 := by
  cases told <;> simp_all

theorem Told.same_iff (told : Told find r outcome after) :
    outcome = .same ↔ ∃ held, find r.id = some held ∧ r.Repeats held := by
  cases told with
  | ignored absent | raised absent => simp [absent]
  -- A live alarm has a severity, so a report that ends it does not repeat it.
  | cleared found lived ended => simp [found, Report.Repeats, ended, lived]
  | same found named live known => simp [found, Report.repeats_iff named, known]
  | updated found named live differs =>
    simp [found, Report.repeats_iff named, differs]

theorem Told.updated_iff (told : Told find r outcome after) :
    (∃ old new, outcome = .updated old new) ↔
      ∃ held, find r.id = some held ∧ r.severity ≠ 0 ∧ ¬r.Repeats held := by
  cases told with
  | ignored absent | raised absent => simp [absent]
  | cleared found lived ended => simp [ended]
  | same found named live known => simp [found, Report.repeats_iff named, known]
  | updated found named live differs =>
    simp [found, Report.repeats_iff named, live, differs]

theorem Told.of_updated {old new : Entry} (told : Told find r (.updated old new) after) :
    find r.id = some old ∧ after r.id = some new ∧ old.id = r.id ∧ new.id = r.id ∧
      new.serial = old.serial := by
  cases told with
  | updated found named live differs now kept =>
    exact ⟨found, Index.put_self .., named, congrArg Report.id now, kept⟩

theorem Told.report_after (told : Told find r outcome after) (id : String) :
    (after id).map Entry.report =
      if r.id = id then (some r).filter (·.severity ≠ 0) else (find id).map Entry.report := by
  by_cases same : r.id = id
  · subst same
    rw [if_pos rfl, Option.filter_some]
    cases told with
    | ignored absent ended => simp [absent, ended]
    | raised absent live now => simp [Index.put_self, live, now]
    | cleared found lived ended => simp [Index.put_self, ended]
    | same found named live known => simp [found, live, known]
    | updated found named live differs now kept => simp [Index.put_self, live, now]
  · rw [if_neg same]
    cases told <;> simp only [Index.put_other _ (Ne.symm same)]

end

end Board

/-! ### Runs -/

def Call.report? : Call → Option Report
  | .receive r => some r
  | .clear => none

/-- The reports since the board was last cleared, the latest first. -/
def recent (calls : List Call) : List Report :=
  (calls.reverse.takeWhile (·.report?.isSome)).filterMap Call.report?

def latest? (id : String) (calls : List Call) : Option Report :=
  (recent calls).find? (·.id = id)

theorem recent_receive (calls : List Call) (r : Report) :
    recent (calls ++ [.receive r]) = r :: recent calls := by
  simp [recent, Call.report?]

theorem recent_clear (calls : List Call) : recent (calls ++ [.clear]) = [] := by
  simp [recent, Call.report?]

theorem latest?_receive (id : String) (calls : List Call) (r : Report) :
    latest? id (calls ++ [.receive r]) = if r.id = id then some r else latest? id calls := by
  rw [latest?, recent_receive, List.find?_cons]
  by_cases same : r.id = id <;> simp [same, latest?]

theorem latest?_clear (id : String) (calls : List Call) :
    latest? id (calls ++ [.clear]) = none := by
  rw [latest?, recent_clear, List.find?_nil]

namespace Board

theorem run_concat (b : Board) (calls : List Call) (call : Call) :
    b.run (calls ++ [call]) = (b.run calls).step call := by
  induction calls generalizing b with
  | nil => rfl
  | cons first rest ih => exact ih (b.step first)

/-- A new board holds, for every alarm, the last report on it since the last clear, if that report
does not end it. -/
theorem report_find?_run (calls : List Call) (id : String) :
    ((run {} calls).find? id).map Entry.report =
      (latest? id calls).filter (·.severity ≠ 0) := by
  -- From the last call back, for it decides what the last report is.
  induction calls using List.reverseRecOn with
  | nil => rfl
  | append_singleton calls call ih =>
    rw [run_concat]
    cases call with
    | clear => rw [latest?_clear]; rfl
    | receive r =>
      have told := receive_told (wellFormed_after_calls calls) r
      rw [step, told.report_after, latest?_receive, ih]
      split <;> rfl

/-- A board that was new keeps the latest reports. It holds an alarm exactly if the last report on
it since the last clear does not end it, and then with the severity, the channels and the text of
that report. What a report then does is told by what is held: it raises an alarm that is not held,
ends one that is, is ignored if it ends what is not held, says nothing new if it repeats what is
known, and otherwise updates the alarm, which keeps its id and the place of its raising. -/
theorem holds_latest_reports (calls : List Call) :
    let b := run {} calls
    (∀ id, (b.find? id).map Entry.report = (latest? id calls).filter (·.severity ≠ 0)) ∧
    ∀ r : Report,
      let outcome := (b.receive r).1
      let before := b.find? r.id
      let after := (b.receive r).2.find? r.id
      ((∃ new, outcome = .raised new) ↔ before = none ∧ r.severity ≠ 0) ∧
      (∀ held, outcome = .cleared held ↔ before = some held ∧ r.severity = 0) ∧
      (outcome = .ignored ↔ before = none ∧ r.severity = 0) ∧
      (outcome = .same ↔ ∃ held, before = some held ∧ r.Repeats held) ∧
      ((∃ old new, outcome = .updated old new) ↔
        ∃ held, before = some held ∧ r.severity ≠ 0 ∧ ¬r.Repeats held) ∧
      ∀ old new, outcome = .updated old new →
        before = some old ∧ after = some new ∧ old.id = r.id ∧ new.id = r.id ∧
          new.serial = old.serial := by
  intro b
  refine ⟨report_find?_run calls, ?_⟩
  intro r outcome before after
  have told : Told b.find? r outcome (b.receive r).2.find? :=
    receive_told (wellFormed_after_calls calls) r
  refine ⟨told.raised_iff, told.cleared_iff, told.ignored_iff, told.same_iff, told.updated_iff, ?_⟩
  intro old new updated
  rw [updated] at told
  exact told.of_updated

end Board

end Dashboard.Alarm
