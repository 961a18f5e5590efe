import Dashboard.Proofs.Session.Readings

/-!
# Batches that come twice

A session knows a record if it holds what the record says. A record is known once it has been
applied, and no record about another alarm or device makes it unknown (`Knows.applyAll`). A batch
of known records adds its samples to the history and nothing else (`applyAll_known`), so a batch
can be delivered twice (`redelivery_adds_only_samples`).
-/

namespace Dashboard

open Alarm Numeric

inductive Identity where
  | alarm (id : String)
  | device (id : String)
  deriving DecidableEq

def Record.identity : Record → Identity
  | .reading r => .device r.device
  | .alarm r => .alarm r.id

/-- The change of a record that says nothing new. -/
def Record.unchanged? (style : Figure.Style) : Record → Option Change
  | .reading r => some (.reading r.device (.ofReading r style) false)
  | .alarm _ => none

namespace History

def kept (h : History) (series : Series) : List Binary64 :=
  (h.samples? series).getD []

theorem kept_pushAll (capacity : Nat) (pushes : List (Series × Binary64)) (series : Series) :
    ((ofCapacity capacity).pushAll pushes).kept series =
      Window.lastOf (max capacity 1) (samplesOf series pushes) := by
  rw [kept, samples?_pushAll]
  split
  · next never => simp [never, Window.lastOf]
  · rfl

theorem samplesOf_append (series : Series) (before after : List (Series × Binary64)) :
    samplesOf series (before ++ after) = samplesOf series before ++ samplesOf series after := by
  simp [samplesOf]

/-- More pushes to a history leave the end of what was kept with what is pushed now. -/
theorem kept_pushAll_pushAll (capacity : Nat) (before after : List (Series × Binary64))
    (series : Series) :
    (((ofCapacity capacity).pushAll before).pushAll after).kept series =
      Window.lastOf (max capacity 1)
        (((ofCapacity capacity).pushAll before).kept series ++ samplesOf series after) := by
  rw [← pushAll_append, kept_pushAll, kept_pushAll, samplesOf_append, Window.lastOf_append]

end History

theorem pushAll_pushesOf_cons (h : History) (record : Record) (rest : List Record) :
    h.pushAll (pushesOf (record :: rest)) =
      (h.pushAll (pushesOf [record])).pushAll (pushesOf rest) := by
  rw [← History.pushAll_append]
  simp only [pushesOf, ← List.filterMap_append, List.singleton_append]

/-! ### Known records -/

namespace Session

def Knows (s : Session) (prefs : Preferences) : Record → Prop
  | .reading r => s.screen.widget? r.device =
      some { kind := r.kind, quantity := r.quantity, display := .ofReading r (s.style prefs) }
  | .alarm r => (s.board.find? r.id).map Entry.report = (some r).filter (·.severity ≠ 0)

variable {s : Session} {prefs : Preferences} {record : Record}

theorem apply_knows (h : s.board.WellFormed) (prefs : Preferences) (record : Record) :
    (s.apply prefs record).2.Knows prefs record := by
  cases record with
  | reading r => exact (Screen.widget?_store ..).trans (if_pos rfl)
  | alarm r => exact ((Board.receive_told h r).report_after r.id).trans (if_pos rfl)

theorem Knows.apply (known : s.Knows prefs record) (h : s.board.WellFormed) {other : Record}
    (apart : other.identity ≠ record.identity) : (s.apply prefs other).2.Knows prefs record := by
  cases record with
  | reading r =>
    cases other with
    | alarm r' => exact known
    | reading r' =>
      have device : r.device ≠ r'.device := fun same => apart (congrArg Identity.device same.symm)
      exact (Screen.widget?_store ..).trans ((if_neg device).trans known)
  | alarm r =>
    cases other with
    | reading r' => exact known
    | alarm r' =>
      have id : r'.id ≠ r.id := fun same => apart (congrArg Identity.alarm same)
      exact ((Board.receive_told h r').report_after r.id).trans ((if_neg id).trans known)

theorem Knows.applyAll (known : s.Knows prefs record) (h : s.board.WellFormed)
    {batch : List Record} (apart : ∀ other ∈ batch, other.identity ≠ record.identity) :
    (s.applyAll prefs batch).session.Knows prefs record := by
  induction batch generalizing s with
  | nil => exact known
  | cons other rest ih =>
    obtain ⟨first, others⟩ := List.forall_mem_cons.mp apart
    exact ih (known.apply h first) (apply_wellFormed h prefs other) others

theorem applyAll_knows (h : s.board.WellFormed) (prefs : Preferences) {batch : List Record}
    (unique : (batch.map Record.identity).Nodup) :
    ∀ record ∈ batch, (s.applyAll prefs batch).session.Knows prefs record := by
  induction batch generalizing s with
  | nil => exact List.forall_mem_nil _
  | cons first rest ih =>
    obtain ⟨fresh, unique⟩ := List.nodup_cons.mp unique
    have later := apply_wellFormed h prefs first
    refine List.forall_mem_cons.mpr ⟨?_, ih later unique⟩
    refine (apply_knows h prefs first).applyAll later ?_
    intro other member same
    exact fresh (same ▸ List.mem_map_of_mem member)

end Session

namespace Alarm.Board

/-- A report of what the board holds does nothing to it. -/
theorem receive_known {b : Board} (h : b.WellFormed) {r : Report}
    (known : (b.find? r.id).map Entry.report = (some r).filter (·.severity ≠ 0)) :
    (b.receive r).2 = b ∧ Change.ofOutcome? (b.receive r).1 = none := by
  have of := index_find? h
  have step := b.received r
  generalize (b.receive r).1 = outcome, (b.receive r).2 = next at step ⊢
  rw [Option.filter_some] at known
  cases step with
  | ignored | same => exact ⟨rfl, rfl⟩
  | raised absent live =>
    rw [of.absent absent, if_pos (decide_eq_true (live_of_not_clear live))] at known
    cases known
  | cleared split named first ended =>
    rw [← named, of.held split, if_neg (by simp [isClear_iff.mp ended])] at known
    cases known
  | updated split named first live differs =>
    have found := of.held split
    rw [named] at found
    rw [found, if_pos (decide_eq_true (live_of_not_clear live))] at known
    exact absurd (Option.some.inj known) differs

end Alarm.Board

namespace Screen

theorem store_known {s : Screen} {r : Reading} {display : Display}
    (known : s.widget? r.device = some { kind := r.kind, quantity := r.quantity, display }) :
    s.store r display = (.unchanged, s) := by
  rw [store, known, Table.put_of_get? known, Option.map_some, if_pos rfl]

end Screen

namespace Session

variable {s : Session} {prefs : Preferences} {record : Record}

theorem pushAll_pushesOf_reading (h : History) (r : Reading) :
    keepSample h r = h.pushAll (pushesOf [.reading r]) := by
  rw [keepSample_eq_pushAll, ← List.nil_append [Record.reading r], pushesOf_reading]
  rfl

/-- A known record adds its sample to the history and changes nothing else. -/
theorem apply_known (h : s.board.WellFormed) (known : s.Knows prefs record) :
    s.apply prefs record = (record.unchanged? (s.style prefs),
      { s with history := s.history.pushAll (pushesOf [record]) }) := by
  cases record with
  | reading r =>
    simp only [apply, applyReading, Screen.store_known known, pushAll_pushesOf_reading]
    rfl
  | alarm r =>
    obtain ⟨same, silent⟩ := Alarm.Board.receive_known h known
    simp only [apply, applyReport, same, silent]
    rfl

theorem applyAll_known (h : s.board.WellFormed) {batch : List Record}
    (known : ∀ record ∈ batch, s.Knows prefs record) :
    s.applyAll prefs batch =
      { changes := batch.filterMap (Record.unchanged? (s.style prefs))
        session := { s with history := s.history.pushAll (pushesOf batch) } } := by
  induction batch generalizing s with
  | nil => rfl
  | cons record rest ih =>
    obtain ⟨first, others⟩ := List.forall_mem_cons.mp known
    have rest := ih (s := { s with history := s.history.pushAll (pushesOf [record]) }) h others
    rw [pushAll_pushesOf_cons, applyAll, apply_known h first]
    dsimp only
    rw [rest]
    cases told : record.unchanged? (s.style prefs) with
    | none => rw [List.filterMap_cons_none told]; rfl
    | some change => rw [List.filterMap_cons_some told]; rfl

theorem applyAll_history (s : Session) (prefs : Preferences) (batch : List Record) :
    (s.applyAll prefs batch).session.history = s.history.pushAll (pushesOf batch) := by
  induction batch generalizing s with
  | nil => rfl
  | cons record rest ih =>
    rw [pushAll_pushesOf_cons, applyAll]
    refine (ih _).trans (congrArg (History.pushAll · _) ?_)
    cases record with
    | reading r => exact pushAll_pushesOf_reading s.history r
    | alarm r => rfl

theorem applyAll_style (s : Session) (prefs : Preferences) (batch : List Record) :
    (s.applyAll prefs batch).session.style prefs = s.style prefs := by
  induction batch generalizing s with
  | nil => rfl
  | cons record rest ih =>
    refine (ih _).trans ?_
    cases record <;> rfl

/-- A batch in which no alarm and no device occurs twice can be delivered again. After whatever came
before, the second time changes no alarm and no widget: it tells of no alarm, tells of every reading
that it is not changed, and adds to every series the samples that the first time added. -/
theorem redelivery_adds_only_samples (config : Config) (before : List (Preferences × Record))
    (prefs : Preferences) {batch : List Record} (unique : (batch.map Record.identity).Nodup) :
    let s := ((ofConfig config).applyEach before).session
    let first := s.applyAll prefs batch
    let second := first.session.applyAll prefs batch
    second.changes = batch.filterMap (Record.unchanged? (s.style prefs)) ∧
    (∀ change ∈ second.changes, ∃ device display, change = .reading device display false) ∧
    second.session.board = first.session.board ∧
    second.session.screen = first.session.screen ∧
    first.session.history = s.history.pushAll (pushesOf batch) ∧
    second.session.history = first.session.history.pushAll (pushesOf batch) ∧
    ∀ series,
      let added := History.samplesOf series (pushesOf batch)
      let endOf := Window.lastOf (max config.historyCapacity 1)
      first.session.history.kept series = endOf (s.history.kept series ++ added) ∧
      second.session.history.kept series = endOf (first.session.history.kept series ++ added) := by
  intro s first second
  have initial : (ofConfig config).board.WellFormed := Alarm.Board.initial_wellFormed
  have h : s.board.WellFormed := applyEach_wellFormed initial before
  have later : first.session.board.WellFormed := by
    have run := applyEach_wellFormed h (batch.map (prefs, ·))
    rwa [← applyAll_eq_applyEach] at run
  have again : second = { changes := batch.filterMap (Record.unchanged? (first.session.style prefs))
                          session := { first.session with
                            history := first.session.history.pushAll (pushesOf batch) } } :=
    applyAll_known later (applyAll_knows h prefs unique)
  have style : first.session.style prefs = s.style prefs := applyAll_style s prefs batch
  have once : first.session.history = s.history.pushAll (pushesOf batch) :=
    applyAll_history s prefs batch
  obtain ⟨past, start⟩ : ∃ past,
      s.history = (History.ofCapacity config.historyCapacity).pushAll past :=
    ⟨_, (applyEach_keeps (ofConfig_keeps config) before).history⟩
  rw [style] at again
  rw [again]
  refine ⟨rfl, ?_, rfl, rfl, once, rfl, ?_⟩
  · intro change told
    obtain ⟨record, _, told⟩ := List.mem_filterMap.mp told
    cases record with
    | reading r => exact ⟨_, _, (Option.some.inj told).symm⟩
    | alarm r => cases told
  · intro series
    dsimp only
    have joined := History.pushAll_append (.ofCapacity config.historyCapacity) past (pushesOf batch)
    rw [once, start]
    refine ⟨History.kept_pushAll_pushAll .., ?_⟩
    rw [← joined]
    exact History.kept_pushAll_pushAll ..

/-- The batch ends an alarm and reads a device with the id of the alarm. -/
theorem redelivery_adds_only_samples_shared_id :
    let raised := Record.alarm { id := "a", severity := 40, channels := .all, text := "open" }
    let ended := Record.alarm { id := "a", severity := 0, channels := .all, text := "" }
    let warm := Record.reading (.ofRaw "a" .sensor .temperature "21.5")
    let first := ((ofConfig {}).applyEach [({}, raised)]).session.applyAll {} [ended, warm]
    let second := first.session.applyAll {} [ended, warm]
    ([ended, warm].map Record.identity).Nodup ∧
    (∀ change ∈ second.changes, ∃ device display, change = .reading device display false) ∧
    second.session.board = first.session.board ∧
    second.session.screen = first.session.screen := by
  intro raised ended warm first second
  have unique : ([ended, warm].map Record.identity).Nodup := by decide
  obtain ⟨_, silent, board, screen, _⟩ := redelivery_adds_only_samples {} [({}, raised)] {} unique
  exact ⟨unique, silent, board, screen⟩

end Session

end Dashboard
