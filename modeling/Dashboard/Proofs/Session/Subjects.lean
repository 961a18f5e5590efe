import Dashboard.Session

/-!
# Records about different subjects

A record is about the alarms or about one device. It changes nothing that a session holds about
another subject (`apply_agree_other`), and what it does is decided by what is held about its own
(`apply_agree`). So for every subject a run can be replaced by the records about it, and the order
between subjects does not matter (`interleaving_irrelevant`).
-/

namespace Dashboard

/-- What a record or a change is about. All alarms are one subject, for they stand on one board. -/
inductive Subject where
  | alarms
  | device (id : String)
  deriving DecidableEq

def Record.subject : Record → Subject
  | .reading r => .device r.device
  | .alarm _ => .alarms

def Change.subject : Change → Subject
  | .reading device .. => .device device
  | .alarmRaised _ | .alarmUpdated .. | .alarmCleared _ => .alarms

namespace Session

def SameAbout (s s' : Session) : Subject → Prop
  | .alarms => s.board = s'.board
  | .device id => s.screen.widget? id = s'.screen.widget? id ∧
      ∀ quantity, s.history.window? { device := id, quantity } =
        s'.history.window? { device := id, quantity }

/-- Two sessions with the same settings hold the same about the subject. -/
structure Agree (subject : Subject) (s s' : Session) : Prop where
  config : s.config = s'.config
  capacity : s.history.capacity = s'.history.capacity
  about : s.SameAbout s' subject

theorem Agree.refl (subject : Subject) (s : Session) : Agree subject s s := by
  refine ⟨rfl, rfl, ?_⟩
  cases subject with
  | alarms => rfl
  | device id => exact ⟨rfl, fun _ => rfl⟩

theorem Agree.symm {subject : Subject} {s s' : Session} (h : Agree subject s s') :
    Agree subject s' s := by
  refine ⟨h.config.symm, h.capacity.symm, ?_⟩
  have about := h.about
  cases subject with
  | alarms => exact Eq.symm about
  | device id => exact ⟨about.1.symm, fun quantity => (about.2 quantity).symm⟩

theorem Agree.trans {subject : Subject} {s t u : Session} (h : Agree subject s t)
    (h' : Agree subject t u) : Agree subject s u := by
  refine ⟨h.config.trans h'.config, h.capacity.trans h'.capacity, ?_⟩
  have first := h.about
  have second := h'.about
  cases subject with
  | alarms => exact Eq.trans first second
  | device id =>
    exact ⟨first.1.trans second.1, fun quantity => (first.2 quantity).trans (second.2 quantity)⟩

theorem keepSample_capacity (h : History) (r : Reading) :
    (keepSample h r).capacity = h.capacity := by
  unfold keepSample
  split <;> rfl

theorem keepSample_other (h : History) {r : Reading} {series : Series}
    (other : series.device ≠ r.device) :
    (keepSample h r).window? series = h.window? series := by
  unfold keepSample
  split
  · rw [History.window?_push, if_neg]
    rintro rfl
    exact other rfl
  · rfl

theorem keepSample_congr {h h' : History} {r : Reading} (capacity : h.capacity = h'.capacity)
    (same : ∀ quantity, h.window? { device := r.device, quantity } =
      h'.window? { device := r.device, quantity }) (quantity : Quantity) :
    (keepSample h r).window? { device := r.device, quantity } =
      (keepSample h' r).window? { device := r.device, quantity } := by
  unfold keepSample
  split
  · rw [History.window?_push, History.window?_push, same, same, capacity]
  · exact same quantity

theorem apply_subject {s : Session} {prefs : Preferences} {record : Record} {change : Change}
    (told : (s.apply prefs record).1 = some change) : change.subject = record.subject := by
  cases record with
  | reading r =>
    cases told
    rfl
  | alarm r =>
    change Change.ofOutcome? (s.board.receive r).1 = some change at told
    cases outcome : (s.board.receive r).1 <;> rw [outcome] at told <;> cases told <;> rfl

/-- A record leaves what is held about other subjects as it is. -/
theorem apply_agree_other (s : Session) (prefs : Preferences) {record : Record} {subject : Subject}
    (other : record.subject ≠ subject) : Agree subject (s.apply prefs record).2 s := by
  cases record with
  | reading r =>
    refine ⟨rfl, keepSample_capacity s.history r, ?_⟩
    cases subject with
    | alarms => rfl
    | device id =>
      have apart : id ≠ r.device := fun same => other (congrArg Subject.device same.symm)
      refine ⟨?_, fun quantity => keepSample_other s.history apart⟩
      exact (Screen.widget?_store ..).trans (if_neg apart)
  | alarm r =>
    refine ⟨rfl, rfl, ?_⟩
    cases subject with
    | alarms => exact absurd rfl other
    | device id => exact ⟨rfl, fun _ => rfl⟩

/-- What a record does is decided by what is held about its subject. -/
theorem apply_agree {s s' : Session} {record : Record} (h : Agree record.subject s s')
    (prefs : Preferences) :
    (s.apply prefs record).1 = (s'.apply prefs record).1 ∧
      Agree record.subject (s.apply prefs record).2 (s'.apply prefs record).2 := by
  obtain ⟨config, capacity, about⟩ := h
  cases record with
  | reading r =>
    obtain ⟨widget, windows⟩ := about
    have style : s.style prefs = s'.style prefs := by rw [style, style, config]
    have display : Display.ofReading r (s.style prefs) = Display.ofReading r (s'.style prefs) := by
      rw [style]
    refine ⟨?_, config, ?_, ?_, keepSample_congr capacity windows⟩
    · simp only [apply, applyReading, Screen.store, display, widget]
    · exact (keepSample_capacity ..).trans (capacity.trans (keepSample_capacity ..).symm)
    · simp only [apply, applyReading, Screen.widget?_store, display, if_true]
  | alarm r =>
    have board : s.board = s'.board := about
    have told := congrArg (fun b => Change.ofOutcome? (b.receive r).1) board
    have after := congrArg (fun b => (b.receive r).2) board
    exact ⟨told, config, capacity, after⟩

/-! ### Runs -/

theorem filter_changes (s : Session) (prefs : Preferences) (record : Record) (subject : Subject) :
    (s.apply prefs record).1.toList.filter (·.subject = subject) =
      if record.subject = subject then (s.apply prefs record).1.toList else [] := by
  have about : ∀ change ∈ (s.apply prefs record).1.toList, change.subject = record.subject := by
    intro change member
    exact apply_subject (Option.mem_toList.mp member)
  split
  · next same =>
    apply List.filter_eq_self.mpr
    intro change member
    exact decide_eq_true ((about change member).trans same)
  · next other =>
    apply List.filter_eq_nil_iff.mpr
    intro change member told
    exact other ((about change member).symm.trans (of_decide_eq_true told))

/-- What a run leaves about a subject, and what it tells about it, is left and told by the records
about the subject alone. -/
theorem applyAll_agree {subject : Subject} {s s' : Session} (h : Agree subject s s')
    (prefs : Preferences) (rs : List Record) :
    let alone := s'.applyAll prefs (rs.filter (·.subject = subject))
    (s.applyAll prefs rs).changes.filter (·.subject = subject) = alone.changes ∧
      Agree subject (s.applyAll prefs rs).session alone.session := by
  induction rs generalizing s s' with
  | nil => exact ⟨rfl, h⟩
  | cons record rest ih =>
    by_cases same : record.subject = subject
    · subst same
      obtain ⟨told, after⟩ := apply_agree h prefs
      obtain ⟨changes, session⟩ := ih after
      rw [List.filter_cons, if_pos (decide_eq_true rfl)]
      refine ⟨?_, session⟩
      simp only [applyAll]
      rw [List.filter_append, filter_changes, if_pos rfl, changes, told]
    · have after := (apply_agree_other s prefs same).trans h
      obtain ⟨changes, session⟩ := ih after
      rw [List.filter_cons, if_neg (mt of_decide_eq_true same)]
      refine ⟨?_, session⟩
      simp only [applyAll]
      rw [List.filter_append, filter_changes, if_neg same, List.nil_append]
      exact changes

theorem applyAll_agree_of_filter {subject : Subject} {s : Session} {prefs : Preferences}
    {rs rs' : List Record}
    (same : rs.filter (·.subject = subject) = rs'.filter (·.subject = subject)) :
    (s.applyAll prefs rs).changes.filter (·.subject = subject) =
        (s.applyAll prefs rs').changes.filter (·.subject = subject) ∧
      Agree subject (s.applyAll prefs rs).session (s.applyAll prefs rs').session := by
  obtain ⟨changes, session⟩ := applyAll_agree (Agree.refl subject s) prefs rs
  obtain ⟨changes', session'⟩ := applyAll_agree (Agree.refl subject s) prefs rs'
  rw [same] at changes session
  exact ⟨changes.trans changes'.symm, session.trans session'.symm⟩

/-- Two runs of records that hold the same records about the alarms and the same records about each
device, in the same order but interleaved in any way, lead to the same alarms, the same widgets and
the same samples, and tell the same changes about the alarms and about each device. A device with
the id of an alarm is a subject of its own. -/
theorem interleaving_irrelevant (s : Session) (prefs : Preferences) {rs rs' : List Record}
    (same : ∀ subject, rs.filter (·.subject = subject) = rs'.filter (·.subject = subject)) :
    let f := s.applyAll prefs rs
    let f' := s.applyAll prefs rs'
    f.session.config = f'.session.config ∧
    f.session.board = f'.session.board ∧
    (∀ device, f.session.screen.widget? device = f'.session.screen.widget? device) ∧
    (∀ series, f.session.history.samples? series = f'.session.history.samples? series) ∧
    ∀ subject,
      f.changes.filter (·.subject = subject) = f'.changes.filter (·.subject = subject) := by
  intro f f'
  have agree (subject : Subject) : Agree subject f.session f'.session :=
    (applyAll_agree_of_filter (same subject)).2
  refine ⟨(agree .alarms).config, (agree .alarms).about, ?_, ?_, ?_⟩
  · intro device
    exact (agree (.device device)).about.1
  · intro series
    have windows := (agree (.device series.device)).about.2 series.quantity
    exact congrArg (Option.map Window.samples) windows
  · intro subject
    exact (applyAll_agree_of_filter (same subject)).1

/-- An alarm that is raised before, and not between, the readings of a device with the same id. -/
theorem interleaving_irrelevant_shared_id :
    let warm := Record.reading (.ofRaw "a" .sensor .temperature "21.5")
    let cold := Record.reading (.ofRaw "a" .sensor .temperature "3")
    let raised := Record.alarm { id := "a", severity := 40, channels := .all, text := "open" }
    let f := (ofConfig {}).applyAll {} [warm, raised, cold]
    let f' := (ofConfig {}).applyAll {} [raised, warm, cold]
    (∀ subject, [warm, raised, cold].filter (·.subject = subject) =
      [raised, warm, cold].filter (·.subject = subject)) ∧
    f.session.board = f'.session.board ∧
    f.session.screen.widget? "a" = f'.session.screen.widget? "a" ∧
    f.changes.filter (·.subject = .device "a") = f'.changes.filter (·.subject = .device "a") := by
  intro warm cold raised f f'
  have same : ∀ subject, [warm, raised, cold].filter (·.subject = subject) =
      [raised, warm, cold].filter (·.subject = subject) := by
    intro subject
    cases subject with
    | alarms => rfl
    | device id => simp [List.filter_cons, Record.subject, warm, cold, raised]
  obtain ⟨_, board, widgets, _, changes⟩ := interleaving_irrelevant (ofConfig {}) {} same
  exact ⟨same, board, widgets "a", changes (.device "a")⟩

end Session

end Dashboard
