import Dashboard.Proofs.History.Samples
import Dashboard.Proofs.Session.Styles

/-!
# What is kept of the readings of a device

A session keeps the readings of a device in two places: its widget is that of the last one, and its
history holds the samples of all, each under the quantity that was read. Both are read off the
records of a run here, so that the two can be compared (`trend_of_last_quantity`).
-/

namespace Dashboard

open Numeric

def recordsOf (run : List Delivery) : List Record :=
  (batchesOf run).flatMap Batch.records

def Record.reading? : Record → Option Reading
  | .reading r => some r
  | .alarm _ => none

def readingsOf (device : String) (records : List Record) : List Reading :=
  (records.filterMap Record.reading?).filter (·.device = device)

def samplesAs (quantity : Quantity) (readings : List Reading) : List Binary64 :=
  (readings.filter (·.quantity = quantity)).filterMap (·.value.sample?)

theorem readingsOf_reading (device : String) (before : List Record) (r : Reading) :
    readingsOf device (before ++ [.reading r]) =
      if r.device = device then readingsOf device before ++ [r] else readingsOf device before := by
  by_cases own : r.device = device <;> simp [readingsOf, Record.reading?, own]

theorem readingsOf_alarm (device : String) (before : List Record) (r : Alarm.Report) :
    readingsOf device (before ++ [.alarm r]) = readingsOf device before := by
  simp [readingsOf, Record.reading?]

theorem samplesAs_eq_nil_iff {quantity : Quantity} {readings : List Reading} :
    samplesAs quantity readings = [] ↔
      ∀ r ∈ readings, r.quantity = quantity → r.value.sample? = none := by
  simp [samplesAs]

/-- What a reading adds to the history. -/
def Reading.push? (r : Reading) : Option (Series × Binary64) :=
  r.value.sample?.map ({ device := r.device, quantity := r.quantity }, ·)

def pushesOf (records : List Record) : List (Series × Binary64) :=
  (records.filterMap Record.reading?).filterMap Reading.push?

theorem pushesOf_reading (before : List Record) (r : Reading) :
    pushesOf (before ++ [.reading r]) = pushesOf before ++ r.push?.toList := by
  cases pushed : r.push? <;> simp [pushesOf, Record.reading?, pushed]

theorem pushesOf_alarm (before : List Record) (r : Alarm.Report) :
    pushesOf (before ++ [.alarm r]) = pushesOf before := by
  simp [pushesOf, Record.reading?]

theorem samplesOf_pushesOf (device : String) (quantity : Quantity) (records : List Record) :
    History.samplesOf { device, quantity } (pushesOf records) =
      samplesAs quantity (readingsOf device records) := by
  unfold pushesOf readingsOf
  induction records.filterMap Record.reading? with
  | nil => rfl
  | cons r rest ih =>
    simp only [History.samplesOf, samplesAs] at ih ⊢
    by_cases own : r.device = device <;> by_cases asked : r.quantity = quantity <;>
      cases sample : r.value.sample? <;> simp [Reading.push?, own, asked, sample, ih]

/-! ### What a session keeps -/

/-- The widget is that of the reading, in some style. -/
structure Widget.Shows (w : Widget) (r : Reading) : Prop where
  kind : w.kind = r.kind
  quantity : w.quantity = r.quantity
  display : ∃ style, w.display = .ofReading r style

namespace Session

/-- The session holds what a new one does after these records. -/
structure Keeps (config : Config) (records : List Record) (s : Session) : Prop where
  history : s.history = (History.ofCapacity config.historyCapacity).pushAll (pushesOf records)
  widgets : ∀ device,
    Option.Rel Widget.Shows (s.screen.widget? device) (readingsOf device records).getLast?

theorem keepSample_eq_pushAll (h : History) (r : Reading) :
    keepSample h r = h.pushAll r.push?.toList := by
  unfold keepSample Reading.push?
  cases r.value.sample? <;> rfl

theorem ofConfig_keeps (config : Config) : Keeps config [] (ofConfig config) :=
  ⟨rfl, fun _ => .none⟩

theorem apply_keeps {config : Config} {records : List Record} {s : Session}
    (h : Keeps config records s) (prefs : Preferences) (record : Record) :
    Keeps config (records ++ [record]) (s.apply prefs record).2 := by
  obtain ⟨history, widgets⟩ := h
  cases record with
  | alarm r =>
    refine ⟨history.trans ?_, fun device => ?_⟩
    · rw [pushesOf_alarm]
    · rw [readingsOf_alarm]
      exact widgets device
  | reading r =>
    refine ⟨?_, fun device => ?_⟩
    · rw [pushesOf_reading, History.pushAll_append, ← history]
      exact keepSample_eq_pushAll s.history r
    · rw [readingsOf_reading]
      refine Eq.mpr (congrArg (Option.Rel _ · _) (Screen.widget?_store ..)) ?_
      by_cases own : r.device = device
      · rw [if_pos own.symm, if_pos own, List.getLast?_concat]
        exact .some ⟨rfl, rfl, _, rfl⟩
      · rw [if_neg (Ne.symm own), if_neg own]
        exact widgets device

theorem applyEach_keeps {config : Config} {records : List Record} {s : Session}
    (h : Keeps config records s) (steps : List (Preferences × Record)) :
    Keeps config (records ++ steps.map (·.2)) (s.applyEach steps).session := by
  induction steps generalizing records s with
  | nil => rwa [List.map_nil, List.append_nil]
  | cons step rest ih =>
    obtain ⟨prefs, record⟩ := step
    rw [List.map_cons, List.append_cons]
    exact ih (apply_keeps h prefs record)

theorem map_snd_steps (batches : List Batch) :
    (batches.flatMap Batch.steps).map (·.2) = batches.flatMap Batch.records := by
  rw [List.map_flatMap]
  congr 1
  funext b
  simp [Batch.steps, List.map_map, Function.comp_def]

/-- A payload that is refused leaves the session as it is, and one that decodes is a batch. -/
theorem ingestEach_eq_afterBatches (s : Session) (run : List Delivery) :
    (s.ingestEach run).2 = s.afterBatches (batchesOf run) := by
  induction run generalizing s with
  | nil => rfl
  | cons d rest ih =>
    rw [ingestEach, ih]
    cases decoded : Payload.decode d.payload with
    | error fault =>
      have refused : d.batch? = none := by rw [Delivery.batch?, decoded]
      have others : batchesOf (d :: rest) = batchesOf rest := List.filterMap_cons_none refused
      have same : s.after d.preferences d.payload = s := by rw [after, ingest, decoded]; rfl
      rw [same, others]
    | ok records =>
      let b : Batch := { preferences := d.preferences, records }
      have read : d.batch? = some b := by rw [Delivery.batch?, decoded]
      have others : batchesOf (d :: rest) = b :: batchesOf rest := List.filterMap_cons_some read
      have first : s.after d.preferences d.payload = (s.applyEach b.steps).session := by
        rw [after, ingest, decoded, Batch.steps, ← applyAll_eq_applyEach]
        rfl
      rw [first, others, afterBatches, afterBatches, List.flatMap_cons, applyEach_append]

theorem ingestEach_keeps (config : Config) (run : List Delivery) :
    Keeps config (recordsOf run) ((ofConfig config).ingestEach run).2 := by
  rw [ingestEach_eq_afterBatches, recordsOf, ← map_snd_steps]
  exact applyEach_keeps (ofConfig_keeps config) _

def trendOf (config : Config) (style : ChartStyle) (sampled : List Binary64) : Option Trend :=
  if sampled = [] then none
  else some { style, samples := Window.lastOf (max config.historyCapacity 1) sampled }

theorem trendOf_eq_none_iff {config : Config} {style : ChartStyle} {sampled : List Binary64} :
    trendOf config style sampled = none ↔ sampled = [] := by
  simp [trendOf]

theorem trendOf_eq_some_iff {config : Config} {style : ChartStyle} {sampled : List Binary64}
    {trend : Trend} :
    trendOf config style sampled = some trend ↔
      sampled ≠ [] ∧ trend.style = style ∧ trend.samples <:+ sampled ∧
        trend.samples.length = min (max config.historyCapacity 1) sampled.length := by
  obtain ⟨drawn, samples⟩ := trend
  rw [trendOf, ← Window.eq_lastOf_iff]
  split
  · next never => simp [never]
  · next sampledSome => simp [sampledSome, eq_comm]

theorem Keeps.trend?_eq {config : Config} {records : List Record} {s : Session}
    (h : Keeps config records s) (device : String) (style : ChartStyle) :
    s.trend? device style =
      (readingsOf device records).getLast?.bind fun last =>
        trendOf config style (samplesAs last.quantity (readingsOf device records)) := by
  have shown := h.widgets device
  rw [trend?]
  generalize s.screen.widget? device = widget?, (readingsOf device records).getLast? = last? at *
  cases shown with
  | none => rfl
  | @some widget last shows =>
    have held := History.samples?_pushAll config.historyCapacity (pushesOf records)
      { device, quantity := last.quantity }
    rw [← h.history, samplesOf_pushesOf] at held
    simp only [Option.bind_some, Option.bind_eq_bind, shows.quantity, History.trend?, held, trendOf]
    split <;> rfl

/-- After any payloads to a new session, a device has a trend unless it sent no reading, or none of
its readings of the quantity that it read last has a sample. The trend holds the last samples of all
its readings of that quantity, in order and as many as the capacity, of which zero counts as one.
Readings of other quantities between them make no difference, and neither does the style. -/
theorem trend_of_last_quantity (config : Config) (run : List Delivery) (device : String)
    (style : ChartStyle) :
    let s := ((ofConfig config).ingestEach run).2
    let readings := readingsOf device (recordsOf run)
    (s.trend? device style = none ↔
      readings = [] ∨
        ∃ last, readings.getLast? = some last ∧
          ∀ r ∈ readings, r.quantity = last.quantity → r.value.sample? = none) ∧
    ∀ trend, s.trend? device style = some trend ↔
      ∃ last, readings.getLast? = some last ∧
        samplesAs last.quantity readings ≠ [] ∧
        trend.style = style ∧
        trend.samples <:+ samplesAs last.quantity readings ∧
        trend.samples.length =
          min (max config.historyCapacity 1) (samplesAs last.quantity readings).length := by
  intro s readings
  have trended : s.trend? device style = readings.getLast?.bind fun last =>
      trendOf config style (samplesAs last.quantity readings) :=
    (ingestEach_keeps config run).trend?_eq device style
  rw [trended]
  cases ended : readings.getLast? with
  | none =>
    have none : readings = [] := List.getLast?_eq_none_iff.mp ended
    exact ⟨by simp [none], by simp⟩
  | some last =>
    have nonempty : readings ≠ [] := by rintro empty; simp [empty] at ended
    simp only [Option.bind_some, Option.some.injEq, exists_eq_left']
    refine ⟨?_, fun trend => trendOf_eq_some_iff⟩
    rw [or_iff_right nonempty, ← samplesAs_eq_nil_iff]
    exact trendOf_eq_none_iff

end Session

end Dashboard
