import Dashboard.Proofs.Display.Percent
import Dashboard.Proofs.Payload.Written
import Dashboard.Proofs.Session.Readings

/-!
# Displayed levels and kept levels

The level of a flag goes to the widget of its device and to the history. The two never tell
different things (`display_agrees_with_history`): every reading that comes out of a payload is
`Made` of a text, so a reading of a flag always has a sample, and it is the level displayed.
-/

namespace Dashboard

open Numeric

theorem recordsOf_made (run : List Delivery) : ∀ record ∈ recordsOf run, record.Made := by
  intro record member
  obtain ⟨b, among, member⟩ := List.mem_flatMap.mp member
  obtain ⟨d, _, read⟩ := List.mem_filterMap.mp among
  unfold Delivery.batch? at read
  split at read
  · next records decoded =>
    cases read
    exact Payload.decode_made decoded record member
  · cases read

theorem mem_of_mem_readingsOf {device : String} {records : List Record} {r : Reading}
    (member : r ∈ readingsOf device records) : .reading r ∈ records := by
  obtain ⟨record, among, read⟩ := List.mem_filterMap.mp (List.mem_filter.mp member).1
  cases record with
  | reading r =>
    cases read
    exact among
  | alarm r => cases read

/-- The value of a flag has a level, whatever its text. -/
theorem value_of_made {r : Reading} (made : (Record.reading r).Made)
    (flag : r.quantity.isFlag = true) : ∃ level raw, r.value = .flag level raw := by
  cases made with
  | reading device kind quantity raw => exact ⟨flagLevel raw, raw, if_pos flag⟩

section
variable {r : Reading} {level : Binary64} {raw : String} (flag : r.quantity.isFlag = true)
  (value : r.value = .flag level raw) (style : Figure.Style)
include flag value

theorem toggle_of_flag {on : Bool} {indicator : Option Bool}
    (shown : Display.ofReading r style = .toggle on indicator) :
    on = true ↔ level.equals .zero = false := by
  have isOn : r.value.isOn = !level.equals .zero := by rw [value]; rfl
  rw [Display.ofReading, flag, isOn] at shown
  split at shown <;> cases shown <;> simp

theorem slider_of_flag {percent : UInt32} (shown : Display.ofReading r style = .slider percent) :
    percent = percentOf level := by
  rw [Display.ofReading, flag, value] at shown
  split at shown <;> cases shown
  rfl

end

theorem getLast?_samplesAs {readings : List Reading} {last : Reading} {level : Binary64}
    (ended : readings.getLast? = some last) (sampled : last.value.sample? = some level) :
    (samplesAs last.quantity readings).getLast? = some level := by
  obtain ⟨before, rfl⟩ := List.getLast?_eq_some_iff.mp ended
  simp [samplesAs, sampled]

namespace Session

variable {config : Config} {records : List Record} {s : Session} {device : String} {last : Reading}

theorem Keeps.last_sample (h : Keeps config records s)
    (ended : (readingsOf device records).getLast? = some last) {level : Binary64}
    (sampled : last.value.sample? = some level) (style : ChartStyle) :
    ∃ trend, s.trend? device style = some trend ∧ trend.last? = some level := by
  have newest := getLast?_samplesAs ended sampled
  have some : samplesAs last.quantity (readingsOf device records) ≠ [] := by
    intro none
    rw [none] at newest
    cases newest
  have room : 0 < max config.historyCapacity 1 := by omega
  rw [h.trend?_eq, ended, Option.bind_some, trendOf, if_neg some]
  exact ⟨_, rfl, (Window.getLast?_lastOf room _).trans newest⟩

theorem Keeps.shown (h : Keeps config records s)
    (ended : (readingsOf device records).getLast? = some last) :
    ∃ widget, s.screen.widget? device = some widget ∧ widget.Shows last := by
  have shown := h.widgets device
  rw [ended] at shown
  cases found : s.screen.widget? device with
  | none => rw [found] at shown; cases shown
  | some widget =>
    rw [found] at shown
    cases shown with
    | some shows => exact ⟨widget, rfl, shows⟩

theorem Keeps.series_shown (h : Keeps config records s) {series : Series}
    (kept : series ∈ s.history.series) :
    ∃ widget, s.screen.widget? series.device = some widget := by
  obtain ⟨window, found⟩ := Option.isSome_iff_exists.mp ((Table.mem_keys_iff ..).mp kept)
  have held := History.samples?_pushAll config.historyCapacity (pushesOf records) series
  rw [← h.history, samplesOf_pushesOf, History.samples?, History.window?, found] at held
  have sent : readingsOf series.device records ≠ [] := by
    intro none
    rw [none] at held
    cases held
  obtain ⟨widget, shown, _⟩ := h.shown (List.getLast?_eq_some_getLast sent)
  exact ⟨widget, shown⟩

/-- After any payloads to a new session, a device whose last reading is of a flag has a trend, and
its widget shows the last sample of the trend: it is on exactly if the sample is not zero, and its
slider is at a hundred times the sample, without the fraction and within 32 bits. Every series of
the history is of a device with a widget. -/
theorem display_agrees_with_history (config : Config) (run : List Delivery) :
    let s := ((ofConfig config).ingestEach run).2
    (∀ device last, (readingsOf device (recordsOf run)).getLast? = some last →
      last.quantity.isFlag = true →
        ∃ widget level, s.screen.widget? device = some widget ∧
          (∀ style, ∃ trend, s.trend? device style = some trend ∧ trend.last? = some level) ∧
          (∀ on indicator, widget.display = .toggle on indicator →
            (on = true ↔ level.equals .zero = false)) ∧
          ∀ percent, widget.display = .slider percent →
            percent = percentOf level ∧
              ∀ n : Nat, n ≤ percent.toNat ↔
                n = 0 ∨
                  n < UInt32.size ∧ (Binary64.ofNat n).le (level * .ofNat 100) = true) ∧
    ∀ series ∈ s.history.series, ∃ widget, s.screen.widget? series.device = some widget := by
  intro s
  have keeps : Keeps config (recordsOf run) s := ingestEach_keeps config run
  refine ⟨?_, fun series kept => keeps.series_shown kept⟩
  intro device last ended flag
  have member := mem_of_mem_readingsOf (List.mem_of_getLast? ended)
  obtain ⟨level, raw, value⟩ := value_of_made (recordsOf_made run _ member) flag
  have sampled : last.value.sample? = some level := by rw [value]; rfl
  obtain ⟨widget, found, shows⟩ := keeps.shown ended
  obtain ⟨style, display⟩ := shows.display
  refine ⟨widget, level, found, keeps.last_sample ended sampled, ?_, ?_⟩
  · intro on indicator shown
    exact toggle_of_flag flag value style (display.symm.trans shown)
  · intro percent shown
    obtain rfl := slider_of_flag flag value style (display.symm.trans shown)
    exact ⟨rfl, le_percentOf_iff level⟩

/-- A hundred times the double nearest to 0.29 is less than 29. -/
example :
    let payload := "[\x7b\"uid\":\"a\",\"type\":\"2\",\"subt\":\"1\",\"value\":\"0.29\"\x7d]"
    let s := ((ofConfig {}).ingestEach [{ preferences := {}, payload }]).2
    (s.screen.widget? "a").map (·.display) = some (.slider 28) ∧
      (s.trend? "a" .line).map (·.samples) = some [.ofQuotient false 29 100] := by
  decide +kernel

end Session

end Dashboard
