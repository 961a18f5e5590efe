import Mathlib.Data.List.Forall2
import Dashboard.Proofs.Intake.Applied

/-!
# What the style of figures reaches

Two viewers may see figures in different styles. Their displays are `Alike`: the same up to the text
of a figure. Nothing else in a session depends on the style, so runs of the same payloads in
different styles stay alike (`styles_reach_only_figures`).
-/

namespace Dashboard

open Numeric

/-- The displays differ at most in the text of a figure. -/
inductive Display.Alike : Display → Display → Prop where
  | toggle (on : Bool) (indicator : Option Bool) :
      Alike (.toggle on indicator) (.toggle on indicator)
  | slider (percent : UInt32) : Alike (.slider percent) (.slider percent)
  | figure (text text' : String) (unit : UnitSign) : Alike (.figure text unit) (.figure text' unit)

/-- The changes tell of displays that are alike, or they are the same change to an alarm. A reading
may be new to one viewer and not to the other. -/
inductive Change.Alike : Change → Change → Prop where
  | reading (device : String) {display display' : Display} (alike : display.Alike display')
      (changed changed' : Bool) :
      Alike (.reading device display changed) (.reading device display' changed')
  | alarm {change : Change} (alarm : change.isAlarm = true) : Alike change change

inductive Payload.Alike :
    Except Payload.Fault (List Change) → Except Payload.Fault (List Change) → Prop where
  | refused (fault : Payload.Fault) : Alike (.error fault) (.error fault)
  | applied {changes changes' : List Change} (told : List.Forall₂ Change.Alike changes changes') :
      Alike (.ok changes) (.ok changes')

structure Widget.Alike (w w' : Widget) : Prop where
  kind : w.kind = w'.kind
  quantity : w.quantity = w'.quantity
  display : w.display.Alike w'.display

structure Screen.Alike (s s' : Screen) : Prop where
  devices : s.devices = s'.devices
  widgets : ∀ device, Option.Rel Widget.Alike (s.widget? device) (s'.widget? device)

structure Session.Alike (s s' : Session) : Prop where
  board : s.board = s'.board
  history : s.history = s'.history
  screen : s.screen.Alike s'.screen

theorem Display.ofReading_alike (r : Reading) (style style' : Figure.Style) :
    (Display.ofReading r style).Alike (Display.ofReading r style') := by
  unfold Display.ofReading
  split
  · exact .toggle _ _
  · exact .toggle _ _
  · exact .slider _
  · exact .figure _ _ _

theorem Screen.store_alike {s s' : Screen} (h : s.Alike s') (r : Reading)
    {display display' : Display} (alike : display.Alike display') :
    (s.store r display).2.Alike (s'.store r display').2 := by
  constructor
  · have keys : s.widgets.keys = s'.widgets.keys := h.devices
    simp only [store, devices, Table.keys_put, keys]
  · intro device
    rw [widget?_store, widget?_store]
    split
    · exact .some ⟨rfl, rfl, alike⟩
    · exact h.widgets device

theorem Change.ofOutcome?_isAlarm {outcome : Alarm.Outcome} {change : Change}
    (told : Change.ofOutcome? outcome = some change) : change.isAlarm = true := by
  cases outcome <;> cases told <;> rfl

namespace Session

theorem apply_alike {s s' : Session} (h : s.Alike s') (prefs prefs' : Preferences)
    (record : Record) :
    List.Forall₂ Change.Alike (s.apply prefs record).1.toList (s'.apply prefs' record).1.toList ∧
      (s.apply prefs record).2.Alike (s'.apply prefs' record).2 := by
  obtain ⟨board, history, screen⟩ := h
  cases record with
  | reading r =>
    -- Whether the display is new depends on the old one, so the flags may differ.
    have alike := Display.ofReading_alike r (s.style prefs) (s'.style prefs')
    refine ⟨.cons (.reading r.device alike _ _) .nil, board, ?_, Screen.store_alike screen r alike⟩
    exact congrArg (keepSample · r) history
  | alarm r =>
    have same : s.board.receive r = s'.board.receive r := by rw [board]
    refine ⟨?_, congrArg Prod.snd same, history, screen⟩
    change List.Forall₂ _ (Change.ofOutcome? (s.board.receive r).1).toList
      (Change.ofOutcome? (s'.board.receive r).1).toList
    rw [← same]
    cases told : Change.ofOutcome? (s.board.receive r).1 with
    | none => exact .nil
    | some change => exact .cons (.alarm (Change.ofOutcome?_isAlarm told)) .nil

/-! ### Payloads -/

theorem applyAll_alike {s s' : Session} (h : s.Alike s') (prefs prefs' : Preferences)
    (rs : List Record) :
    List.Forall₂ Change.Alike (s.applyAll prefs rs).changes (s'.applyAll prefs' rs).changes ∧
      (s.applyAll prefs rs).session.Alike (s'.applyAll prefs' rs).session := by
  induction rs generalizing s s' with
  | nil => exact ⟨.nil, h⟩
  | cons record rest ih =>
    obtain ⟨first, after⟩ := apply_alike h prefs prefs' record
    obtain ⟨others, last⟩ := ih after
    exact ⟨List.rel_append first others, last⟩

theorem ingest_alike {s s' : Session} (h : s.Alike s') (prefs prefs' : Preferences)
    (payload : String) :
    Payload.Alike ((s.ingest prefs payload).map Frame.changes)
        ((s'.ingest prefs' payload).map Frame.changes) ∧
      (s.after prefs payload).Alike (s'.after prefs' payload) := by
  rw [after, after, ingest, ingest]
  cases Payload.decode payload with
  | error fault => exact ⟨.refused fault, h⟩
  | ok rs =>
    obtain ⟨told, last⟩ := applyAll_alike h prefs prefs' rs
    exact ⟨.applied told, last⟩

/-- Ingests payloads one after the other, each with preferences of its own, and tells what became of
each. -/
def ingestEach (s : Session) : List Delivery → List (Except Payload.Fault (List Change)) × Session
  | [] => ([], s)
  | d :: rest =>
    let first := s.ingest d.preferences d.payload
    let others := (s.after d.preferences d.payload).ingestEach rest
    (first.map Frame.changes :: others.1, others.2)

theorem ingestEach_alike {s s' : Session} (h : s.Alike s') {run run' : List Delivery}
    (same : run.map (·.payload) = run'.map (·.payload)) :
    List.Forall₂ Payload.Alike (s.ingestEach run).1 (s'.ingestEach run').1 ∧
      (s.ingestEach run).2.Alike (s'.ingestEach run').2 := by
  induction run generalizing s s' run' with
  | nil =>
    obtain rfl := List.map_eq_nil_iff.mp same.symm
    exact ⟨.nil, h⟩
  | cons d rest ih =>
    obtain ⟨d', rest', rfl, payload, others⟩ := List.map_eq_cons_iff.mp same.symm
    obtain ⟨first, after⟩ := ingest_alike h d.preferences d'.preferences d.payload
    obtain ⟨told, last⟩ := ih after others.symm
    rw [ingestEach, ingestEach, payload]
    exact ⟨.cons first told, last⟩

theorem ofConfig_alike (config : Config) (largeAbove : Binary64) :
    (ofConfig config).Alike (ofConfig (config.withLargeAbove largeAbove)) :=
  ⟨rfl, rfl, rfl, fun _ => .none⟩

/-- Two new sessions are configured alike but for the number above which figures are large, and are
given the same payloads with preferences that may differ at each. They refuse the same payloads for
the same faults, tell the same changes up to the texts of figures and whether a display is new, and
end with the same alarms, the same samples and widgets of the same devices, with the same kinds and
quantities, that differ at most in the texts of figures. -/
theorem styles_reach_only_figures (config : Config) (largeAbove : Binary64)
    {run run' : List Delivery} (same : run.map (·.payload) = run'.map (·.payload)) :
    let a := (ofConfig config).ingestEach run
    let b := (ofConfig (config.withLargeAbove largeAbove)).ingestEach run'
    List.Forall₂ Payload.Alike a.1 b.1 ∧
    a.2.board = b.2.board ∧
    a.2.history = b.2.history ∧
    a.2.screen.devices = b.2.screen.devices ∧
    ∀ device, Option.Rel Widget.Alike (a.2.screen.widget? device) (b.2.screen.widget? device) := by
  intro a b
  obtain ⟨told, alike⟩ := ingestEach_alike (ofConfig_alike config largeAbove) same
  exact ⟨told, alike.board, alike.history, alike.screen.devices, alike.screen.widgets⟩

/-- One viewer sees figures as they are received and the other sees them abbreviated. -/
theorem styles_reach_only_figures_two_viewers :
    let payload := "[\x7b\"uid\":\"a\",\"subt\":\"3\",\"value\":\"1234.5\"\x7d]"
    let plain : List Delivery := [{ preferences := {}, payload }]
    let short : List Delivery := [{ preferences := { abbreviate := true }, payload }]
    let a := (ofConfig {}).ingestEach plain
    let b := (ofConfig (({} : Config).withLargeAbove .one)).ingestEach short
    plain.map (·.payload) = short.map (·.payload) ∧
    List.Forall₂ Payload.Alike a.1 b.1 ∧ a.2.board = b.2.board ∧ a.2.history = b.2.history ∧
    Option.Rel Widget.Alike (a.2.screen.widget? "a") (b.2.screen.widget? "a") := by
  intro payload plain short a b
  have same : plain.map (·.payload) = short.map (·.payload) := rfl
  obtain ⟨told, board, history, _, widgets⟩ := styles_reach_only_figures {} .one same
  exact ⟨same, told, board, history, widgets "a"⟩

example :
    let payload := "[\x7b\"uid\":\"a\",\"subt\":\"3\",\"value\":\"1234.5\"\x7d]"
    let shown (preferences : Preferences) :=
      ((ofConfig {}).ingestEach [{ preferences, payload }]).2.screen.text? "a"
    shown {} = some "1234.5\u00b0" ∧ shown { abbreviate := true } = some "1.23k\u00b0" := by
  decide +kernel

end Session

end Dashboard
