import Mathlib.Data.List.Forall2
import Dashboard.Alarm.Panel
import Dashboard.Proofs.Alarm.Placement

/-!
# What a panel shows of the board

A panel shows the first of the alarms that match it, each in a slot of its own, and so the lowest
ones (`slots_show_lowest`). An alarm that does not match could as well not be there
(`slots_eq_fill_others`), so reports on it leave the panel as it is (`slots_undisturbed`).
-/

namespace Dashboard.Alarm

/-- The slot shows the alarm, and of its text the first characters, up to the given width. -/
def Slot.Presents (width : Nat) (slot : Slot) (e : Entry) : Prop :=
  ∃ text, slot = .active e.id e.severity e.channels text ∧ text.toList = e.text.toList.take width

namespace Panel

/-- The severity is in the panel's range, and the alarm and the mask have a channel in common. -/
def Matches (p : Panel) (e : Entry) : Prop :=
  p.minSeverity ≤ e.severity ∧ e.severity ≤ p.maxSeverity ∧ ∃ n, e.channels.has n ∧ p.mask.has n

theorem shows_iff {p : Panel} {e : Entry} : p.shows e = true ↔ p.Matches e := by
  simp [shows, Matches, Channels.meets_iff, and_assoc]

instance (p : Panel) : DecidablePred p.Matches :=
  fun _ => decidable_of_iff _ shows_iff

/-- These alarms of a list are the ones that the slots of the panel show. -/
structure Filled (p : Panel) (entries shown : List Entry) (slots : List Slot) : Prop where
  count : shown.length = min p.slotCount (entries.countP (p.Matches ·))
  matching : ∀ e ∈ shown, p.Matches e
  inOrder : shown.Sublist entries
  rows : List.Forall₂ (Slot.Presents p.textWidth) (slots.take shown.length) shown
  rest : slots.drop shown.length = List.replicate (p.slotCount - shown.length) .empty
  lowest : ∀ e ∈ entries, p.Matches e → e ∉ shown → ∀ f ∈ shown, f.severity ≤ e.severity

theorem slot_presents (p : Panel) (e : Entry) : (p.slot e).Presents p.textWidth e :=
  ⟨_, rfl, String.toList_ofList⟩

theorem fill_filled (p : Panel) {entries : List Entry} (ascending : Ascending entries) :
    p.Filled entries ((entries.filter p.shows).take p.slotCount) (p.fill entries) := by
  have bools : p.shows = fun e => decide (p.Matches e) := by
    funext e
    rw [Bool.eq_iff_iff, decide_eq_true_iff, shows_iff]
  have parted : Ascending ((entries.filter p.shows).take p.slotCount ++
      (entries.filter p.shows).drop p.slotCount) := by
    rw [List.take_append_drop]
    exact ascending.filter _
  obtain ⟨_, _, ordered⟩ := List.pairwise_append.mp parted
  have front : ((entries.filter p.shows).take p.slotCount).Sublist (entries.filter p.shows) :=
    List.take_sublist ..
  constructor
  case count => rw [List.length_take, List.countP_eq_length_filter, bools]
  case matching =>
    intro e he
    exact shows_iff.mp (List.mem_filter.mp (front.subset he)).2
  case inOrder => exact front.trans List.filter_sublist
  case rows =>
    rw [fill, List.take_left' (List.length_map _), List.forall₂_map_left_iff, List.forall₂_same]
    exact fun e _ => p.slot_presents e
  case rest => rw [fill, List.drop_left' (List.length_map _), List.length_map]
  case lowest =>
    intro e he fits out f hf
    have kept : e ∈ entries.filter p.shows := List.mem_filter.mpr ⟨he, shows_iff.mpr fits⟩
    rw [← List.take_append_drop p.slotCount (entries.filter p.shows)] at kept
    exact ordered f hf e ((List.mem_append.mp kept).resolve_left out)

end Panel

namespace Board

/-- Whatever was reported to a board that was new, a panel has as many slots as it was given. The
first ones show alarms that match, no two the same, in the order of the board and so in ascending
order of severity: all that match, if there are slots enough. The others are empty. No alarm that
matches and is left out is lower than one that is shown. -/
theorem slots_show_lowest (calls : List Call) (p : Panel) :
    let b := run {} calls
    (b.slots p).length = p.slotCount ∧
    ∃ shown, p.Filled b.entries shown (b.slots p) ∧ (shown.map (·.id)).Nodup ∧ Ascending shown := by
  intro b
  have h : b.WellFormed := wellFormed_after_calls calls
  have filled := p.fill_filled h.ascending
  refine ⟨p.length_fill b.entries, _, filled, ?_, ?_⟩
  · exact h.unique.sublist (filled.inOrder.map _)
  · exact h.ascending.sublist filled.inOrder

example :
    let report (id : String) (severity : Int32) : Call :=
      .receive { id, severity, channels := .single 0, text := "température" }
    (run {} [report "a" 7, report "b" 3, report "c" 1]).slots
        { minSeverity := 2, slotCount := 3, textWidth := 5 } =
      [.active "b" 3 (.single 0) "tempé", .active "a" 7 (.single 0) "tempé", .empty] := by
  decide

theorem slots_eq_fill_others {b : Board} (h : b.WellFormed) {p : Panel} {id : String}
    (unseen : ∀ e ∈ b.find? id, ¬p.Matches e) : b.slots p = p.fill (b.others id) := by
  have same : (b.others id).filter p.shows = b.entries.filter p.shows := by
    rw [others, List.filter_filter]
    refine List.filter_congr ?_
    intro e member
    have apart : p.shows e = true → e.id ≠ id := fun shown named =>
      unseen e ((index_find? h id e).mpr ⟨member, named⟩) (Panel.shows_iff.mp shown)
    cases shown : p.shows e with
    | false => rfl
    | true => simpa using apart shown
  rw [slots, Panel.fill, Panel.fill, same]

/-- A report to a board that was new leaves every slot of a panel as it is, if its alarm matches the
panel neither as it was before nor as it is after. -/
theorem slots_undisturbed (calls : List Call) (p : Panel) (r : Report)
    (before : ∀ e ∈ (run {} calls).find? r.id, ¬p.Matches e)
    (after : ∀ e ∈ ((run {} calls).receive r).2.find? r.id, ¬p.Matches e) :
    ((run {} calls).receive r).2.slots p = (run {} calls).slots p := by
  have h := wellFormed_after_calls calls
  rw [slots_eq_fill_others h before, slots_eq_fill_others (receive_wellFormed h r) after,
    others_receive h r]

/-- An alarm passes the two that are shown on its way from below the panel's range to above it. -/
theorem slots_undisturbed_passing_alarm :
    let report (id : String) (severity : Int32) : Report :=
      { id, severity, channels := .single 0, text := "" }
    let calls := [Call.receive (report "a" 2), .receive (report "b" 5), .receive (report "c" 6)]
    let p : Panel := { minSeverity := 4, maxSeverity := 7, slotCount := 3 }
    let next := ((run {} calls).receive (report "a" 9)).2
    (∀ e ∈ (run {} calls).find? "a", ¬p.Matches e) ∧ (∀ e ∈ next.find? "a", ¬p.Matches e) ∧
    next.slots p = (run {} calls).slots p := by
  intro report calls p next
  have before : ∀ e ∈ (run {} calls).find? "a", ¬p.Matches e := by decide
  have after : ∀ e ∈ next.find? "a", ¬p.Matches e := by decide
  exact ⟨before, after, slots_undisturbed calls p (report "a" 9) before after⟩

end Board

end Dashboard.Alarm
