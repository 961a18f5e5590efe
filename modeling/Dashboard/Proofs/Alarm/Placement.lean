import Dashboard.Proofs.Alarm.Ties

/-!
# Where a report puts its alarm

A report does not touch the alarms with other ids (`others_receive`). Its own alarm comes to stand
behind those of its severity if it is new or has come down, in front of them if it has gone up, and
where it was if its severity is what it was (`receive_places`). Sorting decides this: an alarm that
was changed in place keeps those of its new severity on the side where they were (`exists_settled`).
-/

namespace Dashboard.Alarm

theorem filter_beside {p : Entry → Bool} {before after front back : List Entry} {new : Entry}
    (unique : (front ++ new :: back).Nodup) (kept : p new = true)
    (same : (front ++ new :: back).filter p = (before ++ new :: after).filter p) :
    front.filter p = before.filter p ∧ back.filter p = after.filter p := by
  obtain ⟨_, others, apart⟩ := List.nodup_append.mp unique
  have notFront : new ∉ front.filter p := fun found =>
    apart new (List.mem_filter.mp found).1 new List.mem_cons_self rfl
  have notBack : new ∉ back.filter p := fun found =>
    (List.nodup_cons.mp others).1 (List.mem_filter.mp found).1
  rw [List.filter_append, List.filter_append, List.filter_cons_of_pos kept,
    List.filter_cons_of_pos kept] at same
  obtain ⟨fronts, -, backs⟩ := (List.append_cons_inj_of_notMem notFront notBack).mp same
  exact ⟨fronts, backs⟩

theorem ascending_replace {before after : List Entry} {held new : Entry}
    (level : held.severity = new.severity) (h : Ascending (before ++ held :: after)) :
    Ascending (before ++ new :: after) := by
  have severities : (before ++ new :: after).map (·.severity) =
      (before ++ held :: after).map (·.severity) := by simp [level]
  exact List.pairwise_map.mp (severities ▸ List.pairwise_map.mpr h)

namespace Board

def others (b : Board) (id : String) : List Entry :=
  b.entries.filter (·.id ≠ id)

theorem others_of_absent {b : Board} {id : String} (absent : ∀ e ∈ b.entries, e.id ≠ id) :
    b.others id = b.entries :=
  List.filter_eq_self.mpr fun e member => decide_eq_true (absent e member)

theorem others_of_split {b : Board} (h : b.WellFormed) {before after : List Entry} {held : Entry}
    (split : b.entries = before ++ held :: after) : b.others held.id = before ++ after := by
  have apart : (before ++ after).filter (·.id ≠ held.id) = before ++ after := by
    refine List.filter_eq_self.mpr ?_
    intro e member
    exact decide_eq_true ((mem_beside h split).mp member).2
  rw [others, split, List.filter_append, List.filter_cons_of_neg (by simp), ← List.filter_append,
    apart]

theorem others_settle {b : Board} (h : b.WellFormed) {l : List Entry} {id : String}
    (same : l.filter (·.id ≠ id) = b.others id) : (b.settle l).others id = b.others id := by
  change (sortBySeverity l).filter (·.id ≠ id) = _
  rw [← sortBySeverity_filter, same]
  exact sortBySeverity_of_ascending (h.ascending.filter _)

theorem others_receive {b : Board} (h : b.WellFormed) (r : Report) :
    (b.receive r).2.others r.id = b.others r.id := by
  have step := b.received r
  generalize (b.receive r).1 = outcome, (b.receive r).2 = next at step ⊢
  cases step with
  | ignored | same => rfl
  | raised absent live =>
    have same : (b.entries ++ [b.newEntry r]).filter (·.id ≠ r.id) = b.others r.id := by
      simp [others, newEntry]
    exact others_settle h same
  | cleared split named first ended =>
    refine others_settle h ?_
    simp [others, split, named]
  | updated split named first live differs =>
    refine others_settle h ?_
    simp [others, split, named, Entry.update]

theorem ended_receive {b : Board} (h : b.WellFormed) {r : Report} (ended : r.severity = 0) :
    ∀ e ∈ (b.receive r).2.entries, e.id ≠ r.id := by
  have clear : r.isClear = true := isClear_iff.mpr ended
  have step := b.received r
  generalize (b.receive r).1 = outcome, (b.receive r).2 = next at step ⊢
  cases step with
  | ignored absent => exact absent
  | cleared split named =>
    intro e member
    exact named ▸ ((mem_cleared h split).mp member).2
  | raised _ live | same _ _ _ live | updated _ _ _ live => exact absurd clear (by simp [live])

/-- Put in order, an alarm has those of its severity on the side where it had them before. -/
theorem exists_settled (b : Board) {before after : List Entry} {new : Entry}
    (unique : ((before ++ new :: after).map (·.id)).Nodup) :
    ∃ front back, (b.settle (before ++ new :: after)).entries = front ++ new :: back ∧
      (∀ e ∈ front, e.severity ≤ new.severity ∧ (e.severity = new.severity → e ∈ before)) ∧
      ∀ e ∈ back, new.severity ≤ e.severity ∧ (e.severity = new.severity → e ∈ after) := by
  have perm : (b.settle (before ++ new :: after)).entries.Perm _ := sortBySeverity_perm _
  have member : new ∈ (b.settle (before ++ new :: after)).entries :=
    perm.mem_iff.mpr (mem_around.mpr (.inl rfl))
  obtain ⟨front, back, split⟩ := List.append_of_mem member
  have sorted : Ascending (front ++ new :: back) := split ▸ ascending_sortBySeverity _
  obtain ⟨_, behind, ordered⟩ := List.pairwise_append.mp sorted
  have distinct : (front ++ new :: back).Nodup :=
    (split ▸ perm).nodup_iff.mpr (List.Nodup.of_map _ unique)
  have ties : (front ++ new :: back).filter (·.severity = new.severity) =
      (before ++ new :: after).filter (·.severity = new.severity) := by
    rw [← split]
    exact filter_sortBySeverity _ _
  obtain ⟨fronts, backs⟩ := filter_beside distinct (by simp) ties
  refine ⟨front, back, split, ?_, ?_⟩
  · intro e he
    refine ⟨ordered e he new List.mem_cons_self, fun tie => ?_⟩
    have found : e ∈ before.filter (·.severity = new.severity) :=
      fronts ▸ List.mem_filter.mpr ⟨he, decide_eq_true tie⟩
    exact (List.mem_filter.mp found).1
  · intro e he
    refine ⟨(List.pairwise_cons.mp behind).1 e he, fun tie => ?_⟩
    have found : e ∈ after.filter (·.severity = new.severity) :=
      backs ▸ List.mem_filter.mpr ⟨he, decide_eq_true tie⟩
    exact (List.mem_filter.mp found).1

/-- Where a live alarm stands after a report on it, between the alarms `front` and `back`. -/
inductive Placed (b : Board) (r : Report) (front back : List Entry) : Prop where
  | raised (absent : b.find? r.id = none) (passed : ∀ e ∈ front, e.severity ≤ r.severity)
      (above : ∀ e ∈ back, r.severity < e.severity)
  | lowered {held : Entry} (found : b.find? r.id = some held) (down : r.severity < held.severity)
      (passed : ∀ e ∈ front, e.severity ≤ r.severity) (above : ∀ e ∈ back, r.severity < e.severity)
  | increased {held : Entry} (found : b.find? r.id = some held) (up : held.severity < r.severity)
      (passed : ∀ e ∈ front, e.severity < r.severity) (above : ∀ e ∈ back, r.severity ≤ e.severity)
  | kept {held : Entry} (found : b.find? r.id = some held) (level : held.severity = r.severity)
      (place : b.entries = front ++ held :: back)

/-- With only higher ones behind it, an alarm is put behind all that it ties with. -/
theorem settled_last (b : Board) {before after : List Entry} {new : Entry}
    (unique : ((before ++ new :: after).map (·.id)).Nodup)
    (higher : ∀ e ∈ after, new.severity < e.severity) :
    ∃ front back, (b.settle (before ++ new :: after)).entries = front ++ new :: back ∧
      (∀ e ∈ front, e.severity ≤ new.severity) ∧ ∀ e ∈ back, new.severity < e.severity := by
  obtain ⟨front, back, split, fronts, backs⟩ := exists_settled b unique
  refine ⟨front, back, split, fun e he => (fronts e he).1, ?_⟩
  intro e he
  obtain ⟨le, ties⟩ := backs e he
  refine Int32.lt_of_le_of_ne le ?_
  intro tie
  have above := higher e (ties tie.symm)
  exact Int32.lt_irrefl (tie ▸ above)

/-- With only lower ones in front of it, an alarm is put in front of all that it ties with. -/
theorem settled_first (b : Board) {before after : List Entry} {new : Entry}
    (unique : ((before ++ new :: after).map (·.id)).Nodup)
    (lower : ∀ e ∈ before, e.severity < new.severity) :
    ∃ front back, (b.settle (before ++ new :: after)).entries = front ++ new :: back ∧
      (∀ e ∈ front, e.severity < new.severity) ∧ ∀ e ∈ back, new.severity ≤ e.severity := by
  obtain ⟨front, back, split, fronts, backs⟩ := exists_settled b unique
  refine ⟨front, back, split, ?_, fun e he => (backs e he).1⟩
  intro e he
  obtain ⟨le, ties⟩ := fronts e he
  refine Int32.lt_of_le_of_ne le ?_
  intro tie
  have below := lower e (ties tie)
  exact Int32.lt_irrefl (tie ▸ below)

theorem placed_update {b : Board} (h : b.WellFormed) {r : Report} {before after : List Entry}
    {held new : Entry} (split : b.entries = before ++ held :: after) (named : held.id = r.id)
    (now : new.report = r) :
    ∃ front back, (b.settle (before ++ new :: after)).entries = front ++ new :: back ∧
      Placed b r front back := by
  have found : b.find? r.id = some held := named ▸ (index_find? h).held split
  have level : new.severity = r.severity := congrArg Report.severity now
  have unique : ((before ++ new :: after).map (·.id)).Nodup :=
    unique_replace ((congrArg Report.id now).trans named.symm) (split ▸ h.unique)
  have ascending : Ascending (before ++ held :: after) := split ▸ h.ascending
  obtain ⟨_, behind, ordered⟩ := List.pairwise_append.mp ascending
  have higher : ∀ e ∈ after, held.severity ≤ e.severity := (List.pairwise_cons.mp behind).1
  have lower : ∀ e ∈ before, e.severity ≤ held.severity := fun e he =>
    ordered e he held List.mem_cons_self
  by_cases same : held.severity = r.severity
  · refine ⟨before, after, ?_, .kept found same split⟩
    exact sortBySeverity_of_ascending (ascending_replace (same.trans level.symm) ascending)
  by_cases down : r.severity < held.severity
  · obtain ⟨front, back, place, passed, above⟩ := settled_last b unique fun e he =>
      Int32.lt_of_lt_of_le (level ▸ down) (higher e he)
    exact ⟨front, back, place, .lowered found down (level ▸ passed) (level ▸ above)⟩
  · have up : held.severity < r.severity := Int32.lt_of_le_of_ne (Int32.not_lt.mp down) same
    obtain ⟨front, back, place, passed, above⟩ := settled_first b unique fun e he =>
      Int32.lt_of_le_of_lt (lower e he) (level ▸ up)
    exact ⟨front, back, place, .increased found up (level ▸ passed) (level ▸ above)⟩

theorem receive_placed {b : Board} (h : b.WellFormed) {r : Report} (live : r.severity ≠ 0) :
    ∃ front new back, (b.receive r).2.entries = front ++ new :: back ∧ new.report = r ∧
      Placed b r front back := by
  have step := b.received r
  generalize (b.receive r).1 = outcome, (b.receive r).2 = next at step ⊢
  cases step with
  | ignored absent ended | cleared split named first ended =>
    exact absurd (isClear_iff.mp ended) live
  | raised absent _ =>
    have unique : ((b.entries ++ [b.newEntry r]).map (·.id)).Nodup := unique_append h.unique absent
    obtain ⟨front, back, place, passed, above⟩ := settled_last b unique (by simp)
    exact ⟨front, _, back, place, rfl, .raised ((index_find? h).absent absent) passed above⟩
  | same split named first _ known =>
    have found := named ▸ (index_find? h).held split
    exact ⟨_, _, _, split, known, .kept found (congrArg Report.severity known) split⟩
  | updated split named first _ differs =>
    have now := Entry.report_update named b.changes
    obtain ⟨front, back, place, placed⟩ := placed_update h split named now
    exact ⟨front, _, back, place, now, placed⟩

/-- A report to a board that was new leaves the alarms with other ids as they are and in their
order. If it ends its alarm, those are all that is left. Otherwise that alarm stands among them: if
it is new or has come down, behind all others up to its severity and in front of the higher ones; if
it has gone up, behind the lower ones and in front of all others; and where it was, if its severity
is what it was. -/
theorem receive_places (calls : List Call) (r : Report) :
    let b := run {} calls
    let next := (b.receive r).2
    next.others r.id = b.others r.id ∧
    (r.severity = 0 → next.entries = b.others r.id) ∧
    (r.severity ≠ 0 → ∃ front new back, next.entries = front ++ new :: back ∧
      front ++ back = b.others r.id ∧ new.report = r ∧ Placed b r front back) := by
  intro b next
  have h : b.WellFormed := wellFormed_after_calls calls
  have others : next.others r.id = b.others r.id := others_receive h r
  refine ⟨others, ?_, ?_⟩
  · intro ended
    rw [← others, others_of_absent (ended_receive h ended)]
  · intro live
    obtain ⟨front, new, back, split, now, placed⟩ := receive_placed h live
    have named : new.id = r.id := congrArg Report.id now
    refine ⟨front, new, back, split, ?_, now, placed⟩
    rw [← others, ← named, others_of_split (receive_wellFormed h r) split]

/-- The alarm `x` comes to severity 2 from above, and from below. -/
example :
    let report (id : String) (severity : Int32) : Call :=
      .receive { id, severity, channels := .single 0, text := "" }
    let order (severity : Int32) :=
      (run {} [report "a" 2, report "b" 2, report "x" severity, report "x" 2]).entries.map (·.id)
    order 3 = ["a", "b", "x"] ∧ order 1 = ["x", "a", "b"] := by
  decide

end Board

end Dashboard.Alarm
