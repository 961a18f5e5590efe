import Dashboard.Alarm.Board

/-!
# What every board keeps

`Received` lists what a report can do to a board. From it follows that reports and clears keep a
board well formed: one alarm per id, in ascending order of severity, and none that is over
(`run_wellFormed`).
-/

namespace Dashboard.Alarm

theorem locate?_none {id : String} {l : List Entry} (none : locate? id l = none) :
    ∀ e ∈ l, e.id ≠ id := by
  induction l with
  | nil => simp
  | cons e rest ih =>
    rw [locate?] at none
    split at none
    · cases none
    · next differs =>
      have absent := ih (Option.map_eq_none_iff.mp none)
      intro e' member
      rcases List.mem_cons.mp member with rfl | member
      · exact differs
      · exact absent e' member

theorem locate?_some {id : String} {l before after : List Entry} {found : Entry}
    (some : locate? id l = some (before, found, after)) :
    l = before ++ found :: after ∧ found.id = id ∧ ∀ e ∈ before, e.id ≠ id := by
  induction l generalizing before with
  | nil => cases some
  | cons e rest ih =>
    rw [locate?] at some
    split at some
    · next same => cases some; exact ⟨rfl, same, by simp⟩
    · next differs =>
      obtain ⟨⟨front, inner, back⟩, read, same⟩ := Option.map_eq_some_iff.mp some
      cases same
      obtain ⟨split, named, first⟩ := ih read
      refine ⟨by rw [split]; rfl, named, ?_⟩
      intro e' member
      rcases List.mem_cons.mp member with rfl | member
      · exact differs
      · exact first e' member

theorem Entry.report_update {e : Entry} {r : Report} (named : e.id = r.id) (revision : Nat) :
    (e.update r revision).report = r := by
  rw [report, update, named]

theorem isClear_iff {r : Report} : r.isClear = true ↔ r.severity = 0 :=
  decide_eq_true_iff

namespace Board

/-- What a report did to the board, and the board after it. -/
inductive Received (b : Board) (r : Report) : Outcome → Board → Prop where
  | ignored (absent : ∀ e ∈ b.entries, e.id ≠ r.id) (ended : r.isClear = true) :
      Received b r .ignored b
  | raised (absent : ∀ e ∈ b.entries, e.id ≠ r.id) (live : r.isClear = false) :
      Received b r (.raised (b.newEntry r))
        { b.settle (b.entries ++ [b.newEntry r]) with raised := b.raised + 1 }
  | cleared {before after : List Entry} {held : Entry}
      (split : b.entries = before ++ held :: after) (named : held.id = r.id)
      (first : ∀ e ∈ before, e.id ≠ r.id) (ended : r.isClear = true) :
      Received b r (.cleared held) (b.settle (before ++ after))
  | same {before after : List Entry} {held : Entry}
      (split : b.entries = before ++ held :: after) (named : held.id = r.id)
      (first : ∀ e ∈ before, e.id ≠ r.id) (live : r.isClear = false) (known : held.report = r) :
      Received b r .same b
  | updated {before after : List Entry} {held : Entry}
      (split : b.entries = before ++ held :: after) (named : held.id = r.id)
      (first : ∀ e ∈ before, e.id ≠ r.id) (live : r.isClear = false) (differs : held.report ≠ r) :
      Received b r (.updated held (held.update r b.changes))
        (b.settle (before ++ held.update r b.changes :: after))

theorem received (b : Board) (r : Report) : b.Received r (b.receive r).1 (b.receive r).2 := by
  unfold receive
  cases located : locate? r.id b.entries with
  | none =>
    have absent := locate?_none located
    cases clear : r.isClear with
    | true => exact .ignored absent clear
    | false => exact .raised absent clear
  | some parts =>
    obtain ⟨before, held, after⟩ := parts
    obtain ⟨split, named, first⟩ := locate?_some located
    cases clear : r.isClear with
    | true => exact .cleared split named first clear
    | false =>
      by_cases known : held.report = r
      · simpa [known] using Received.same split named first clear known
      · simpa [known] using Received.updated split named first clear known

/-! ### The invariant -/

/-- One alarm per id, in ascending order of severity, and none that is over. -/
structure WellFormed (b : Board) : Prop where
  unique : (b.entries.map (·.id)).Nodup
  ascending : Ascending b.entries
  live : ∀ e ∈ b.entries, e.severity ≠ 0

theorem initial_wellFormed : WellFormed {} :=
  ⟨List.nodup_nil, List.Pairwise.nil, by simp⟩

theorem mem_settle {b : Board} {l : List Entry} {e : Entry} :
    e ∈ (b.settle l).entries ↔ e ∈ l :=
  (sortBySeverity_perm l).mem_iff

/-- Sorting restores the order, whatever was done to the alarms. -/
theorem settle_wellFormed {b : Board} {l : List Entry} (unique : (l.map (·.id)).Nodup)
    (live : ∀ e ∈ l, e.severity ≠ 0) : (b.settle l).WellFormed where
  unique := ((sortBySeverity_perm l).map _).nodup_iff.mpr unique
  ascending := ascending_sortBySeverity l
  live := fun e member => live e (mem_settle.mp member)

theorem live_of_not_clear {r : Report} (live : r.isClear = false) : r.severity ≠ 0 := by
  intro zero
  rw [isClear_iff.mpr zero] at live
  cases live

theorem unique_append {l : List Entry} {new : Entry} (unique : (l.map (·.id)).Nodup)
    (absent : ∀ e ∈ l, e.id ≠ new.id) : ((l ++ [new]).map (·.id)).Nodup := by
  rw [List.map_append, List.nodup_append]
  refine ⟨unique, by simp, ?_⟩
  intro id member id' fresh
  obtain ⟨e, held, rfl⟩ := List.mem_map.mp member
  obtain rfl := List.mem_singleton.mp fresh
  exact absent e held

theorem unique_replace {before after : List Entry} {held new : Entry} (same : new.id = held.id)
    (unique : ((before ++ held :: after).map (·.id)).Nodup) :
    ((before ++ new :: after).map (·.id)).Nodup := by
  rw [List.map_append, List.map_cons] at unique ⊢
  rw [same]
  exact unique

theorem without_sublist (before after : List Entry) (held : Entry) :
    (before ++ after).Sublist (before ++ held :: after) :=
  (List.sublist_cons_self held after).append_left before

theorem receive_wellFormed {b : Board} (h : b.WellFormed) (r : Report) :
    (b.receive r).2.WellFormed := by
  have step := b.received r
  generalize (b.receive r).1 = outcome, (b.receive r).2 = next at step ⊢
  cases step with
  | ignored | same => exact h
  | raised absent live =>
    have settled : WellFormed (b.settle (b.entries ++ [b.newEntry r])) := by
      refine settle_wellFormed (unique_append h.unique absent) ?_
      intro e member
      rcases List.mem_append.mp member with member | member
      · exact h.live e member
      · obtain rfl := List.mem_singleton.mp member
        exact live_of_not_clear live
    exact ⟨settled.unique, settled.ascending, settled.live⟩
  | @cleared before after held split named first ended =>
    have kept := without_sublist before after held
    rw [← split] at kept
    exact settle_wellFormed (h.unique.sublist (kept.map _)) fun e member =>
      h.live e (kept.subset member)
  | @updated before after held split named first live differs =>
    have unique := h.unique
    have others := h.live
    rw [split] at unique others
    have same : (held.update r b.changes).id = held.id := rfl
    refine settle_wellFormed (unique_replace same unique) ?_
    intro e member
    rcases List.mem_append.mp member with member | member
    · exact others e (List.mem_append_left _ member)
    · rcases List.mem_cons.mp member with rfl | member
      · exact live_of_not_clear live
      · exact others e (List.mem_append_right _ (List.mem_cons_of_mem _ member))

/-! ### The alarms after a report -/

theorem mem_around {before after : List Entry} {middle e : Entry} :
    e ∈ before ++ middle :: after ↔ e = middle ∨ e ∈ before ++ after := by
  simp only [List.mem_append, List.mem_cons, or_left_comm]

/-- The alarms beside one are those with other ids. -/
theorem mem_beside {b : Board} (h : b.WellFormed) {before after : List Entry} {held e : Entry}
    (split : b.entries = before ++ held :: after) :
    e ∈ before ++ after ↔ e ∈ b.entries ∧ e.id ≠ held.id := by
  have unique := h.unique
  rw [split, List.map_append, List.map_cons, List.nodup_append, List.nodup_cons] at unique
  obtain ⟨_, ⟨behind, _⟩, apart⟩ := unique
  rw [split, mem_around]
  constructor
  · intro member
    refine ⟨.inr member, ?_⟩
    rcases List.mem_append.mp member with member | member
    · exact apart _ (List.mem_map_of_mem member) _ List.mem_cons_self
    · intro same
      exact behind (same ▸ List.mem_map_of_mem member)
  · rintro ⟨rfl | member, differs⟩
    · exact (differs rfl).elim
    · exact member

theorem mem_raised {b : Board} {new e : Entry} (absent : ∀ e ∈ b.entries, e.id ≠ new.id) :
    e ∈ (b.settle (b.entries ++ [new])).entries ↔ e = new ∨ e ∈ b.entries ∧ e.id ≠ new.id := by
  rw [mem_settle, mem_around, List.append_nil]
  exact or_congr_right ⟨fun member => ⟨member, absent e member⟩, And.left⟩

theorem mem_cleared {b : Board} (h : b.WellFormed) {before after : List Entry} {held e : Entry}
    (split : b.entries = before ++ held :: after) :
    e ∈ (b.settle (before ++ after)).entries ↔ e ∈ b.entries ∧ e.id ≠ held.id := by
  rw [mem_settle, mem_beside h split]

theorem mem_updated {b : Board} (h : b.WellFormed) {before after : List Entry} {held new e : Entry}
    (split : b.entries = before ++ held :: after) :
    e ∈ (b.settle (before ++ new :: after)).entries ↔
      e = new ∨ e ∈ b.entries ∧ e.id ≠ held.id := by
  rw [mem_settle, mem_around, mem_beside h split]

theorem length_settle (b : Board) (l : List Entry) : (b.settle l).entries.length = l.length :=
  (sortBySeverity_perm l).length_eq

theorem settle_entries_ne {b : Board} {l : List Entry} (differs : l.length ≠ b.entries.length) :
    (b.settle l).entries ≠ b.entries := by
  intro same
  apply differs
  rw [← same, length_settle]

/-- A report leaves the alarms as they are exactly when it repeats what is known, or ends what is not
live. -/
theorem receive_entries_eq_iff {b : Board} (h : b.WellFormed) (r : Report) :
    (b.receive r).2.entries = b.entries ↔
      (b.receive r).1 = .same ∨ (b.receive r).1 = .ignored := by
  have step := b.received r
  generalize (b.receive r).1 = outcome, (b.receive r).2 = next at step ⊢
  cases step with
  | ignored | same => simp
  | raised absent live =>
    have longer : (b.entries ++ [b.newEntry r]).length ≠ b.entries.length := by simp
    exact iff_of_false (settle_entries_ne longer) (by simp)
  | @cleared before after held split named first ended =>
    have shorter : (before ++ after).length ≠ b.entries.length := by simp [split]
    exact iff_of_false (settle_entries_ne shorter) (by simp)
  | @updated before after held split named first live differs =>
    refine iff_of_false ?_ (by simp)
    intro same
    have member : held ∈ (b.settle (before ++ held.update r b.changes :: after)).entries := by
      rw [same, split]
      exact mem_around.mpr (.inl rfl)
    rcases (mem_updated h split).mp member with stays | ⟨_, other⟩
    · exact differs ((congrArg Entry.report stays).trans (Entry.report_update named _))
    · exact other rfl

end Board

/-! ### Runs -/

inductive Call where
  | receive (r : Report)
  | clear

namespace Board

def step (b : Board) : Call → Board
  | .receive r => (b.receive r).2
  | .clear => b.clear

def run : Board → List Call → Board
  | b, [] => b
  | b, call :: rest => (b.step call).run rest

theorem clear_wellFormed (b : Board) : b.clear.WellFormed :=
  ⟨List.nodup_nil, List.Pairwise.nil, by simp [clear]⟩

theorem step_wellFormed {b : Board} (h : b.WellFormed) (call : Call) : (b.step call).WellFormed := by
  cases call with
  | receive r => exact receive_wellFormed h r
  | clear => exact clear_wellFormed b

theorem run_wellFormed {b : Board} (h : b.WellFormed) (calls : List Call) :
    (b.run calls).WellFormed := by
  induction calls generalizing b with
  | nil => exact h
  | cons call rest ih => exact ih (step_wellFormed h call)

/-- Whatever was reported to a new board and however often it was cleared, it holds one alarm per id,
in ascending order of severity, and none that is over. -/
theorem wellFormed_after_calls (calls : List Call) : (run {} calls).WellFormed :=
  run_wellFormed initial_wellFormed calls

end Board

end Dashboard.Alarm
