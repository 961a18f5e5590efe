import Dashboard.Proofs.Alarm.Placement

/-!
# Reports on different alarms commute

What a report does has nothing to do with any other alarm: it does the same on a board where that
alarm is missing (`receive_without`). So two reports on different alarms, in either order, leave
boards that agree where either of the alarms is left out, and that can differ only in the order of
the two, where they stand side by side (`eq_or_swapped`). Times are left out of account.
-/

namespace Dashboard.Alarm

/-- The outcomes are the same but for the times of their alarms. -/
inductive Outcome.Alike : Outcome → Outcome → Prop where
  | raised {e e' : Entry} (now : e.report = e'.report) : Alike (.raised e) (.raised e')
  | updated {old old' new new' : Entry} (before : old.report = old'.report)
      (now : new.report = new'.report) : Alike (.updated old new) (.updated old' new')
  | cleared {e e' : Entry} (before : e.report = e'.report) : Alike (.cleared e) (.cleared e')
  | same : Alike .same .same
  | ignored : Alike .ignored .ignored

theorem map_report_insertBySeverity {e e' : Entry} {l l' : List Entry}
    (same : e.report = e'.report) (alike : l.map Entry.report = l'.map Entry.report) :
    (insertBySeverity e l).map Entry.report = (insertBySeverity e' l').map Entry.report := by
  induction l generalizing l' with
  | nil =>
    obtain rfl := List.map_eq_nil_iff.mp alike.symm
    simp [insertBySeverity, same]
  | cons f l ih =>
    obtain ⟨f', l', rfl, front, behind⟩ := List.map_eq_cons_iff.mp alike.symm
    have mine : e.severity = e'.severity := congrArg Report.severity same
    have other : f'.severity = f.severity := congrArg Report.severity front
    rw [insertBySeverity, insertBySeverity, mine, other]
    split
    · simp [same, front, behind]
    · simp [front, ih behind.symm]

theorem map_report_sortBySeverity {l l' : List Entry}
    (alike : l.map Entry.report = l'.map Entry.report) :
    (sortBySeverity l).map Entry.report = (sortBySeverity l').map Entry.report := by
  induction l generalizing l' with
  | nil =>
    obtain rfl := List.map_eq_nil_iff.mp alike.symm
    rfl
  | cons e l ih =>
    obtain ⟨e', l', rfl, front, behind⟩ := List.map_eq_cons_iff.mp alike.symm
    exact map_report_insertBySeverity front.symm (ih behind.symm)

namespace Board

/-- What the board holds of its alarms, in order and without their times. -/
def reports (b : Board) : List Report :=
  b.entries.map Entry.report

theorem receive_alike {a b : Board} (same : a.entries = b.entries) (r : Report) :
    (a.receive r).1.Alike (b.receive r).1 ∧ (a.receive r).2.reports = (b.receive r).2.reports := by
  have unchanged : a.reports = b.reports := congrArg (List.map Entry.report) same
  unfold receive
  rw [same]
  cases locate? r.id b.entries with
  | none =>
    cases r.isClear with
    | true => exact ⟨.ignored, unchanged⟩
    | false => exact ⟨.raised rfl, map_report_sortBySeverity (by simp [newEntry, Entry.report])⟩
  | some parts =>
    obtain ⟨before, held, after⟩ := parts
    cases r.isClear with
    | true => exact ⟨.cleared rfl, rfl⟩
    | false =>
      by_cases known : held.report = r
      · simpa [known] using ⟨Outcome.Alike.same, unchanged⟩
      · simp only [Bool.false_eq_true, if_false, known]
        exact ⟨.updated rfl rfl, map_report_sortBySeverity (by simp [Entry.update, Entry.report])⟩

def without (b : Board) (id : String) : Board :=
  { b with entries := b.others id }

theorem settle_without (b : Board) (l : List Entry) (id : String) :
    (b.without id).settle (l.filter (·.id ≠ id)) = (b.settle l).without id := by
  simp only [settle, without, others, sortBySeverity_filter]

theorem settle_without_around (b : Board) (before after : List Entry) {e : Entry} {id : String}
    (kept : e.id ≠ id) :
    (b.without id).settle (before.filter (·.id ≠ id) ++ e :: after.filter (·.id ≠ id)) =
      (b.settle (before ++ e :: after)).without id := by
  rw [← settle_without, List.filter_append, List.filter_cons_of_pos (by simpa using kept)]

end Board

theorem locate?_filter {id x : String} (differs : id ≠ x) (l : List Entry) :
    locate? id (l.filter (·.id ≠ x)) = (locate? id l).map fun (before, found, after) =>
      (before.filter (·.id ≠ x), found, after.filter (·.id ≠ x)) := by
  induction l with
  | nil => rfl
  | cons e rest ih =>
    by_cases gone : e.id = x
    · have apart : e.id ≠ id := fun same => differs (same.symm.trans gone)
      rw [List.filter_cons_of_neg (by simpa using gone), ih, locate?, if_neg apart, Option.map_map]
      simp [Function.comp_def, gone]
    · rw [List.filter_cons_of_pos (by simpa using gone), locate?, locate?, ih]
      split
      · simp
      · simp [Option.map_map, Function.comp_def, gone]

namespace Board

/-- A report does on a board without another alarm what it does on the board with it. -/
theorem receive_without (b : Board) {r : Report} {id : String} (differs : r.id ≠ id) :
    (b.without id).receive r = ((b.receive r).1, (b.receive r).2.without id) := by
  have located : locate? r.id (b.without id).entries = _ := locate?_filter differs b.entries
  unfold receive
  rw [located]
  cases found : locate? r.id b.entries with
  | none =>
    cases r.isClear with
    | true => rfl
    | false =>
      have settled := settle_without_around b b.entries [] (e := b.newEntry r) differs
      exact congrArg (fun a => (Outcome.raised (b.newEntry r), { a with raised := b.raised + 1 }))
        settled
  | some parts =>
    obtain ⟨before, held, after⟩ := parts
    have kept : held.id ≠ id := fun gone => differs ((locate?_some found).2.1.symm.trans gone)
    cases r.isClear with
    | true =>
      have settled := settle_without b (before ++ after) id
      rw [List.filter_append] at settled
      exact congrArg (Prod.mk (Outcome.cleared held)) settled
    | false =>
      by_cases known : held.report = r
      · simp [known]
      · have settled := settle_without_around b before after (e := held.update r b.changes) kept
        simp only [Option.map_some, Bool.false_eq_true, if_false, known]
        exact congrArg (Prod.mk (Outcome.updated held (held.update r b.changes))) settled

end Board

/-! ### Lists that agree without either of two -/

section
variable {α β : Type} [DecidableEq β] {key : α → β} {x y : β} {a c : α} {l l' t t' : List α}

theorem filter_ne_of_absent (absent : x ∉ l.map key) : l.filter (key · ≠ x) = l := by
  refine List.filter_eq_self.mpr ?_
  intro e member
  exact decide_eq_true fun same => absent (same ▸ List.mem_map_of_mem member)

theorem filter_tail (same : (a :: t).filter (key · ≠ x) = (a :: t').filter (key · ≠ x)) :
    t.filter (key · ≠ x) = t'.filter (key · ≠ x) := by
  by_cases gone : key a = x <;> simpa [gone] using same

theorem key_of_heads_ne (same : (a :: t).filter (key · ≠ x) = (c :: t').filter (key · ≠ x))
    (differs : a ≠ c) : key a = x ∨ key c = x := by
  by_contra neither
  obtain ⟨ha, hc⟩ := not_or.mp neither
  rw [List.filter_cons_of_pos (by simpa using ha), List.filter_cons_of_pos (by simpa using hc)]
    at same
  exact differs (List.cons_eq_cons.mp same).1

/-- Where such lists begin with the two, each goes on with the other one and then as the other
list does. -/
theorem exists_back (unique : ((a :: t).map key).Nodup) (unique' : ((c :: t').map key).Nodup)
    (differs : key a ≠ key c)
    (noA : (a :: t).filter (key · ≠ key a) = (c :: t').filter (key · ≠ key a))
    (noC : (a :: t).filter (key · ≠ key c) = (c :: t').filter (key · ≠ key c)) :
    ∃ back, t = c :: back ∧ t' = a :: back := by
  obtain ⟨freshA, _⟩ := List.nodup_cons.mp unique
  obtain ⟨freshC, others⟩ := List.nodup_cons.mp unique'
  rw [List.filter_cons_of_neg (by simp), filter_ne_of_absent freshA,
    List.filter_cons_of_pos (by simpa using differs.symm)] at noA
  rw [List.filter_cons_of_pos (by simpa using differs), List.filter_cons_of_neg (by simp),
    filter_ne_of_absent freshC] at noC
  have rest : key a ∉ (t.filter (key · ≠ key c)).map key := by
    rw [← noC] at others
    exact (List.nodup_cons.mp others).1
  refine ⟨t.filter (key · ≠ key c), ?_, noC.symm⟩
  calc t = c :: t'.filter (key · ≠ key a) := noA
    _ = c :: (a :: t.filter (key · ≠ key c)).filter (key · ≠ key a) := by rw [noC]
    _ = c :: t.filter (key · ≠ key c) := by
      rw [List.filter_cons_of_neg (by simp), filter_ne_of_absent rest]

/-- Two lists that are the same without `x` and without `y` can differ only in the order of the two,
where they are neighbours. -/
theorem eq_or_swapped (unique : (l.map key).Nodup) (unique' : (l'.map key).Nodup) (differs : x ≠ y)
    (noX : l.filter (key · ≠ x) = l'.filter (key · ≠ x))
    (noY : l.filter (key · ≠ y) = l'.filter (key · ≠ y)) :
    l = l' ∨ ∃ front a c back, (key a = x ∧ key c = y ∨ key a = y ∧ key c = x) ∧
      l = front ++ a :: c :: back ∧ l' = front ++ c :: a :: back := by
  induction l generalizing l' with
  | nil =>
    refine .inl (List.eq_nil_iff_forall_not_mem.mpr ?_).symm
    intro e member
    have isX : key e = x := by simpa using List.filter_eq_nil_iff.mp noX.symm e member
    have isY : key e = y := by simpa using List.filter_eq_nil_iff.mp noY.symm e member
    exact differs (isX.symm.trans isY)
  | cons a t ih =>
    cases l' with
    | nil =>
      have isX : key a = x := by simpa using List.filter_eq_nil_iff.mp noX a List.mem_cons_self
      have isY : key a = y := by simpa using List.filter_eq_nil_iff.mp noY a List.mem_cons_self
      exact absurd (isX.symm.trans isY) differs
    | cons c t' =>
      by_cases same : a = c
      · subst same
        have tails := ih (List.nodup_cons.mp unique).2 (List.nodup_cons.mp unique').2
          (filter_tail noX) (filter_tail noY)
        rcases tails with rfl | ⟨front, e, f, back, keys, rfl, rfl⟩
        · exact .inl rfl
        · exact .inr ⟨a :: front, e, f, back, keys, rfl, rfl⟩
      · refine .inr ⟨[], a, c, ?_⟩
        rcases key_of_heads_ne noX same with isX | isX <;>
          rcases key_of_heads_ne noY same with isY | isY <;> subst isX isY
        · exact absurd rfl differs
        · obtain ⟨back, rfl, rfl⟩ := exists_back unique unique' differs noX noY
          exact ⟨back, .inl ⟨rfl, rfl⟩, rfl, rfl⟩
        · obtain ⟨back, rfl, rfl⟩ := exists_back unique unique' differs.symm noY noX
          exact ⟨back, .inr ⟨rfl, rfl⟩, rfl, rfl⟩
        · exact absurd rfl differs

end

/-- The lists differ in two neighbours of one severity, the alarms `x` and `y`, that stand the other
way round. -/
def Swapped (x y : String) (l l' : List Report) : Prop :=
  ∃ front a c back, (a.id = x ∧ c.id = y ∨ a.id = y ∧ c.id = x) ∧ a.severity = c.severity ∧
    l = front ++ a :: c :: back ∧ l' = front ++ c :: a :: back

namespace Board

/-! ### Two reports -/

theorem reports_without (b : Board) (id : String) :
    (b.without id).reports = b.reports.filter (·.id ≠ id) := by
  rw [reports, reports, List.filter_map]
  rfl

theorem unique_reports {b : Board} (h : b.WellFormed) : (b.reports.map (·.id)).Nodup := by
  rw [reports, List.map_map]
  exact h.unique

theorem ascending_reports {b : Board} (h : b.WellFormed) :
    b.reports.Pairwise (·.severity ≤ ·.severity) :=
  List.pairwise_map.mpr h.ascending

/-- After a report on another alarm a report does what it would have done before it, and without
that alarm the board is what it would have been if the two had been received the other way round. -/
theorem receive_after {b : Board} (h : b.WellFormed) {r s : Report} (differs : s.id ≠ r.id) :
    ((b.receive r).2.receive s).1.Alike (b.receive s).1 ∧
      ((b.receive r).2.receive s).2.reports.filter (·.id ≠ r.id) =
        ((b.receive s).2.receive r).2.reports.filter (·.id ≠ r.id) := by
  have untouched : ((b.receive r).2.without r.id).entries = (b.without r.id).entries :=
    others_receive h r
  obtain ⟨alike, same⟩ := receive_alike untouched s
  rw [receive_without _ differs, receive_without _ differs] at alike same
  have later : (((b.receive s).2.receive r).2.without r.id).reports =
      ((b.receive s).2.without r.id).reports :=
    congrArg (List.map Entry.report) (others_receive (receive_wellFormed h s) r)
  refine ⟨alike, ?_⟩
  rw [← reports_without, ← reports_without, later]
  exact same

/-- Two reports on different alarms may come to a board in either order. Each does the same, and in
the end the board holds the same alarms, in the same order unless the two are live and of one
severity: then they may have changed places, as neighbours. -/
theorem reports_commute (calls : List Call) {r s : Report} (differs : r.id ≠ s.id) :
    let b := run {} calls
    let first := (b.receive r).2.receive s
    let second := (b.receive s).2.receive r
    second.1.Alike (b.receive r).1 ∧ first.1.Alike (b.receive s).1 ∧
    first.2.reports.Perm second.2.reports ∧
    (first.2.reports = second.2.reports ∨
      Swapped r.id s.id first.2.reports second.2.reports) := by
  intro b first second
  have h : b.WellFormed := wellFormed_after_calls calls
  have wellFirst : first.2.WellFormed := receive_wellFormed (receive_wellFormed h r) s
  have wellSecond : second.2.WellFormed := receive_wellFormed (receive_wellFormed h s) r
  obtain ⟨alikeS, withoutR⟩ := receive_after h differs.symm
  obtain ⟨alikeR, withoutS⟩ := receive_after h differs
  refine ⟨alikeR, alikeS, ?_⟩
  rcases eq_or_swapped (unique_reports wellFirst) (unique_reports wellSecond) differs withoutR
    withoutS.symm with same | ⟨front, x, y, back, ids, split, turned⟩
  · exact ⟨.of_eq same, .inl same⟩
  · have ordered {x y : Report}
        (up : (front ++ x :: y :: back).Pairwise (·.severity ≤ ·.severity)) :
        x.severity ≤ y.severity := by
      obtain ⟨_, pair, _⟩ := List.pairwise_append.mp up
      exact List.rel_of_pairwise_cons pair List.mem_cons_self
    have level : x.severity = y.severity :=
      Int32.le_antisymm (ordered (split ▸ ascending_reports wellFirst))
        (ordered (turned ▸ ascending_reports wellSecond))
    refine ⟨?_, .inr ⟨front, x, y, back, ids, level, split, turned⟩⟩
    rw [split, turned]
    exact (List.Perm.swap y x back).append_left front

/-- Two alarms that are raised to the severity of a third change places behind it. -/
theorem reports_commute_raised_alarms :
    let report (id : String) : Report := { id, severity := 3, channels := .single 0, text := "" }
    let b := run {} [.receive (report "c")]
    let first := (b.receive (report "a")).2.receive (report "b")
    let second := (b.receive (report "b")).2.receive (report "a")
    "a" ≠ "b" ∧ first.1.Alike (b.receive (report "b")).1 ∧
    first.2.reports.Perm second.2.reports ∧
    first.2.reports = [report "c", report "a", report "b"] ∧
    second.2.reports = [report "c", report "b", report "a"] ∧
    (first.2.reports = second.2.reports ∨ Swapped "a" "b" first.2.reports second.2.reports) := by
  intro report b first second
  have differs : (report "a").id ≠ (report "b").id := by decide
  obtain ⟨_, alike, perm, either⟩ := reports_commute [.receive (report "c")] differs
  exact ⟨differs, alike, perm, by decide, by decide, either⟩

end Board

end Dashboard.Alarm
