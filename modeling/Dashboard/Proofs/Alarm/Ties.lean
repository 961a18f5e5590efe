import Mathlib.Data.List.Nodup
import Dashboard.Proofs.Alarm.Latest

/-!
# The order of alarms of one severity

Sorting leaves alarms of one severity as they stand (`filter_sortBySeverity`), and a report moves an
alarm past another only where their severities differ (`receive_precedes`). So alarms of one severity
stand as they were raised, unless the later one had the lower severity when they last differed: it
stood in front then, and it still does (`ties_stand_as_raised_iff`).
-/

namespace Dashboard.Alarm

/-- Sorting leaves the alarms of each severity in the order given. -/
theorem filter_sortBySeverity (l : List Entry) (level : Int32) :
    (sortBySeverity l).filter (·.severity = level) = l.filter (·.severity = level) := by
  rw [← sortBySeverity_filter]
  apply sortBySeverity_of_ascending
  refine List.pairwise_of_forall_mem_list ?_
  intro e he f hf
  have he : e.severity = level := by simpa using (List.mem_filter.mp he).2
  have hf : f.severity = level := by simpa using (List.mem_filter.mp hf).2
  exact Int32.le_of_eq (he.trans hf.symm)

theorem pair_sublist_filter_iff {l : List Entry} {e f : Entry} (tie : e.severity = f.severity) :
    [e, f].Sublist (l.filter (·.severity = f.severity)) ↔ [e, f].Sublist l := by
  constructor
  · exact fun pair => pair.trans List.filter_sublist
  · intro pair
    simpa [tie] using pair.filter (·.severity = f.severity)

theorem pair_sublist_sortBySeverity_iff {l : List Entry} {e f : Entry}
    (tie : e.severity = f.severity) :
    [e, f].Sublist (sortBySeverity l) ↔ [e, f].Sublist l := by
  rw [← pair_sublist_filter_iff tie, filter_sortBySeverity, pair_sublist_filter_iff tie]

section
variable {α : Type}

theorem pair_sublist_or {l : List α} {x y : α} (hx : x ∈ l) (hy : y ∈ l) (differs : x ≠ y) :
    [x, y].Sublist l ∨ [y, x].Sublist l := by
  obtain ⟨front, back, rfl⟩ := List.append_of_mem hx
  rcases List.mem_append.mp hy with before | behind
  · refine .inr ?_
    have tail : [x].Sublist (x :: back) := List.singleton_sublist.mpr List.mem_cons_self
    exact (List.singleton_sublist.mpr before).append tail
  · refine .inl ?_
    have after : y ∈ back := (List.mem_cons.mp behind).resolve_left (Ne.symm differs)
    exact ((List.singleton_sublist.mpr after).cons_cons x).trans (List.sublist_append_right ..)

theorem pair_sublist_asymm {l : List α} (unique : l.Nodup) {x y : α} (pair : [x, y].Sublist l) :
    ¬[y, x].Sublist l := by
  intro turned
  induction l with
  | nil => cases pair
  | cons z rest ih =>
    obtain ⟨fresh, others⟩ := List.nodup_cons.mp unique
    cases pair with
    | cons _ pair =>
      cases turned with
      | cons _ turned => exact ih others pair turned
      | cons_cons _ _ => exact fresh (pair.subset (by simp))
    | cons_cons _ later =>
      cases turned with
      | cons _ turned => exact fresh (turned.subset (by simp))
      | cons_cons _ _ => exact fresh (later.subset (by simp))

theorem pair_sublist_iff {l all : List α} (sub : l.Sublist all) (unique : all.Nodup) {x y : α}
    (hx : x ∈ l) (hy : y ∈ l) (differs : x ≠ y) : [x, y].Sublist l ↔ [x, y].Sublist all := by
  constructor
  · exact fun pair => pair.trans sub
  · intro pair
    refine (pair_sublist_or hx hy differs).resolve_right ?_
    exact fun turned => pair_sublist_asymm unique pair (turned.trans sub)

end

/-- The alarm `x` stands in front of `y`. -/
def Precedes (l : List Entry) (x y : String) : Prop :=
  [x, y].Sublist (l.map (·.id))

theorem precedes_iff {l : List Entry} (unique : (l.map (·.id)).Nodup) {e f : Entry} (he : e ∈ l)
    (hf : f ∈ l) : Precedes l e.id f.id ↔ [e, f].Sublist l := by
  constructor
  · intro pair
    obtain ⟨kept, sub, ids⟩ := List.sublist_map_iff.mp pair
    obtain ⟨e', tail, rfl, named, ids⟩ := List.map_eq_cons_iff.mp ids.symm
    obtain ⟨f', rfl, named'⟩ := List.map_eq_singleton_iff.mp ids
    obtain rfl := List.inj_on_of_nodup_map unique (sub.subset (by simp)) he named
    obtain rfl := List.inj_on_of_nodup_map unique (sub.subset (by simp)) hf named'
    exact sub
  · exact fun pair => pair.map Entry.id

theorem precedes_sortBySeverity_iff {l : List Entry} (unique : (l.map (·.id)).Nodup) {e f : Entry}
    (he : e ∈ l) (hf : f ∈ l) (tie : e.severity = f.severity) :
    Precedes (sortBySeverity l) e.id f.id ↔ Precedes l e.id f.id := by
  have perm := sortBySeverity_perm l
  have sorted := (perm.map (·.id)).nodup_iff.mpr unique
  rw [precedes_iff sorted (perm.mem_iff.mpr he) (perm.mem_iff.mpr hf),
    pair_sublist_sortBySeverity_iff tie, precedes_iff unique he hf]

namespace Board

/-! ### One report -/

/-- Of alarms of different severities the lower one stands in front. -/
theorem precedes_iff_lt {b : Board} (h : b.WellFormed) {e f : Entry} (he : e ∈ b.entries)
    (hf : f ∈ b.entries) (apart : e.severity ≠ f.severity) :
    Precedes b.entries e.id f.id ↔ e.severity < f.severity := by
  have ordered {e f : Entry} (pair : [e, f].Sublist b.entries) : e.severity ≤ f.severity :=
    List.pairwise_iff_forall_sublist.mp h.ascending pair
  have differs : e.id ≠ f.id := fun same =>
    apart (congrArg Entry.severity (List.inj_on_of_nodup_map h.unique he hf same))
  constructor
  · intro front
    exact Int32.lt_of_le_of_ne (ordered ((precedes_iff h.unique he hf).mp front)) apart
  · intro lower
    have either := pair_sublist_or (List.mem_map_of_mem he) (List.mem_map_of_mem hf) differs
    refine either.resolve_right ?_
    intro turned
    have higher := ordered ((precedes_iff h.unique hf he).mp turned)
    exact Int32.not_le.mpr lower higher

/-- A report leaves alarms that are tied after it in the order in which they stood, and puts an alarm
that it raises behind those that it ties with. -/
theorem receive_precedes {b : Board} (h : b.WellFormed) (r : Report) {e f : Entry}
    (he : e ∈ (b.receive r).2.entries) (hf : f ∈ (b.receive r).2.entries)
    (tie : e.severity = f.severity) (differs : e.id ≠ f.id) (known : e.id ∈ b.entries.map (·.id)) :
    Precedes (b.receive r).2.entries e.id f.id ↔
      (f.id ∈ b.entries.map (·.id) → Precedes b.entries e.id f.id) := by
  have step := b.received r
  generalize (b.receive r).1 = outcome, (b.receive r).2 = next at step he hf ⊢
  cases step with
  | ignored | same => exact (imp_iff_right (List.mem_map_of_mem hf)).symm
  | raised absent live =>
    have unique : ((b.entries ++ [b.newEntry r]).map (·.id)).Nodup :=
      unique_append h.unique absent
    have added := (List.sublist_append_left b.entries [b.newEntry r]).map Entry.id
    have he : e ∈ b.entries ++ [b.newEntry r] := (sortBySeverity_perm _).mem_iff.mp he
    have hf : f ∈ b.entries ++ [b.newEntry r] := (sortBySeverity_perm _).mem_iff.mp hf
    refine (precedes_sortBySeverity_iff unique he hf tie).trans ?_
    by_cases both : f.id ∈ b.entries.map (·.id)
    · exact (pair_sublist_iff added unique known both differs).symm.trans (imp_iff_right both).symm
    · refine iff_of_true ?_ fun contrary => absurd contrary both
      have fresh : f ∉ b.entries := fun member => both (List.mem_map_of_mem member)
      obtain rfl := List.mem_singleton.mp ((List.mem_append.mp hf).resolve_left fresh)
      rw [Precedes, List.map_append]
      exact (List.singleton_sublist.mpr known).append (.refl _)
  | @cleared before after held split named first ended =>
    have kept := (without_sublist before after held).map Entry.id
    rw [← split] at kept
    have unique := h.unique.sublist kept
    have he := mem_settle.mp he
    have hf := mem_settle.mp hf
    have hx : e.id ∈ (before ++ after).map Entry.id := List.mem_map_of_mem he
    have hy : f.id ∈ (before ++ after).map Entry.id := List.mem_map_of_mem hf
    refine (precedes_sortBySeverity_iff unique he hf tie).trans ?_
    exact (pair_sublist_iff kept h.unique hx hy differs).trans (imp_iff_right (kept.subset hy)).symm
  | @updated before after held split named first live news =>
    have ids : (before ++ held.update r b.changes :: after).map (·.id) = b.entries.map (·.id) := by
      rw [split, List.map_append, List.map_append]
      rfl
    have he := mem_settle.mp he
    have hf := mem_settle.mp hf
    have hy : f.id ∈ b.entries.map (·.id) := ids ▸ List.mem_map_of_mem hf
    refine (precedes_sortBySeverity_iff (ids ▸ h.unique) he hf tie).trans ?_
    rw [Precedes, ids]
    exact (imp_iff_right hy).symm

/-! ### The order of raising -/

/-- Serials tell the alarms of a board apart and grow from one raise to the next. -/
structure Numbered (b : Board) : Prop where
  below : ∀ e ∈ b.entries, e.serial < b.raised
  distinct : ∀ e ∈ b.entries, ∀ f ∈ b.entries, e.serial = f.serial → e.id = f.id

theorem initial_numbered : Numbered {} :=
  ⟨by simp, by simp⟩

/-- After a report an alarm has the serial that it had, or it has been raised by the report. -/
theorem receive_serial (b : Board) (r : Report) {e : Entry} (he : e ∈ (b.receive r).2.entries) :
    (∃ held ∈ b.entries, held.id = e.id ∧ held.serial = e.serial) ∧
        b.raised ≤ (b.receive r).2.raised ∨
      (∀ held ∈ b.entries, held.id ≠ e.id) ∧ e.id = r.id ∧ e.serial = b.raised ∧
        (b.receive r).2.raised = b.raised + 1 := by
  have step := b.received r
  generalize (b.receive r).1 = outcome, (b.receive r).2 = next at step he ⊢
  cases step with
  | ignored | same => exact .inl ⟨⟨e, he, rfl, rfl⟩, Nat.le_refl _⟩
  | raised absent live =>
    have he : e ∈ b.entries ++ [b.newEntry r] := (sortBySeverity_perm _).mem_iff.mp he
    rcases List.mem_append.mp he with old | new
    · exact .inl ⟨⟨e, old, rfl, rfl⟩, Nat.le_succ _⟩
    · obtain rfl := List.mem_singleton.mp new
      exact .inr ⟨absent, rfl, rfl, rfl⟩
  | @cleared before after held split named first ended =>
    have kept := (without_sublist before after held).subset (mem_settle.mp he)
    exact .inl ⟨⟨e, split ▸ kept, rfl, rfl⟩, Nat.le_refl _⟩
  | @updated before after held split named first live news =>
    rw [split]
    rcases mem_around.mp (mem_settle.mp he) with rfl | other
    · exact .inl ⟨⟨held, mem_around.mpr (.inl rfl), rfl, rfl⟩, Nat.le_refl _⟩
    · exact .inl ⟨⟨e, mem_around.mpr (.inr other), rfl, rfl⟩, Nat.le_refl _⟩

theorem receive_numbered {b : Board} (h : b.Numbered) (r : Report) : (b.receive r).2.Numbered where
  below := by
    intro e he
    rcases receive_serial b r he with ⟨⟨held, member, _, same⟩, more⟩ | ⟨_, _, last, more⟩
    · have := h.below held member
      omega
    · omega
  distinct := by
    intro e he f hf same
    rcases receive_serial b r he with ⟨⟨e₀, me, ide, se⟩, _⟩ | ⟨_, ide, se, _⟩ <;>
      rcases receive_serial b r hf with ⟨⟨f₀, mf, idf, sf⟩, _⟩ | ⟨_, idf, sf, _⟩
    · exact ide.symm.trans ((h.distinct e₀ me f₀ mf (by omega)).trans idf)
    · have := h.below e₀ me
      omega
    · have := h.below f₀ mf
      omega
    · exact ide.trans idf.symm

/-- What a report raises is later than all that is live, so of two alarms the earlier was live. -/
theorem receive_serial_of_lt {b : Board} (h : b.Numbered) (r : Report) {e f : Entry}
    (he : e ∈ (b.receive r).2.entries) (hf : f ∈ (b.receive r).2.entries)
    (earlier : e.serial < f.serial) :
    ∃ held ∈ b.entries, held.id = e.id ∧ held.serial = e.serial := by
  rcases receive_serial b r he with ⟨old, _⟩ | ⟨_, _, last, _⟩
  · exact old
  · rcases receive_serial b r hf with ⟨⟨f₀, mf, _, same⟩, _⟩ | ⟨_, _, same, _⟩
    · have := h.below f₀ mf
      omega
    · omega

theorem step_numbered {b : Board} (h : b.Numbered) (call : Call) : (b.step call).Numbered := by
  cases call with
  | receive r => exact receive_numbered h r
  | clear => exact ⟨nofun, nofun⟩

theorem run_numbered {b : Board} (h : b.Numbered) (calls : List Call) : (b.run calls).Numbered := by
  induction calls generalizing b with
  | nil => exact h
  | cons call rest ih => exact ih (step_numbered h call)

/-! ### Overtaking -/

def Tied (b : Board) (x y : String) : Prop :=
  ∃ e ∈ b.entries, ∃ f ∈ b.entries, e.id = x ∧ f.id = y ∧ e.severity = f.severity

def Above (b : Board) (x y : String) : Prop :=
  ∃ e ∈ b.entries, ∃ f ∈ b.entries, e.id = x ∧ f.id = y ∧ f.severity < e.severity

end Board

/-- The alarms are tied after the calls, and `x` had the higher severity when they last differed. -/
def Overtaken (x y : String) (calls : List Call) : Prop :=
  ∃ before call after, calls = before ++ call :: after ∧ (Board.run {} before).Above x y ∧
    ∀ since, since <+: after → (Board.run {} (before ++ call :: since)).Tied x y

theorem Overtaken.tied {x y : String} {calls : List Call} (overtaken : Overtaken x y calls) :
    (Board.run {} calls).Tied x y := by
  obtain ⟨before, call, after, rfl, _, since⟩ := overtaken
  exact since after (List.prefix_refl after)

theorem overtaken_concat {x y : String} {calls : List Call} {call : Call}
    (tied : (Board.run {} (calls ++ [call])).Tied x y) :
    Overtaken x y (calls ++ [call]) ↔ (Board.run {} calls).Above x y ∨ Overtaken x y calls := by
  constructor
  · rintro ⟨before, first, after, split, above, since⟩
    rcases List.eq_nil_or_concat after with rfl | ⟨after, last, rfl⟩
    · obtain ⟨rfl, _⟩ := List.append_inj' split rfl
      exact .inl above
    · have same : calls ++ [call] = before ++ first :: after ++ [last] := by simpa using split
      obtain ⟨rfl, _⟩ := List.append_inj' same rfl
      exact .inr ⟨before, first, after, rfl, above, fun s front =>
        since s (front.trans (List.concat_eq_append ▸ List.prefix_append ..))⟩
  · rintro (above | ⟨before, first, after, rfl, above, since⟩)
    · refine ⟨calls, call, [], rfl, above, ?_⟩
      intro s front
      rw [List.prefix_nil.mp front]
      exact tied
    · refine ⟨before, first, after ++ [call], by simp, above, ?_⟩
      intro s front
      rcases List.prefix_concat_iff.mp front with rfl | front
      · simpa using tied
      · exact since s front

namespace Board

section
variable {b : Board} {e f : Entry}

theorem tied_iff (h : b.WellFormed) (he : e ∈ b.entries) (hf : f ∈ b.entries) :
    b.Tied e.id f.id ↔ e.severity = f.severity := by
  constructor
  · rintro ⟨e', he', f', hf', same, same', tie⟩
    obtain rfl := List.inj_on_of_nodup_map h.unique he' he same
    obtain rfl := List.inj_on_of_nodup_map h.unique hf' hf same'
    exact tie
  · exact fun tie => ⟨e, he, f, hf, rfl, rfl, tie⟩

theorem above_iff (h : b.WellFormed) (he : e ∈ b.entries) (hf : f ∈ b.entries) :
    b.Above e.id f.id ↔ f.severity < e.severity := by
  constructor
  · rintro ⟨e', he', f', hf', same, same', lower⟩
    obtain rfl := List.inj_on_of_nodup_map h.unique he' he same
    obtain rfl := List.inj_on_of_nodup_map h.unique hf' hf same'
    exact lower
  · exact fun lower => ⟨e, he, f, hf, rfl, rfl, lower⟩

end

/-- Of two tied alarms the earlier one stands in front unless it has been overtaken. -/
theorem precedes_iff_not_overtaken (calls : List Call) {e f : Entry}
    (he : e ∈ (run {} calls).entries) (hf : f ∈ (run {} calls).entries)
    (tie : e.severity = f.severity) (earlier : e.serial < f.serial) :
    Precedes (run {} calls).entries e.id f.id ↔ ¬Overtaken e.id f.id calls := by
  induction calls using List.reverseRecOn generalizing e f with
  | nil => cases he
  | append_singleton calls call ih =>
    have h := wellFormed_after_calls calls
    have later := wellFormed_after_calls (calls ++ [call])
    have tied := (tied_iff later he hf).mpr tie
    have differs : e.id ≠ f.id := by
      intro same
      obtain rfl := List.inj_on_of_nodup_map later.unique he hf same
      omega
    rw [overtaken_concat tied]
    rw [run_concat] at he hf ⊢
    cases call with
    | clear => cases he
    | receive r =>
      have numbered : (run {} calls).Numbered := run_numbered initial_numbered calls
      obtain ⟨e₀, me, ide, se⟩ := receive_serial_of_lt numbered r he hf earlier
      rw [step, receive_precedes h r he hf tie differs (ide ▸ List.mem_map_of_mem me)]
      rcases receive_serial _ r hf with ⟨⟨f₀, mf, idf, sf⟩, _⟩ | ⟨fresh, _⟩
      · rw [← ide, ← idf, imp_iff_right (List.mem_map_of_mem mf)]
        by_cases same : e₀.severity = f₀.severity
        · have level : ¬(run {} calls).Above e₀.id f₀.id := by
            rw [above_iff h me mf, same]
            exact Int32.lt_irrefl
          rw [or_iff_right level]
          exact ih me mf same (by omega)
        · have apart : ¬Overtaken e₀.id f₀.id calls := fun overtaken =>
            same ((tied_iff h me mf).mp overtaken.tied)
          rw [or_iff_left apart, above_iff h me mf, precedes_iff_lt h me mf same, Int32.not_lt]
          exact ⟨Int32.le_of_lt, fun le => Int32.lt_of_le_of_ne le same⟩
      · have absent : ¬(run {} calls).Tied e.id f.id ∧ ¬(run {} calls).Above e.id f.id := by
          constructor <;> rintro ⟨_, _, f₀, mf, _, same, _⟩ <;> exact fresh f₀ mf same
        have never : f.id ∉ (run {} calls).entries.map (·.id) := by
          intro member
          obtain ⟨f₀, mf, same⟩ := List.mem_map.mp member
          exact fresh f₀ mf same
        refine iff_of_true (fun member => absurd member never) ?_
        rintro (above | overtaken)
        · exact absent.2 above
        · exact absent.1 overtaken.tied

/-- After any calls on a new board, alarms of one severity stand in the order in which they were
raised exactly if none of them has been overtaken: of no two had the one that was raised first the
higher severity when they last differed. -/
theorem ties_stand_as_raised_iff (calls : List Call) :
    let b := run {} calls
    (b.entries.Pairwise fun e f => e.severity = f.severity → e.serial < f.serial) ↔
      ∀ e ∈ b.entries, ∀ f ∈ b.entries, e.serial < f.serial → ¬Overtaken e.id f.id calls := by
  intro b
  have h : b.WellFormed := wellFormed_after_calls calls
  have numbered : b.Numbered := run_numbered initial_numbered calls
  have front {e f : Entry} (he : e ∈ b.entries) (hf : f ∈ b.entries) (tie : e.severity = f.severity)
      (earlier : e.serial < f.serial) : [e, f].Sublist b.entries ↔ ¬Overtaken e.id f.id calls := by
    rw [← precedes_iff h.unique he hf]
    exact precedes_iff_not_overtaken calls he hf tie earlier
  constructor
  · intro ordered e he f hf earlier overtaken
    have tie : e.severity = f.severity := (tied_iff h he hf).mp overtaken.tied
    have differs : e ≠ f := by
      rintro rfl
      omega
    rcases pair_sublist_or he hf differs with pair | turned
    · exact (front he hf tie earlier).mp pair overtaken
    · have later := List.pairwise_iff_forall_sublist.mp ordered turned tie.symm
      omega
  · intro free
    apply List.pairwise_iff_forall_sublist.mpr
    intro e f pair tie
    have he : e ∈ b.entries := pair.subset (by simp)
    have hf : f ∈ b.entries := pair.subset (by simp)
    rcases Nat.lt_trichotomy e.serial f.serial with earlier | same | later
    · exact earlier
    · have named := numbered.distinct e he f hf same
      obtain rfl := List.inj_on_of_nodup_map h.unique he hf named
      exact absurd pair (List.nodup_iff_sublist.mp (List.Nodup.of_map _ h.unique) e)
    · have turned := (front hf he tie.symm later).mpr (free f hf e he later)
      exact absurd pair (pair_sublist_asymm (List.Nodup.of_map _ h.unique) turned)

/-- The first alarm comes down to the severity of the second and stands behind it. -/
theorem lowered_alarm_stands_behind_younger :
    let report (id : String) (severity : Int32) : Call :=
      .receive { id, severity, channels := .single 0, text := "" }
    let b := run {} [report "a" 5, report "b" 2, report "a" 2]
    ¬b.entries.Pairwise fun e f => e.severity = f.severity → e.serial < f.serial := by
  decide

end Board

end Dashboard.Alarm
