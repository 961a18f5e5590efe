import Dashboard.Proofs.EventStream.Framing

/-!
# Where line breaks are left

A line break ends a line and never gets into one (`unbroken_linesOf`). Between two calls a decoder
therefore keeps no break, up to a carriage return that may be the first half of one (`run_clean`).
The events of a run are those of the lines that its calls complete (`events_along`), and of the
breaks in a stream nothing reaches an event but the line feeds between its data lines
(`breaks_between_data`).
-/

namespace Dashboard.EventStream

theorem Unbroken.of_subset {line part : List Char} (whole : Unbroken line) (inside : part ⊆ line) :
    Unbroken part :=
  ⟨fun feed => whole.noFeed (inside feed), fun ret => whole.noReturn (inside ret)⟩

theorem Unbroken.cons {c : Char} {line : List Char} (notFeed : c ≠ '\n') (notReturn : c ≠ '\r')
    (rest : Unbroken line) : Unbroken (c :: line) :=
  ⟨List.not_mem_cons_of_ne_of_not_mem notFeed.symm rest.noFeed,
    List.not_mem_cons_of_ne_of_not_mem notReturn.symm rest.noReturn⟩

theorem unbroken_linesOf (text : List Char) : ∀ line ∈ linesOf text, Unbroken line := by
  fun_induction linesOf text with
  | case1 => exact List.forall_mem_nil _
  | case2 _ ih | case3 _ _ ih | case4 _ ih => exact List.forall_mem_cons.mpr ⟨unbroken_nil, ih⟩
  | case5 c rest _ notReturn notFeed ih =>
    cases cut : linesOf rest with
    | nil => exact List.forall_mem_singleton.mpr (unbroken_nil.cons notFeed notReturn)
    | cons line lines =>
      obtain ⟨first, others⟩ := List.forall_mem_cons.mp (cut ▸ ih)
      exact List.forall_mem_cons.mpr ⟨first.cons notFeed notReturn, others⟩

theorem unbroken_of_some {text line rest : List Char}
    (found : firstLine? text = some (line, rest)) : Unbroken line := by
  have lines := unbroken_linesOf text
  rw [linesOf_of_some found] at lines
  exact lines line List.mem_cons_self

theorem stripSpace_subset (text : List Char) : stripSpace text ⊆ text := by
  unfold stripSpace
  split
  · exact List.subset_cons_self ' ' _
  · exact List.Subset.refl _

theorem unbroken_of_dataOf? {line : List Char} {value : String} (whole : Unbroken line)
    (read : dataOf? line = some value) : Unbroken value.toList := by
  unfold dataOf? at read
  split at read
  · cases read
    rw [String.toList_ofList]
    have behind : (line.dropWhile (· ≠ ':')).drop 1 ⊆ line :=
      ((List.drop_suffix 1 _).trans (List.dropWhile_suffix _)).subset
    exact whole.of_subset (List.Subset.trans (stripSpace_subset _) behind)
  · cases read

/-- A text without a complete line is the beginning of one, up to half of a break at its end. -/
theorem firstLine?_eq_none_iff {text : List Char} :
    firstLine? text = none ↔ '\n' ∉ text ∧ '\r' ∉ text.dropLast := by
  fun_induction firstLine? text with
  | case1 | case2 | case3 | case4 => simp
  | case5 rest notEnd _ _ =>
    obtain ⟨c, after, rfl⟩ := List.exists_cons_of_ne_nil notEnd
    simp
  | case6 c rest notFeed notReturn ih =>
    rw [Option.map_eq_none_iff, ih]
    cases rest with
    | nil => simp [Ne.symm notFeed]
    | cons d after => simp [Ne.symm notFeed, Ne.symm notReturn]

namespace Pending

/-- No break is left between two calls. -/
structure Clean (s : Pending) : Prop where
  noFeed : '\n' ∉ s.line.toList
  /-- A return at the end may be the first half of a break. -/
  noReturn : '\r' ∉ s.line.toList.dropLast
  data : ∀ value ∈ s.data, Unbroken value.toList

theorem initial_clean : Clean {} :=
  ⟨by decide, by decide, List.forall_mem_nil _⟩

theorem takeLine_unbroken {data : List String} {line : List Char} (whole : Unbroken line)
    (clean : ∀ value ∈ data, Unbroken value.toList) :
    ∀ value ∈ (takeLine data line).2, Unbroken value.toList := by
  rw [takeLine_eq]
  split
  · rw [dispatch_state]
    exact List.forall_mem_nil _
  · refine List.forall_mem_append.mpr ⟨clean, ?_⟩
    intro value read
    exact unbroken_of_dataOf? whole (Option.mem_toList.mp read)

theorem drain_data {data : List String} (clean : ∀ value ∈ data, Unbroken value.toList)
    (text : List Char) : ∀ value ∈ (drain data text).2.data, Unbroken value.toList := by
  fun_induction drain data text with
  | case1 => exact clean
  | case2 data text line rest found taken others ih =>
    exact ih (takeLine_unbroken (unbroken_of_some found) clean)

theorem step_clean {s : Pending} (clean : s.Clean) (call : Call) : (s.step call).Clean := by
  cases call with
  | feed chunk =>
    obtain ⟨noFeed, noReturn⟩ := firstLine?_eq_none_iff.mp (step_settled s (.feed chunk))
    exact ⟨noFeed, noReturn, drain_data clean.data _⟩
  | finish =>
    rw [step, finish_state]
    exact initial_clean

theorem run_clean {s : Pending} (clean : s.Clean) (calls : List Call) : (s.run calls).Clean := by
  induction calls generalizing s with
  | nil => exact clean
  | cons call rest ih => exact ih (step_clean clean call)

def given (s : Pending) : Call → List String
  | .feed chunk => (s.feed chunk).1
  | .finish => s.finish.1.toList

def events : Pending → List Call → List String
  | _, [] => []
  | s, call :: rest => s.given call ++ (s.step call).events rest

end Pending

/-! ### The lines of a run -/

/-- The lines of a text whose break has arrived. -/
def completeLines : List Char → List (List Char)
  | [] => []
  | ['\r'] => []
  | '\r' :: '\n' :: rest => [] :: completeLines rest
  | '\r' :: rest => [] :: completeLines rest
  | '\n' :: rest => [] :: completeLines rest
  | c :: rest => (completeLines rest).modifyHead (c :: ·)

theorem completeLines_begin (text : List Char) : completeLines text <+: linesOf text := by
  fun_induction completeLines text with
  | case1 | case2 => exact List.nil_prefix
  | case3 rest ih => exact (List.prefix_cons_inj []).mpr ih
  | case4 rest notEnd notFeed ih =>
    rw [linesOf]
    · exact (List.prefix_cons_inj []).mpr ih
    · exact notFeed
  | case5 rest ih => exact (List.prefix_cons_inj []).mpr ih
  | case6 c rest _ _ notReturn notFeed ih =>
    rw [linesOf_cons notFeed notReturn]
    obtain ⟨unended, cut⟩ := ih
    rw [← cut]
    cases completeLines rest with
    | nil => exact List.nil_prefix
    | cons line lines => exact ⟨unended, rfl⟩

theorem completeLines_cons {c : Char} (notFeed : c ≠ '\n') (notReturn : c ≠ '\r')
    (text : List Char) : completeLines (c :: text) = (completeLines text).modifyHead (c :: ·) := by
  rw [completeLines]
  · intro same _; exact notReturn same
  · intro _ same _; exact notReturn same
  · exact notReturn
  · exact notFeed

theorem completeLines_of_none {text : List Char} (none : firstLine? text = none) :
    completeLines text = [] := by
  fun_induction firstLine? text with
  | case1 | case3 => rfl
  | case2 | case4 | case5 => cases none
  | case6 c text notFeed notReturn ih =>
    rw [completeLines_cons notFeed notReturn, ih (Option.map_eq_none_iff.mp none),
      List.modifyHead_nil]

theorem completeLines_of_some {text line rest : List Char}
    (found : firstLine? text = some (line, rest)) :
    completeLines text = line :: completeLines rest := by
  fun_induction firstLine? text generalizing line with
  | case1 | case3 => cases found
  | case2 | case4 => cases found; simp [completeLines]
  | case5 _ notEnd notFeed _ =>
    cases found
    rw [completeLines]
    · exact notEnd
    · exact notFeed
  | case6 c text notFeed notReturn ih =>
    obtain ⟨⟨line, after⟩, inner, same⟩ := Option.map_eq_some_iff.mp found
    cases same
    rw [completeLines_cons notFeed notReturn, ih inner, List.modifyHead_cons]

/-- The lines that the calls complete, `text` being what was fed since the last stream ended. The
end of a stream completes its last line, and it ends an event as an empty line does. -/
def linesAlong (text : List Char) : List Call → List (List Char)
  | [] => completeLines text
  | .feed chunk :: rest => linesAlong (text ++ chunk.toList) rest
  | .finish :: rest => linesOf text ++ [] :: linesAlong [] rest

theorem unbroken_linesAlong (text : List Char) (calls : List Call) :
    ∀ line ∈ linesAlong text calls, Unbroken line := by
  fun_induction linesAlong text calls with
  | case1 text =>
    intro line among
    exact unbroken_linesOf text line ((completeLines_begin text).subset among)
  | case2 text chunk rest ih => exact ih
  | case3 text rest ih =>
    refine List.forall_mem_append.mpr ⟨unbroken_linesOf text, ?_⟩
    exact List.forall_mem_cons.mpr ⟨unbroken_nil, ih⟩

theorem drain_pending (data : List String) (text : List Char) :
    (drain data text).1 ++ (dispatch (drain data text).2.data).1.toList =
      readLines data (completeLines text) := by
  fun_induction drain data text with
  | case1 data text none => rw [completeLines_of_none none, readLines, List.nil_append]
  | case2 data text line rest found taken others ih =>
    rw [completeLines_of_some found, readLines, ← ih, List.append_assoc]

/-- The events that are given out, the text first, and last the event of the data that is still
pending. -/
theorem events_along (text : List Char) (calls : List Call) :
    (drain [] text).1 ++ (drain [] text).2.events calls ++
        (dispatch ((drain [] text).2.run calls).data).1.toList =
      readLines [] (linesAlong text calls) := by
  fun_induction linesAlong text calls with
  | case1 text => rw [Pending.events, Pending.run, List.append_nil, drain_pending]
  | case2 text chunk rest ih =>
    rw [← ih, drain_append, String.ofList_toList]
    simp only [Pending.events, Pending.given, Pending.run, Pending.step, List.append_assoc]
  | case3 text rest ih =>
    -- What comes after the end is decoded as the stream of a new decoder.
    have opened : drain [] [] = ([], {}) := drain_of_none rfl
    rw [readLines_append, ← ih, ← drain_finish, opened]
    simp only [Pending.events, Pending.given, Pending.run, Pending.step, Pending.finish_state,
      List.append_assoc, List.nil_append]

/-! ### Breaks in an event -/

theorem count_joined {c : Char} {values : List String} (free : ∀ value ∈ values, c ∉ value.toList)
    (nonempty : values ≠ []) :
    ("\n".intercalate values).toList.count c = (values.length - 1) * "\n".toList.count c := by
  induction values with
  | nil => exact (nonempty rfl).elim
  | cons value rest ih =>
    obtain ⟨first, others⟩ := List.forall_mem_cons.mp free
    have none : value.toList.count c = 0 := List.count_eq_zero.mpr first
    by_cases last : rest = []
    · rw [last, String.intercalate_singleton, none, List.length_singleton, Nat.sub_self,
        Nat.zero_mul]
    · obtain ⟨n, length⟩ := Nat.exists_eq_succ_of_ne_zero (mt List.length_eq_zero_iff.mp last)
      have inner := ih others last
      rw [length, Nat.succ_sub_one] at inner
      rw [String.intercalate_cons_of_ne_nil last, String.toList_append, String.toList_append,
        List.count_append, List.count_append, none, inner, List.length_cons, length,
        Nat.add_sub_cancel, Nat.succ_mul]
      omega

/-- What the breaks between the lines of a group leave in its event. -/
theorem breaks_in_event {group : List (List Char)} {event : String}
    (whole : ∀ line ∈ group, Unbroken line) (made : eventOf? group = some event) :
    '\r' ∉ event.toList ∧ event.toList.count '\n' + 1 = (group.filterMap dataOf?).length := by
  obtain ⟨nonempty, rfl⟩ := eventOf?_eq_some_iff.mp made
  have unbroken : ∀ value ∈ group.filterMap dataOf?, Unbroken value.toList := by
    intro value among
    obtain ⟨line, inside, read⟩ := List.mem_filterMap.mp among
    exact unbroken_of_dataOf? (whole line inside) read
  have returns := count_joined (fun value among => (unbroken value among).noReturn) nonempty
  have feeds := count_joined (fun value among => (unbroken value among).noFeed) nonempty
  have length : (group.filterMap dataOf?).length ≠ 0 := mt List.length_eq_zero_iff.mp nonempty
  refine ⟨List.count_eq_zero.mp (returns.trans (Nat.mul_zero _)), ?_⟩
  rw [feeds, show "\n".toList.count '\n' = 1 from rfl]
  omega

theorem unbroken_group {calls : List Call} {group : List (List Char)}
    (among : group ∈ (linesAlong [] calls).splitOn []) : ∀ line ∈ group, Unbroken line := by
  intro line inside
  exact unbroken_linesAlong [] calls line ((not_mem_and_subset_of_mem_splitOn among).2 inside)

/-- After any calls to a new decoder, the text that waits has no line feed, and a carriage return at
most at its end, and the data that waits has neither. The lines that the calls complete fall into
groups at the empty ones, and each group with data makes an event: those given out, and last the one
that is still pending. No event has a carriage return, and an event of `n` data lines has `n - 1`
line feeds. -/
theorem breaks_between_data (calls : List Call) :
    let s := Pending.run {} calls
    let groups := (linesAlong [] calls).splitOn []
    s.Clean ∧
      Pending.events {} calls ++ (dispatch s.data).1.toList = groups.filterMap eventOf? ∧
      (∀ event ∈ Pending.events {} calls, '\r' ∉ event.toList) ∧
      ∀ group ∈ groups, ∀ event, eventOf? group = some event →
        event.toList.count '\n' + 1 = (group.filterMap dataOf?).length := by
  intro s groups
  have along :
      Pending.events {} calls ++ (dispatch s.data).1.toList = groups.filterMap eventOf? := by
    have read := events_along [] calls
    rw [readLines_nil, drain_of_none rfl] at read
    exact read
  refine ⟨Pending.run_clean Pending.initial_clean calls, along, ?_, ?_⟩
  · intro event given
    have made : event ∈ groups.filterMap eventOf? := along ▸ List.mem_append_left _ given
    obtain ⟨group, among, made⟩ := List.mem_filterMap.mp made
    exact (breaks_in_event (unbroken_group among) made).1
  · intro group among event made
    exact (breaks_in_event (unbroken_group among) made).2

/-- A break that is cut in two, and a stream that ends with half of one. -/
example :
    let calls := [Call.feed "data: a\r", .feed "\ndata:b\r\rid: 7", .feed "\n\r", .finish]
    (linesAlong [] calls).splitOn [] =
        [["data: a".toList, "data:b".toList], ["id: 7".toList], [], []] ∧
      Pending.events {} calls = ["a\nb"] := by
  decide +kernel

end Dashboard.EventStream
