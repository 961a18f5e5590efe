import Dashboard.Proofs.EventStream.Chunks

/-!
# The events of a whole text

`eventsOf` reads the text of a stream as a whole: it cuts the text into lines and the lines into
groups at the empty ones, and takes one event out of each group that has data. A decoder gives out
these events however the text is cut (`decode_eq`).
-/

namespace Dashboard.EventStream

def extendFirst (c : Char) : List (List Char) → List (List Char)
  | [] => [[c]]
  | line :: rest => (c :: line) :: rest

/-- The lines of a text. A rest without a line break is a line, unless it is empty. -/
def linesOf : List Char → List (List Char)
  | [] => []
  | '\r' :: '\n' :: rest => [] :: linesOf rest
  | '\r' :: rest => [] :: linesOf rest
  | '\n' :: rest => [] :: linesOf rest
  | c :: rest => extendFirst c (linesOf rest)

def stripSpace : List Char → List Char
  | ' ' :: text => text
  | text => text

def dataOf? (line : List Char) : Option String :=
  if line.takeWhile (· ≠ ':') = "data".toList ∧ line.head? ≠ some ':' then
    some (String.ofList (stripSpace ((line.dropWhile (· ≠ ':')).drop 1)))
  else none

def eventOf? (group : List (List Char)) : Option String :=
  if group.filterMap dataOf? = [] then none
  else some ("\n".intercalate (group.filterMap dataOf?))

def eventsOf (text : String) : List String :=
  ((linesOf text.toList).splitOn []).filterMap eventOf?

theorem fieldOf_eq (line : List Char) :
    fieldOf line =
      (line.takeWhile (· ≠ ':'), stripSpace ((line.dropWhile (· ≠ ':')).drop 1)) := by
  fun_induction fieldOf line with
  | case1 => rfl
  | case2 value => simp [stripSpace]
  | case3 value notSpace => simp [stripSpace]
  | case4 c rest _ notColon ih =>
    have differs : c ≠ ':' := notColon
    simp [differs, ih]

theorem takeLine_eq (data : List String) (line : List Char) :
    takeLine data line =
      if line = [] then dispatch data else (none, data ++ (dataOf? line).toList) := by
  by_cases blank : line = []
  · simp [takeLine, Line.ofChars, blank]
  rw [if_neg blank, takeLine, Line.ofChars, if_neg blank, dataOf?, fieldOf_eq]
  by_cases comment : line.head? = some ':'
  · rw [if_pos comment, if_neg (fun both => both.2 comment), Option.toList_none, List.append_nil]
  rw [if_neg comment]
  by_cases named : line.takeWhile (· ≠ ':') = "data".toList
  · rw [if_pos named, if_pos ⟨named, comment⟩, Option.toList_some]
  · rw [if_neg named, if_neg (fun both => named both.1), Option.toList_none, List.append_nil]

/-- The events that the lines complete, and at last the event that is still pending. -/
def readLines (data : List String) : List (List Char) → List String
  | [] => (dispatch data).1.toList
  | line :: rest => (takeLine data line).1.toList ++ readLines (takeLine data line).2 rest

theorem readLines_append (data : List String) (lines rest : List (List Char)) :
    readLines data (lines ++ [] :: rest) = readLines data lines ++ readLines [] rest := by
  induction lines generalizing data with
  | nil =>
    rw [List.nil_append, readLines.eq_2, takeLine_eq, if_pos rfl, Pending.dispatch_state, readLines]
  | cons line lines ih => rw [List.cons_append, readLines, readLines, ih, List.append_assoc]

theorem eventOf?_eq_some_iff {group : List (List Char)} {event : String} :
    eventOf? group = some event ↔
      group.filterMap dataOf? ≠ [] ∧ "\n".intercalate (group.filterMap dataOf?) = event := by
  unfold eventOf?
  split
  · next none => simp [none]
  · next nonempty => rw [Option.some_inj, and_iff_right nonempty]

theorem dispatch_event (group : List (List Char)) :
    (dispatch (group.filterMap dataOf?)).1 = eventOf? group := by
  unfold dispatch eventOf?
  split <;> rfl

theorem filterMap_eventOf?_cons (group : List (List Char)) (groups : List (List (List Char))) :
    (group :: groups).filterMap eventOf? =
      (dispatch (group.filterMap dataOf?)).1.toList ++ groups.filterMap eventOf? := by
  rw [dispatch_event, List.filterMap_cons]
  cases eventOf? group <;> rfl

/-- Pending data goes in front of the data of the first group. -/
theorem readLines_eq {lines group : List (List Char)} {groups : List (List (List Char))}
    (data : List String) (cut : lines.splitOn [] = group :: groups) :
    readLines data lines =
      (dispatch (data ++ group.filterMap dataOf?)).1.toList ++ groups.filterMap eventOf? := by
  induction lines generalizing data group groups with
  | nil =>
    cases cut
    simp [readLines]
  | cons line rest ih =>
    obtain ⟨first, others, inner⟩ := List.exists_cons_of_ne_nil (List.splitOn_ne_nil [] rest)
    rw [List.splitOn_cons_eq_if_modifyHead, inner] at cut
    rw [readLines, takeLine_eq]
    by_cases blank : line = []
    · subst blank
      cases cut
      rw [if_pos rfl, Pending.dispatch_state, ih [] inner, filterMap_eventOf?_cons]
      simp
    · rw [if_neg (by simpa using blank)] at cut
      cases cut
      rw [if_neg blank, ih _ inner]
      cases read : dataOf? line <;> simp [read]

theorem readLines_nil (lines : List (List Char)) :
    readLines [] lines = (lines.splitOn []).filterMap eventOf? := by
  obtain ⟨group, groups, cut⟩ := List.exists_cons_of_ne_nil (List.splitOn_ne_nil [] lines)
  rw [readLines_eq [] cut, cut, filterMap_eventOf?_cons, List.nil_append]

theorem linesOf_cons {c : Char} (notFeed : c ≠ '\n') (notReturn : c ≠ '\r') (text : List Char) :
    linesOf (c :: text) = extendFirst c (linesOf text) := by
  rw [linesOf]
  · intro _ same _; exact notReturn same
  · exact notReturn
  · exact notFeed

theorem linesOf_of_some {text line rest : List Char} (found : firstLine? text = some (line, rest)) :
    linesOf text = line :: linesOf rest := by
  fun_induction firstLine? text generalizing line with
  | case1 | case3 => cases found
  | case2 | case4 => cases found; simp [linesOf]
  | case5 _ notEnd notFeed _ =>
    cases found
    rw [linesOf]
    exact notFeed
  | case6 c text notFeed notReturn ih =>
    obtain ⟨⟨line, after⟩, inner, same⟩ := Option.map_eq_some_iff.mp found
    cases same
    rw [linesOf_cons notFeed notReturn, ih inner, extendFirst]

theorem trimReturns_cons {c : Char} (differs : c ≠ '\r') (text : List Char) :
    trimReturns (c :: text) = c :: trimReturns text := by
  rw [trimReturns, trimReturns, List.reverse_cons, List.dropWhile_append]
  split
  · next none =>
    rw [List.isEmpty_iff.mp none]
    simp [differs]
  · simp

theorem linesOf_of_none {text : List Char} (none : firstLine? text = none) :
    linesOf text = if text = [] then [] else [trimReturns text] := by
  fun_induction firstLine? text with
  | case1 => rfl
  | case2 | case4 | case5 => cases none
  | case3 => rfl
  | case6 c text notFeed notReturn ih =>
    have inner := ih (Option.map_eq_none_iff.mp none)
    rw [linesOf_cons notFeed notReturn, inner, if_neg (List.cons_ne_nil c text),
      trimReturns_cons notReturn]
    split
    · next empty => rw [empty]; rfl
    · rfl

/-! ### The decoder -/

theorem finish_event {s : Pending} (settled : s.Settled) :
    s.finish.1.toList = readLines s.data (linesOf s.line.toList) := by
  rw [linesOf_of_none settled, Pending.finish]
  by_cases empty : s.line = ""
  · rw [if_pos empty, if_pos (String.toList_eq_nil_iff.mpr empty), readLines]
  · rw [if_neg empty, if_neg (fun nil => empty (String.toList_eq_nil_iff.mp nil))]
    simp only [readLines]
    split
    · next event given =>
      rw [given, Pending.takeLine_state given]
      rfl
    · next none => rw [none]; rfl

theorem drain_finish (data : List String) (text : List Char) :
    (drain data text).1 ++ (drain data text).2.finish.1.toList = readLines data (linesOf text) := by
  fun_induction drain data text with
  | case1 data text none =>
    rw [List.nil_append, finish_event (by simpa [Pending.Settled] using none), String.toList_ofList]
  | case2 data text line rest found taken others ih =>
    rw [linesOf_of_some found, readLines, ← ih, List.append_assoc]

def Pending.decode (s : Pending) (chunks : List String) : List String × Pending :=
  let fed := s.feedAll chunks
  (fed.1 ++ fed.2.finish.1.toList, fed.2.finish.2)

theorem decode_eq (chunks : List String) :
    Pending.decode {} chunks = (eventsOf (String.join chunks), {}) := by
  have whole : Pending.feedAll {} chunks = Pending.feed {} (String.join chunks) :=
    Pending.feedAll_eq_feed_join Pending.initial_settled chunks
  refine Prod.ext ?_ (Pending.finish_state _)
  rw [Pending.decode, whole]
  exact (drain_finish _ _).trans (readLines_nil _)

/-- A new decoder gives out the events of the whole text, however the text is cut into chunks. When
the stream has ended, nothing is left to give out and what comes later is decoded from the start. -/
theorem events_of_chunks (chunks : List String) :
    Pending.decode {} chunks = (eventsOf (String.join chunks), {}) ∧
      (Pending.decode {} chunks).2.finish = (none, {}) ∧
      ∀ later : List String,
        (Pending.decode {} chunks).2.feedAll later = Pending.feedAll {} later := by
  have decoded := decode_eq chunks
  refine ⟨decoded, ?_, ?_⟩
  · rw [decoded]
    rfl
  · intro later
    rw [decoded]

end Dashboard.EventStream
