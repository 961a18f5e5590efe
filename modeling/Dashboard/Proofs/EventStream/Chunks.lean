import Dashboard.EventStream

/-!
# Cutting a stream into chunks

Text that arrives later never changes a line that is complete (`firstLine?_append`), so draining a
text in two parts gives what draining it at once gives (`drain_append`). What a drained text leaves
holds no complete line (`drain_settled`), and an empty chunk does nothing to it. Hence a decoder does
not see where its stream was cut (`feedAll_eq_feed_join`).
-/

namespace Dashboard.EventStream

theorem firstLine?_append {text line rest : List Char} (more : List Char)
    (found : firstLine? text = some (line, rest)) :
    firstLine? (text ++ more) = some (line, rest ++ more) := by
  fun_induction firstLine? text generalizing line with
  | case1 | case3 => cases found
  | case2 | case4 => cases found; rfl
  | case5 _ notEnd notFeed _ =>
    -- A character that is no line feed has already followed the carriage return.
    cases found
    cases rest with
    | nil => exact (notEnd rfl).elim
    | cons c rest =>
      have differs : c ≠ '\n' := fun same => notFeed rest (by rw [same])
      simp [firstLine?, differs]
  | case6 c text notFeed notReturn ih =>
    obtain ⟨⟨line, after⟩, inner, same⟩ := Option.map_eq_some_iff.mp found
    cases same
    simp [firstLine?, notFeed, notReturn, ih inner]

theorem drain_of_none {data : List String} {text : List Char} (none : firstLine? text = none) :
    drain data text = ([], { line := String.ofList text, data }) := by
  rw [drain]
  split
  · rfl
  · next found => rw [none] at found; cases found

theorem drain_of_some {data : List String} {text line rest : List Char}
    (found : firstLine? text = some (line, rest)) :
    drain data text = ((takeLine data line).1.toList ++ (drain (takeLine data line).2 rest).1,
      (drain (takeLine data line).2 rest).2) := by
  rw [drain]
  split
  · next none => rw [none] at found; cases found
  · next again => rw [found] at again; cases again; rfl

theorem drain_append (data : List String) (text more : List Char) :
    drain data (text ++ more) =
      ((drain data text).1 ++ ((drain data text).2.feed (String.ofList more)).1,
        ((drain data text).2.feed (String.ofList more)).2) := by
  fun_induction drain data text with
  | case1 data text none => simp [Pending.feed]
  | case2 data text line rest found taken others ih =>
    rw [drain_of_some (firstLine?_append more found), ih]
    simp only [List.append_assoc, taken, others]

namespace Pending

theorem feed_append (s : Pending) (a b : String) :
    s.feed (a ++ b) = ((s.feed a).1 ++ ((s.feed a).2.feed b).1, ((s.feed a).2.feed b).2) := by
  have cut := drain_append s.data (s.line.toList ++ a.toList) b.toList
  rw [String.ofList_toList] at cut
  rw [feed, String.toList_append, ← List.append_assoc]
  exact cut

/-- No line of the text that waits is complete. -/
def Settled (s : Pending) : Prop :=
  firstLine? s.line.toList = none

theorem initial_settled : Settled {} := rfl

theorem drain_settled (data : List String) (text : List Char) : (drain data text).2.Settled := by
  fun_induction drain data text with
  | case1 data text none => simpa [Settled] using none
  | case2 data text line rest found taken others ih => exact ih

theorem feed_empty {s : Pending} (settled : s.Settled) : s.feed "" = ([], s) := by
  rw [feed, String.toList_empty, List.append_nil, drain_of_none settled, String.ofList_toList]

theorem takeLine_state {data : List String} {line : List Char} {event : String}
    (given : (takeLine data line).1 = some event) : (takeLine data line).2 = [] := by
  unfold takeLine dispatch at *
  split at given
  · split <;> rfl
  · cases given
  · cases given

theorem dispatch_state (data : List String) : (dispatch data).2 = [] := by
  unfold dispatch
  split <;> rfl

theorem finish_state (s : Pending) : s.finish.2 = {} := by
  unfold finish
  split
  · next empty => simp only [dispatch_state, empty]
  · dsimp only
    split
    · next event given => rw [takeLine_state given]
    · rw [dispatch_state]

end Pending

/-! ### Runs -/

inductive Call where
  | feed (chunk : String)
  | finish

namespace Pending

def step (s : Pending) : Call → Pending
  | .feed chunk => (s.feed chunk).2
  | .finish => s.finish.2

def run : Pending → List Call → Pending
  | s, [] => s
  | s, call :: rest => (s.step call).run rest

theorem step_settled (s : Pending) (call : Call) : (s.step call).Settled := by
  cases call with
  | feed chunk => exact drain_settled ..
  | finish => rw [step, finish_state]; exact initial_settled

theorem run_settled {s : Pending} (settled : s.Settled) (calls : List Call) :
    (s.run calls).Settled := by
  induction calls generalizing s with
  | nil => exact settled
  | cons call rest ih => exact ih (step_settled s call)

def feedAll (s : Pending) : List String → List String × Pending
  | [] => ([], s)
  | chunk :: rest =>
    let first := s.feed chunk
    let others := first.2.feedAll rest
    (first.1 ++ others.1, others.2)

theorem feedAll_eq_feed_join {s : Pending} (settled : s.Settled) (chunks : List String) :
    s.feedAll chunks = s.feed (String.join chunks) := by
  induction chunks generalizing s with
  | nil => rw [feedAll, String.join_nil, feed_empty settled]
  | cons chunk rest ih =>
    have after : (s.feed chunk).2.Settled := drain_settled ..
    rw [feedAll, ih after, String.join_cons, feed_append]

/-- A decoder, whatever it was called with before, does not see where its stream is cut: two chunks
act as one, and two ways of cutting one text give the same events and leave the same state. -/
theorem feed_independent_of_cuts (calls : List Call) :
    let s := Pending.run {} calls
    (∀ a b : String,
      s.feed (a ++ b) = ((s.feed a).1 ++ ((s.feed a).2.feed b).1, ((s.feed a).2.feed b).2)) ∧
    ∀ chunks chunks' : List String, String.join chunks = String.join chunks' →
      s.feedAll chunks = s.feedAll chunks' := by
  intro s
  have settled : s.Settled := run_settled initial_settled calls
  refine ⟨feed_append s, ?_⟩
  intro chunks chunks' same
  rw [feedAll_eq_feed_join settled, feedAll_eq_feed_join settled, same]

/-- A stream whose line breaks are cut in two. -/
theorem feed_independent_of_cuts_crlf :
    String.join ["\n", "", "\r", "\n"] = String.join ["\n\r\n"] ∧
      (Pending.run {} [.feed "data: a\r"]).feedAll ["\n", "", "\r", "\n"] =
        (Pending.run {} [.feed "data: a\r"]).feedAll ["\n\r\n"] :=
  ⟨by decide, (feed_independent_of_cuts [.feed "data: a\r"]).2 _ _ (by decide)⟩

end Pending

end Dashboard.EventStream
