/-!
# Event streams

A `text/event-stream` arrives in chunks that may be cut anywhere. `Pending` is what has arrived but
not been given out: the text after the last line that was acted on, and the data lines of the
unfinished event. `feed` takes a chunk and acts on the lines it completes; `finish` acts on what is
left when the stream ends.
-/

namespace Dashboard.EventStream

inductive Line where
  /-- Ends the event. -/
  | blank
  | data (value : String)
  /-- A comment, or a field that carries no data. -/
  | skipped
  deriving DecidableEq

/-- The name and the value of a field: what stands before and after the first colon, less one space
after the colon. -/
def fieldOf : List Char → List Char × List Char
  | [] => ([], [])
  | ':' :: ' ' :: value => ([], value)
  | ':' :: value => ([], value)
  | c :: rest => (c :: (fieldOf rest).1, (fieldOf rest).2)

def Line.ofChars (line : List Char) : Line :=
  if line = [] then .blank
  else if line.head? = some ':' then .skipped
  else if (fieldOf line).1 = "data".toList then .data (String.ofList (fieldOf line).2)
  else .skipped

/-- The first complete line of a text and what follows its break. A line feed right after a carriage
return belongs to the same break, so a carriage return at the very end completes no line yet. -/
def firstLine? : List Char → Option (List Char × List Char)
  | [] => none
  | c :: rest =>
    if c = '\n' then some ([], rest)
    else if c = '\r' then
      match rest with
      | [] => none
      | '\n' :: after => some ([], after)
      | _ => some ([], rest)
    else (firstLine? rest).map fun (line, after) => (c :: line, after)

theorem length_lt_of_firstLine? {text line rest : List Char}
    (found : firstLine? text = some (line, rest)) : rest.length < text.length := by
  fun_induction firstLine? text generalizing line with
  | case1 | case3 => cases found
  | case2 | case4 | case5 => cases found; simp +arith
  | case6 c text _ _ ih =>
    obtain ⟨⟨line, after⟩, inner, same⟩ := Option.map_eq_some_iff.mp found
    cases same
    exact Nat.lt_succ_of_lt (ih inner)

def trimReturns (text : List Char) : List Char :=
  (text.reverse.dropWhile (· = '\r')).reverse

/-- Gives out the data lines as one event, unless there are none. -/
def dispatch (data : List String) : Option String × List String :=
  if data = [] then (none, []) else (some ("\n".intercalate data), [])

def takeLine (data : List String) (line : List Char) : Option String × List String :=
  match Line.ofChars line with
  | .blank => dispatch data
  | .data value => (none, data ++ [value])
  | .skipped => (none, data)

structure Pending where
  line : String := ""
  data : List String := []
  deriving DecidableEq

/-- Acts on the complete lines of a text in order and keeps the rest. -/
def drain (data : List String) (text : List Char) : List String × Pending :=
  match _found : firstLine? text with
  | none => ([], { line := String.ofList text, data })
  | some (line, rest) =>
    let taken := takeLine data line
    let others := drain taken.2 rest
    (taken.1.toList ++ others.1, others.2)
termination_by text.length
decreasing_by exact length_lt_of_firstLine? _found

namespace Pending

def feed (s : Pending) (chunk : String) : List String × Pending :=
  drain s.data (s.line.toList ++ chunk.toList)

/-- Gives out the event that is still pending when the stream ends, whose last line may be
unterminated. -/
def finish (s : Pending) : Option String × Pending :=
  if s.line = "" then
    ((dispatch s.data).1, { s with data := (dispatch s.data).2 })
  else
    let taken := takeLine s.data (trimReturns s.line.toList)
    match taken.1 with
    | some event => (some event, { data := taken.2 })
    | none => ((dispatch taken.2).1, { data := (dispatch taken.2).2 })

end Pending

end Dashboard.EventStream
