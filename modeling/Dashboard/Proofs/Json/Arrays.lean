import Dashboard.Json.Basic

/-!
# Arrays written as one

What encloses a value does not change how the value is read (`next_within`). So the text of an array
with a comma for its end, and behind it the text of another array without its start, is the text of
both arrays as one (`parse?_joined`).
-/

namespace Dashboard.Json

namespace Lexeme

/-- The lexemes that a character completes, and the place behind it. -/
def advance? : Place → Char → Option (List Lexeme × Place)
  | .bare seen, c =>
    if isSpace c then some (endWord seen, .bare [])
    else if c = quote then some (endWord seen, .quoted [])
    else match Mark.ofChar? c with
      | some m => some (endWord seen ++ [.mark m], .bare [])
      | none => some ([], .bare (c :: seen))
  | .quoted seen, c =>
    if c = quote then some ([.quoted seen.reverse], .bare [])
    else if isControl c then none
    else if c = '\\' then some ([], .escaped (c :: seen))
    else some ([], .quoted (c :: seen))
  | .escaped seen, c => some ([], .quoted (c :: seen))

theorem splitFrom_cons (place : Place) (c : Char) (cs : List Char) :
    splitFrom place (c :: cs) =
      (advance? place c).bind fun r => (splitFrom r.2 cs).map (r.1 ++ ·) := by
  cases place with
  | bare seen =>
    rw [splitFrom, advance?]
    by_cases space : isSpace c
    · simp [space]
    · rw [if_neg space, if_neg space]
      by_cases quotes : c = quote
      · simp [quotes]
      · cases Mark.ofChar? c <;> simp [quotes]
  | quoted seen =>
    rw [splitFrom, advance?]
    repeat' split
    all_goals simp
  | escaped seen => simp [splitFrom, advance?]

theorem splitFrom_comma {place : Place} {cs : List Char} {lexemes : List Lexeme}
    (cut : splitFrom place (cs ++ [']']) = some lexemes) :
    ∃ front, lexemes = front ++ [.mark .closeArray] ∧
      ∀ ds, splitFrom place (cs ++ ',' :: ds) =
        (split ds).map fun rest => front ++ .mark .comma :: rest := by
  induction cs generalizing place lexemes with
  | nil =>
    cases place with
    | bare seen =>
      cases cut
      exact ⟨endWord seen, rfl, fun ds => rfl⟩
    | quoted seen => cases cut
    | escaped seen => cases cut
  | cons c cs ih =>
    rw [List.cons_append, splitFrom_cons] at cut
    obtain ⟨⟨before, next⟩, advanced, later⟩ := Option.bind_eq_some_iff.mp cut
    obtain ⟨others, cutOthers, rfl⟩ := Option.map_eq_some_iff.mp later
    obtain ⟨front, rfl, same⟩ := ih cutOthers
    refine ⟨before ++ front, (List.append_assoc ..).symm, fun ds => ?_⟩
    simp [splitFrom_cons, advanced, same, Function.comp_def]

end Lexeme

/-! ### Tokens -/

def tokens? (cs : List Char) : Option (List Token) :=
  (Lexeme.split cs).bind (·.mapM Token.ofLexeme?)

theorem parse?_eq_bind (s : String) : parse? s = (tokens? s.toList).bind ofTokens? :=
  (Option.bind_assoc (Lexeme.split s.toList) _ _).symm

theorem mapM_ofLexeme? {lexeme : Lexeme} {t : Token} (named : Token.ofLexeme? lexeme = some t)
    (lexemes : List Lexeme) :
    (lexeme :: lexemes).mapM Token.ofLexeme? = (lexemes.mapM Token.ofLexeme?).map (t :: ·) := by
  rw [List.mapM_cons, named]
  exact Option.map_eq_bind.symm

/-- A text that begins with one lexeme has the token of this lexeme before its other tokens. -/
theorem tokens?_of_split {text cs : List Char} {lexeme : Lexeme} {t : Token}
    (cut : Lexeme.split text = (Lexeme.split cs).map (lexeme :: ·))
    (named : Token.ofLexeme? lexeme = some t) : tokens? text = (tokens? cs).map (t :: ·) := by
  rw [tokens?, tokens?, cut, Option.bind_map, Option.map_bind]
  simp only [Function.comp_def, mapM_ofLexeme? named]

def Mark.char : Mark → Char
  | openArray => '['
  | closeArray => ']'
  | openObject => '\x7b'
  | closeObject => '\x7d'
  | comma => ','
  | colon => ':'

theorem tokens?_mark (m : Mark) (cs : List Char) :
    tokens? (m.char :: cs) = (tokens? cs).map (.mark m :: ·) := by
  have cut : Lexeme.split (m.char :: cs) = (Lexeme.split cs).map (.mark m :: ·) := by
    cases m <;> exact Lexeme.splitFrom_cons (.bare []) _ cs
  exact tokens?_of_split cut rfl

theorem tokens?_comma {cs : List Char} {ts : List Token} (read : tokens? (cs ++ [']']) = some ts) :
    ∃ front, ts = front ++ [.mark .closeArray] ∧
      ∀ ds, tokens? (cs ++ ',' :: ds) =
        (tokens? ds).map fun rest => front ++ .mark .comma :: rest := by
  obtain ⟨lexemes, cut, named⟩ := Option.bind_eq_some_iff.mp read
  obtain ⟨before, rfl, same⟩ := Lexeme.splitFrom_comma cut
  rw [List.mapM_append] at named
  obtain ⟨front, named, last⟩ := Option.bind_eq_some_iff.mp named
  refine ⟨front, (Option.some.inj last).symm, fun ds => ?_⟩
  rw [tokens?, tokens?, Lexeme.split, same]
  cases Lexeme.split ds with
  | none => rfl
  | some lexemes =>
    have comma := mapM_ofLexeme? (rfl : Token.ofLexeme? (.mark .comma) = some _) lexemes
    rw [Option.map_some, Option.bind_some, Option.bind_some, List.mapM_append, named, comma]
    cases lexemes.mapM Token.ofLexeme? <;> rfl

/-! ### Trees -/

namespace Phase

def within (outer : List Frame) : Phase → Phase
  | value frames => .value (frames ++ outer)
  | firstItem frames => .firstItem (frames ++ outer)
  | firstName frames => .firstName (frames ++ outer)
  | name before frames => .name before (frames ++ outer)
  | colon before key frames => .colon before key (frames ++ outer)
  | done v frames => .done v (frames ++ outer)

theorem next_within (outer : List Frame) {ph : Phase} (unfinished : ∀ v, ph ≠ .done v [])
    (t : Token) : (ph.within outer).next t = (ph.next t).map (within outer) := by
  cases ph with
  | done v frames =>
    cases frames with
    | nil => exact absurd rfl (unfinished v)
    | cons frame frames =>
      cases frame <;> rcases t with (_ | _ | _ | _ | _ | _) | _ | _ <;> rfl
  | _ => rcases t with (_ | _ | _ | _ | _ | _) | _ | _ <;> rfl

theorem eq_nil_of_done {v : Json} {ts : List Token} {ph : Phase}
    (read : ts.foldlM next (.done v []) = some ph) : ts = [] ∧ ph = .done v [] := by
  cases ts with
  | nil => exact ⟨rfl, (Option.some.inj read).symm⟩
  | cons t ts => rw [List.foldlM_cons] at read; cases read

/-- An array that has begun is read to its end in the same way if more items stand before. -/
theorem foldlM_within_array (ph : Phase) (items : List Json) {vs : List Json} {ts : List Token}
    (read : ts.foldlM next (ph.within [.array items]) = some (.done (.array vs) []))
    (earlier : List Json) :
    ts.foldlM next (ph.within [.array (items ++ earlier)]) =
      some (.done (.array (earlier.reverse ++ vs)) []) := by
  induction ts generalizing ph items with
  | nil => cases ph <;> simp [within] at read
  | cons t ts ih =>
    -- Only when an item is complete does the next token go to the array itself.
    by_cases complete : ∃ v, ph = .done v []
    · obtain ⟨v, rfl⟩ := complete
      rw [List.foldlM_cons] at read ⊢
      cases t with
      | mark m => cases m with
        | comma => exact ih (.value []) (v :: items) read
        | closeArray =>
          obtain ⟨rfl, same⟩ := eq_nil_of_done read
          cases same
          simp [within, next]
        | _ => cases read
      | _ => cases read
    · rw [not_exists] at complete
      rw [List.foldlM_cons, next_within _ complete] at read ⊢
      cases step : ph.next t with
      | none => rw [step] at read; cases read
      | some ph' =>
        rw [step] at read
        exact ih ph' items read

theorem eq_done_of_closeArray {ph : Phase} {x : Json} {xs : List Json}
    (closed : ph.next (.mark .closeArray) = some (.done (.array (x :: xs)) [])) :
    ∃ v items, ph = .done v [.array items] ∧ (v :: items).reverse = x :: xs := by
  cases ph with
  | firstItem frames => simp [next] at closed
  | done v frames => match frames, closed with
    | .array items :: outer, closed =>
      rw [next, Option.some.injEq, done.injEq, array.injEq] at closed
      obtain ⟨same, rfl⟩ := closed
      exact ⟨v, items, rfl, same⟩
  | _ => cases closed

end Phase

theorem ofTokens?_eq_some {ts : List Token} {v : Json} :
    ofTokens? ts = some v ↔ ts.foldlM Phase.next (.value []) = some (.done v []) := by
  rw [ofTokens?, Option.bind_eq_some_iff]
  constructor
  · rintro ⟨ph, read, result⟩
    match ph, result with
    | .done w [], result => cases result; exact read
  · exact fun read => ⟨_, read, rfl⟩

/-- Behind the start of an array that holds anything comes its first item. -/
theorem foldlM_value_of_firstItem {ts : List Token} {y : Json} {ys : List Json}
    (read : ts.foldlM Phase.next (.firstItem []) = some (.done (.array (y :: ys)) [])) :
    ts.foldlM Phase.next (.value [.array []]) = some (.done (.array (y :: ys)) []) := by
  cases ts with
  | nil => cases read
  | cons t ts =>
    rw [List.foldlM_cons] at read ⊢
    cases t with
    | mark m => cases m with
      | closeArray => cases (Phase.eq_nil_of_done read).2
      | _ => exact read
    | _ => exact read

theorem ofTokens?_joined {ts ts' : List Token} {x y : Json} {xs ys : List Json}
    (first : ofTokens? (ts ++ [.mark .closeArray]) = some (.array (x :: xs)))
    (second : ofTokens? (.mark .openArray :: ts') = some (.array (y :: ys))) :
    ofTokens? (ts ++ .mark .comma :: ts') = some (.array (x :: xs ++ y :: ys)) := by
  rw [ofTokens?_eq_some, List.foldlM_append] at first ⊢
  obtain ⟨ph, read, closed⟩ := Option.bind_eq_some_iff.mp first
  rw [List.foldlM_cons, Option.bind_eq_bind, Option.bind_eq_some_iff] at closed
  obtain ⟨after, closed, rest⟩ := closed
  obtain ⟨v, items, rfl, same⟩ := Phase.eq_done_of_closeArray (closed.trans rest)
  rw [read, ← same, ← List.reverse_nil]
  exact Phase.foldlM_within_array (.value []) []
    (foldlM_value_of_firstItem (ofTokens?_eq_some.mp second)) (v :: items)

theorem parse?_joined {a b : String} {x y : Json} {xs ys : List Json}
    (first : parse? (a ++ "]") = some (.array (x :: xs)))
    (second : parse? ("[" ++ b) = some (.array (y :: ys))) :
    parse? (a ++ "," ++ b) = some (.array (x :: xs ++ y :: ys)) := by
  rw [parse?_eq_bind, String.toList_append] at first second
  obtain ⟨ts, read, made⟩ := Option.bind_eq_some_iff.mp first
  obtain ⟨front, rfl, same⟩ := tokens?_comma read
  obtain ⟨ts', opened, made'⟩ := Option.bind_eq_some_iff.mp second
  have opened' := (tokens?_mark .openArray b.toList).symm.trans opened
  obtain ⟨back, read', rfl⟩ := Option.map_eq_some_iff.mp opened'
  have joined : tokens? (a ++ "," ++ b).toList = some (front ++ .mark .comma :: back) := by
    rw [String.toList_append, String.toList_append, List.append_assoc]
    refine (same b.toList).trans ?_
    rw [read', Option.map_some]
  rw [parse?_eq_bind, joined]
  exact ofTokens?_joined made made'

end Dashboard.Json
