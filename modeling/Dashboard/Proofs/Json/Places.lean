import Dashboard.Proofs.Json.Spelled

/-!
# Places in a text

`reached?` reads a text up to a place between two tokens. What follows a value at that place is read
without regard to the value: either it cannot be read whatever the value is, or it closes the
enclosing frames around the value (`rest?_done`).
-/

namespace Dashboard.Json

namespace Lexeme

/-- The lexemes that a text completes, and where it leaves off. -/
def cut? : Place → List Char → Option (List Lexeme × Place)
  | place, [] => some ([], place)
  | place, c :: cs => do
    let (first, next) ← advance? place c
    let (others, last) ← cut? next cs
    return (first ++ others, last)

theorem splitFrom_append (place : Place) (cs ds : List Char) :
    splitFrom place (cs ++ ds) =
      (cut? place cs).bind fun r => (splitFrom r.2 ds).map (r.1 ++ ·) := by
  induction cs generalizing place with
  | nil => simp [cut?]
  | cons c cs ih =>
    rw [List.cons_append, splitFrom_cons, cut?]
    cases advance? place c with
    | none => rfl
    | some step =>
      obtain ⟨first, next⟩ := step
      simp only [Option.bind_some, Option.bind_eq_bind, ih]
      cases cut? next cs with
      | none => rfl
      | some rest => simp [Function.comp_def]

end Lexeme

/-- What may come next after a text that ends between two tokens. -/
def reached? (text : String) : Option Phase :=
  match Lexeme.cut? (.bare []) text.toList with
  | some (lexemes, .bare []) => do
    let tokens ← lexemes.mapM Token.ofLexeme?
    tokens.foldlM Phase.next (.value [])
  | _ => none

/-- The value that is complete when the rest of a text has been read. -/
def Phase.rest? (ph : Phase) (rest : List Char) : Option Json :=
  (tokens? rest).bind fun ts => (ts.foldlM next ph).bind result?

theorem tokens?_append {cs : List Char} {lexemes : List Lexeme} {ts : List Token}
    (cut : Lexeme.cut? (.bare []) cs = some (lexemes, .bare []))
    (named : lexemes.mapM Token.ofLexeme? = some ts) (rest : List Char) :
    tokens? (cs ++ rest) = (tokens? rest).map (ts ++ ·) := by
  rw [tokens?, tokens?, Lexeme.split, Lexeme.splitFrom_append, cut, Option.bind_some,
    ← Lexeme.split]
  cases Lexeme.split rest with
  | none => rfl
  | some others =>
    rw [Option.map_some, Option.bind_some, Option.bind_some, List.mapM_append, named]
    cases others.mapM Token.ofLexeme? <;> rfl

theorem parse?_append {text : String} {ph : Phase} (reached : reached? text = some ph)
    (rest : String) : parse? (text ++ rest) = ph.rest? rest.toList := by
  unfold reached? at reached
  split at reached
  · next lexemes cut =>
    obtain ⟨ts, named, read⟩ := Option.bind_eq_some_iff.mp reached
    rw [parse?_eq_bind, String.toList_append, tokens?_append cut named, Phase.rest?]
    cases tokens? rest.toList with
    | none => rfl
    | some others =>
      rw [Option.map_some, Option.bind_some, Option.bind_some, ofTokens?, List.foldlM_append, read]
      rfl
  · cases reached

inductive Phase.Awaits : Phase → List Frame → Prop where
  | value (frames : List Frame) : Awaits (.value frames) frames
  | firstItem (frames : List Frame) : Awaits (.firstItem frames) (.array [] :: frames)

def Token.value? : Token → Option Json
  | mark _ => none
  | string text => some (.string text)
  | scalar v => some v

/-- The text is one token, a value, if this follows. -/
def Writes (text post : List Char) (v : Json) : Prop :=
  ∃ t : Token, t.value? = some v ∧ tokens? (text ++ post) = (tokens? post).map (t :: ·)

theorem Phase.Awaits.next {ph : Phase} {frames : List Frame} (awaits : ph.Awaits frames) {t : Token}
    {v : Json} (value : t.value? = some v) : ph.next t = some (.done v frames) := by
  cases t with
  | mark m => cases value
  | string text => cases value; cases awaits <;> rfl
  | scalar w => cases value; cases awaits <;> rfl

theorem Phase.Awaits.rest? {ph : Phase} {frames : List Frame} (awaits : ph.Awaits frames)
    {text post : List Char} {v : Json} (writes : Writes text post v) :
    ph.rest? (text ++ post) = (Phase.done v frames).rest? post := by
  obtain ⟨t, value, read⟩ := writes
  rw [Phase.rest?, Phase.rest?, read]
  cases tokens? post with
  | none => rfl
  | some ts =>
    rw [Option.map_some, Option.bind_some, Option.bind_some, List.foldlM_cons, awaits.next value]
    rfl

theorem writes_string {s : String} {inner : List Char} (spelled : Spelled s.toList inner)
    (post : List Char) : Writes ('\"' :: (inner ++ ['\"'])) post (.string (some s)) := by
  refine ⟨.string (some s), rfl, ?_⟩
  rw [List.cons_append, List.append_assoc]
  exact tokens?_string spelled post

/-! ### What follows a value -/

/-- What a frame is closed to around a value when nothing is left of it but what stands behind. -/
inductive Frame.Closes : Frame → (Json → Json) → Prop where
  | array (items back : List Json) :
      Closes (.array items) fun v => .array (items.reverse ++ v :: back)
  | object (before : List (Option String × Json)) (name : Option String)
      (back : List (Option String × Json)) :
      Closes (.object before name) fun v => .object (before.reverse ++ (name, v) :: back)

inductive ClosesAll : List Frame → (Json → Json) → Prop where
  | nil : ClosesAll [] id
  | cons {frame : Frame} {frames : List Frame} {close closeAll : Json → Json}
      (first : frame.Closes close) (others : ClosesAll frames closeAll) :
      ClosesAll (frame :: frames) fun v => closeAll (close v)

/-- The phases of a frame that holds a value, from the value on, as functions of the value. -/
inductive Holding (frames : List Frame) : Frame → (Json → Phase) → Prop where
  | here (frame : Frame) : Holding frames frame fun v => .done v (frame :: frames)
  | items (ph : Phase) (items later : List Json) :
      Holding frames (.array items) fun v =>
        ph.within (.array (later ++ v :: items) :: frames)
  | members (ph : Phase) (before later : List (Option String × Json)) (name last : Option String) :
      Holding frames (.object before name) fun v =>
        ph.within (.object (later ++ (name, v) :: before) last :: frames)
  | name (before later : List (Option String × Json)) (name : Option String) :
      Holding frames (.object before name) fun v => .name (later ++ (name, v) :: before) frames
  | colon (before later : List (Option String × Json)) (name last : Option String) :
      Holding frames (.object before name) fun v =>
        .colon (later ++ (name, v) :: before) last frames

namespace Holding

variable {frames : List Frame} {frame : Frame} {phase : Json → Phase}

/-- What a token does is the same for every value. -/
inductive Step (frames : List Frame) (frame : Frame) (phase : Json → Phase) (t : Token) : Prop where
  | fails (refused : ∀ v, (phase v).next t = none)
  | goes {phase' : Json → Phase} (holding : Holding frames frame phase')
      (step : ∀ v, (phase v).next t = some (phase' v))
  | closes {close : Json → Json} (closes : frame.Closes close)
      (step : ∀ v, (phase v).next t = some (.done (close v) frames))

theorem step_here (frame : Frame) (t : Token) :
    Step frames frame (fun v => .done v (frame :: frames)) t := by
  cases frame with
  | array items =>
    rcases t with (_ | _ | _ | _ | _ | _) | _ | _
    case mark.comma => exact .goes (.items (.value []) items []) fun _ => rfl
    case mark.closeArray =>
      refine .closes (.array items []) fun v => ?_
      simp [Phase.next]
    all_goals exact .fails fun _ => rfl
  | object before name =>
    rcases t with (_ | _ | _ | _ | _ | _) | _ | _
    case mark.comma => exact .goes (.name before [] name) fun _ => rfl
    case mark.closeObject =>
      refine .closes (.object before name []) fun v => ?_
      simp [Phase.next]
    all_goals exact .fails fun _ => rfl

/-- Inside a later item nothing is done to the frame. -/
theorem step_inside {outer : Json → List Frame} {ph : Phase}
    (holding : ∀ ph : Phase, Holding frames frame fun v => ph.within (outer v))
    (unfinished : ∀ w, ph ≠ .done w []) (t : Token) :
    Step frames frame (fun v => ph.within (outer v)) t := by
  cases next : ph.next t with
  | none => exact .fails fun v => by rw [Phase.next_within _ unfinished, next]; rfl
  | some ph' => exact .goes (holding ph') fun v => by rw [Phase.next_within _ unfinished, next]; rfl

theorem step (holding : Holding frames frame phase) (t : Token) : Step frames frame phase t := by
  cases holding with
  | here => exact step_here frame t
  | items ph items later =>
    by_cases complete : ∃ w, ph = .done w []
    · obtain ⟨w, rfl⟩ := complete
      rcases t with (_ | _ | _ | _ | _ | _) | _ | _
      case mark.comma => exact .goes (.items (.value []) items (w :: later)) fun _ => rfl
      case mark.closeArray =>
        refine .closes (.array items (later.reverse ++ [w])) fun v => ?_
        simp [Phase.within, Phase.next]
      all_goals exact .fails fun _ => rfl
    · exact step_inside (.items · items later) (not_exists.mp complete) t
  | members ph before later name last =>
    by_cases complete : ∃ w, ph = .done w []
    · obtain ⟨w, rfl⟩ := complete
      rcases t with (_ | _ | _ | _ | _ | _) | _ | _
      case mark.comma => exact .goes (.name before ((last, w) :: later) name) fun _ => rfl
      case mark.closeObject =>
        refine .closes (.object before name (later.reverse ++ [(last, w)])) fun v => ?_
        simp [Phase.within, Phase.next]
      all_goals exact .fails fun _ => rfl
    · exact step_inside (.members · before later name last) (not_exists.mp complete) t
  | name before later name =>
    cases t with
    | string text => exact .goes (.colon before later name text) fun _ => rfl
    | _ => exact .fails fun _ => rfl
  | colon before later name last =>
    rcases t with (_ | _ | _ | _ | _ | _) | _ | _
    case mark.colon => exact .goes (.members (.value []) before later name last) fun _ => rfl
    all_goals exact .fails fun _ => rfl

theorem result? (holding : Holding frames frame phase) (v : Json) : (phase v).result? = none := by
  cases holding with
  | items ph => cases ph <;> simp [Phase.within, Phase.result?]
  | members ph => cases ph <;> simp [Phase.within, Phase.result?]
  | _ => rfl

/-- The tokens that follow close the frame, unless they cannot be read whatever the value is. -/
theorem run (holding : Holding frames frame phase) (ts : List Token) :
    (∀ v, (ts.foldlM Phase.next (phase v)).bind Phase.result? = none) ∨
      ∃ close ts', frame.Closes close ∧
        ∀ v, ts.foldlM Phase.next (phase v) =
          List.foldlM Phase.next (.done (close v) frames) ts' := by
  -- The phases change from token to token, but what they hold of the value does not.
  induction ts generalizing phase with
  | nil => exact .inl holding.result?
  | cons t ts ih =>
    simp only [List.foldlM_cons]
    cases holding.step t with
    | fails refused => exact .inl fun v => by rw [refused]; rfl
    | closes closes step => exact .inr ⟨_, ts, closes, fun v => by rw [step]; rfl⟩
    | goes holding step =>
      simp only [step, Option.bind_eq_bind, Option.bind_some]
      exact ih holding

end Holding

theorem foldlM_done (frames : List Frame) (ts : List Token) :
    (∀ v, (ts.foldlM Phase.next (.done v frames)).bind Phase.result? = none) ∨
      ∃ close, ClosesAll frames close ∧
        ∀ v, (ts.foldlM Phase.next (.done v frames)).bind Phase.result? = some (close v) := by
  induction frames generalizing ts with
  | nil =>
    cases ts with
    | nil => exact .inr ⟨id, .nil, fun _ => rfl⟩
    | cons t ts => exact .inl fun _ => rfl
  | cons frame frames ih =>
    rcases (Holding.here frame).run ts with refused | ⟨close, ts', closes, same⟩
    · exact .inl refused
    · rcases ih ts' with refused | ⟨closeAll, others, read⟩
      · exact .inl fun v => by rw [same, refused]
      · exact .inr ⟨_, .cons closes others, fun v => by rw [same, read]⟩

/-- What follows a value either cannot be read, whatever the value is, or closes the frames around
it. -/
theorem rest?_done (frames : List Frame) (post : List Char) :
    (∀ v, (Phase.done v frames).rest? post = none) ∨
      ∃ close, ClosesAll frames close ∧ ∀ v, (Phase.done v frames).rest? post = some (close v) := by
  unfold Phase.rest?
  cases tokens? post with
  | none => exact .inl fun _ => rfl
  | some ts => exact foldlM_done frames ts

end Dashboard.Json
