import Dashboard.Json.Lexeme

/-!
# JSON values

JSON text as a tree. Numbers are kept as they are written, and objects list their members in order,
with every name as often as it is written.
-/

namespace Dashboard

/-- A string is `none` if its escapes leave half of a surrogate pair, which no text can hold. -/
inductive Json where
  | null
  | bool (b : Bool)
  | number (n : Json.Number)
  | string (text : Option String)
  | array (items : List Json)
  | object (members : List (Option String × Json))

namespace Json

mutual

def same : Json → Json → Bool
  | null, null => true
  | bool a, bool b => a = b
  | number a, number b => a = b
  | string a, string b => a = b
  | array a, array b => sameItems a b
  | object a, object b => sameMembers a b
  | _, _ => false

def sameItems : List Json → List Json → Bool
  | [], [] => true
  | v :: vs, w :: ws => v.same w && sameItems vs ws
  | _, _ => false

def sameMembers : List (Option String × Json) → List (Option String × Json) → Bool
  | [], [] => true
  | (m, v) :: ms, (n, w) :: ns => m = n && v.same w && sameMembers ms ns
  | _, _ => false

end

mutual

theorem same_iff (v w : Json) : v.same w = true ↔ v = w := by
  cases v with
  | array items => cases w <;> simp [same, sameItems_iff items]
  | object members => cases w <;> simp [same, sameMembers_iff members]
  | _ => cases w <;> simp [same]

theorem sameItems_iff (vs ws : List Json) : sameItems vs ws = true ↔ vs = ws := by
  cases vs with
  | nil => cases ws <;> simp [sameItems]
  | cons v vs => cases ws <;> simp [sameItems, same_iff v, sameItems_iff vs]

theorem sameMembers_iff (ms ns : List (Option String × Json)) :
    sameMembers ms ns = true ↔ ms = ns := by
  cases ms with
  | nil => cases ns <;> simp [sameMembers]
  | cons m ms =>
    obtain ⟨name, v⟩ := m
    cases ns <;> simp [sameMembers, Prod.ext_iff, same_iff v, sameMembers_iff ms]

end

instance : DecidableEq Json :=
  fun v w => decidable_of_iff _ (same_iff v w)

/-- A mark, or a value that is no array and no object. -/
inductive Token where
  | mark (m : Mark)
  | string (text : Option String)
  | scalar (v : Json)

/-- The token of a lexeme, none if the lexeme is no JSON. -/
def Token.ofLexeme? : Lexeme → Option Token
  | .mark m => some (.mark m)
  | .quoted cs => (codePoints? cs).map fun points =>
      .string ((joinSurrogates? points).map String.ofList)
  | .word cs =>
    if cs = "null".toList then some (.scalar .null)
    else if cs = "true".toList then some (.scalar (.bool true))
    else if cs = "false".toList then some (.scalar (.bool false))
    else (Number.ofChars? cs).map (.scalar <| .number ·)

/-- An array or object whose end has not come, with what it holds so far, the last first. -/
inductive Frame where
  | array (items : List Json)
  /-- The value of the member `name` comes next. -/
  | object (members : List (Option String × Json)) (name : Option String)
  deriving DecidableEq

/-- What may come next, inside the frames around it, the innermost first. -/
inductive Phase where
  | value (frames : List Frame)
  /-- A value, or the end of an array that has just begun. -/
  | firstItem (frames : List Frame)
  /-- A name, or the end of an object that has just begun. -/
  | firstName (frames : List Frame)
  | name (members : List (Option String × Json)) (frames : List Frame)
  | colon (members : List (Option String × Json)) (name : Option String) (frames : List Frame)
  /-- A comma or an end after a value. -/
  | done (v : Json) (frames : List Frame)
  deriving DecidableEq

namespace Phase

def startValue (frames : List Frame) : Token → Option Phase
  | .scalar v => some (.done v frames)
  | .string text => some (.done (.string text) frames)
  | .mark .openArray => some (.firstItem frames)
  | .mark .openObject => some (.firstName frames)
  | .mark _ => none

def next : Phase → Token → Option Phase
  | value frames, t => startValue frames t
  | firstItem frames, .mark .closeArray => some (.done (.array []) frames)
  | firstItem frames, t => startValue (.array [] :: frames) t
  | firstName frames, .mark .closeObject => some (.done (.object []) frames)
  | firstName frames, .string text => some (.colon [] text frames)
  | name before frames, .string text => some (.colon before text frames)
  | colon before key frames, .mark .colon => some (.value (.object before key :: frames))
  | done v (.array items :: frames), .mark .comma => some (.value (.array (v :: items) :: frames))
  | done v (.array items :: frames), .mark .closeArray =>
    some (.done (.array (v :: items).reverse) frames)
  | done v (.object before key :: frames), .mark .comma => some (.name ((key, v) :: before) frames)
  | done v (.object before key :: frames), .mark .closeObject =>
    some (.done (.object ((key, v) :: before).reverse) frames)
  | _, _ => none

def result? : Phase → Option Json
  | done v [] => some v
  | _ => none

end Phase

def ofTokens? (tokens : List Token) : Option Json :=
  (tokens.foldlM Phase.next (.value [])).bind Phase.result?

def parse? (s : String) : Option Json := do
  let lexemes ← Lexeme.split s.toList
  let tokens ← lexemes.mapM Token.ofLexeme?
  ofTokens? tokens

end Json

end Dashboard
