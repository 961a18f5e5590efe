import Dashboard.Json.Number

/-!
# JSON lexemes

JSON text is cut into marks, words and quoted strings before anything is made of them. A word is
whatever stands between marks, quotes and white space.
-/

namespace Dashboard.Json

inductive Mark where
  | openArray | closeArray | openObject | closeObject | comma | colon
  deriving DecidableEq

def Mark.ofChar? : Char → Option Mark
  | '[' => some .openArray
  | ']' => some .closeArray
  | '\x7b' => some .openObject
  | '\x7d' => some .closeObject
  | ',' => some .comma
  | ':' => some .colon
  | _ => none

inductive Lexeme where
  | mark (m : Mark)
  | word (cs : List Char)
  /-- What stands between the quotes, with its escapes. -/
  | quoted (cs : List Char)
  deriving DecidableEq

namespace Lexeme

def isSpace (c : Char) : Bool :=
  c = ' ' || c = '\t' || c = '\n' || c = '\r'

/-- Control characters may not stand in a string. -/
def isControl (c : Char) : Bool :=
  c.toNat < 0x20

def quote : Char :=
  '\"'

/-- Where in a lexeme the text has been cut, with the characters before the cut, the last first. -/
inductive Place where
  /-- In a word, or between lexemes if there are no characters. -/
  | bare (seen : List Char)
  | quoted (seen : List Char)
  /-- In a string after a backslash. -/
  | escaped (seen : List Char)

def endWord (seen : List Char) : List Lexeme :=
  if seen = [] then [] else [.word seen.reverse]

def splitFrom : Place → List Char → Option (List Lexeme)
  | .bare seen, [] => some (endWord seen)
  | .quoted _, [] | .escaped _, [] => none
  | .bare seen, c :: cs =>
    if isSpace c then (splitFrom (.bare []) cs).map (endWord seen ++ ·)
    else if c = quote then (splitFrom (.quoted []) cs).map (endWord seen ++ ·)
    else match Mark.ofChar? c with
      | some m => (splitFrom (.bare []) cs).map (endWord seen ++ .mark m :: ·)
      | none => splitFrom (.bare (c :: seen)) cs
  | .quoted seen, c :: cs =>
    if c = quote then (splitFrom (.bare []) cs).map (.quoted seen.reverse :: ·)
    else if isControl c then none
    else if c = '\\' then splitFrom (.escaped (c :: seen)) cs
    else splitFrom (.quoted (c :: seen)) cs
  | .escaped seen, c :: cs => splitFrom (.quoted (c :: seen)) cs

/-- The lexemes of a text, none if a string in it is not closed or holds a control character. -/
def split (cs : List Char) : Option (List Lexeme) :=
  splitFrom (.bare []) cs

end Lexeme

def hexDigit? (c : Char) : Option Nat :=
  if c.isDigit then some (c.toNat - '0'.toNat)
  else if 'a' ≤ c && c ≤ 'f' then some (c.toNat - 'a'.toNat + 10)
  else if 'A' ≤ c && c ≤ 'F' then some (c.toNat - 'A'.toNat + 10)
  else none

def escape? (c : Char) : Option Char :=
  match c with
  | '\"' | '\\' | '/' => some c
  | 'b' => some '\x08'
  | 'f' => some '\x0c'
  | 'n' => some '\n'
  | 'r' => some '\r'
  | 't' => some '\t'
  | _ => none

/-- The code points of a string, surrogates as they are escaped. None if an escape is malformed. -/
def codePoints? : List Char → Option (List Nat)
  | [] => some []
  | '\\' :: 'u' :: a :: b :: c :: d :: rest => do
    let digits ← [a, b, c, d].mapM hexDigit?
    return digits.foldl (16 * · + ·) 0 :: (← codePoints? rest)
  | ['\\'] => none
  | '\\' :: c :: rest => do
    let escaped ← escape? c
    return escaped.toNat :: (← codePoints? rest)
  | c :: rest => (codePoints? rest).map (c.toNat :: ·)

def isHighSurrogate (n : Nat) : Bool :=
  0xd800 ≤ n && n < 0xdc00

def isLowSurrogate (n : Nat) : Bool :=
  0xdc00 ≤ n && n < 0xe000

/-- The characters of code points, each pair of surrogates joined. None if one has no partner. -/
def joinSurrogates? : List Nat → Option (List Char)
  | [] => some []
  | n :: rest =>
    if isHighSurrogate n then
      match rest with
      | m :: rest' =>
        if isLowSurrogate m then
          (joinSurrogates? rest').map
            (Char.ofNat (0x10000 + (n - 0xd800) * 0x400 + (m - 0xdc00)) :: ·)
        else none
      | [] => none
    else if isLowSurrogate n then none
    else (joinSurrogates? rest).map (Char.ofNat n :: ·)

end Dashboard.Json
