import Dashboard.Json.Basic

/-!
# Reading values from JSON

A structure is written as an object with its members in any order, or as an array of its members in
their declared order. Members that are not declared are ignored. A variant is written as its name,
or as an object whose one member has that name.
-/

namespace Dashboard.Json

open Numeric

def isNull : Json → Bool
  | null => true
  | _ => false

def toBool? : Json → Option Bool
  | bool b => some b
  | _ => none

def toText? : Json → Option String
  | string text => text
  | _ => none

/-- The integer that a number without fraction and exponent is. -/
def toInt? : Json → Option Int
  | number n => n.integer?
  | _ => none

def toNat? (v : Json) : Option Nat :=
  v.toInt?.bind Int.toNat?

def toUInt32? (v : Json) : Option UInt32 :=
  (v.toNat?.filter (· < UInt32.size)).map UInt32.ofNat

def toInt32? (v : Json) : Option Int32 :=
  (v.toInt?.filter fun z => Int32.minValue.toInt ≤ z && z ≤ Int32.maxValue.toInt).map Int32.ofInt

def toDouble? : Json → Option Binary64
  | number n => n.value?.map fun
    | .integer z => .ofInt z
    | .double x => x
  | _ => none

def toList? {α : Type} (read : Json → Option α) : Json → Option (List α)
  | array items => items.mapM read
  | _ => none

/-- Reads a value in whose place `null` may stand. -/
def nullable? {α : Type} (read : Json → Option α) (v : Json) : Option (Option α) :=
  if v.isNull then some none else (read v).map some

/-- Whether a member has to be written. -/
inductive Presence where
  | required
  /-- An object may leave the member out. -/
  | optional
  /-- An object may leave the member out, and an array may end before it. -/
  | defaulted
  deriving DecidableEq

structure Field where
  name : String
  presence : Presence := .required
  deriving DecidableEq

def Field.requiredNames (fields : List Field) : List String :=
  (fields.filter (·.presence = .required)).map Field.name

/-- The declared members of a structure that are written, by their names. -/
abbrev Members :=
  List (String × Json)

/-- The declared members of an object, none if one of them is written twice or is missing. -/
def ofObject? (fields : List Field) (members : List (Option String × Json)) : Option Members := do
  let named ← members.mapM fun m => m.1.map fun name => (name, m.2)
  let known := named.filter fun m => fields.any (·.name = m.1)
  if ¬(known.map (·.1)).Nodup then none
  else if fields.any fun f => f.presence = .required && (known.lookup f.name).isNone then none
  else some known

/-- The members of an array, none if there are too many or one that is needed is missing. -/
def ofArray? (fields : List Field) (items : List Json) : Option Members :=
  if fields.length < items.length then none
  else if (fields.drop items.length).any (·.presence ≠ .defaulted) then none
  else some ((fields.map Field.name).zip items)

def members? (fields : List Field) : Json → Option Members
  | object members => ofObject? fields members
  | array items => ofArray? fields items
  | _ => none

namespace Members

def read? {α : Type} (ms : Members) (name : String) (read : Json → Option α) : Option α :=
  (ms.lookup name).bind read

def readOr? {α : Type} (ms : Members) (name : String) (default : α) (read : Json → Option α) :
    Option α :=
  match ms.lookup name with
  | some v => read v
  | none => some default

def readNullable? {α : Type} (ms : Members) (name : String) (read : Json → Option α) :
    Option (Option α) :=
  ms.readOr? name none (nullable? read)

end Members

/-- The name of a variant, and its content unless only the name is written. -/
def variant? : Json → Option (String × Option Json)
  | string text => text.map fun name => (name, none)
  | object [(key, content)] => key.map fun name => (name, some content)
  | _ => none

def unitVariant? {α : Type} (ofName? : String → Option α) (v : Json) : Option α :=
  match v.variant? with
  | some (name, content) => if content.all isNull then ofName? name else none
  | none => none

end Dashboard.Json
