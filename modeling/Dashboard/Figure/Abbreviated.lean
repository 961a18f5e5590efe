import Dashboard.Numeric.Numeral

/-!
# Abbreviated figures

A number is rounded half up on its shortest decimal and shown with the largest suffix that is not
above it. A number that becomes 1000 of one suffix is carried to the next.
-/

namespace Dashboard.Figure

open Numeric

inductive Suffix where
  | thousand | million | billion | trillion
  deriving DecidableEq

namespace Suffix

def descending : List Suffix :=
  [trillion, billion, million, thousand]

def exponent : Suffix → Nat
  | thousand => 3
  | million => 6
  | billion => 9
  | trillion => 12

def letter : Suffix → String
  | thousand => "k"
  | million => "m"
  | billion => "b"
  | trillion => "t"

def next? : Suffix → Option Suffix
  | thousand => some million
  | million => some billion
  | billion => some trillion
  | trillion => none

def size (s : Suffix) : Binary64 :=
  Decimal.tenPow s.exponent

/-- The largest suffix that is not above the number. -/
def of? (x : Binary64) : Option Suffix :=
  descending.find? fun s => s.size.le x

end Suffix

/-- The double rounded to `places` decimals on its shortest decimal, a half upwards. -/
def roundHalfUp (x : Binary64) (places : Nat) : Binary64 :=
  (x.shift places + Binary64.half).floor.shift (-places)

structure Abbreviated where
  value : Binary64
  suffix : Option Suffix := none
  deriving DecidableEq

namespace Abbreviated

/-- A number that has become 1000 of its suffix is one of the next suffix. -/
def carry (a : Abbreviated) : Abbreviated :=
  match a.suffix.bind Suffix.next? with
  | some larger =>
    if a.value.equals (Decimal.tenPow 3) then { value := .one, suffix := some larger } else a
  | none => a

/-- A double in its shortest digits, zero without a sign. -/
def digits (x : Binary64) : String :=
  if x.equals .zero then "0" else x.text

def text (a : Abbreviated) : String :=
  digits a.value ++ (a.suffix.map Suffix.letter).getD ""

end Abbreviated

/-- The abbreviation of `x` to `places` decimals, none if a rounding leaves the finite range. -/
def abbreviated? (x : Binary64) (places : Nat) : Option Abbreviated :=
  let number := roundHalfUp x places
  if !number.isFinite then none else
    match Suffix.of? number with
    | none => some { value := number }
    | some suffix =>
      let factor := Decimal.tenPow places
      let value := (number * factor / suffix.size + Binary64.half).floor / factor
      if value.isFinite then some { value, suffix := some suffix : Abbreviated }.carry else none

/-- The abbreviated text of `x`, or all its digits where it has none. -/
def abbreviate (x : Binary64) (places : Nat) : String :=
  match abbreviated? x places with
  | some a => a.text
  | none => Abbreviated.digits x

end Dashboard.Figure
