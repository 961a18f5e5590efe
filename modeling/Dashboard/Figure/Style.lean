import Dashboard.Figure.Abbreviated
import Dashboard.Figure.Plain
import Dashboard.Text.Blank

/-!
# How figures are shown

A viewer sees figures plain or abbreviated. Text that is no finite number is never abbreviated.
-/

namespace Dashboard.Figure

open Numeric

def largeNumber : Binary64 :=
  .ofNat 10000

structure Style where
  abbreviated : Bool := false
  /-- An abbreviated figure keeps four decimals above this number and two up to it. -/
  largeAbove : Binary64 := largeNumber

/-- The finite number that a text is a numeral of, blank characters around it apart. -/
def finiteNumber? (raw : String) : Option Binary64 :=
  (Binary64.ofText? (Text.trim raw)).bind Binary64.finite?

namespace Style

def places (style : Style) (x : Binary64) : Nat :=
  if style.largeAbove.lt x then 4 else 2

def figure (style : Style) (raw : String) : String :=
  if style.abbreviated then
    match finiteNumber? raw with
    | some x => ((abbreviated? x (style.places x)).map Abbreviated.text).getD raw
    | none => raw
  else
    plain raw

end Style

end Dashboard.Figure
