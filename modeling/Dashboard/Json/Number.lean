import Dashboard.Numeric.Numeral

/-!
# Number literals

A literal without fraction and exponent is an integer if 64 bits hold it. Any other is read fast
rather than exactly: as many leading digits as 64 bits hold are kept, and the power of ten that
belongs to them is applied to their double.
-/

namespace Dashboard.Json

open Numeric

structure Number where
  negative : Bool := false
  whole : List Char
  fraction : Option (List Char) := none
  exponent : Option Int := none
  deriving DecidableEq

namespace Number

/-- A fraction has at least one digit after its point. -/
def takeFraction? : List Char → Option (Option (List Char) × List Char)
  | '.' :: cs =>
    let ds := cs.takeWhile Char.isDigit
    if ds.isEmpty then none else some (some ds, cs.dropWhile Char.isDigit)
  | cs => some (none, cs)

def wholePart? (ds : List Char) : Option (List Char) :=
  if ds = ['0'] ∨ (ds ≠ [] ∧ ds.head? ≠ some '0') then some ds else none

def ofChars? (cs : List Char) : Option Number := do
  let (negative, rest) := match cs with
    | '-' :: rest => (true, rest)
    | _ => (false, cs)
  let whole ← wholePart? (rest.takeWhile Char.isDigit)
  let (fraction, rest) ← takeFraction? (rest.dropWhile Char.isDigit)
  let exponent ← exponent? rest
  return { negative, whole, fraction, exponent := if rest.isEmpty then none else some exponent }

inductive Value where
  | integer (z : Int)
  | double (x : Binary64)
  deriving DecidableEq

/-- Adds digits to `n` as long as 64 bits hold the result, and leaves the rest. -/
def takeDigits (n : Nat) : List Char → Nat × List Char
  | [] => (n, [])
  | d :: ds =>
    let m := 10 * n + (d.toNat - '0'.toNat)
    if m < UInt64.size then takeDigits m ds else (n, d :: ds)

/-- The largest power of ten by which a double is multiplied or divided at once. -/
def maxScale : Nat :=
  308

/-- A double times `10 ^ exponent`, unless that is too large. A division that needs more than
`maxScale` places is done in two steps, of which the second is at most as long. -/
def scale? (x : Binary64) : Int → Option Binary64
  | .ofNat e =>
    if maxScale < e then if x.equals .zero then some x else none
    else (x * Decimal.tenPow e).finite?
  | .negSucc e =>
    if e + 1 ≤ maxScale then some (x / Decimal.tenPow (e + 1))
    else some (x / Decimal.tenPow maxScale / Decimal.tenPow (min maxScale (e + 1 - maxScale)))

def double? (n : Number) : Option Binary64 :=
  let fraction := n.fraction.getD []
  let (head, skipped) := takeDigits 0 n.whole
  let (digits, dropped) := takeDigits head fraction
  let places : Int := skipped.length - (fraction.length - dropped.length : Nat)
  let size := scale? (.ofNat digits) (places + n.exponent.getD 0)
  if n.negative then size.map Binary64.neg else size

/-- The integer of a literal without fraction and exponent. A minus zero is none. -/
def integer? (n : Number) : Option Int :=
  let size := Nat.ofDigitChars 10 n.whole 0
  if n.fraction.isSome || n.exponent.isSome then none
  else if n.negative then
    if 0 < size ∧ Int64.minValue.toInt ≤ -size then some (-size) else none
  else if size < UInt64.size then some size else none

/-- What the literal is read as, none if it is too large for a double. -/
def value? (n : Number) : Option Value :=
  match n.integer? with
  | some z => some (.integer z)
  | none => n.double?.map .double

end Number

end Dashboard.Json
