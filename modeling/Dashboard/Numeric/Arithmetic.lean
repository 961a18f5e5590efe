import Dashboard.Numeric.Binary64

/-!
# Arithmetic on doubles

Each operation is the exact result rounded once, with the signs of zeros and the infinities of
IEEE 754.
-/

namespace Dashboard.Numeric.Binary64

def zero : Binary64 := ofNat 0

def one : Binary64 := ofNat 1

def half : Binary64 := ofQuotient false 1 2

def isNaN : Binary64 → Bool
  | nan => true
  | _ => false

def isFinite : Binary64 → Bool
  | finite .. => true
  | _ => false

def finite? (x : Binary64) : Option Binary64 :=
  if x.isFinite then some x else none

/-- Whole units with the sign of the double they belong to. -/
def signed (negative : Bool) (units : Nat) : Int :=
  if negative then -units else units

/-- The position of a double on the number line in units, an infinity beyond every finite double.
NaN has none, and both zeros have the same. -/
def position? : Binary64 → Option Int
  | nan => none
  | infinity negative => some (signed negative unitLimit)
  | finite negative x => some (signed negative x.units)

def lt (x y : Binary64) : Bool :=
  match x.position?, y.position? with
  | some a, some b => a < b
  | _, _ => false

def le (x y : Binary64) : Bool :=
  match x.position?, y.position? with
  | some a, some b => a ≤ b
  | _, _ => false

/-- Equality of numbers: zeros are equal whatever their sign, and NaN equals nothing. -/
def equals (x y : Binary64) : Bool :=
  match x.position?, y.position? with
  | some a, some b => a = b
  | _, _ => false

/-- The smaller of two numbers, the other one if one is NaN. -/
def min (x y : Binary64) : Binary64 :=
  if x.isNaN || y.lt x then y else x

def max (x y : Binary64) : Binary64 :=
  if x.isNaN || x.lt y then y else x

def neg : Binary64 → Binary64
  | nan => nan
  | infinity negative => infinity !negative
  | finite negative x => finite (!negative) x

/-- A sum of zero is negative only if both terms are. -/
def add : Binary64 → Binary64 → Binary64
  | nan, _ | _, nan => nan
  | infinity s, infinity t => if s = t then infinity s else nan
  | infinity s, finite .. | finite .., infinity s => infinity s
  | finite s x, finite t y =>
    let sum := signed s x.units + signed t y.units
    ofUnits (if sum = 0 then s && t else sum < 0) sum.natAbs 1

def mul : Binary64 → Binary64 → Binary64
  | nan, _ | _, nan => nan
  | infinity s, infinity t => infinity (s != t)
  | infinity s, finite t x | finite t x, infinity s =>
    if x.units = 0 then nan else infinity (s != t)
  | finite s x, finite t y => ofUnits (s != t) (x.units * y.units) unitsPerOne

def div : Binary64 → Binary64 → Binary64
  | nan, _ | _, nan | infinity _, infinity _ => nan
  | infinity s, finite t _ => infinity (s != t)
  | finite s _, infinity t => ofUnits (s != t) 0 1
  | finite s x, finite t y =>
    if y.units = 0 then
      if x.units = 0 then nan else infinity (s != t)
    else
      ofQuotient (s != t) x.units y.units

instance : Neg Binary64 := ⟨neg⟩
instance : Add Binary64 := ⟨add⟩
instance : Mul Binary64 := ⟨mul⟩
instance : Div Binary64 := ⟨div⟩

def floor : Binary64 → Binary64
  | finite false x => ofQuotient false (x.units / unitsPerOne) 1
  | finite true x => ofQuotient true ((x.units + (unitsPerOne - 1)) / unitsPerOne) 1
  | x => x

def truncate? : Binary64 → Option Int
  | finite negative x => some (signed negative (x.units / unitsPerOne))
  | _ => none

def toInt? : Binary64 → Option Int
  | finite negative x =>
    if x.units % unitsPerOne = 0 then some (signed negative (x.units / unitsPerOne)) else none
  | _ => none

theorem position?_eq_none_iff (x : Binary64) : x.position? = none ↔ x = nan := by
  cases x <;> simp [position?]

end Dashboard.Numeric.Binary64
