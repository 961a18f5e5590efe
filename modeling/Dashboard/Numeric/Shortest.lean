import Dashboard.Numeric.Decimal

/-!
# The shortest decimal of a double

Among the decimals that are read back as a given double, the shortest is the one on the coarsest
grid of powers of ten, and on that grid the one nearest to the double. `nearest_shortest` says that
it is indeed read back.
-/

namespace Dashboard.Numeric

namespace Magnitude

def isRead (x : Magnitude) (digits : Nat) (exponent : Int) : Bool :=
  Decimal.nearest { digits, exponent } = .finite false x

/-- The two multiples of `10 ^ exponent` next to the magnitude, the nearer one first, and the upper
one if they are equally near. -/
def neighbours (x : Magnitude) (exponent : Int) : List Nat :=
  let numerator := x.units * Nat.pow 10 (-exponent).toNat
  let denominator := Binary64.unitsPerOne * Nat.pow 10 exponent.toNat
  let below := numerator / denominator
  if 2 * (numerator % denominator) < denominator then [below, below + 1] else [below + 1, below]

def onGrid? (x : Magnitude) (exponent : Int) : Option Nat :=
  (x.neighbours exponent).find? (x.isRead · exponent)

/-- The finest grid that is needed: every magnitude is a multiple of it. -/
def finestGrid : Int :=
  -1074

/-- A unit, `2 ^ -1074`, is this many steps of the finest grid. -/
@[irreducible] def unitOnFinestGrid : Nat :=
  Nat.pow 5 1074

/-- The first hit on the grids `finestGrid + steps`, …, `finestGrid`, the coarsest first. -/
def searchGrids (x : Magnitude) : Nat → Decimal
  | 0 => { digits := x.units * unitOnFinestGrid, exponent := finestGrid }
  | steps + 1 =>
    match x.onGrid? (finestGrid + (steps + 1)) with
    | some digits => { digits, exponent := finestGrid + (steps + 1) }
    | none => x.searchGrids steps

/-- Steps from the finest grid to one whose unit is not below the magnitude, for `28 / 93` and
`3 / 10` are just above and below the logarithm of two. -/
def coarseSteps (x : Magnitude) : Nat :=
  let bits := x.units.log2 + 1
  if bits ≤ 1074 then 1074 - (1074 - bits) * 3 / 10 else 1074 + (bits - 1074) * 28 / 93 + 1

/-- The shortest decimal that is read as the magnitude, and of those the nearest to it. -/
def shortest (x : Magnitude) : Decimal :=
  if x.units = 0 then { digits := 0 } else x.searchGrids x.coarseSteps

end Magnitude

namespace Decimal

/-- The decimal without an exponent: all its digits, and a point where the exponent puts it. -/
def text (x : Decimal) : String :=
  let digits := Nat.toDigits 10 x.digits
  let sign := if x.negative then ['-'] else []
  match x.exponent with
  | .ofNat e => String.ofList (sign ++ digits ++ List.replicate (if x.digits = 0 then 0 else e) '0')
  | .negSucc e =>
    let padded := List.replicate (e + 2 - digits.length) '0' ++ digits
    let whole := padded.length - (e + 1)
    String.ofList (sign ++ padded.take whole ++ '.' :: padded.drop whole)

end Decimal

namespace Binary64

def shortest? : Binary64 → Option Decimal
  | finite negative x => some { x.shortest with negative }
  | _ => none

/-- A double in its fewest digits, positional whatever its size. -/
def text : Binary64 → String
  | nan => "NaN"
  | infinity negative => if negative then "-inf" else "inf"
  | finite negative x => { x.shortest with negative }.text

/-- The double times `10 ^ places`, shifted in its shortest decimal and rounded once. -/
def shift (x : Binary64) (places : Int) : Binary64 :=
  match x.shortest? with
  | some d => (d.shift places).nearest
  | none => x

end Binary64

namespace Magnitude

theorem nearest_onGrid {x : Magnitude} {exponent : Int} {digits : Nat}
    (h : x.onGrid? exponent = some digits) :
    Decimal.nearest { digits, exponent } = .finite false x := by
  unfold onGrid? at h
  have hread := List.find?_some h
  simpa only [isRead, decide_eq_true_eq] using hread

/-- On the finest grid a magnitude is written exactly. -/
theorem nearest_finest (x : Magnitude) :
    Decimal.nearest { digits := x.units * unitOnFinestGrid, exponent := finestGrid } =
      .finite false x := by
  have hunit : unitOnFinestGrid * (Nat.pow 10 finestGrid.toNat * Binary64.unitsPerOne) =
      Nat.pow 10 (-finestGrid).toNat := by decide +kernel
  rw [Decimal.nearest_eq, Binary64.ofQuotient, Nat.mul_assoc, Nat.mul_assoc, hunit]
  have hpos : 0 < Nat.pow 10 (-finestGrid).toNat := by decide +kernel
  have hscale := Binary64.ofUnits_mul_right false x.units 1 hpos
  rw [Nat.one_mul] at hscale
  rw [hscale, Binary64.ofUnits_units]

theorem nearest_searchGrids (x : Magnitude) (steps : Nat) :
    (x.searchGrids steps).nearest = .finite false x := by
  induction steps with
  | zero => rw [searchGrids, nearest_finest]
  | succ steps ih =>
    rw [searchGrids]
    split
    · next h => exact nearest_onGrid h
    · exact ih

theorem nearest_shortest (x : Magnitude) : x.shortest.nearest = .finite false x := by
  unfold shortest
  split
  · next h =>
    have hz : Binary64.ofUnits false 0 1 = .finite false x := by rw [← h, Binary64.ofUnits_units]
    simpa [Decimal.nearest_eq, Binary64.ofQuotient] using hz
  · exact nearest_searchGrids x _

end Magnitude

end Dashboard.Numeric
