import Dashboard.Numeric.Shortest

/-!
# Numerals

What text counts as a number: an optional sign, then a word for infinity or NaN, or decimal digits
with an optional point and an optional exponent. Nothing else may stand in the text, blank
characters included. `integer?_toString` says that whole numbers are read as they are written.
-/

namespace Dashboard.Numeric

/-- The sign in front of the text, whether it is a minus, and the text after it. -/
def takeSign : List Char → Bool × List Char
  | '-' :: cs => (true, cs)
  | '+' :: cs => (false, cs)
  | cs => (false, cs)

def digits? (cs : List Char) : Option Nat :=
  if cs.isEmpty || !cs.all Char.isDigit then none else some (Nat.ofDigitChars 10 cs 0)

def integer? (cs : List Char) : Option Int :=
  let (negative, ds) := takeSign cs
  (digits? ds).map fun n => if negative then -n else n

/-- The exponent at the end of a numeral, zero if there is none. -/
def exponent? : List Char → Option Int
  | [] => some 0
  | c :: cs => if c = 'e' || c = 'E' then integer? cs else none

def takeFraction : List Char → List Char × List Char
  | '.' :: cs => (cs.takeWhile Char.isDigit, cs.dropWhile Char.isDigit)
  | cs => ([], cs)

inductive Numeral where
  | nan
  | infinity (negative : Bool)
  | decimal (value : Decimal)
  deriving DecidableEq

namespace Numeral

/-- A decimal has a digit on at least one side of its point. -/
def decimal? (negative : Bool) (cs : List Char) : Option Decimal :=
  let whole := cs.takeWhile Char.isDigit
  let (fraction, rest) := takeFraction (cs.dropWhile Char.isDigit)
  if whole.isEmpty && fraction.isEmpty then
    none
  else
    (exponent? rest).map fun e =>
      { negative
        digits := Nat.ofDigitChars 10 (whole ++ fraction) 0
        exponent := e - fraction.length }

def ofChars? (cs : List Char) : Option Numeral :=
  let (negative, rest) := takeSign cs
  let word := String.ofList (rest.map Char.toLower)
  if word = "nan" then some .nan
  else if word = "inf" || word = "infinity" then some (.infinity negative)
  else (decimal? negative rest).map .decimal

def nearest : Numeral → Binary64
  | nan => .nan
  | infinity negative => .infinity negative
  | decimal value => value.nearest

end Numeral

def Binary64.ofChars? (cs : List Char) : Option Binary64 :=
  (Numeral.ofChars? cs).map Numeral.nearest

def Binary64.ofText? (s : String) : Option Binary64 :=
  ofChars? s.toList

theorem digits?_toDigits (n : Nat) : digits? (Nat.toDigits 10 n) = some n := by
  have hne : Nat.toDigits 10 n ≠ [] := Nat.toDigits_ne_nil
  have hall : (Nat.toDigits 10 n).all Char.isDigit = true :=
    List.all_eq_true.mpr fun _ hc => Nat.isDigit_of_mem_toDigits (by decide) (by decide) hc
  simp [digits?, hne, hall, Nat.ofDigitChars_ten_toDigits]

theorem takeSign_of_isDigit {c : Char} (h : c.isDigit = true) (cs : List Char) :
    takeSign (c :: cs) = (false, c :: cs) := by
  unfold takeSign
  split <;> simp_all [Char.isDigit]

theorem integer?_toDigits (n : Nat) : integer? (Nat.toDigits 10 n) = some (n : Int) := by
  have hd := digits?_toDigits n
  cases hc : Nat.toDigits 10 n with
  | nil => exact absurd hc Nat.toDigits_ne_nil
  | cons c cs =>
    have hdigit : c.isDigit = true :=
      Nat.isDigit_of_mem_toDigits (b := 10) (n := n) (by decide) (by decide) (by simp [hc])
    rw [hc] at hd
    simp [integer?, takeSign_of_isDigit hdigit, hd]

theorem integer?_minus_toDigits (n : Nat) :
    integer? ('-' :: Nat.toDigits 10 n) = some (-n : Int) := by
  simp [integer?, takeSign, digits?_toDigits]

/-- A whole number is written with digits and at most a minus in front of them. -/
theorem toList_toString_int (z : Int) :
    (toString z).toList = (if z < 0 then ['-'] else []) ++ Nat.toDigits 10 z.natAbs := by
  cases z with
  | ofNat n =>
    rw [if_neg (by simp), List.nil_append]
    exact Nat.toList_repr
  | negSucc n =>
    rw [if_pos (Int.negSucc_lt_zero n)]
    change ("-" ++ Nat.repr (n + 1)).toList = _
    rw [String.toList_append, Nat.toList_repr]
    rfl

theorem integer?_toString (z : Int) : integer? (toString z).toList = some z := by
  rw [toList_toString_int]
  split
  · next h =>
    rw [List.singleton_append, integer?_minus_toDigits, Int.ofNat_natAbs_of_nonpos (by omega),
      Int.neg_neg]
  · next h =>
    rw [List.nil_append, integer?_toDigits, Int.natAbs_of_nonneg (by omega)]

end Dashboard.Numeric
