import Dashboard.Proofs.Figure.Unchanged
import Dashboard.Proofs.Numeric.Numerals
import Dashboard.Proofs.Numeric.Value

/-!
# Plain figures of numerals with a point

`Pointed` is such a numeral in its pieces, blank characters around it. A plain figure cuts its
decimals off at the end of the text, which changes it by less than a hundredth
(`Pointed.size_cut`), and then drops the point with two zeros behind it, which leaves the number as
it is or makes it larger (`Pointed.size_joined_eq`, `Pointed.size_lt_joined`).
-/

namespace Dashboard.Figure

open Numeric

/-- What the digits behind a point are worth. -/
def fraction (fs : List Char) : ℚ :=
  Nat.ofDigitChars 10 fs 0 / 10 ^ fs.length

theorem ofDigitChars_append (ds fs : List Char) :
    Nat.ofDigitChars 10 (ds ++ fs) 0 =
      Nat.ofDigitChars 10 ds 0 * 10 ^ fs.length + Nat.ofDigitChars 10 fs 0 := by
  rw [Nat.ofDigitChars_append, Nat.ofDigitChars_eq_ofDigitChars_zero]
  ring

theorem digit_eq_zero_iff {c : Char} (digit : c.isDigit = true) :
    c.toNat - '0'.toNat = 0 ↔ c = '0' := by
  constructor
  · intro zero
    simp only [Char.isDigit, Bool.and_eq_true, decide_eq_true_eq] at digit
    have low : 48 ≤ c.toNat := UInt32.le_iff_toNat_le.mp digit.1
    have code : c.toNat = '0'.toNat := by
      have : '0'.toNat = 48 := rfl
      omega
    exact Char.toNat_inj.mp code
  · rintro rfl
    rfl

theorem ofDigitChars_eq_zero_iff {ds : List Char} (digits : ∀ c ∈ ds, c.isDigit = true) :
    Nat.ofDigitChars 10 ds 0 = 0 ↔ ∀ c ∈ ds, c = '0' := by
  induction ds with
  | nil => simp
  | cons c ds ih =>
    obtain ⟨head, tail⟩ := List.forall_mem_cons.mp digits
    have power : 10 ^ ds.length ≠ 0 := by positivity
    rw [Nat.ofDigitChars_cons, Nat.ofDigitChars_eq_ofDigitChars_zero, Nat.add_eq_zero_iff, ih tail,
      List.forall_mem_cons, Nat.mul_eq_zero, or_iff_right power, Nat.mul_zero, Nat.zero_add,
      digit_eq_zero_iff head]

theorem fraction_nonneg (fs : List Char) : 0 ≤ fraction fs := by
  unfold fraction
  positivity

theorem fraction_lt_one {fs : List Char} (digits : ∀ c ∈ fs, c.isDigit = true) :
    fraction fs < 1 := by
  have small := (ofDigitChars_lt digits 0).2
  rw [fraction, div_lt_one (by positivity)]
  exact_mod_cast (by simpa using small)

theorem fraction_append (fs gs : List Char) :
    fraction (fs ++ gs) = fraction fs + fraction gs / 10 ^ fs.length := by
  unfold fraction
  rw [ofDigitChars_append, List.length_append]
  push_cast [pow_add]
  field_simp

theorem fraction_zeros (ms : List Char) : fraction ('0' :: '0' :: ms) = fraction ms / 100 := by
  have split := fraction_append ['0', '0'] ms
  have nothing : fraction ['0', '0'] = 0 := by simp [fraction, Nat.ofDigitChars]
  rw [nothing, zero_add] at split
  exact split.trans (by norm_num)

theorem toList_plain (raw : String) : (plain raw).toList = dropZeros (cutDecimals raw.toList) :=
  String.toList_ofList

theorem cutDecimals_of_no_point {cs : List Char} (none : '.' ∉ cs) : cutDecimals cs = cs :=
  (cutDecimals_eq_self_iff cs).mpr fun long => none long.point_mem

theorem dropZeros_of_no_point {cs : List Char} (none : '.' ∉ cs) : dropZeros cs = cs := by
  simpa [dropZeros] using dropZeros_append none []

theorem plain_of_no_point {raw : String} (none : '.' ∉ raw.toList) : plain raw = raw := by
  rw [plain, cutDecimals_of_no_point none, dropZeros_of_no_point none, String.ofList_toList]

/-! ### Numerals with a point -/

/-- A numeral with a point, blank characters around it, in its pieces. -/
structure Pointed where
  front : List Char
  sign : List Char
  whole : List Char
  decimals : List Char
  tail : List Char
  back : List Char
  negative : Bool
  exponent : Int
  leading : ∀ c ∈ front, Text.isBlank c = true
  signed : Sign negative sign
  nonempty : whole ++ decimals ≠ []
  digits : ∀ c ∈ whole ++ decimals, c.isDigit = true
  scaled : exponent? tail = some exponent
  trailing : ∀ c ∈ back, Text.isBlank c = true

namespace Pointed

variable (p : Pointed)

def before : List Char :=
  p.front ++ p.sign ++ p.whole

def after : List Char :=
  p.tail ++ p.back

def text : List Char :=
  p.before ++ '.' :: (p.decimals ++ p.after)

def sizeOf (whole decimals : List Char) : ℚ :=
  (Nat.ofDigitChars 10 whole 0 + fraction decimals) * 10 ^ p.exponent

def decimal : Decimal where
  negative := p.negative
  digits := Nat.ofDigitChars 10 (p.whole ++ p.decimals) 0
  exponent := p.exponent - p.decimals.length

theorem padded : PaddedDecimal p.decimal p.text := by
  have written : DecimalText p.decimal (p.sign ++ (p.whole ++ '.' :: (p.decimals ++ p.tail))) :=
    .mk p.signed (.pointed p.nonempty p.digits p.scaled)
  simpa [text, before, after] using PaddedDecimal.mk p.leading written p.trailing

theorem size_decimal : p.decimal.size = p.sizeOf p.whole p.decimals := by
  have ten : (10 : ℚ) ≠ 0 := by norm_num
  rw [Decimal.size, decimal, sizeOf, fraction, ofDigitChars_append, zpow_sub₀ ten, zpow_natCast]
  push_cast
  field_simp

theorem not_digit_in_front : ∀ c ∈ p.front ++ p.sign, c.isDigit = false := by
  refine List.forall_mem_append.mpr ⟨fun c member => Text.isDigit_of_isBlank (p.leading c member), ?_⟩
  intro c member
  rcases p.signed.chars c member with rfl | rfl <;> rfl

theorem no_point_before : '.' ∉ p.before := by
  simp only [before, List.mem_append, not_or]
  refine ⟨⟨fun member => ?_, fun member => ?_⟩, fun member => ?_⟩
  · exact absurd (p.leading '.' member) (by decide)
  · exact absurd (p.signed.chars '.' member) (by decide)
  · exact absurd (p.digits '.' (List.mem_append_left _ member)) (by decide)

theorem no_point_behind : '.' ∉ p.decimals ++ p.after := by
  simp only [after, List.mem_append, not_or]
  refine ⟨fun member => ?_, fun member => ?_, fun member => ?_⟩
  · exact absurd (p.digits '.' (List.mem_append_right _ member)) (by decide)
  · exact absurd (exponent?_chars p.scaled '.' member) (by decide)
  · exact absurd (p.trailing '.' member) (by decide)

theorem after_head : ∀ c ∈ p.after.head?, c.isDigit = false := by
  intro c head
  rw [after, List.head?_append] at head
  cases split : p.tail.head? with
  | some d =>
    rw [split] at head
    cases head
    exact exponent?_not_digit p.scaled c split
  | none =>
    rw [split] at head
    exact Text.isDigit_of_isBlank (p.trailing c (List.mem_of_head? head))

/-! ### Cutting its decimals -/

/-- The digits behind the point that are left: two of them at the end of the text, all before an
exponent or a blank character. -/
def shown : List Char :=
  if p.after = [] then p.decimals.take 2 else p.decimals

theorem shown_subset : p.shown ⊆ p.decimals := by
  unfold shown
  split
  · exact List.take_subset 2 p.decimals
  · exact List.Subset.refl _

def cut : Pointed :=
  { p with
    decimals := p.shown
    nonempty := by
      have nonempty := p.nonempty
      unfold shown
      split
      · simpa [List.take_eq_nil_iff] using nonempty
      · exact nonempty
    digits := fun c member => p.digits c <| by
      refine List.mem_append.mpr ((List.mem_append.mp member).imp_right ?_)
      exact fun kept => p.shown_subset kept }

theorem cutDecimals_text : cutDecimals p.text = p.cut.text := by
  have behind := (List.forall_mem_append.mp p.digits).2
  show cutDecimals (p.before ++ _) = p.before ++ '.' :: (p.shown ++ p.after)
  rw [cutDecimals_append p.no_point_before, List.append_cancel_left_eq]
  cases rest : p.after with
  | nil =>
    rw [shown, if_pos rest, List.append_nil, List.append_nil]
    generalize p.decimals = fs at behind
    rcases fs with _ | ⟨a, _ | ⟨b, more⟩⟩
    · rfl
    · simp [cutDecimals]
    · exact cutDecimals_of_fraction (List.all_eq_true.mpr behind)
  | cons c cs =>
    have none := p.no_point_behind
    have head := p.after_head c (by rw [rest]; rfl)
    rw [rest] at none
    rw [shown, if_neg (by simp [rest]), cutDecimals_eq_self_iff, longFraction_cons_iff, or_iff_left]
    · rintro ⟨_, all, _⟩
      rw [all c (by simp)] at head
      cases head
    · exact fun long => none long.point_mem

theorem exponent_of_ended (ended : p.after = []) : p.exponent = 0 := by
  have scaled := p.scaled
  rw [(List.append_eq_nil_iff.mp ended).1] at scaled
  exact (Option.some.inj scaled).symm

theorem fraction_shown :
    fraction p.shown ≤ fraction p.decimals ∧
      (fraction p.decimals - fraction p.shown) * 10 ^ p.exponent < 1 / 100 := by
  unfold shown
  split
  · next ended =>
    have behind := (List.forall_mem_append.mp p.digits).2
    have rest : fraction (p.decimals.drop 2) < 1 :=
      fraction_lt_one fun c member => behind c (List.mem_of_mem_drop member)
    have positive := fraction_nonneg (p.decimals.drop 2)
    have split := fraction_append (p.decimals.take 2) (p.decimals.drop 2)
    rw [List.take_append_drop] at split
    rw [exponent_of_ended p ended, zpow_zero, mul_one]
    rcases Nat.lt_or_ge p.decimals.length 2 with short | long
    · rw [List.take_of_length_le (by omega)]
      norm_num
    · rw [List.length_take_of_le long] at split
      constructor <;> linarith
  · norm_num

theorem size_cut :
    p.cut.decimal.size ≤ p.decimal.size ∧ p.decimal.size - p.cut.decimal.size < 1 / 100 := by
  obtain ⟨le, lt⟩ := p.fraction_shown
  have scale : (0 : ℚ) < 10 ^ p.exponent := by positivity
  rw [size_decimal, size_decimal]
  show (Nat.ofDigitChars 10 p.whole 0 + fraction p.shown) * 10 ^ p.exponent ≤ _ ∧
    _ - (Nat.ofDigitChars 10 p.whole 0 + fraction p.shown) * 10 ^ p.exponent < _
  unfold sizeOf
  constructor <;> nlinarith

/-! ### Dropping its zeros -/

/-- The text without the point and two zeros behind it. -/
def joined (ms : List Char) : List Char :=
  p.before ++ (ms ++ p.after)

theorem dropZeros_text_of_zeros {ms : List Char} (zeros : p.decimals = '0' :: '0' :: ms) :
    dropZeros p.text = p.joined ms := by
  rw [text, dropZeros_append p.no_point_before, zeros]
  rfl

theorem dropZeros_text_of_others (others : ∀ ms, p.decimals ≠ '0' :: '0' :: ms) :
    dropZeros p.text = p.text := by
  have behind := p.no_point_behind
  have head := p.after_head
  rw [text, dropZeros_append p.no_point_before, List.append_cancel_left_eq, dropZeros,
    dropZeros_of_no_point behind]
  intro rest _ split
  generalize p.decimals = fs, p.after = after at *
  rcases fs with _ | ⟨a, _ | ⟨b, ms⟩⟩
  · obtain rfl : after = '0' :: '0' :: rest := split
    cases head '0' rfl
  · obtain ⟨rfl, rfl⟩ := List.cons.inj split
    cases head '0' rfl
  · obtain ⟨rfl, second⟩ := List.cons.inj split
    obtain ⟨rfl, -⟩ := List.cons.inj second
    exact others ms rfl

theorem joined_nil (ms : List Char) (nothing : p.whole ++ ms = []) (d : Decimal) :
    ¬PaddedDecimal d (p.joined ms) := by
  obtain ⟨whole, rfl⟩ := List.append_eq_nil_iff.mp nothing
  have solid : ∀ c ∈ p.sign ++ p.tail, Text.isBlank c = false :=
    List.forall_mem_append.mpr ⟨p.signed.solid, exponent?_solid p.scaled⟩
  have regroup : p.joined [] = p.front ++ (p.sign ++ p.tail) ++ p.back := by
    simp [joined, before, after, whole]
  have trimmed := Text.trimBlank_around p.leading solid p.trailing
  rw [regroup]
  intro padded
  generalize p.front ++ (p.sign ++ p.tail) ++ p.back = cs at padded trimmed
  obtain ⟨leading, written, trailing⟩ := padded
  rw [Text.trimBlank_around leading written.solid trailing] at trimmed
  subst trimmed
  exact not_decimalText_of_tail p.signed p.scaled written

def joinedDecimal (ms : List Char) : Decimal where
  negative := p.negative
  digits := Nat.ofDigitChars 10 (p.whole ++ ms) 0
  exponent := p.exponent

theorem padded_joined {ms : List Char} (some : p.whole ++ ms ≠ [])
    (digits : ∀ c ∈ ms, c.isDigit = true) : PaddedDecimal (p.joinedDecimal ms) (p.joined ms) := by
  have whole := (List.forall_mem_append.mp p.digits).1
  have written : DecimalText (p.joinedDecimal ms) (p.sign ++ (p.whole ++ ms ++ p.tail)) :=
    .mk p.signed (.whole some (List.forall_mem_append.mpr ⟨whole, digits⟩) p.scaled)
  simpa [joined, before, after] using PaddedDecimal.mk p.leading written p.trailing

theorem size_joined (ms : List Char) :
    (p.joinedDecimal ms).size = p.sizeOf p.whole ms * 10 ^ ms.length := by
  have digits : (Nat.ofDigitChars 10 (p.whole ++ ms) 0 : ℚ) =
      (Nat.ofDigitChars 10 p.whole 0 + fraction ms) * 10 ^ ms.length := by
    rw [ofDigitChars_append, fraction]
    push_cast
    field_simp
  rw [Decimal.size, joinedDecimal, digits, sizeOf]
  ring

theorem size_joined_eq {ms : List Char} (zeros : p.decimals = '0' :: '0' :: ms)
    (light : ms = [] ∨ Nat.ofDigitChars 10 (p.whole ++ ms) 0 = 0) :
    (p.joinedDecimal ms).size = p.decimal.size := by
  rw [size_joined, size_decimal, zeros, sizeOf, sizeOf, fraction_zeros]
  rcases light with rfl | zero
  · simp [fraction]
  · have split := ofDigitChars_append p.whole ms
    rw [zero, eq_comm, Nat.add_eq_zero_iff, Nat.mul_eq_zero, or_iff_left (by positivity)] at split
    simp [fraction, split]

/-- Without the point and the zeros the number is larger, unless all its digits are zeros. -/
theorem size_lt_joined {ms : List Char} (zeros : p.decimals = '0' :: '0' :: ms) (more : ms ≠ [])
    (counts : Nat.ofDigitChars 10 (p.whole ++ ms) 0 ≠ 0) :
    p.decimal.size < (p.joinedDecimal ms).size := by
  have scale : (0 : ℚ) < 10 ^ p.exponent := by positivity
  have positive : 0 < (p.joinedDecimal ms).size := by
    have digits : (0 : ℚ) < Nat.ofDigitChars 10 (p.whole ++ ms) 0 := by
      exact_mod_cast Nat.pos_of_ne_zero counts
    exact mul_pos digits scale
  have shift : (10 : ℚ) ≤ 10 ^ ms.length := by
    have length : 1 ≤ ms.length := List.length_pos_of_ne_nil more
    simpa using pow_le_pow_right₀ (by norm_num : (1 : ℚ) ≤ 10) length
  have decimals := fraction_nonneg ms
  rw [size_joined, size_decimal, zeros, sizeOf, sizeOf, fraction_zeros] at *
  have some : (0 : ℚ) < (Nat.ofDigitChars 10 p.whole 0 + fraction ms) * 10 ^ p.exponent :=
    pos_of_mul_pos_left positive (by positivity)
  calc
    (Nat.ofDigitChars 10 p.whole 0 + fraction ms / 100 : ℚ) * 10 ^ p.exponent
      ≤ (Nat.ofDigitChars 10 p.whole 0 + fraction ms) * 10 ^ p.exponent := by
        refine mul_le_mul_of_nonneg_right ?_ scale.le
        linarith
    _ < (Nat.ofDigitChars 10 p.whole 0 + fraction ms) * 10 ^ p.exponent * 10 ^ ms.length :=
        lt_mul_of_one_lt_right some (by linarith)

end Pointed

end Dashboard.Figure
