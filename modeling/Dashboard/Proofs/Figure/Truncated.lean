import Mathlib.Data.Rat.Floor
import Dashboard.Proofs.Figure.Pointed

/-!
# Plain figures of fixed point numerals

A numeral of digits around a point keeps at most two of its decimals, and none if these are zeros,
so that its number is truncated to hundredths. A plain figure with at most one point is not changed
by making it plain again. `plain_truncates` puts the two together.
-/

namespace Dashboard.Figure

open Numeric

def towardZero (q : ℚ) : ℤ :=
  if q < 0 then ⌈q⌉ else ⌊q⌋

/-- What is left of the point and the decimals behind it. -/
def leftOf (decimals : List Char) : List Char :=
  if decimals.length < 2 then '.' :: decimals
  else if decimals.take 2 = ['0', '0'] then []
  else '.' :: decimals.take 2

/-- A numeral of digits around a point, with or without a sign. -/
structure Fixed where
  sign : List Char
  whole : List Char
  decimals : List Char
  negative : Bool
  signed : Sign negative sign
  nonempty : whole ≠ []
  digits : ∀ c ∈ whole ++ decimals, c.isDigit = true

namespace Fixed

variable (p : Fixed)

def text : List Char :=
  p.sign ++ p.whole ++ '.' :: p.decimals

def pointed : Pointed where
  front := []
  sign := p.sign
  whole := p.whole
  decimals := p.decimals
  tail := []
  back := []
  negative := p.negative
  exponent := 0
  leading := by simp
  signed := p.signed
  nonempty := by simp [p.nonempty]
  digits := p.digits
  scaled := rfl
  trailing := by simp

def cut : Fixed :=
  { p with
    decimals := p.decimals.take 2
    digits := fun c member => p.digits c <|
      (List.append_sublist_append_left p.whole).mpr (List.take_sublist ..) |>.subset member }

theorem text_pointed : p.pointed.text = p.text := by
  simp [Pointed.text, Pointed.before, Pointed.after, pointed, text]

theorem cut_pointed : p.pointed.cut = p.cut.pointed :=
  rfl

theorem length_cut_le : p.cut.decimals.length ≤ 2 :=
  List.length_take_le ..

theorem exists_hundredths : ∃ n : ℕ, p.cut.pointed.decimal.size * 100 = n := by
  have short := p.length_cut_le
  have size : p.cut.pointed.decimal.size =
      (Nat.ofDigitChars 10 p.whole 0 + fraction p.cut.decimals) * 10 ^ (0 : ℤ) :=
    Pointed.size_decimal _
  generalize p.cut.decimals = ds at short size
  have power : (10 : ℚ) ^ ds.length * 10 ^ (2 - ds.length) = 100 := by
    rw [← pow_add, Nat.add_sub_cancel' short]
    norm_num
  refine ⟨Nat.ofDigitChars 10 p.whole 0 * 100 +
    Nat.ofDigitChars 10 ds 0 * 10 ^ (2 - ds.length), ?_⟩
  rw [size, zpow_zero, mul_one, fraction]
  push_cast
  rw [← power]
  field_simp

theorem size_cut : p.cut.pointed.decimal.size = ⌊p.pointed.decimal.size * 100⌋ / 100 := by
  obtain ⟨n, hundredths⟩ := p.exists_hundredths
  obtain ⟨le, lt⟩ := p.pointed.size_cut
  rw [cut_pointed] at le lt
  have floor : ⌊p.pointed.decimal.size * 100⌋ = n := by
    rw [Int.floor_eq_iff, Int.cast_natCast]
    constructor <;> linarith
  rw [floor, Int.cast_natCast, ← hundredths]
  ring

theorem value_cut :
    p.cut.pointed.decimal.value = towardZero (p.pointed.decimal.value * 100) / 100 := by
  have nonneg := p.pointed.decimal.size_nonneg
  have same : p.cut.pointed.decimal.negative = p.pointed.decimal.negative := rfl
  rw [Decimal.value, Decimal.value, same, size_cut, towardZero]
  cases p.pointed.decimal.negative with
  | false => rw [if_neg Bool.false_ne_true, if_neg Bool.false_ne_true, if_neg (by linarith)]
  | true =>
    rw [if_pos rfl, if_pos rfl, neg_mul, Int.ceil_neg, Int.floor_neg]
    split
    · push_cast
      ring
    · have zero : p.pointed.decimal.size = 0 := by linarith
      simp [zero]

theorem leftOf_cut :
    p.cut.decimals = ['0', '0'] ∧ leftOf p.decimals = [] ∨
      (∀ ms, p.cut.decimals ≠ '0' :: '0' :: ms) ∧ leftOf p.decimals = '.' :: p.cut.decimals := by
  have cut : p.cut.decimals = p.decimals.take 2 := rfl
  rw [cut, leftOf]
  rcases p.decimals with _ | ⟨a, _ | ⟨b, rest⟩⟩
  · simp
  · simp
  · by_cases zeros : a = '0' ∧ b = '0'
    · simp [zeros]
    · have others : a = '0' → b ≠ '0' := fun first second => zeros ⟨first, second⟩
      simpa [zeros] using fun _ first second => absurd second (others first)

theorem dropZeros_text :
    dropZeros (cutDecimals p.text) = p.sign ++ p.whole ++ leftOf p.decimals := by
  rw [← text_pointed, Pointed.cutDecimals_text, cut_pointed]
  rcases p.leftOf_cut with ⟨zeros, left⟩ | ⟨others, left⟩
  · rw [Pointed.dropZeros_text_of_zeros _ zeros, left]
    rfl
  · rw [Pointed.dropZeros_text_of_others _ others, text_pointed, left]
    rfl

theorem decimalText : DecimalText p.pointed.decimal p.text := by
  have unsigned := UnsignedText.pointed (by simp [p.nonempty]) p.digits
    (rfl : exponent? [] = some 0)
  rw [List.append_nil] at unsigned
  rw [text, List.append_assoc]
  exact .mk p.signed unsigned

theorem exists_decimalText : ∃ r : Decimal, r.value = p.cut.pointed.decimal.value ∧
    DecimalText r (p.sign ++ p.whole ++ leftOf p.decimals) := by
  rcases p.leftOf_cut with ⟨zeros, left⟩ | ⟨_, left⟩
  · have whole := (List.forall_mem_append.mp p.digits).1
    have unsigned := UnsignedText.whole p.nonempty whole (rfl : exponent? [] = some 0)
    rw [left]
    refine ⟨p.cut.pointed.joinedDecimal [], ?_, ?_⟩
    · have size := p.cut.pointed.size_joined_eq zeros (.inl rfl)
      rw [Decimal.value, Decimal.value, size]
      rfl
    · rw [Pointed.joinedDecimal, List.append_nil, List.append_nil]
      rw [List.append_nil] at unsigned
      exact .mk p.signed unsigned
  · rw [left]
    exact ⟨_, rfl, p.cut.decimalText⟩

end Fixed

/-! ### Text with one point -/

theorem point_mem_cutDecimals {cs : List Char} (changed : cutDecimals cs ≠ cs) :
    '.' ∈ cutDecimals cs := by
  fun_induction cutDecimals cs with
  | case1 | case2 => exact List.mem_cons_self
  | case3 c rest _ ih =>
    refine List.mem_cons_of_mem c (ih fun same => ?_)
    rw [same] at changed
    exact changed rfl
  | case4 => exact absurd rfl changed

theorem cutDecimals_cutDecimals (cs : List Char) : cutDecimals (cutDecimals cs) = cutDecimals cs := by
  rw [cutDecimals_eq_self_iff]
  fun_induction cutDecimals cs with
  | case1 a b rest all =>
    rw [← cutDecimals_eq_self_iff]
    have digits : [a, b].all Char.isDigit = true := by
      simp only [List.all_cons, Bool.and_eq_true] at all
      simp [all.1, all.2.1]
    exact cutDecimals_of_fraction digits
  | case2 a b rest others ih =>
    rw [longFraction_cons_iff, or_iff_left ih]
    rintro ⟨_, digits, _⟩
    by_cases same : cutDecimals (a :: b :: rest) = a :: b :: rest
    · rw [same] at digits
      exact others (List.all_eq_true.mpr digits)
    · exact absurd (digits '.' (point_mem_cutDecimals same)) (by decide)
  | case3 c rest other ih =>
    rw [longFraction_cons_iff, or_iff_left ih]
    rintro ⟨point, _, long⟩
    have shorter := Nat.le_trans long (length_cutDecimals_le rest)
    rcases rest with _ | ⟨a, _ | ⟨b, rest⟩⟩
    · simp at shorter
    · simp at shorter
    · exact other a b rest point rfl
  | case4 => exact fun long => List.not_mem_nil long.point_mem

theorem no_point_dropZeros {cs : List Char} (once : cs.count '.' ≤ 1)
    (zeros : ['.', '0', '0'] <:+: cs) : '.' ∉ dropZeros cs := by
  obtain ⟨front, back, rfl⟩ := zeros
  simp only [List.count_append, List.count_cons, List.count_nil] at once
  have before : '.' ∉ front := List.count_eq_zero.mp (by simp at once; omega)
  have behind : '.' ∉ back := List.count_eq_zero.mp (by simp at once; omega)
  rw [List.append_assoc, dropZeros_append before]
  exact List.not_mem_append before behind

theorem plain_plain {raw : String} (once : raw.toList.count '.' ≤ 1) :
    plain (plain raw) = plain raw := by
  have shorter : (cutDecimals raw.toList).count '.' ≤ 1 :=
    Nat.le_trans ((cutDecimals_begins _).sublist.count_le _) once
  by_cases zeros : ['.', '0', '0'] <:+: cutDecimals raw.toList
  · apply plain_of_no_point
    rw [toList_plain]
    exact no_point_dropZeros shorter zeros
  · have kept := (dropZeros_eq_self_iff _).mpr zeros
    rw [plain_eq_self_iff, toList_plain, kept]
    exact ⟨(cutDecimals_eq_self_iff _).mp (cutDecimals_cutDecimals _), zeros⟩

theorem dropZeros_sublist (cs : List Char) : (dropZeros cs).Sublist cs := by
  fun_induction dropZeros cs with
  | case1 rest => exact (List.sublist_append_right ['.', '0', '0'] rest)
  | case2 c rest _ ih => exact ih.cons_cons c
  | case3 => exact List.Sublist.refl _

/-- A numeral of digits around a point is shown without the decimals after the second, and without
a point if the first two are zeros: its number is truncated to hundredths toward zero. Text with at
most one point, a number or not, is shown with some of its characters left out, and if it is shown
again it stays as it is. -/
theorem plain_truncates :
    (∀ (p : Fixed) (raw : String), raw.toList = p.text →
      (plain raw).toList = p.sign ++ p.whole ++ leftOf p.decimals ∧
      ∃ d r : Decimal, Numeral.ofChars? raw.toList = some (.decimal d) ∧
        Numeral.ofChars? (plain raw).toList = some (.decimal r) ∧
        r.value = towardZero (d.value * 100) / 100) ∧
    ∀ raw : String, raw.toList.count '.' ≤ 1 →
      plain (plain raw) = plain raw ∧ (plain raw).toList.Sublist raw.toList := by
  refine ⟨fun p raw written => ?_, fun raw once => ⟨plain_plain once, ?_⟩⟩
  · have shown : (plain raw).toList = p.sign ++ p.whole ++ leftOf p.decimals := by
      rw [toList_plain, written, p.dropZeros_text]
    obtain ⟨r, value, left⟩ := p.exists_decimalText
    refine ⟨shown, p.pointed.decimal, r, ?_, ?_, value.trans p.value_cut⟩
    · rw [written, ofChars?_eq_decimal_iff]
      exact p.decimalText
    · rw [shown, ofChars?_eq_decimal_iff]
      exact left
  · rw [toList_plain]
    exact (dropZeros_sublist _).trans (cutDecimals_begins _).sublist

/-- A negative number is truncated upwards. -/
theorem plain_truncates_negative :
    ∃ p : Fixed, "-7.0089".toList = p.text ∧ (plain "-7.0089").toList = p.sign ++ p.whole ∧
      (∃ d r : Decimal, Numeral.ofChars? "-7.0089".toList = some (.decimal d) ∧
        Numeral.ofChars? (plain "-7.0089").toList = some (.decimal r) ∧
        r.value = towardZero (d.value * 100) / 100) ∧
      "-7.0089".toList.count '.' ≤ 1 ∧ plain (plain "-7.0089") = plain "-7.0089" := by
  let p : Fixed :=
    { sign := ['-'], whole := ['7'], decimals := ['0', '0', '8', '9'], negative := true,
      signed := .minus, nonempty := by simp, digits := by simp }
  have written : "-7.0089".toList = p.text := by decide
  have once : "-7.0089".toList.count '.' ≤ 1 := by decide
  obtain ⟨shown, number⟩ := plain_truncates.1 p _ written
  exact ⟨p, written, shown, number, once, (plain_truncates.2 _ once).1⟩

end Dashboard.Figure
