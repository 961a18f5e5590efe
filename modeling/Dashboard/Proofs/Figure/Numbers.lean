import Mathlib.Data.Sign.Defs
import Dashboard.Proofs.Figure.Pointed

/-!
# Numbers as plain figures

A plain figure of a number is a numeral of the same number with decimals after the second cut off,
unless the text is `Garbled`: the `.00` that is dropped stands before more digits, or nothing else
makes the text a number (`plain_keeps_number_iff`).
-/

namespace Dashboard.Figure

open Numeric

/-- The text is a decimal numeral of a number in the range of doubles, blank characters around it
apart. -/
inductive Reads (raw : String) : ℚ → Prop where
  | mk {d : Decimal} (read : Numeral.ofChars? (Text.trim raw).toList = some (.decimal d))
      (finite : d.nearest.isFinite = true) : Reads raw d.value

/-- `r` is `q` with some decimals after the second cut off. -/
structure CutTo (q r : ℚ) : Prop where
  sign : r = 0 ∨ SignType.sign r = SignType.sign q
  le : |r| ≤ |q|
  lt : |q| - |r| < 1 / 100

/-- The first point of the text has two zeros behind it, then these digits, then no digit. -/
structure ZerosAt (cs before digits after : List Char) : Prop where
  text : cs = before ++ '.' :: '0' :: '0' :: (digits ++ after)
  first : '.' ∉ before
  digit : ∀ c ∈ digits, c.isDigit = true
  ends : ∀ c ∈ after.head?, c.isDigit = false

/-- Numerals that are no longer one without the zeros behind their point, or one of another
number. -/
inductive Garbled (cs : List Char) : Prop where
  | erased {before digits after : List Char} (zeros : ZerosAt cs before digits after)
      (bare : ∀ c ∈ before, c.isDigit = false) (nothing : digits = [] ∨ after = [])
  | joined {before digits after : List Char} (zeros : ZerosAt cs before digits after)
      (more : digits ≠ []) (followed : after ≠ [])
      (counts : ∃ c ∈ before ++ digits, c.isDigit = true ∧ c ≠ '0')

namespace Pointed

variable (p : Pointed)

/-- The first point of the text has two zeros behind it exactly if the first decimals are zeros. -/
theorem zerosAt_iff {before digits after : List Char} :
    ZerosAt p.text before digits after ↔
      before = p.before ∧ p.decimals = '0' :: '0' :: digits ∧ after = p.after := by
  have behind := (List.forall_mem_append.mp p.digits).2
  constructor
  · intro zeros
    obtain ⟨same, -, rest⟩ :=
      (List.append_cons_inj_of_notMem p.no_point_before p.no_point_behind).mp zeros.text
    have zeroDigits : ∀ c ∈ '0' :: '0' :: digits, c.isDigit = true :=
      List.forall_mem_cons.mpr ⟨rfl, List.forall_mem_cons.mpr ⟨rfl, zeros.digit⟩⟩
    have taken := takeWhile_digits behind p.after_head
    have left := dropWhile_digits behind p.after_head
    rw [rest] at taken left
    refine ⟨same.symm, ?_, ?_⟩
    · rw [← taken]
      exact takeWhile_digits zeroDigits zeros.ends
    · rw [← left]
      exact (dropWhile_digits zeroDigits zeros.ends).symm
  · rintro ⟨rfl, zeros, rfl⟩
    rw [zeros] at behind
    refine ⟨?_, p.no_point_before, fun c member => behind c (by simp [member]), p.after_head⟩
    rw [text, zeros]
    rfl

theorem shown_eq_zeros_iff {ms : List Char} :
    p.shown = '0' :: '0' :: ms ↔
      ∃ digits, p.decimals = '0' :: '0' :: digits ∧
        (p.after = [] ∧ ms = [] ∨ p.after ≠ [] ∧ ms = digits) := by
  unfold shown
  split
  · next ended =>
    rcases p.decimals with _ | ⟨a, _ | ⟨b, digits⟩⟩
    · simp
    · simp
    · simp [ended, and_assoc, eq_comm]
  · next followed => simp [followed]

theorem digit_of_zeros {ms : List Char} (zeros : p.decimals = '0' :: '0' :: ms) :
    ∀ c ∈ p.whole ++ ms, c.isDigit = true := by
  obtain ⟨whole, behind⟩ := List.forall_mem_append.mp p.digits
  rw [zeros] at behind
  exact List.forall_mem_append.mpr ⟨whole, fun c member => behind c (by simp [member])⟩

theorem counts_iff {ms : List Char} (zeros : p.decimals = '0' :: '0' :: ms) :
    (∃ c ∈ p.before ++ ms, c.isDigit = true ∧ c ≠ '0') ↔
      Nat.ofDigitChars 10 (p.whole ++ ms) 0 ≠ 0 := by
  have digit := p.digit_of_zeros zeros
  rw [Ne, ofDigitChars_eq_zero_iff digit, before, List.append_assoc]
  push Not
  constructor
  · rintro ⟨c, member, isDigit, counts⟩
    refine ⟨c, (List.mem_append.mp member).resolve_left fun first => ?_, counts⟩
    rw [p.not_digit_in_front c first] at isDigit
    cases isDigit
  · rintro ⟨c, member, counts⟩
    exact ⟨c, List.mem_append_right _ member, digit c member, counts⟩

theorem bare_iff : (∀ c ∈ p.before, c.isDigit = false) ↔ p.whole = [] := by
  constructor
  · intro bare
    refine List.eq_nil_iff_forall_not_mem.mpr fun c member => ?_
    have digit := bare c (List.mem_append_right _ member)
    rw [p.digits c (List.mem_append_left _ member)] at digit
    cases digit
  · intro empty
    rw [before, empty, List.append_nil]
    exact p.not_digit_in_front

theorem garbled_text_iff :
    Garbled p.text ↔
      ∃ ms, p.shown = '0' :: '0' :: ms ∧
        (p.whole ++ ms = [] ∨ ms ≠ [] ∧ Nat.ofDigitChars 10 (p.whole ++ ms) 0 ≠ 0) := by
  constructor
  · intro garbled
    cases garbled with
    | @erased before digits after zeros bare nothing =>
      obtain ⟨rfl, decimals, rfl⟩ := p.zerosAt_iff.mp zeros
      refine ⟨[], p.shown_eq_zeros_iff.mpr ⟨digits, decimals, ?_⟩, .inl ?_⟩
      · by_cases ended : p.after = []
        · exact .inl ⟨ended, rfl⟩
        · exact .inr ⟨ended, (nothing.resolve_right ended).symm⟩
      · rw [p.bare_iff.mp bare, List.append_nil]
    | @joined before digits after zeros more followed counts =>
      obtain ⟨rfl, decimals, rfl⟩ := p.zerosAt_iff.mp zeros
      exact ⟨digits, p.shown_eq_zeros_iff.mpr ⟨digits, decimals, .inr ⟨followed, rfl⟩⟩,
        .inr ⟨more, (p.counts_iff decimals).mp counts⟩⟩
  · rintro ⟨ms, shown, garbled⟩
    obtain ⟨digits, decimals, kept⟩ := p.shown_eq_zeros_iff.mp shown
    have zeros := p.zerosAt_iff.mpr ⟨rfl, decimals, rfl⟩
    rcases garbled with light | ⟨more, counts⟩
    · obtain ⟨empty, rfl⟩ := List.append_eq_nil_iff.mp light
      refine .erased zeros (p.bare_iff.mpr empty) ?_
      exact kept.symm.imp (fun followed => followed.2.symm) fun ended => ended.1
    · obtain ⟨followed, rfl⟩ := kept.resolve_left fun ended => more ended.2
      exact .joined zeros more followed ((p.counts_iff decimals).mpr counts)

end Pointed

/-! ### Numbers before and after -/

theorem CutTo.refl (q : ℚ) : CutTo q q :=
  ⟨.inr rfl, le_rfl, by norm_num⟩

/-- A smaller number of the same sign is a cut of it if a hundredth is between them. -/
theorem reads_cut {raw : String} {d d' : Decimal} (finite : d.nearest.isFinite = true)
    (padded : PaddedDecimal d' raw.toList) (negative : d'.negative = d.negative)
    (le : d'.size ≤ d.size) (lt : d.size - d'.size < 1 / 100) :
    ∃ r, Reads raw r ∧ CutTo d.value r := by
  have finite' : d'.nearest.isFinite = true := by
    rw [Decimal.nearest_isFinite_iff, Decimal.abs_value] at *
    exact lt_of_le_of_lt le finite
  refine ⟨d'.value, ⟨ofChars?_trim_eq_decimal_iff.mpr padded, finite'⟩, ?_, ?_, ?_⟩
  · rcases d'.size_nonneg.eq_or_lt with zero | positive
    · left
      rw [← abs_eq_zero, Decimal.abs_value, zero]
    · right
      have larger := positive.trans_le le
      unfold Decimal.value
      rw [negative]
      split
      · rw [sign_neg (neg_neg_of_pos positive), sign_neg (neg_neg_of_pos larger)]
      · rw [sign_pos positive, sign_pos larger]
  · rwa [Decimal.abs_value, Decimal.abs_value]
  · rwa [Decimal.abs_value, Decimal.abs_value]

theorem pointed_of_padded {d : Decimal} {cs : List Char} (padded : PaddedDecimal d cs) :
    '.' ∉ cs ∨ ∃ p : Pointed, p.decimal = d ∧ p.text = cs := by
  obtain @⟨front, _, back, leading, @⟨negative, _, _, sign, _, signed, unsigned⟩, trailing⟩ := padded
  cases unsigned with
  | whole nonempty digits scaled =>
    left
    simp only [List.mem_append, not_or]
    refine ⟨⟨fun member => ?_, fun member => ?_, fun member => ?_, fun member => ?_⟩,
      fun member => ?_⟩
    · exact absurd (leading '.' member) (by decide)
    · exact absurd (signed.chars '.' member) (by decide)
    · exact absurd (digits '.' member) (by decide)
    · exact absurd (exponent?_chars scaled '.' member) (by decide)
    · exact absurd (trailing '.' member) (by decide)
  | @pointed whole decimals tail exponent nonempty digits scaled =>
    right
    let p : Pointed := { front, sign, whole, decimals, tail, back, negative, exponent, leading,
                         signed, nonempty, digits, scaled, trailing }
    exact ⟨p, rfl, by simp [p, Pointed.text, Pointed.before, Pointed.after]⟩

section
variable {raw : String} {p : Pointed} (split : p.text = raw.toList)
include split

theorem toList_plain_pointed : (plain raw).toList = dropZeros p.cut.text := by
  rw [toList_plain, ← split, p.cutDecimals_text]

theorem plain_keeps_pointed (finite : p.decimal.nearest.isFinite = true)
    (others : ∀ ms, p.shown ≠ '0' :: '0' :: ms) :
    ∃ r, Reads (plain raw) r ∧ CutTo p.decimal.value r := by
  have padded := p.cut.padded
  rw [← p.cut.dropZeros_text_of_others others, ← toList_plain_pointed split] at padded
  exact reads_cut finite padded rfl p.size_cut.1 p.size_cut.2

variable {ms : List Char} (zeros : p.shown = '0' :: '0' :: ms)
include zeros

theorem toList_plain_joined : (plain raw).toList = p.joined ms :=
  (toList_plain_pointed split).trans (p.cut.dropZeros_text_of_zeros zeros)

theorem not_reads_plain_of_empty (empty : p.whole ++ ms = []) (r : ℚ) : ¬Reads (plain raw) r := by
  rintro ⟨read, _⟩
  have padded := ofChars?_trim_eq_decimal_iff.mp read
  rw [toList_plain_joined split zeros] at padded
  exact p.joined_nil ms empty _ padded

variable (some : p.whole ++ ms ≠ [])
include some

theorem padded_plain_joined : PaddedDecimal (p.joinedDecimal ms) (plain raw).toList := by
  rw [toList_plain_joined split zeros]
  exact p.padded_joined some (List.forall_mem_append.mp (p.cut.digit_of_zeros zeros)).2

theorem plain_keeps_joined (finite : p.decimal.nearest.isFinite = true)
    (light : ms = [] ∨ Nat.ofDigitChars 10 (p.whole ++ ms) 0 = 0) :
    ∃ r, Reads (plain raw) r ∧ CutTo p.decimal.value r := by
  have same : (p.joinedDecimal ms).size = p.cut.decimal.size := p.cut.size_joined_eq zeros light
  obtain ⟨le, lt⟩ := p.size_cut
  rw [← same] at le lt
  exact reads_cut finite (padded_plain_joined split zeros some) rfl le lt

theorem not_cut_plain_joined (more : ms ≠ [])
    (counts : Nat.ofDigitChars 10 (p.whole ++ ms) 0 ≠ 0) {r : ℚ} (reads : Reads (plain raw) r) :
    ¬CutTo p.decimal.value r := by
  intro cut
  obtain ⟨read, _⟩ := reads
  rw [ofChars?_trim_eq_decimal_iff.mpr (padded_plain_joined split zeros some)] at read
  cases read
  obtain ⟨_, decimals, kept⟩ := p.shown_eq_zeros_iff.mp zeros
  obtain ⟨-, rfl⟩ := kept.resolve_left fun ended => more ended.2
  have larger := p.size_lt_joined decimals more counts
  have le := cut.le
  rw [Decimal.abs_value, Decimal.abs_value] at le
  exact absurd larger le.not_gt

end

/-- A numeral is shown with its decimals cut off, except where the `.00` that is dropped stands
before more digits or where nothing is left. -/
theorem plain_keeps_number_iff {raw : String} {q : ℚ} (read : Reads raw q) :
    (∃ r, Reads (plain raw) r ∧ CutTo q r) ↔ ¬Garbled raw.toList := by
  have reads := read
  obtain ⟨read, finite⟩ := read
  rcases pointed_of_padded (ofChars?_trim_eq_decimal_iff.mp read) with none | ⟨p, rfl, split⟩
  · rw [plain_of_no_point none]
    refine iff_of_true ⟨_, reads, .refl _⟩ ?_
    rintro (⟨zeros, _, _⟩ | ⟨zeros, _, _, _⟩) <;> exact none (by simp [zeros.text])
  · rw [← split, p.garbled_text_iff]
    by_cases zeros : ∃ ms, p.shown = '0' :: '0' :: ms
    · obtain ⟨ms, zeros⟩ := zeros
      by_cases empty : p.whole ++ ms = []
      · refine iff_of_false ?_ (not_not_intro ⟨ms, zeros, .inl empty⟩)
        exact fun ⟨r, reads, _⟩ => not_reads_plain_of_empty split zeros empty r reads
      · by_cases light : ms = [] ∨ Nat.ofDigitChars 10 (p.whole ++ ms) 0 = 0
        · refine iff_of_true (plain_keeps_joined split zeros empty finite light) ?_
          rintro ⟨_, zeros', garbled⟩
          rw [zeros] at zeros'
          cases zeros'
          rcases garbled with nothing | ⟨more, counts⟩
          · exact empty nothing
          · exact light.elim more counts
        · rw [not_or] at light
          refine iff_of_false ?_ (not_not_intro ⟨ms, zeros, .inr light⟩)
          exact fun ⟨_, reads, cut⟩ =>
            not_cut_plain_joined split zeros empty light.1 light.2 reads cut
    · refine iff_of_true (plain_keeps_pointed split finite fun ms same => zeros ⟨ms, same⟩) ?_
      exact fun ⟨ms, same, _⟩ => zeros ⟨ms, same⟩

/-- Decimals at the end of the text are cut off after the second. -/
theorem plain_keeps_number_short :
    Reads "3.14159" (314159 / 100000) ∧
      ((∃ r, Reads (plain "3.14159") r ∧ CutTo (314159 / 100000) r) ↔
        ¬Garbled "3.14159".toList) := by
  have reads : Reads "3.14159" (314159 / 100000) := by
    have value : Decimal.value { digits := 314159, exponent := -5 } = 314159 / 100000 := by
      norm_num [Decimal.value, Decimal.size]
    rw [← value]
    exact .mk (by decide) (by decide +kernel)
  exact ⟨reads, plain_keeps_number_iff reads⟩

/-- With a blank character behind it a numeral of 21.004 is shown as one of 214. -/
theorem figure_jumps :
    Reads "21.004 " (21004 / 1000) ∧
      ¬∃ r, Reads (plain "21.004 ") r ∧ CutTo (21004 / 1000) r := by
  constructor
  · have value : Decimal.value { digits := 21004, exponent := -3 } = 21004 / 1000 := by
      norm_num [Decimal.value, Decimal.size]
    rw [← value]
    exact .mk (by decide) (by decide +kernel)
  · rintro ⟨_, ⟨read, _⟩, cut⟩
    have shown : Numeral.ofChars? (Text.trim (plain "21.004 ")).toList =
        some (.decimal { digits := 214, exponent := 0 }) := by decide
    rw [shown] at read
    cases read
    have le := cut.le
    norm_num [Decimal.value, Decimal.size] at le

end Dashboard.Figure
