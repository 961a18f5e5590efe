import Mathlib.Algebra.Group.Nat.Defs
import Dashboard.Numeric.Numeral
import Dashboard.Text.Blank

/-!
# Texts of decimals

`DecimalText` lists the texts of a decimal: an optional sign, digits with at most one point, and an
optional exponent. These texts and no others are read as decimals (`ofChars?_eq_decimal_iff`).
-/

namespace Dashboard.Numeric

/-- A sign in front of a numeral, and whether it is a minus. -/
inductive Sign : Bool → List Char → Prop where
  | none : Sign false []
  | plus : Sign false ['+']
  | minus : Sign true ['-']

/-- Digits with at most one point, and an exponent behind them. -/
inductive UnsignedText : Nat → Int → List Char → Prop where
  | whole {ds tail : List Char} {e : Int} (nonempty : ds ≠ [])
      (digits : ∀ c ∈ ds, c.isDigit = true) (scaled : exponent? tail = some e) :
      UnsignedText (Nat.ofDigitChars 10 ds 0) e (ds ++ tail)
  | pointed {ds fs tail : List Char} {e : Int} (nonempty : ds ++ fs ≠ [])
      (digits : ∀ c ∈ ds ++ fs, c.isDigit = true) (scaled : exponent? tail = some e) :
      UnsignedText (Nat.ofDigitChars 10 (ds ++ fs) 0) (e - fs.length) (ds ++ '.' :: (fs ++ tail))

inductive DecimalText : Decimal → List Char → Prop where
  | mk {negative : Bool} {digits : Nat} {exponent : Int} {sign text : List Char}
      (signed : Sign negative sign) (unsigned : UnsignedText digits exponent text) :
      DecimalText { negative, digits, exponent } (sign ++ text)

theorem digit_le {c : Char} (digit : c.isDigit = true) : c.toNat - '0'.toNat ≤ 9 := by
  simp only [Char.isDigit, Bool.and_eq_true, decide_eq_true_eq] at digit
  have high : c.toNat ≤ 57 := UInt32.le_iff_toNat_le.mp digit.2
  have zero : '0'.toNat = 48 := rfl
  omega

theorem ofDigitChars_lt {ds : List Char} (digits : ∀ c ∈ ds, c.isDigit = true) (n : Nat) :
    n * 10 ^ ds.length ≤ Nat.ofDigitChars 10 ds n ∧
      Nat.ofDigitChars 10 ds n < (n + 1) * 10 ^ ds.length := by
  induction ds generalizing n with
  | nil => simp
  | cons c ds ih =>
    obtain ⟨head, tail⟩ := List.forall_mem_cons.mp digits
    have last := digit_le head
    obtain ⟨low, high⟩ := ih tail (10 * n + (c.toNat - '0'.toNat))
    rw [Nat.ofDigitChars_cons, List.length_cons, Nat.pow_succ]
    constructor
    · refine Nat.le_trans ?_ low
      rw [Nat.mul_comm _ 10, ← Nat.mul_assoc]
      exact Nat.mul_le_mul_right _ (by omega)
    · refine Nat.lt_of_lt_of_le high ?_
      rw [Nat.mul_comm _ 10, ← Nat.mul_assoc]
      exact Nat.mul_le_mul_right _ (by omega)

theorem Sign.chars {negative : Bool} {sign : List Char} (signed : Sign negative sign) :
    ∀ c ∈ sign, c = '+' ∨ c = '-' := by
  cases signed <;> simp

theorem Sign.of_takeSign (cs : List Char) :
    ∃ sign, Sign (takeSign cs).1 sign ∧ cs = sign ++ (takeSign cs).2 := by
  unfold takeSign
  split
  · exact ⟨['-'], .minus, rfl⟩
  · exact ⟨['+'], .plus, rfl⟩
  · exact ⟨[], .none, rfl⟩

theorem isDigit_of_digits? {ds : List Char} {n : Nat} (read : digits? ds = some n) :
    ∀ c ∈ ds, c.isDigit = true := by
  unfold digits? at read
  split at read
  · cases read
  · next all =>
    simp only [Bool.or_eq_true, Bool.not_eq_true', not_or, Bool.not_eq_false] at all
    exact List.all_eq_true.mp all.2

theorem integer?_chars {cs : List Char} {z : Int} (read : integer? cs = some z) :
    ∀ c ∈ cs, c.isDigit = true ∨ c = '+' ∨ c = '-' := by
  obtain ⟨sign, signed, split⟩ := Sign.of_takeSign cs
  unfold integer? at read
  generalize takeSign cs = taken at *
  obtain ⟨negative, ds⟩ := taken
  dsimp only at read signed split
  intro c member
  rw [split] at member
  rcases List.mem_append.mp member with first | digit
  · exact .inr (signed.chars c first)
  · cases digits : digits? ds with
    | none =>
      rw [digits] at read
      cases read
    | some n => exact .inl (isDigit_of_digits? digits c digit)

theorem exponent?_eq_some {tail : List Char} {e : Int} (scaled : exponent? tail = some e) :
    tail = [] ∧ e = 0 ∨ ∃ c cs, tail = c :: cs ∧ (c = 'e' ∨ c = 'E') ∧ integer? cs = some e := by
  cases tail with
  | nil => exact .inl ⟨rfl, (Option.some.inj scaled).symm⟩
  | cons c cs =>
    rw [exponent?] at scaled
    split at scaled
    · next mark => exact .inr ⟨c, cs, rfl, by simpa using mark, scaled⟩
    · cases scaled

theorem exponent?_head {tail : List Char} {e : Int} (scaled : exponent? tail = some e) :
    ∀ c ∈ tail.head?, c = 'e' ∨ c = 'E' := by
  rcases exponent?_eq_some scaled with ⟨rfl, _⟩ | ⟨c, cs, rfl, mark, _⟩
  · simp
  · rintro _ ⟨⟩
    exact mark

theorem exponent?_chars {tail : List Char} {e : Int} (scaled : exponent? tail = some e) :
    ∀ c ∈ tail, c.isDigit = true ∨ c ∈ ['+', '-', 'e', 'E'] := by
  rcases exponent?_eq_some scaled with ⟨rfl, _⟩ | ⟨c, cs, rfl, mark, read⟩
  · simp
  · intro d member
    rcases List.mem_cons.mp member with rfl | member
    · rcases mark with rfl | rfl <;> simp
    · rcases integer?_chars read d member with digit | rfl | rfl
      · exact .inl digit
      · simp
      · simp

theorem exponent?_not_digit {tail : List Char} {e : Int} (scaled : exponent? tail = some e) :
    ∀ c ∈ tail.head?, c.isDigit = false := by
  intro c head
  rcases exponent?_head scaled c head with rfl | rfl <;> rfl

section
variable {ds rest : List Char} (digits : ∀ c ∈ ds, c.isDigit = true)
  (ends : ∀ c ∈ rest.head?, c.isDigit = false)
include digits ends

theorem takeWhile_digits : (ds ++ rest).takeWhile Char.isDigit = ds := by
  rw [List.takeWhile_append_of_pos digits]
  cases rest with
  | nil => exact List.append_nil ds
  | cons c rest => rw [List.takeWhile_cons_of_neg (by simp [ends c rfl]), List.append_nil]

theorem dropWhile_digits : (ds ++ rest).dropWhile Char.isDigit = rest := by
  rw [List.dropWhile_append_of_pos digits]
  cases rest with
  | nil => rfl
  | cons c rest => exact List.dropWhile_cons_of_neg (by simp [ends c rfl])

end

theorem decimal?_of_unsigned {n : Nat} {e : Int} {text : List Char} (negative : Bool)
    (unsigned : UnsignedText n e text) :
    Numeral.decimal? negative text = some { negative, digits := n, exponent := e } := by
  cases unsigned with
  | @whole ds tail e nonempty digits scaled =>
    have ends := exponent?_not_digit scaled
    have pointless : takeFraction tail = ([], tail) := by
      rcases exponent?_eq_some scaled with ⟨rfl, _⟩ | ⟨c, cs, rfl, rfl | rfl, _⟩ <;> rfl
    simp [Numeral.decimal?, takeWhile_digits digits ends, dropWhile_digits digits ends, pointless,
      nonempty, scaled]
  | @pointed ds fs tail e nonempty digits scaled =>
    obtain ⟨before, behind⟩ := List.forall_mem_append.mp digits
    have ends := exponent?_not_digit scaled
    have point : ∀ c ∈ ('.' :: (fs ++ tail)).head?, c.isDigit = false := by
      rintro _ ⟨⟩
      rfl
    have fraction : takeFraction ('.' :: (fs ++ tail)) = (fs, tail) := by
      rw [takeFraction, takeWhile_digits behind ends, dropWhile_digits behind ends]
    simp only [Numeral.decimal?, takeWhile_digits before point, dropWhile_digits before point,
      fraction, scaled]
    rw [if_neg]
    · rfl
    · simpa using nonempty

theorem unsigned_of_decimal? {negative : Bool} {text : List Char} {d : Decimal}
    (read : Numeral.decimal? negative text = some d) :
    d.negative = negative ∧ UnsignedText d.digits d.exponent text := by
  have whole : ∀ c ∈ text.takeWhile Char.isDigit, c.isDigit = true :=
    List.all_eq_true.mp List.all_takeWhile
  have split : text.takeWhile Char.isDigit ++ text.dropWhile Char.isDigit = text :=
    List.takeWhile_append_dropWhile
  unfold Numeral.decimal? at read
  generalize text.takeWhile Char.isDigit = ds, text.dropWhile Char.isDigit = rest at *
  subst split
  unfold takeFraction at read
  split at read
  next fs tail taken =>
  dsimp only at read
  split at read
  · cases read
  · next nonempty =>
    obtain ⟨e, scaled, rfl⟩ := Option.map_eq_some_iff.mp read
    refine ⟨rfl, ?_⟩
    split at taken
    · next cs =>
      obtain ⟨rfl, rfl⟩ := Prod.mk.inj taken
      have behind : ∀ c ∈ cs.takeWhile Char.isDigit, c.isDigit = true :=
        List.all_eq_true.mp List.all_takeWhile
      have text := UnsignedText.pointed (by simpa using nonempty)
        (List.forall_mem_append.mpr ⟨whole, behind⟩) scaled
      rwa [List.takeWhile_append_dropWhile] at text
    · obtain ⟨rfl, rfl⟩ := Prod.mk.inj taken
      simpa using UnsignedText.whole (by simpa using nonempty) whole scaled

theorem Sign.takeSign_eq {negative : Bool} {sign text : List Char} (signed : Sign negative sign)
    (unsigned : ∀ c ∈ text.head?, c ≠ '+' ∧ c ≠ '-') :
    takeSign (sign ++ text) = (negative, text) := by
  cases signed with
  | none =>
    rw [List.nil_append]
    unfold takeSign
    split
    · exact absurd rfl (unsigned '-' rfl).2
    · exact absurd rfl (unsigned '+' rfl).1
    · rfl
  | plus | minus => rfl

/-- A numeral starts with a digit or a point. -/
theorem UnsignedText.head {n : Nat} {e : Int} {text : List Char} (unsigned : UnsignedText n e text) :
    ∃ c cs, text = c :: cs ∧ (c.isDigit = true ∨ c = '.') := by
  cases unsigned with
  | @whole ds tail _ nonempty digits =>
    obtain ⟨c, cs, rfl⟩ := List.exists_cons_of_ne_nil nonempty
    exact ⟨c, cs ++ tail, rfl, .inl (digits c List.mem_cons_self)⟩
  | @pointed ds fs tail _ nonempty digits =>
    cases ds with
    | nil => exact ⟨'.', fs ++ tail, rfl, .inr rfl⟩
    | cons c cs => exact ⟨c, _, rfl, .inl (digits c (by simp))⟩

theorem UnsignedText.not_sign {n : Nat} {e : Int} {text : List Char}
    (unsigned : UnsignedText n e text) : ∀ c ∈ text.head?, c ≠ '+' ∧ c ≠ '-' := by
  obtain ⟨c, cs, rfl, first⟩ := unsigned.head
  rintro _ ⟨⟩
  constructor <;> rintro rfl <;> revert first <;> decide

theorem toLower_of_digit_or_point {c : Char} (first : c.isDigit = true ∨ c = '.') :
    c.toLower = c := by
  rcases first with digit | rfl
  · simp only [Char.isDigit, Bool.and_eq_true, decide_eq_true_eq] at digit
    unfold Char.toLower
    rw [dif_neg]
    rintro ⟨low, _⟩
    have between := Nat.le_trans (UInt32.le_iff_toNat_le.mp low) (UInt32.le_iff_toNat_le.mp digit.2)
    revert between
    decide
  · rfl

theorem UnsignedText.not_word {n : Nat} {e : Int} {text : List Char}
    (unsigned : UnsignedText n e text) {word : String} {c : Char} {cs : List Char}
    (starts : word.toList = c :: cs) (letter : c.isDigit = false ∧ c ≠ '.') :
    String.ofList (text.map Char.toLower) ≠ word := by
  rintro rfl
  obtain ⟨d, ds, rfl, first⟩ := unsigned.head
  rw [String.toList_ofList, List.map_cons, toLower_of_digit_or_point first] at starts
  obtain ⟨rfl, -⟩ := List.cons.inj starts
  rcases first with digit | point
  · rw [digit] at letter
    cases letter.1
  · exact letter.2 point

/-- The numerals of a decimal are its texts. -/
theorem ofChars?_eq_decimal_iff {cs : List Char} {d : Decimal} :
    Numeral.ofChars? cs = some (.decimal d) ↔ DecimalText d cs := by
  constructor
  · intro read
    obtain ⟨sign, signed, split⟩ := Sign.of_takeSign cs
    unfold Numeral.ofChars? at read
    generalize takeSign cs = taken at *
    dsimp only at read
    split at read
    · cases read
    · split at read
      · cases read
      · obtain ⟨d', read, same⟩ := Option.map_eq_some_iff.mp read
        cases same
        obtain ⟨negative, unsigned⟩ := unsigned_of_decimal? read
        rw [split]
        rw [← negative] at signed
        exact .mk signed unsigned
  · rintro ⟨signed, unsigned⟩
    have taken := signed.takeSign_eq unsigned.not_sign
    have nan : String.ofList _ ≠ "nan" := unsigned.not_word rfl (by decide)
    have inf : String.ofList _ ≠ "inf" := unsigned.not_word rfl (by decide)
    have infinity : String.ofList _ ≠ "infinity" := unsigned.not_word rfl (by decide)
    unfold Numeral.ofChars?
    simp only [taken, if_neg nan, inf, infinity, decimal?_of_unsigned _ unsigned]
    rfl

/-- A sign with an exponent or nothing behind it is no decimal. -/
theorem not_decimalText_of_tail {negative : Bool} {sign tail : List Char} {e : Int} {d : Decimal}
    (signed : Sign negative sign) (scaled : exponent? tail = some e) :
    ¬DecimalText d (sign ++ tail) := by
  intro written
  generalize same : sign ++ tail = text at written
  obtain ⟨signed', unsigned⟩ := written
  have not_sign : ∀ c ∈ tail.head?, c ≠ '+' ∧ c ≠ '-' := by
    intro c head
    rcases exponent?_head scaled c head with rfl | rfl <;> decide
  have taken := signed.takeSign_eq not_sign
  rw [same, signed'.takeSign_eq unsigned.not_sign] at taken
  obtain ⟨-, rfl⟩ := Prod.mk.inj taken
  obtain ⟨c, cs, rfl, first⟩ := unsigned.head
  rcases exponent?_head scaled c rfl with rfl | rfl <;> revert first <;> decide

/-! ### Blank characters around a numeral -/

theorem Sign.solid {negative : Bool} {sign : List Char} (signed : Sign negative sign) :
    ∀ c ∈ sign, Text.isBlank c = false := by
  intro c member
  rcases signed.chars c member with rfl | rfl <;> decide

theorem exponent?_solid {tail : List Char} {e : Int} (scaled : exponent? tail = some e) :
    ∀ c ∈ tail, Text.isBlank c = false := by
  intro c member
  rcases exponent?_chars scaled c member with digit | mark
  · exact Text.isBlank_of_isDigit digit
  · simp only [List.mem_cons, List.not_mem_nil, or_false] at mark
    rcases mark with rfl | rfl | rfl | rfl <;> rfl

theorem UnsignedText.solid {n : Nat} {e : Int} {text : List Char}
    (unsigned : UnsignedText n e text) : ∀ c ∈ text, Text.isBlank c = false := by
  cases unsigned with
  | whole nonempty digits scaled =>
    refine List.forall_mem_append.mpr ⟨?_, exponent?_solid scaled⟩
    exact fun c member => Text.isBlank_of_isDigit (digits c member)
  | pointed nonempty digits scaled =>
    obtain ⟨before, behind⟩ := List.forall_mem_append.mp digits
    refine List.forall_mem_append.mpr ⟨fun c member => Text.isBlank_of_isDigit (before c member), ?_⟩
    refine List.forall_mem_cons.mpr ⟨by decide, List.forall_mem_append.mpr ⟨?_, ?_⟩⟩
    · exact fun c member => Text.isBlank_of_isDigit (behind c member)
    · exact exponent?_solid scaled

theorem DecimalText.solid {d : Decimal} {text : List Char} (written : DecimalText d text) :
    ∀ c ∈ text, Text.isBlank c = false := by
  obtain ⟨signed, unsigned⟩ := written
  exact List.forall_mem_append.mpr ⟨signed.solid, unsigned.solid⟩

/-- A text of the decimal with blank characters around it. -/
inductive PaddedDecimal (d : Decimal) : List Char → Prop where
  | mk {front text back : List Char} (blank : ∀ c ∈ front, Text.isBlank c = true)
      (written : DecimalText d text) (blank' : ∀ c ∈ back, Text.isBlank c = true) :
      PaddedDecimal d (front ++ text ++ back)

theorem ofChars?_trim_eq_decimal_iff {raw : String} {d : Decimal} :
    Numeral.ofChars? (Text.trim raw).toList = some (.decimal d) ↔ PaddedDecimal d raw.toList := by
  rw [Text.toList_trim, ofChars?_eq_decimal_iff]
  constructor
  · intro written
    obtain ⟨front, back, blank, blank', split⟩ := Text.exists_around raw.toList
    rw [split]
    exact .mk blank written blank'
  · intro padded
    generalize raw.toList = cs at padded
    obtain ⟨blank, written, blank'⟩ := padded
    rwa [Text.trimBlank_around blank written.solid blank']

end Dashboard.Numeric
