import Mathlib.Data.List.TakeWhile
import Dashboard.Proofs.Json.Places

/-!
# Integer literals in a text

An integer is written with its decimal digits, of which the first is no zero unless it is the only
one, and with or without a minus. Such a literal is a token of its own where the word it is in ends
(`writes_plain`, `writes_minus`).
-/

namespace Dashboard.Json

structure InWord (c : Char) : Prop where
  noSpace : Lexeme.isSpace c = false
  noQuote : c ≠ Lexeme.quote
  noMark : Mark.ofChar? c = none

/-- A word that comes before this text ends there. -/
def EndsWord (post : List Char) : Prop :=
  ∀ c ∈ post.head?, ¬InWord c

theorem endsWord_mark (m : Mark) (rest : List Char) : EndsWord (m.char :: rest) := by
  rintro _ ⟨⟩ word
  have mark := word.noMark
  cases m <;> cases mark

theorem splitFrom_inWord {word : List Char} (within : ∀ c ∈ word, InWord c)
    (seen post : List Char) :
    Lexeme.splitFrom (.bare seen) (word ++ post) =
      Lexeme.splitFrom (.bare (word.reverse ++ seen)) post := by
  induction word generalizing seen with
  | nil => rfl
  | cons c word ih =>
    obtain ⟨⟨noSpace, noQuote, noMark⟩, others⟩ := List.forall_mem_cons.mp within
    rw [List.cons_append, Lexeme.splitFrom, if_neg (by rw [noSpace]; exact Bool.false_ne_true),
      if_neg noQuote, noMark]
    dsimp only
    rw [ih others, List.reverse_cons, List.append_assoc]
    rfl

theorem splitFrom_endsWord {seen post : List Char} (begun : seen ≠ []) (ends : EndsWord post) :
    Lexeme.splitFrom (.bare seen) post =
      (Lexeme.split post).map (.word seen.reverse :: ·) := by
  have word : Lexeme.endWord seen = [.word seen.reverse] := if_neg begun
  have nothing : Lexeme.endWord [] = [] := if_pos rfl
  cases post with
  | nil => simp [Lexeme.split, Lexeme.splitFrom, word, nothing]
  | cons c post =>
    have stops := ends c rfl
    rw [Lexeme.split, Lexeme.splitFrom, Lexeme.splitFrom, word, nothing]
    by_cases space : Lexeme.isSpace c
    · simp [space]
    · rw [if_neg space, if_neg space]
      by_cases quotes : c = Lexeme.quote
      · simp [quotes]
      · rw [if_neg quotes, if_neg quotes]
        cases mark : Mark.ofChar? c with
        | none => exact absurd ⟨eq_false_of_ne_true space, quotes, mark⟩ stops
        | some m => simp [Function.comp_def]

theorem writes_number {text post : List Char} {n : Number} (within : ∀ c ∈ text, InWord c)
    (read : Number.ofChars? text = some n) (ends : EndsWord post) :
    Writes text post (.number n) := by
  have named (word : String) (none : Number.ofChars? word.toList = none) : text ≠ word.toList := by
    rintro rfl
    cases none.symm.trans read
  have begun : text.reverse ≠ [] := by
    rw [ne_eq, List.reverse_eq_nil_iff]
    exact named "" (by decide)
  have cut : Lexeme.split (text ++ post) = (Lexeme.split post).map (.word text :: ·) := by
    rw [Lexeme.split, splitFrom_inWord within, List.append_nil, splitFrom_endsWord begun ends,
      List.reverse_reverse]
  refine ⟨.scalar (.number n), rfl, tokens?_of_split cut ?_⟩
  rw [Token.ofLexeme?, if_neg (named "null" (by decide)), if_neg (named "true" (by decide)),
    if_neg (named "false" (by decide)), read]
  rfl

/-! ### Literals -/

/-- The texts of an integer: its decimal digits, with a minus if it is negative. Zero may have a
minus too. -/
inductive IntegerLiteral : Int → List Char → Prop where
  | plain (n : Nat) : IntegerLiteral n (Nat.toDigits 10 n)
  | minus (n : Nat) : IntegerLiteral (-n) ('-' :: Nat.toDigits 10 n)

theorem inWord_of_isDigit {c : Char} (digit : c.isDigit = true) : InWord c := by
  constructor
  · cases space : Lexeme.isSpace c with
    | false => rfl
    | true =>
      simp only [Lexeme.isSpace, Bool.or_eq_true, decide_eq_true_eq] at space
      rcases space with ((rfl | rfl) | rfl) | rfl <;> cases digit
  · rintro rfl
    cases digit
  · unfold Mark.ofChar?
    split <;> first | rfl | cases digit

theorem inWord_minus : InWord '-' :=
  ⟨by decide, by decide, by decide⟩

theorem isDigit_of_mem_toDigits {n : Nat} : ∀ c ∈ Nat.toDigits 10 n, c.isDigit = true :=
  fun _ member => Nat.isDigit_of_mem_toDigits (by decide) (by decide) member

theorem head?_toDigits {n : Nat} (positive : 0 < n) : (Nat.toDigits 10 n).head? ≠ some '0' := by
  induction n using Nat.strongRecOn with
  | ind n ih =>
    by_cases small : n < 10
    · rw [Nat.toDigits_of_lt_base small]
      exact (by decide : ∀ n < 10, 0 < n → [n.digitChar].head? ≠ some '0') n small positive
    · have front := Nat.div_pos (Nat.le_of_not_lt small) (by decide)
      have first := ih (n / 10) (by omega) front
      rw [Nat.toDigits_of_base_le (by decide) (Nat.le_of_not_lt small), List.head?_append]
      cases digits : Nat.toDigits 10 (n / 10) with
      | nil => exact absurd digits Nat.toDigits_ne_nil
      | cons c cs => rwa [digits] at first

theorem wholePart?_toDigits (n : Nat) :
    Number.wholePart? (Nat.toDigits 10 n) = some (Nat.toDigits 10 n) := by
  rw [Number.wholePart?, if_pos]
  rcases Nat.eq_zero_or_pos n with rfl | positive
  · exact .inl (Nat.toDigits_zero 10)
  · exact .inr ⟨Nat.toDigits_ne_nil, head?_toDigits positive⟩

theorem takeWhile_toDigits (n : Nat) :
    (Nat.toDigits 10 n).takeWhile Char.isDigit = Nat.toDigits 10 n :=
  List.takeWhile_eq_self_iff.mpr isDigit_of_mem_toDigits

theorem dropWhile_toDigits (n : Nat) : (Nat.toDigits 10 n).dropWhile Char.isDigit = [] :=
  List.dropWhile_eq_nil_iff.mpr isDigit_of_mem_toDigits

theorem ofChars?_minus (n : Nat) : Number.ofChars? ('-' :: Nat.toDigits 10 n) =
    some { negative := true, whole := Nat.toDigits 10 n } := by
  simp only [Number.ofChars?, takeWhile_toDigits, dropWhile_toDigits, wholePart?_toDigits]
  rfl

theorem ofChars?_plain (n : Nat) : Number.ofChars? (Nat.toDigits 10 n) =
    some { whole := Nat.toDigits 10 n } := by
  have unsigned : ∀ rest, Nat.toDigits 10 n ≠ '-' :: rest := by
    intro rest same
    have minus : '-' ∈ Nat.toDigits 10 n := same ▸ List.mem_cons_self
    exact absurd (isDigit_of_mem_toDigits _ minus) (by decide)
  simp only [Number.ofChars?, takeWhile_toDigits, dropWhile_toDigits, wholePart?_toDigits]
  rfl

theorem inWord_toDigits (n : Nat) : ∀ c ∈ Nat.toDigits 10 n, InWord c :=
  fun c member => inWord_of_isDigit (isDigit_of_mem_toDigits c member)

variable {post : List Char}

theorem writes_plain (n : Nat) (ends : EndsWord post) :
    Writes (Nat.toDigits 10 n) post (.number { whole := Nat.toDigits 10 n }) :=
  writes_number (inWord_toDigits n) (ofChars?_plain n) ends

theorem writes_minus (n : Nat) (ends : EndsWord post) :
    Writes ('-' :: Nat.toDigits 10 n) post
      (.number { negative := true, whole := Nat.toDigits 10 n }) :=
  writes_number (List.forall_mem_cons.mpr ⟨inWord_minus, inWord_toDigits n⟩) (ofChars?_minus n) ends

theorem integer?_plain (n : Nat) :
    Number.integer? { whole := Nat.toDigits 10 n } =
      if n < UInt64.size then some (n : Int) else none := by
  simp [Number.integer?, Nat.ofDigitChars_ten_toDigits]

theorem integer?_minus (n : Nat) :
    Number.integer? { negative := true, whole := Nat.toDigits 10 n } =
      if 0 < n ∧ Int64.minValue.toInt ≤ -n then some (-n : Int) else none := by
  simp [Number.integer?, Nat.ofDigitChars_ten_toDigits]

end Dashboard.Json
