import Dashboard.Proofs.Json.Arrays

/-!
# Ways to write tokens

`SpelledChar` lists the ways to write one character between quotes: as it is, with a short escape,
by its code, or by a pair of surrogates. `Laid` puts strings and marks behind each other with any
white space between them. However they are spelled and laid out, the tokens that are read are those
that were written (`tokens?_laid`).
-/

namespace Dashboard.Json

inductive Hex : Nat → Char → Prop where
  | lower {n : Nat} (small : n < 16) : Hex n n.digitChar
  | upper {n : Nat} (small : n < 16) : Hex n n.digitChar.toUpper

inductive Escaped : Nat → List Char → Prop where
  | mk {a b c d : Nat} {w x y z : Char} (first : Hex a w) (second : Hex b x) (third : Hex c y)
      (last : Hex d z) : Escaped (16 * (16 * (16 * a + b) + c) + d) ['\\', 'u', w, x, y, z]

/-- The characters with a short escape, each with what stands for it behind the backslash. -/
def shortEscapes : List (Char × Char) :=
  [('\"', '\"'), ('\\', '\\'), ('/', '/'), ('\x08', 'b'), ('\x0c', 'f'), ('\n', 'n'), ('\r', 'r'),
    ('\t', 't')]

def Plain (c : Char) : Prop :=
  0x20 ≤ c.toNat ∧ c ≠ '\"' ∧ c ≠ '\\'

instance (c : Char) : Decidable (Plain c) :=
  inferInstanceAs (Decidable (_ ∧ _))

inductive SpelledChar : Char → List Char → Prop where
  | raw {c : Char} (plain : Plain c) : SpelledChar c [c]
  | short {c x : Char} (listed : (c, x) ∈ shortEscapes) : SpelledChar c ['\\', x]
  | code {c : Char} {text : List Char} (escaped : Escaped c.toNat text) : SpelledChar c text
  | surrogates {c : Char} {high low : Nat} {text text' : List Char} (small : high < 0x400)
      (small' : low < 0x400) (value : c.toNat = 0x10000 + high * 0x400 + low)
      (escaped : Escaped (0xd800 + high) text) (escaped' : Escaped (0xdc00 + low) text') :
      SpelledChar c (text ++ text')

/-- The text between the quotes of a string with these characters. -/
inductive Spelled : List Char → List Char → Prop where
  | nil : Spelled [] []
  | cons {c : Char} {cs text rest : List Char} (first : SpelledChar c text)
      (others : Spelled cs rest) : Spelled (c :: cs) (text ++ rest)

theorem spelled_plain {cs : List Char} (plain : ∀ c ∈ cs, Plain c) : Spelled cs cs := by
  induction cs with
  | nil => exact .nil
  | cons c cs ih =>
    obtain ⟨head, tail⟩ := List.forall_mem_cons.mp plain
    exact .cons (.raw head) (ih tail)

theorem exists_escaped {n : Nat} (small : n < 0x10000) : ∃ text, Escaped n text := by
  have digits : 16 * (16 * (16 * (n / 4096) + n / 256 % 16) + n / 16 % 16) + n % 16 = n := by omega
  have first : Hex (n / 4096) (n / 4096).digitChar := .lower (by omega)
  have second : Hex (n / 256 % 16) (n / 256 % 16).digitChar := .lower (by omega)
  have third : Hex (n / 16 % 16) (n / 16 % 16).digitChar := .lower (by omega)
  have last : Hex (n % 16) (n % 16).digitChar := .lower (by omega)
  have escaped := Escaped.mk first second third last
  rw [digits] at escaped
  exact ⟨_, escaped⟩

theorem exists_spelledChar (c : Char) : ∃ text, SpelledChar c text := by
  by_cases small : c.toNat < 0x10000
  · obtain ⟨text, escaped⟩ := exists_escaped small
    exact ⟨text, .code escaped⟩
  · refine ⟨[c], .raw ⟨by omega, ?_, ?_⟩⟩
    all_goals
      rintro rfl
      exact small (by decide)

theorem exists_spelled (cs : List Char) : ∃ text, Spelled cs text := by
  induction cs with
  | nil => exact ⟨[], .nil⟩
  | cons c cs ih =>
    obtain ⟨first, spelled⟩ := exists_spelledChar c
    obtain ⟨rest, others⟩ := ih
    exact ⟨first ++ rest, .cons spelled others⟩

theorem Hex.plain {n : Nat} {c : Char} (h : Hex n c) : Plain c := by
  cases h with
  | lower small => exact (by decide : ∀ n < 16, Plain n.digitChar) n small
  | upper small => exact (by decide : ∀ n < 16, Plain n.digitChar.toUpper) n small

namespace Lexeme

theorem splitFrom_plain {c : Char} (plain : Plain c) (seen rest : List Char) :
    splitFrom (.quoted seen) (c :: rest) = splitFrom (.quoted (c :: seen)) rest := by
  obtain ⟨printable, noQuote, noBackslash⟩ := plain
  have inside : c ≠ quote := noQuote
  have noControl : isControl c = false := decide_eq_false (by omega)
  rw [splitFrom, if_neg inside, noControl, if_neg Bool.false_ne_true, if_neg noBackslash]

theorem splitFrom_backslash (x : Char) (seen rest : List Char) :
    splitFrom (.quoted seen) ('\\' :: x :: rest) =
      splitFrom (.quoted (x :: '\\' :: seen)) rest := by
  rw [splitFrom, if_neg (by decide), if_neg (by decide), if_pos rfl, splitFrom]

theorem splitFrom_escaped {n : Nat} {text : List Char} (h : Escaped n text)
    (seen rest : List Char) :
    splitFrom (.quoted seen) (text ++ rest) =
      splitFrom (.quoted (text.reverse ++ seen)) rest := by
  obtain ⟨first, second, third, last⟩ := h
  simp only [List.cons_append, List.nil_append, splitFrom_backslash, splitFrom_plain first.plain,
    splitFrom_plain second.plain, splitFrom_plain third.plain, splitFrom_plain last.plain]
  rfl

theorem splitFrom_spelledChar {c : Char} {text : List Char} (h : SpelledChar c text)
    (seen rest : List Char) :
    splitFrom (.quoted seen) (text ++ rest) =
      splitFrom (.quoted (text.reverse ++ seen)) rest := by
  cases h with
  | raw plain => exact splitFrom_plain plain seen rest
  | short listed => exact splitFrom_backslash _ seen rest
  | code escaped => exact splitFrom_escaped escaped seen rest
  | surrogates small small' value escaped escaped' =>
    rw [List.append_assoc, splitFrom_escaped escaped, splitFrom_escaped escaped',
      List.reverse_append, List.append_assoc]

theorem splitFrom_spelled {cs text : List Char} (h : Spelled cs text) (seen rest : List Char) :
    splitFrom (.quoted seen) (text ++ rest) =
      splitFrom (.quoted (text.reverse ++ seen)) rest := by
  induction h generalizing seen with
  | nil => rfl
  | cons first others ih =>
    rw [List.append_assoc, splitFrom_spelledChar first, ih, List.reverse_append, List.append_assoc]

theorem split_string {cs text : List Char} (h : Spelled cs text) (rest : List Char) :
    split ('\"' :: (text ++ '\"' :: rest)) = (split rest).map (.quoted text :: ·) := by
  have opened : split ('\"' :: (text ++ '\"' :: rest)) =
      splitFrom (.quoted []) (text ++ '\"' :: rest) := by
    rw [split, splitFrom, if_neg (by decide), if_pos (by decide)]
    cases splitFrom (.quoted []) (text ++ '\"' :: rest) <;> rfl
  rw [opened, splitFrom_spelled h, splitFrom, if_pos (by decide), List.append_nil,
    List.reverse_reverse]
  rfl

end Lexeme

/-! ### The characters of a string are read back -/

theorem hexDigit?_eq {n : Nat} {c : Char} (h : Hex n c) : hexDigit? c = some n := by
  cases h with
  | lower small => exact (by decide : ∀ n < 16, hexDigit? n.digitChar = some n) n small
  | upper small => exact (by decide : ∀ n < 16, hexDigit? n.digitChar.toUpper = some n) n small

theorem codePoints?_plain {c : Char} (plain : Plain c) (rest : List Char) :
    codePoints? (c :: rest) = (codePoints? rest).map (c.toNat :: ·) := by
  obtain ⟨_, _, noBackslash⟩ := plain
  rw [codePoints?] <;> simp [noBackslash]

theorem codePoints?_short {c x : Char} (listed : (c, x) ∈ shortEscapes) (rest : List Char) :
    codePoints? ('\\' :: x :: rest) = (codePoints? rest).map (c.toNat :: ·) := by
  have meant : x ≠ 'u' ∧ escape? x = some c := by
    revert listed
    exact (by decide : ∀ p ∈ shortEscapes, p.2 ≠ 'u' ∧ escape? p.2 = some p.1) (c, x)
  obtain ⟨other, escape⟩ := meant
  rw [codePoints?]
  · rw [escape]
    exact Option.map_eq_bind.symm
  · intro _ _ _ _ _ same
    exact absurd same other

theorem codePoints?_escaped {n : Nat} {text : List Char} (h : Escaped n text) (rest : List Char) :
    codePoints? (text ++ rest) = (codePoints? rest).map (n :: ·) := by
  obtain ⟨first, second, third, last⟩ := h
  simp only [List.cons_append, List.nil_append, codePoints?, List.mapM_cons, List.mapM_nil,
    hexDigit?_eq first, hexDigit?_eq second, hexDigit?_eq third, hexDigit?_eq last]
  cases codePoints? rest <;> simp

theorem not_surrogate (c : Char) :
    isHighSurrogate c.toNat = false ∧ isLowSurrogate c.toNat = false := by
  have valid : c.toNat.isValidChar := c.valid
  unfold Nat.isValidChar at valid
  simp only [isHighSurrogate, isLowSurrogate, Bool.and_eq_false_iff, decide_eq_false_iff_not]
  omega

theorem joinSurrogates?_char (c : Char) (rest : List Nat) :
    joinSurrogates? (c.toNat :: rest) = (joinSurrogates? rest).map (c :: ·) := by
  obtain ⟨high, low⟩ := not_surrogate c
  rw [joinSurrogates?.eq_def]
  simp only [high, low, Bool.false_eq_true, if_false, Char.ofNat_toNat]

theorem joinSurrogates?_pair {c : Char} {high low : Nat} (small : high < 0x400)
    (small' : low < 0x400) (value : c.toNat = 0x10000 + high * 0x400 + low) (rest : List Nat) :
    joinSurrogates? ((0xd800 + high) :: (0xdc00 + low) :: rest) =
      (joinSurrogates? rest).map (c :: ·) := by
  have isHigh : isHighSurrogate (0xd800 + high) = true := by
    simp only [isHighSurrogate, Bool.and_eq_true, decide_eq_true_eq]
    omega
  have isLow : isLowSurrogate (0xdc00 + low) = true := by
    simp only [isLowSurrogate, Bool.and_eq_true, decide_eq_true_eq]
    omega
  have joined : Char.ofNat (0x10000 + (0xd800 + high - 0xd800) * 0x400 + (0xdc00 + low - 0xdc00)) =
      c := by
    rw [Nat.add_sub_cancel_left, Nat.add_sub_cancel_left, ← value, Char.ofNat_toNat]
  rw [joinSurrogates?.eq_def]
  simp only [isHigh, isLow, if_true, joined]

theorem read_spelledChar {c : Char} {text : List Char} (h : SpelledChar c text) :
    ∃ points, (∀ rest, codePoints? (text ++ rest) = (codePoints? rest).map (points ++ ·)) ∧
      ∀ later, joinSurrogates? (points ++ later) = (joinSurrogates? later).map (c :: ·) := by
  cases h with
  | raw plain => exact ⟨[c.toNat], codePoints?_plain plain, joinSurrogates?_char c⟩
  | short listed => exact ⟨[c.toNat], codePoints?_short listed, joinSurrogates?_char c⟩
  | code escaped => exact ⟨[c.toNat], codePoints?_escaped escaped, joinSurrogates?_char c⟩
  | surrogates small small' value escaped escaped' =>
    refine ⟨[_, _], ?_, joinSurrogates?_pair small small' value⟩
    intro rest
    rw [List.append_assoc, codePoints?_escaped escaped, codePoints?_escaped escaped',
      Option.map_map]
    rfl

theorem read_spelled {cs text : List Char} (h : Spelled cs text) :
    ∃ points, codePoints? text = some points ∧ joinSurrogates? points = some cs := by
  induction h with
  | nil => exact ⟨[], by rw [codePoints?], by rw [joinSurrogates?]⟩
  | cons first others ih =>
    obtain ⟨points, read, joined⟩ := read_spelledChar first
    obtain ⟨later, readLater, joinedLater⟩ := ih
    exact ⟨points ++ later, by rw [read, readLater]; rfl, by rw [joined, joinedLater]; rfl⟩

/-! ### Tokens with white space between them -/

inductive Piece where
  | mark (m : Mark)
  | string (s : String)

def Piece.token : Piece → Token
  | mark m => .mark m
  | string s => .string (some s)

def Blank (space : List Char) : Prop :=
  ∀ c ∈ space, c ∈ [' ', '\t', '\n', '\r']

inductive Laid : List Piece → List Char → Prop where
  | nil {space : List Char} (blank : Blank space) : Laid [] space
  | mark {space : List Char} (blank : Blank space) (m : Mark) {pieces : List Piece}
      {text : List Char} (rest : Laid pieces text) :
      Laid (.mark m :: pieces) (space ++ m.char :: text)
  | string {space : List Char} (blank : Blank space) {s : String} {inner : List Char}
      (spelled : Spelled s.toList inner) {pieces : List Piece} {text : List Char}
      (rest : Laid pieces text) :
      Laid (.string s :: pieces) (space ++ '\"' :: (inner ++ '\"' :: text))

theorem exists_laid (pieces : List Piece) : ∃ text, Laid pieces text := by
  have blank : Blank [] := List.forall_mem_nil _
  induction pieces with
  | nil => exact ⟨[], .nil blank⟩
  | cons piece pieces ih =>
    obtain ⟨text, rest⟩ := ih
    cases piece with
    | mark m => exact ⟨_, .mark blank m rest⟩
    | string s =>
      obtain ⟨inner, spelled⟩ := exists_spelled s.toList
      exact ⟨_, .string blank spelled rest⟩

theorem Laid.append {front back : List Piece} {text rest : List Char} (laid : Laid front text)
    (others : Laid back rest) : Laid (front ++ back) (text ++ rest) := by
  induction laid with
  | @nil ending blank =>
    have joined {space : List Char} (blank' : Blank space) : Blank (ending ++ space) :=
      List.forall_mem_append.mpr ⟨blank, blank'⟩
    cases others with
    | nil blank' => exact .nil (joined blank')
    | mark blank' m rest =>
      rw [← List.append_assoc]
      exact .mark (joined blank') m rest
    | string blank' spelled rest =>
      rw [← List.append_assoc]
      exact .string (joined blank') spelled rest
  | mark blank m _ ih =>
    rw [List.append_assoc]
    exact .mark blank m ih
  | string blank spelled _ ih =>
    simp only [List.append_assoc, List.cons_append]
    exact .string blank spelled ih

theorem split_space {space : List Char} (blank : Blank space) (text : List Char) :
    Lexeme.split (space ++ text) = Lexeme.split text := by
  induction space with
  | nil => rfl
  | cons c space ih =>
    obtain ⟨head, tail⟩ := List.forall_mem_cons.mp blank
    have isSpace : Lexeme.isSpace c = true := by
      simpa [Lexeme.isSpace, or_assoc] using head
    have step : Lexeme.split (c :: (space ++ text)) =
        (Lexeme.split (space ++ text)).map ([] ++ ·) := by
      rw [Lexeme.split, Lexeme.splitFrom, if_pos isSpace]
      rfl
    rw [List.cons_append, step, ih tail]
    cases Lexeme.split text <;> rfl

theorem tokens?_space {space : List Char} (blank : Blank space) (text : List Char) :
    tokens? (space ++ text) = tokens? text := by
  rw [tokens?, tokens?, split_space blank]

theorem tokens?_string {s : String} {inner : List Char} (spelled : Spelled s.toList inner)
    (text : List Char) :
    tokens? ('\"' :: (inner ++ '\"' :: text)) = (tokens? text).map (.string (some s) :: ·) := by
  obtain ⟨points, read, joined⟩ := read_spelled spelled
  have token : Token.ofLexeme? (.quoted inner) = some (.string (some s)) := by
    rw [Token.ofLexeme?, read, Option.map_some, joined, Option.map_some, String.ofList_toList]
  exact tokens?_of_split (Lexeme.split_string spelled text) token

/-- The tokens of a text are those that it was written from. -/
theorem tokens?_laid {pieces : List Piece} {text : List Char} (laid : Laid pieces text) :
    tokens? text = some (pieces.map Piece.token) := by
  induction laid with
  | @nil space blank =>
    have empty := tokens?_space blank []
    rw [List.append_nil] at empty
    exact empty
  | mark blank m rest ih => rw [tokens?_space blank, tokens?_mark, ih]; rfl
  | string blank spelled rest ih => rw [tokens?_space blank, tokens?_string spelled, ih]; rfl

end Dashboard.Json
