/-!
# Blank characters

The characters with the Unicode property `White_Space`, and text without them at its ends.
-/

namespace Dashboard.Text

/-- The code points with the property `White_Space`, as closed ranges in ascending order. -/
def blankRanges : List (Nat × Nat) :=
  [(0x9, 0xd), (0x20, 0x20), (0x85, 0x85), (0xa0, 0xa0), (0x1680, 0x1680), (0x2000, 0x200a),
    (0x2028, 0x2029), (0x202f, 0x202f), (0x205f, 0x205f), (0x3000, 0x3000)]

def isBlank (c : Char) : Bool :=
  blankRanges.any fun range => range.1 ≤ c.toNat && c.toNat ≤ range.2

/-- Text without the longest run of characters satisfying `p` at its end. -/
def dropEnd (p : Char → Bool) (cs : List Char) : List Char :=
  (cs.reverse.dropWhile p).reverse

def trimBlank (cs : List Char) : List Char :=
  dropEnd isBlank (cs.dropWhile isBlank)

def trim (s : String) : String :=
  String.ofList (trimBlank s.toList)

theorem toList_trim (s : String) : (trim s).toList = trimBlank s.toList :=
  String.toList_ofList

theorem dropEnd_eq_self {p : Char → Bool} {cs : List Char} (h : ∀ c ∈ cs.getLast?, p c = false) :
    dropEnd p cs = cs := by
  rw [List.getLast?_eq_head?_reverse] at h
  unfold dropEnd
  cases hr : cs.reverse with
  | nil => simpa using congrArg List.reverse hr.symm
  | cons c r =>
    have hc : p c = false := h c (by simp [hr])
    rw [List.dropWhile_cons_of_neg (by simp [hc]), ← hr, List.reverse_reverse]

/-- Text that neither starts nor ends with a blank character is not changed. -/
theorem trimBlank_eq_self {cs : List Char} (hs : ∀ c ∈ cs.head?, isBlank c = false)
    (he : ∀ c ∈ cs.getLast?, isBlank c = false) : trimBlank cs = cs := by
  have hd : cs.dropWhile isBlank = cs := by
    cases cs with
    | nil => rfl
    | cons c r => exact List.dropWhile_cons_of_neg (by simp [hs c (by simp)])
  rw [trimBlank, hd, dropEnd_eq_self he]

theorem trimBlank_of_forall {cs : List Char} (h : ∀ c ∈ cs, isBlank c = false) :
    trimBlank cs = cs :=
  trimBlank_eq_self (fun c hc => h c (List.mem_of_head? hc))
    (fun c hc => h c (List.mem_of_getLast? hc))

theorem dropWhile_blank {blank text : List Char} (all : ∀ c ∈ blank, isBlank c = true)
    (begins : ∀ c ∈ text.head?, isBlank c = false) :
    (blank ++ text).dropWhile isBlank = text := by
  rw [List.dropWhile_append_of_pos all]
  cases text with
  | nil => rfl
  | cons c cs => exact List.dropWhile_cons_of_neg (by simp [begins c rfl])

theorem trimBlank_around {front text back : List Char} (blank : ∀ c ∈ front, isBlank c = true)
    (solid : ∀ c ∈ text, isBlank c = false) (blank' : ∀ c ∈ back, isBlank c = true) :
    trimBlank (front ++ text ++ back) = text := by
  rw [trimBlank, List.append_assoc]
  cases text with
  | nil =>
    have all : ∀ c ∈ front ++ back, isBlank c = true := fun c member =>
      (List.mem_append.mp member).elim (blank c) (blank' c)
    have dropped := @dropWhile_blank _ [] all (by simp)
    rw [List.append_nil] at dropped
    rw [List.nil_append, dropped]
    rfl
  | cons c cs =>
    have begins : ∀ x ∈ (c :: cs ++ back).head?, isBlank x = false := by
      rintro _ ⟨⟩
      exact solid c List.mem_cons_self
    have ends : ∀ x ∈ (c :: cs).reverse.head?, isBlank x = false := fun x head =>
      solid x (List.mem_reverse.mp (List.mem_of_head? head))
    have reversed : ∀ x ∈ back.reverse, isBlank x = true := fun x member =>
      blank' x (List.mem_reverse.mp member)
    rw [dropWhile_blank blank begins, dropEnd, List.reverse_append,
      dropWhile_blank reversed ends, List.reverse_reverse]

/-- Text is what trimming keeps of it with blank characters around. -/
theorem exists_around (cs : List Char) :
    ∃ front back, (∀ c ∈ front, isBlank c = true) ∧ (∀ c ∈ back, isBlank c = true) ∧
      cs = front ++ trimBlank cs ++ back := by
  let rest := cs.dropWhile isBlank
  refine ⟨cs.takeWhile isBlank, (rest.reverse.takeWhile isBlank).reverse, ?_, ?_, ?_⟩
  · exact List.all_eq_true.mp List.all_takeWhile
  · exact fun c member => List.all_eq_true.mp List.all_takeWhile c (List.mem_reverse.mp member)
  · have last : rest = dropEnd isBlank rest ++ (rest.reverse.takeWhile isBlank).reverse := by
      rw [dropEnd, ← List.reverse_append, List.takeWhile_append_dropWhile, List.reverse_reverse]
    rw [trimBlank, List.append_assoc, ← last, List.takeWhile_append_dropWhile]

theorem isBlank_of_isDigit {c : Char} (h : c.isDigit = true) : isBlank c = false := by
  simp only [Char.isDigit, Bool.and_eq_true, decide_eq_true_eq] at h
  have hlow : 48 ≤ c.toNat := UInt32.le_iff_toNat_le.mp h.1
  have hhigh : c.toNat ≤ 57 := UInt32.le_iff_toNat_le.mp h.2
  simp [isBlank, blankRanges]
  omega

theorem isDigit_of_isBlank {c : Char} (blank : isBlank c = true) : c.isDigit = false := by
  cases digit : c.isDigit with
  | false => rfl
  | true =>
    rw [isBlank_of_isDigit digit] at blank
    cases blank

end Dashboard.Text
