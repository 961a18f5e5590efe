/-!
# Plain figures

A plain figure is the text as received, less the decimals after the second and less the first
`.00`. Both cuts leave the text before the first point as it is, and neither makes a text longer.
-/

namespace Dashboard.Figure

/-- Text that ends in a point and digits, without the digits after the second one. -/
def cutDecimals : List Char → List Char
  | '.' :: a :: b :: rest =>
    if (a :: b :: rest).all Char.isDigit then ['.', a, b] else '.' :: cutDecimals (a :: b :: rest)
  | c :: rest => c :: cutDecimals rest
  | [] => []

/-- Text without the first point that two zeros follow, and without these zeros. -/
def dropZeros : List Char → List Char
  | '.' :: '0' :: '0' :: rest => rest
  | c :: rest => c :: dropZeros rest
  | [] => []

def plain (raw : String) : String :=
  String.ofList (dropZeros (cutDecimals raw.toList))

theorem cutDecimals_append {cs : List Char} (h : '.' ∉ cs) (rest : List Char) :
    cutDecimals (cs ++ rest) = cs ++ cutDecimals rest := by
  induction cs with
  | nil => rfl
  | cons c cs ih =>
    have hc : c ≠ '.' := fun e => h (by simp [e])
    rw [List.cons_append, cutDecimals.eq_2 _ _ (by simp_all), ih (by simp_all), List.cons_append]

theorem dropZeros_append {cs : List Char} (h : '.' ∉ cs) (rest : List Char) :
    dropZeros (cs ++ rest) = cs ++ dropZeros rest := by
  induction cs with
  | nil => rfl
  | cons c cs ih =>
    have hc : c ≠ '.' := fun e => h (by simp [e])
    rw [List.cons_append, dropZeros.eq_2 _ _ (by simp_all), ih (by simp_all), List.cons_append]

theorem cutDecimals_of_fraction {a b : Char} {rest : List Char}
    (h : (a :: b :: rest).all Char.isDigit = true) :
    cutDecimals ('.' :: a :: b :: rest) = ['.', a, b] := by
  rw [cutDecimals, if_pos h]

theorem length_cutDecimals_le (cs : List Char) : (cutDecimals cs).length ≤ cs.length := by
  fun_induction cutDecimals cs with
  | case1 => simp only [List.length_cons, List.length_nil]; omega
  | case2 _ _ _ _ ih | case3 _ _ _ ih => exact Nat.succ_le_succ ih
  | case4 => exact Nat.le_refl _

theorem length_dropZeros_le (cs : List Char) : (dropZeros cs).length ≤ cs.length := by
  fun_induction dropZeros cs with
  | case1 => simp only [List.length_cons]; omega
  | case2 _ _ _ ih => exact Nat.succ_le_succ ih
  | case3 => exact Nat.le_refl _

end Dashboard.Figure
