import Mathlib.Data.List.Infix
import Dashboard.Figure.Style

/-!
# Figures that are shown as received

A plain figure is the text as received unless the text has more than two decimals at its end or a
`.00` anywhere (`plain_eq_self_iff`), whether it is a number or not. An abbreviated figure is the
text as received wherever that is no number. `figure_of_no_number` puts the two together.
-/

namespace Dashboard.Figure

open Numeric

/-- Text that ends in a point and three digits or more. -/
inductive LongFraction : List Char → Prop where
  | mk (front : List Char) {digits : List Char} (all : ∀ c ∈ digits, c.isDigit = true)
      (long : 3 ≤ digits.length) : LongFraction (front ++ '.' :: digits)

theorem longFraction_cons_iff {c : Char} {cs : List Char} :
    LongFraction (c :: cs) ↔
      c = '.' ∧ (∀ d ∈ cs, d.isDigit = true) ∧ 3 ≤ cs.length ∨ LongFraction cs := by
  constructor
  · intro long
    generalize split : c :: cs = text at long
    obtain ⟨front, all, long⟩ := long
    cases front with
    | nil =>
      obtain ⟨rfl, rfl⟩ := List.cons.inj split
      exact .inl ⟨rfl, all, long⟩
    | cons x front =>
      obtain ⟨rfl, rfl⟩ := List.cons.inj split
      exact .inr ⟨front, all, long⟩
  · rintro (⟨rfl, all, long⟩ | ⟨front, all, long⟩)
    · exact ⟨[], all, long⟩
    · exact ⟨c :: front, all, long⟩

theorem LongFraction.point_mem {cs : List Char} (long : LongFraction cs) : '.' ∈ cs := by
  cases long
  exact List.mem_append_right _ List.mem_cons_self

theorem cutDecimals_begins (cs : List Char) : cutDecimals cs <+: cs := by
  fun_induction cutDecimals cs with
  | case1 a b rest => exact ⟨rest, rfl⟩
  | case2 a b rest _ ih => exact (List.prefix_cons_inj '.').mpr ih
  | case3 c rest _ ih => exact (List.prefix_cons_inj c).mpr ih
  | case4 => exact List.prefix_refl []

theorem cutDecimals_eq_self_iff (cs : List Char) : cutDecimals cs = cs ↔ ¬LongFraction cs := by
  fun_induction cutDecimals cs with
  | case1 a b rest all =>
    have digits := List.all_eq_true.mp all
    cases rest with
    | nil =>
      refine iff_of_true rfl fun long => ?_
      rcases longFraction_cons_iff.mp long with ⟨_, _, three⟩ | long
      · exact absurd three (by simp)
      · exact absurd (digits '.' long.point_mem) (by decide)
    | cons d rest =>
      have long : LongFraction ('.' :: a :: b :: d :: rest) :=
        longFraction_cons_iff.mpr (.inl ⟨rfl, digits, by simp⟩)
      exact iff_of_false (by simp) (not_not_intro long)
  | case2 a b rest others ih =>
    rw [List.cons_inj_right, ih, @longFraction_cons_iff '.', or_iff_right]
    rintro ⟨_, digits, _⟩
    exact others (List.all_eq_true.mpr digits)
  | case3 c rest other ih =>
    rw [List.cons_inj_right, ih, @longFraction_cons_iff c, or_iff_right]
    rintro ⟨point, _, long⟩
    rcases rest with _ | ⟨a, _ | ⟨b, rest⟩⟩
    · exact absurd long (by simp)
    · exact absurd long (by simp)
    · exact other a b rest point rfl
  | case4 => exact iff_of_true rfl fun long => List.not_mem_nil long.point_mem

theorem dropZeros_eq_self_iff (cs : List Char) :
    dropZeros cs = cs ↔ ¬['.', '0', '0'] <:+: cs := by
  fun_induction dropZeros cs with
  | case1 rest =>
    have shorter : rest ≠ '.' :: '0' :: '0' :: rest := fun same => by
      have length := congrArg List.length same
      simp only [List.length_cons] at length
      omega
    exact iff_of_false shorter (not_not_intro ⟨[], rest, rfl⟩)
  | case2 c rest other ih =>
    rw [List.cons_inj_right, ih, List.infix_cons_iff, or_iff_right]
    rintro ⟨more, split⟩
    obtain ⟨rfl, rfl⟩ := List.cons.inj split
    exact other more rfl rfl
  | case3 => exact iff_of_true rfl (by simp)

theorem plain_eq_self_iff (raw : String) :
    plain raw = raw ↔ ¬LongFraction raw.toList ∧ ¬['.', '0', '0'] <:+: raw.toList := by
  rw [← cutDecimals_eq_self_iff, ← dropZeros_eq_self_iff, ← String.toList_inj, plain,
    String.toList_ofList]
  constructor
  · intro same
    have cut : cutDecimals raw.toList = raw.toList := by
      refine (cutDecimals_begins _).eq_of_length_le ?_
      calc
        raw.toList.length = (dropZeros (cutDecimals raw.toList)).length := by rw [same]
        _ ≤ (cutDecimals raw.toList).length := length_dropZeros_le _
    rw [cut] at same
    exact ⟨cut, same⟩
  · rintro ⟨cut, kept⟩
    rw [cut, kept]

/-- Text that is no number is shown as received, abbreviated or not, except that a plain figure
loses the digits after the second one behind a point that digits alone follow to the end, and the
first `.00`. -/
theorem figure_of_no_number {raw : String} (none : Binary64.ofText? (Text.trim raw) = none)
    (style : Style) :
    style.figure raw = raw ↔
      style.abbreviated = true ∨
        ¬LongFraction raw.toList ∧ ¬['.', '0', '0'] <:+: raw.toList := by
  rw [← plain_eq_self_iff, Style.figure, finiteNumber?, none]
  cases style.abbreviated <;> simp

/-- A version is no number. Its last point has two digits behind it, and no point has two zeros. -/
theorem figure_of_no_number_version :
    Binary64.ofText? (Text.trim "v2.10.05") = none ∧
      (Style.figure {} "v2.10.05" = "v2.10.05" ↔
        Style.abbreviated {} = true ∨
          ¬LongFraction "v2.10.05".toList ∧ ¬['.', '0', '0'] <:+: "v2.10.05".toList) := by
  have none : Binary64.ofText? (Text.trim "v2.10.05") = none := by decide
  exact ⟨none, figure_of_no_number none {}⟩

/-- An address is no number, and it loses its last digit. -/
theorem address_loses_digit :
    Binary64.ofText? (Text.trim "192.168.0.100") = none ∧
      Style.figure {} "192.168.0.100" = "192.168.0.10" := by
  decide

end Dashboard.Figure
