import Dashboard.Device
import Dashboard.Numeric.Arithmetic
import Dashboard.Table

/-!
# Sample history

For every device and quantity the last samples are kept, as many as the capacity. `samples_push`
says that a window holds the end of what was pushed into it, and `window?_push` that a push touches
no other series.
-/

namespace Dashboard

open Numeric

/-- The last samples of a series, the oldest first. -/
structure Window where
  capacity : Nat
  samples : List Binary64 := []
  deriving DecidableEq

namespace Window

/-- An empty window. A capacity of zero counts as one. -/
def ofCapacity (capacity : Nat) : Window :=
  { capacity := max capacity 1 }

/-- Adds a sample and drops the oldest ones past the capacity. -/
def push (w : Window) (sample : Binary64) : Window :=
  let all := w.samples ++ [sample]
  { w with samples := all.drop (all.length - w.capacity) }

theorem length_push_le (w : Window) (sample : Binary64) :
    (w.push sample).samples.length ≤ w.capacity := by
  simp only [push, List.length_drop]
  omega

def lastOf (n : Nat) (l : List Binary64) : List Binary64 :=
  l.drop (l.length - n)

theorem lastOf_eq_self {n : Nat} {l : List Binary64} (h : l.length ≤ n) : lastOf n l = l := by
  rw [lastOf, Nat.sub_eq_zero_of_le h, List.drop_zero]

theorem lastOf_append (n : Nat) (l m : List Binary64) :
    lastOf n (lastOf n l ++ m) = lastOf n (l ++ m) := by
  unfold lastOf
  rw [← List.drop_append_of_le_length (Nat.sub_le ..), List.drop_drop]
  congr 1
  simp only [List.length_drop, List.length_append]
  omega

theorem samples_foldl_push (w : Window) (h : w.samples.length ≤ w.capacity)
    (pushed : List Binary64) :
    (pushed.foldl push w).samples = lastOf w.capacity (w.samples ++ pushed) := by
  induction pushed generalizing w with
  | nil => rw [List.append_nil, lastOf_eq_self h]; rfl
  | cons x pushed ih =>
    have hw : (w.push x).samples = lastOf w.capacity (w.samples ++ [x]) := rfl
    have hl : w.samples ++ x :: pushed = w.samples ++ [x] ++ pushed := List.append_cons ..
    rw [List.foldl_cons, ih (w.push x) (length_push_le w x), hw, hl]
    exact lastOf_append ..

/-- A window holds the end of everything that was pushed into it. -/
theorem samples_push (capacity : Nat) (pushed : List Binary64) :
    (pushed.foldl push (ofCapacity capacity)).samples = lastOf (max capacity 1) pushed :=
  samples_foldl_push (ofCapacity capacity) (Nat.zero_le _) pushed

end Window

inductive ChartStyle where
  | area | line
  deriving DecidableEq

def ChartStyle.name : ChartStyle → String
  | area => "Area"
  | line => "Line"

/-- The samples of a series at one time, to be drawn. -/
structure Trend where
  style : ChartStyle
  samples : List Binary64
  deriving DecidableEq

namespace Trend

def reduce? (combine : Binary64 → Binary64 → Binary64) : List Binary64 → Option Binary64
  | [] => none
  | x :: rest => some (rest.foldl combine x)

def min? (t : Trend) : Option Binary64 :=
  reduce? Binary64.min t.samples

def max? (t : Trend) : Option Binary64 :=
  reduce? Binary64.max t.samples

def last? (t : Trend) : Option Binary64 :=
  t.samples.getLast?

/-- The samples that have a place on a chart; a sample that is not finite leaves a gap. -/
def points (t : Trend) : List (Option Binary64) :=
  t.samples.map Binary64.finite?

end Trend

structure Series where
  device : String
  quantity : Quantity
  deriving DecidableEq

def defaultHistoryCapacity : Nat :=
  50

structure History where
  capacity : Nat
  windows : Table Series Window := {}
  deriving DecidableEq

namespace History

def ofCapacity (capacity : Nat) : History :=
  { capacity := max capacity 1 }

def window? (h : History) (s : Series) : Option Window :=
  h.windows.get? s

def samples? (h : History) (s : Series) : Option (List Binary64) :=
  (h.window? s).map Window.samples

def push (h : History) (s : Series) (sample : Binary64) : History :=
  let window := (h.window? s).getD (.ofCapacity h.capacity)
  { h with windows := h.windows.put s (window.push sample) }

def trend? (h : History) (s : Series) (style : ChartStyle) : Option Trend :=
  (h.samples? s).map fun samples => { style, samples }

def series (h : History) : List Series :=
  h.windows.keys

theorem window?_push (h : History) (s s' : Series) (sample : Binary64) :
    (h.push s sample).window? s' =
      if s' = s then some (((h.window? s).getD (.ofCapacity h.capacity)).push sample)
      else h.window? s' :=
  Table.get?_put ..

end History

end Dashboard
