import Dashboard.History

/-!
# Samples of many series

`samplesOf` reads the samples of one series off a list of pushes. Whatever was pushed before and
between, a history holds the end of these samples (`holds_last_samples`).
-/

namespace Dashboard

open Numeric

namespace Window

/-- Of the suffixes of a list, the last `n` elements are the one of the right length. -/
theorem eq_lastOf_iff {n : Nat} {kept l : List Binary64} :
    kept = lastOf n l ↔ kept <:+ l ∧ kept.length = min n l.length := by
  have length : (lastOf n l).length = min n l.length := by
    rw [lastOf, List.length_drop]
    omega
  constructor
  · rintro rfl
    exact ⟨List.drop_suffix _ l, length⟩
  · rintro ⟨suffix, same⟩
    rw [List.suffix_iff_eq_drop.mp suffix, lastOf]
    congr 1
    omega

theorem lastOf_ne_nil {n : Nat} {l : List Binary64} (room : 0 < n) (pushed : l ≠ []) :
    lastOf n l ≠ [] := by
  have length := (eq_lastOf_iff.mp (rfl : lastOf n l = lastOf n l)).2
  have long := List.length_pos_iff.mpr pushed
  apply List.length_pos_iff.mp
  omega

theorem getLast?_lastOf {n : Nat} (room : 0 < n) (l : List Binary64) :
    (lastOf n l).getLast? = l.getLast? := by
  rw [lastOf, List.getLast?_drop]
  split
  · have empty : l.length = 0 := by omega
    rw [List.length_eq_zero_iff.mp empty, List.getLast?_nil]
  · rfl

end Window

namespace History

def pushAll (h : History) : List (Series × Binary64) → History
  | [] => h
  | (s, sample) :: rest => (h.push s sample).pushAll rest

theorem pushAll_append (h : History) (before after : List (Series × Binary64)) :
    h.pushAll (before ++ after) = (h.pushAll before).pushAll after := by
  induction before generalizing h with
  | nil => rfl
  | cons p rest ih => exact ih (h.push p.1 p.2)

def samplesOf (s : Series) (pushes : List (Series × Binary64)) : List Binary64 :=
  (pushes.filter (·.1 = s)).map (·.2)

theorem samplesOf_cons (s s' : Series) (sample : Binary64) (rest : List (Series × Binary64)) :
    samplesOf s' ((s, sample) :: rest) =
      if s = s' then sample :: samplesOf s' rest else samplesOf s' rest := by
  by_cases same : s = s' <;> simp [samplesOf, same]

theorem samplesOf_eq_nil_iff {s : Series} {pushes : List (Series × Binary64)} :
    samplesOf s pushes = [] ↔ ∀ p ∈ pushes, p.1 ≠ s := by
  simp [samplesOf, List.filter_eq_nil_iff]

theorem window?_push_self (h : History) (s : Series) (sample : Binary64) :
    (h.push s sample).window? s =
      some (((h.window? s).getD (.ofCapacity h.capacity)).push sample) := by
  rw [window?_push, if_pos rfl]

theorem window?_push_other (h : History) {s s' : Series} (differs : s' ≠ s) (sample : Binary64) :
    (h.push s sample).window? s' = h.window? s' := by
  rw [window?_push, if_neg differs]

/-- The window of a series takes the samples of the series one by one. -/
theorem window?_pushAll (h : History) (pushes : List (Series × Binary64)) (s : Series) :
    (h.pushAll pushes).window? s =
      if samplesOf s pushes = [] then h.window? s
      else some ((samplesOf s pushes).foldl Window.push
        ((h.window? s).getD (.ofCapacity h.capacity))) := by
  induction pushes generalizing h with
  | nil => rfl
  | cons p rest ih =>
    obtain ⟨pushed, sample⟩ := p
    have kept : (h.push pushed sample).capacity = h.capacity := rfl
    rw [pushAll, ih, samplesOf_cons, kept]
    by_cases same : pushed = s
    · subst same
      -- This push has opened the window if no earlier one did, so the others find it open.
      rw [window?_push_self, if_pos rfl, if_neg (List.cons_ne_nil _ _)]
      split
      · next last => rw [last]; rfl
      · rfl
    · rw [window?_push_other h (Ne.symm same), if_neg same]

/-- A new history holds the end of what was pushed under each series. -/
theorem samples?_pushAll (capacity : Nat) (pushes : List (Series × Binary64)) (s : Series) :
    ((ofCapacity capacity).pushAll pushes).samples? s =
      if samplesOf s pushes = [] then none
      else some (Window.lastOf (max capacity 1) (samplesOf s pushes)) := by
  rw [samples?, window?_pushAll]
  split
  · rfl
  · have clamped : max (max capacity 1) 1 = max capacity 1 := by omega
    have held := Window.samples_push (max capacity 1) (samplesOf s pushes)
    rw [clamped] at held
    exact congrArg some held

/-- After any pushes to a new history, a series that was never pushed has no samples, and any other
has the last samples pushed under it, as many as the capacity, of which zero counts as one. So no
window is empty or over the capacity, and a push is seen under its own series alone: series that
differ only in the device or only in the quantity do not mix. -/
theorem holds_last_samples (capacity : Nat) (pushes : List (Series × Binary64)) :
    let h := (ofCapacity capacity).pushAll pushes
    (∀ s, h.samples? s = none ↔ ∀ p ∈ pushes, p.1 ≠ s) ∧
    (∀ s kept, h.samples? s = some kept ↔
      samplesOf s pushes ≠ [] ∧ kept <:+ samplesOf s pushes ∧
        kept.length = min (max capacity 1) (samplesOf s pushes).length) ∧
    (∀ s w, h.window? s = some w → w.samples ≠ [] ∧ w.samples.length ≤ max capacity 1) ∧
    ∀ s s' sample, s.device ≠ s'.device ∨ s.quantity ≠ s'.quantity →
      (h.push s sample).samples? s' = h.samples? s' := by
  intro h
  have held := samples?_pushAll capacity pushes
  have room : 0 < max capacity 1 := by omega
  refine ⟨?_, ?_, ?_, ?_⟩
  · intro s
    rw [held, ← samplesOf_eq_nil_iff]
    split <;> simp_all
  · intro s kept
    rw [held, ← Window.eq_lastOf_iff]
    split
    · next never => simp [never]
    · next pushed => rw [Option.some_inj, eq_comm, and_iff_right pushed]
  · intro s w found
    have samples : h.samples? s = some w.samples := congrArg (Option.map Window.samples) found
    rw [held] at samples
    split at samples
    · cases samples
    · next pushed =>
      have last := (Option.some.inj samples).symm
      have length := (Window.eq_lastOf_iff.mp last).2
      refine ⟨?_, by omega⟩
      rw [last]
      exact Window.lastOf_ne_nil room pushed
  · intro s s' sample differs
    have other : s' ≠ s := by
      rintro rfl
      rcases differs with device | quantity
      · exact device rfl
      · exact quantity rfl
    rw [samples?, window?_push_other h other, samples?]

end History

end Dashboard
