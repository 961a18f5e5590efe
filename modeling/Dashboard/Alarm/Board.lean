import Dashboard.Alarm.Channels

/-!
# The alarm board

The board holds the live alarms in ascending order of severity and sorts them stably after a change.
A report of severity zero ends an alarm. `receive` says what a report did. `sortBySeverity_perm` and
`ascending_sortBySeverity` say what sorting does, `sortBySeverity_of_ascending` that it moves
nothing that is in order, and `sortBySeverity_filter` that it does not depend on what is left out.
-/

namespace Dashboard.Alarm

structure Report where
  id : String
  severity : Int32
  channels : Channels
  text : String
  deriving DecidableEq

/-- An alarm of severity zero is over. -/
def Report.isClear (r : Report) : Bool :=
  r.severity = 0

structure Entry where
  id : String
  severity : Int32
  channels : Channels
  text : String
  /-- How many alarms were raised on the board before this one. -/
  serial : Nat
  /-- How many changes the board had seen before the last one to this alarm. -/
  revision : Nat
  deriving DecidableEq

namespace Entry

def report (e : Entry) : Report :=
  { id := e.id, severity := e.severity, channels := e.channels, text := e.text }

def update (e : Entry) (r : Report) (revision : Nat) : Entry :=
  { e with severity := r.severity, channels := r.channels, text := r.text, revision }

end Entry

inductive Outcome where
  | raised (entry : Entry)
  | updated (old new : Entry)
  | cleared (entry : Entry)
  /-- The report repeats what is known. -/
  | same
  /-- An alarm that is not live was reported to be over. -/
  | ignored
  deriving DecidableEq

structure Board where
  entries : List Entry := []
  /-- How many alarms have been raised so far. -/
  raised : Nat := 0
  /-- How many alarms have been raised, updated or cleared so far. -/
  changes : Nat := 0
  deriving DecidableEq

/-- Puts the entry in front of the first one whose severity is not below its own. -/
def insertBySeverity (e : Entry) : List Entry → List Entry
  | [] => [e]
  | f :: rest => if e.severity ≤ f.severity then e :: f :: rest else f :: insertBySeverity e rest

def sortBySeverity (entries : List Entry) : List Entry :=
  entries.foldr insertBySeverity []

theorem insertBySeverity_perm (e : Entry) (l : List Entry) :
    (insertBySeverity e l).Perm (e :: l) := by
  induction l with
  | nil => exact .refl _
  | cons f l ih =>
    rw [insertBySeverity]
    split
    · exact .refl _
    · exact (ih.cons f).trans (.swap e f l)

theorem sortBySeverity_perm (l : List Entry) : (sortBySeverity l).Perm l := by
  induction l with
  | nil => exact .refl _
  | cons e l ih => exact (insertBySeverity_perm e _).trans (ih.cons e)

def Ascending (l : List Entry) : Prop :=
  l.Pairwise (·.severity ≤ ·.severity)

theorem ascending_insertBySeverity {e : Entry} {l : List Entry} (h : Ascending l) :
    Ascending (insertBySeverity e l) := by
  induction l with
  | nil => exact List.pairwise_singleton _ _
  | cons f l ih =>
    obtain ⟨hf, hl⟩ := List.pairwise_cons.mp h
    rw [insertBySeverity]
    split
    · next hle =>
      refine List.pairwise_cons.mpr ⟨fun g hg => ?_, h⟩
      rcases List.mem_cons.mp hg with rfl | hg
      · exact hle
      · exact Int32.le_trans hle (hf g hg)
    · next hlt =>
      refine List.pairwise_cons.mpr ⟨fun g hg => ?_, ih hl⟩
      rcases List.mem_cons.mp ((insertBySeverity_perm e l).mem_iff.mp hg) with rfl | hg
      · exact Int32.le_of_lt (Int32.not_le.mp hlt)
      · exact hf g hg

theorem ascending_sortBySeverity (l : List Entry) : Ascending (sortBySeverity l) := by
  induction l with
  | nil => exact List.Pairwise.nil
  | cons e l ih => exact ascending_insertBySeverity ih

theorem insertBySeverity_of_le {e : Entry} {l : List Entry}
    (lowest : ∀ f ∈ l, e.severity ≤ f.severity) : insertBySeverity e l = e :: l := by
  cases l with
  | nil => rfl
  | cons f l => rw [insertBySeverity, if_pos (lowest f (by simp))]

/-- Entries that are in order already stay where they are. -/
theorem sortBySeverity_of_ascending {l : List Entry} (h : Ascending l) : sortBySeverity l = l := by
  induction l with
  | nil => rfl
  | cons e l ih =>
    obtain ⟨he, hl⟩ := List.pairwise_cons.mp h
    change insertBySeverity e (sortBySeverity l) = e :: l
    rw [ih hl, insertBySeverity_of_le he]

theorem filter_insertBySeverity (p : Entry → Bool) (e : Entry) {l : List Entry} (h : Ascending l) :
    (insertBySeverity e l).filter p =
      if p e then insertBySeverity e (l.filter p) else l.filter p := by
  induction l with
  | nil => rw [insertBySeverity, List.filter_cons]; rfl
  | cons f l ih =>
    obtain ⟨hf, hl⟩ := List.pairwise_cons.mp h
    rw [insertBySeverity]
    split
    · next hle =>
      have lowest : ∀ g ∈ (f :: l).filter p, e.severity ≤ g.severity := by
        intro g hg
        rcases List.mem_cons.mp (List.mem_filter.mp hg).1 with rfl | hg
        · exact hle
        · exact Int32.le_trans hle (hf g hg)
      rw [insertBySeverity_of_le lowest, List.filter_cons]
    · next hlt =>
      rw [List.filter_cons, ih hl, List.filter_cons]
      by_cases kept : p f <;> by_cases fresh : p e <;> simp [kept, fresh, insertBySeverity, hlt]

/-- It makes no difference whether entries are left out before or after the sorting. -/
theorem sortBySeverity_filter (p : Entry → Bool) (l : List Entry) :
    sortBySeverity (l.filter p) = (sortBySeverity l).filter p := by
  induction l with
  | nil => rfl
  | cons e l ih =>
    have sorted : sortBySeverity (e :: l) = insertBySeverity e (sortBySeverity l) := rfl
    rw [sorted, filter_insertBySeverity p e (ascending_sortBySeverity l), ← ih, List.filter_cons]
    split <;> rfl

/-- The first alarm with the id, between those in front of it and those behind it. -/
def locate? (id : String) : List Entry → Option (List Entry × Entry × List Entry)
  | [] => none
  | e :: rest =>
    if e.id = id then some ([], e, rest)
    else (locate? id rest).map fun (before, found, after) => (e :: before, found, after)

namespace Board

def find? (b : Board) (id : String) : Option Entry :=
  b.entries.find? (·.id = id)

def has (b : Board) (id : String) : Bool :=
  (b.find? id).isSome

def newEntry (b : Board) (r : Report) : Entry :=
  { r with serial := b.raised, revision := b.changes }

/-- The board with these alarms after a change, in order. -/
def settle (b : Board) (entries : List Entry) : Board :=
  { b with entries := sortBySeverity entries, changes := b.changes + 1 }

def receive (b : Board) (r : Report) : Outcome × Board :=
  match locate? r.id b.entries with
  | none =>
    if r.isClear then (.ignored, b)
    else
      let entry := b.newEntry r
      (.raised entry, { b.settle (b.entries ++ [entry]) with raised := b.raised + 1 })
  | some (before, held, after) =>
    if r.isClear then (.cleared held, b.settle (before ++ after))
    else if held.report = r then (.same, b)
    else
      let new := held.update r b.changes
      (.updated held new, b.settle (before ++ new :: after))

def clear (b : Board) : Board :=
  { b with entries := [] }

end Board

end Dashboard.Alarm
