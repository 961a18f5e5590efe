/-!
# Tables

A table from keys to values that lists its keys in the order in which they came in. `get?_put` says
that a write is seen under its own key and under no other.
-/

namespace Dashboard

structure Table (κ ν : Type) where
  rows : List (κ × ν) := []
  deriving DecidableEq

namespace Table

variable {κ ν : Type} [DecidableEq κ]

/-- The rows with the value of `k` replaced, or added at the end. -/
def putRow (k : κ) (v : ν) : List (κ × ν) → List (κ × ν)
  | [] => [(k, v)]
  | row :: rows => if row.1 = k then (k, v) :: rows else row :: putRow k v rows

def get? (t : Table κ ν) (k : κ) : Option ν :=
  t.rows.lookup k

def put (t : Table κ ν) (k : κ) (v : ν) : Table κ ν :=
  ⟨putRow k v t.rows⟩

def keys (t : Table κ ν) : List κ :=
  t.rows.map (·.1)

def size (t : Table κ ν) : Nat :=
  t.rows.length

theorem lookup_cons (k j : κ) (w : ν) (rows : List (κ × ν)) :
    ((j, w) :: rows).lookup k = if k = j then some w else rows.lookup k := by
  rw [List.lookup_cons]
  by_cases h : k = j
  · simp [h]
  · rw [beq_false_of_ne h, if_neg h]

/-- Where no key comes twice, a key is looked up to what stands beside it. -/
theorem lookup_eq_some_iff {rows : List (κ × ν)} (unique : (rows.map (·.1)).Nodup) {k : κ} {v : ν} :
    rows.lookup k = some v ↔ (k, v) ∈ rows := by
  induction rows with
  | nil => simp
  | cons row rows ih =>
    obtain ⟨j, w⟩ := row
    rw [List.map_cons, List.nodup_cons] at unique
    rw [lookup_cons, List.mem_cons, Prod.mk.injEq]
    by_cases same : k = j
    · subst same
      have absent : (k, v) ∉ rows := fun member => unique.1 (List.mem_map.mpr ⟨_, member, rfl⟩)
      simp [absent, eq_comm]
    · rw [if_neg same, ih unique.2]
      simp [same]

theorem lookup_perm {rows rows' : List (κ × ν)} (perm : rows.Perm rows')
    (unique : (rows.map (·.1)).Nodup) (k : κ) : rows.lookup k = rows'.lookup k := by
  have unique' : (rows'.map (·.1)).Nodup := (perm.map _).nodup_iff.mp unique
  apply Option.ext
  intro v
  rw [lookup_eq_some_iff unique, lookup_eq_some_iff unique', perm.mem_iff]

theorem lookup_putRow (k k' : κ) (v : ν) (rows : List (κ × ν)) :
    (putRow k v rows).lookup k' = if k' = k then some v else rows.lookup k' := by
  induction rows with
  | nil => rw [putRow, lookup_cons]
  | cons row rows ih =>
    obtain ⟨j, w⟩ := row
    rw [putRow]
    split
    · next hj =>
      rw [lookup_cons, lookup_cons]
      split
      · rfl
      · next h => rw [if_neg (fun e => h (e.trans hj))]
    · next hj =>
      rw [lookup_cons, lookup_cons, ih]
      split
      · next h => rw [if_neg (fun e => hj (h.symm.trans e))]
      · rfl

theorem get?_put (t : Table κ ν) (k k' : κ) (v : ν) :
    (t.put k v).get? k' = if k' = k then some v else t.get? k' :=
  lookup_putRow k k' v t.rows

theorem putRow_of_lookup {k : κ} {v : ν} {rows : List (κ × ν)} (found : rows.lookup k = some v) :
    putRow k v rows = rows := by
  induction rows with
  | nil => cases found
  | cons row rows ih =>
    obtain ⟨j, w⟩ := row
    rw [lookup_cons] at found
    rw [putRow]
    split at found
    · next same =>
      obtain rfl := same
      obtain rfl := Option.some.inj found
      rw [if_pos rfl]
    · next differs => rw [if_neg (Ne.symm differs), ih found]

theorem put_of_get? {t : Table κ ν} {k : κ} {v : ν} (found : t.get? k = some v) : t.put k v = t :=
  congrArg mk (putRow_of_lookup found)

theorem mem_keys_iff (t : Table κ ν) (k : κ) : k ∈ t.keys ↔ (t.get? k).isSome := by
  obtain ⟨rows⟩ := t
  simp only [keys, get?]
  induction rows with
  | nil => simp
  | cons row rows ih =>
    obtain ⟨j, w⟩ := row
    rw [lookup_cons, List.map_cons, List.mem_cons, ih]
    by_cases h : k = j <;> simp [h]

theorem map_fst_putRow (k : κ) (v : ν) (rows : List (κ × ν)) :
    (putRow k v rows).map (·.1) =
      if k ∈ rows.map (·.1) then rows.map (·.1) else rows.map (·.1) ++ [k] := by
  induction rows with
  | nil => rfl
  | cons row rows ih =>
    rw [putRow]
    by_cases same : row.1 = k
    · simp [same]
    · have other : k ∈ row.1 :: rows.map (·.1) ↔ k ∈ rows.map (·.1) := by
        rw [List.mem_cons, or_iff_right (Ne.symm same)]
      rw [if_neg same, List.map_cons, ih, List.map_cons]
      simp only [other]
      split
      · rfl
      · rw [List.cons_append]

/-- A write adds its key at the end unless the table has it. -/
theorem keys_put (t : Table κ ν) (k : κ) (v : ν) :
    (t.put k v).keys = if k ∈ t.keys then t.keys else t.keys ++ [k] :=
  map_fst_putRow k v t.rows

end Table

end Dashboard
