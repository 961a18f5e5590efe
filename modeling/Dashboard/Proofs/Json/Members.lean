import Dashboard.Proofs.Json.Integers
import Dashboard.Json.Fields
import Dashboard.Table

/-!
# Members that are given

An object with some of the declared members, in any order. What a member is read as depends on
whether it is given and not on its place (`lookup_of_perm`, `members?_ofNamed`), and an integer of
32 or 64 bits is read from its literal.
-/

namespace Dashboard.Json

def given (rows : List (String × Option Json)) : Members :=
  rows.filterMap fun row => row.2.map (row.1, ·)

def ofNamed (members : Members) : Json :=
  .object (members.map fun m => (some m.1, m.2))

theorem map_fst_given (rows : List (String × Option Json)) :
    ((given rows).map (·.1)).Sublist (rows.map (·.1)) := by
  induction rows with
  | nil => exact .slnil
  | cons row rows ih =>
    obtain ⟨name, v⟩ := row
    cases v with
    | none => exact ih.cons name
    | some v => exact ih.cons_cons name

theorem mem_given {rows : List (String × Option Json)} {name : String} {v : Json} :
    (name, v) ∈ given rows ↔ (name, some v) ∈ rows := by
  rw [given, List.mem_filterMap]
  constructor
  · rintro ⟨⟨name', v'⟩, row, same⟩
    obtain ⟨w, value, pair⟩ := Option.map_eq_some_iff.mp same
    cases pair
    rwa [← value]
  · exact fun row => ⟨_, row, rfl⟩

theorem lookup_given {rows : List (String × Option Json)} (unique : (rows.map (·.1)).Nodup)
    {name : String} {v : Option Json} (row : (name, v) ∈ rows) : (given rows).lookup name = v := by
  have unique' := unique.sublist (map_fst_given rows)
  have found := (Table.lookup_eq_some_iff unique).mpr row
  apply Option.ext
  intro w
  rw [Table.lookup_eq_some_iff unique', mem_given, ← Table.lookup_eq_some_iff unique, found,
    Option.some.injEq]

theorem mapM_named (members : Members) : (members.map fun m => (some m.1, m.2)).mapM
    (fun m => m.1.map fun name => (name, m.2)) = some members := by
  induction members with
  | nil => rfl
  | cons m members ih => simp [List.mapM_cons, ih]

/-- An object has its members, if all of them are declared and no required one is missing. -/
theorem members?_of_declared {fields : List Field} {members : Members}
    (declared : ∀ m ∈ members, m.1 ∈ fields.map Field.name)
    (unique : (members.map (·.1)).Nodup)
    (complete : ∀ f ∈ fields, f.presence = .required → members.lookup f.name ≠ none) :
    (ofNamed members).members? fields = some members := by
  have known : members.filter (fun m => fields.any (·.name = m.1)) = members := by
    rw [List.filter_eq_self]
    intro m member
    obtain ⟨f, declared, same⟩ := List.mem_map.mp (declared m member)
    exact List.any_eq_true.mpr ⟨f, declared, decide_eq_true same⟩
  rw [ofNamed, members?, ofObject?, mapM_named]
  simp only [Option.bind_eq_bind, Option.bind_some]
  rw [known, if_neg (not_not_intro unique), if_neg]
  simp only [List.any_eq_true, Bool.and_eq_true, decide_eq_true_eq, Option.isNone_iff_eq_none,
    not_exists, not_and]
  exact complete

section
variable {fields : List Field} {rows : List (String × Option Json)} {members : Members}
  (names : rows.map (·.1) = fields.map Field.name) (unique : (fields.map Field.name).Nodup)
  (perm : members.Perm (given rows))
include names unique perm

/-- An object has the members that are given, in any order. -/
theorem lookup_of_perm : ∀ row ∈ rows, members.lookup row.1 = row.2 := by
  intro row member
  rw [← names] at unique
  have unique' := unique.sublist (map_fst_given rows)
  rw [← Table.lookup_perm perm.symm unique', lookup_given unique member]

theorem members?_ofNamed (required : ∀ f ∈ fields, f.presence = .required →
    ∃ v, (f.name, some v) ∈ rows) : (ofNamed members).members? fields = some members := by
  have names' := map_fst_given rows
  refine members?_of_declared (fun m member => ?_) ?_ fun f declared needed missing => ?_
  · exact names ▸ names'.subset (List.mem_map_of_mem (perm.mem_iff.mp member))
  · rw [(perm.map _).nodup_iff]
    exact (names ▸ unique).sublist names'
  · obtain ⟨v, row⟩ := required f declared needed
    rw [lookup_of_perm names unique perm _ row] at missing
    cases missing

end

/-- A member is read as what was written, the default if nothing was. -/
theorem readOr?_of_lookup {α β : Type} {members : Members} {name : String} {value : Option β}
    {write : β → Json} (read : Json → Option α) (content : β → α) (default : α)
    (found : members.lookup name = value.map write)
    (reads : ∀ b ∈ value, read (write b) = some (content b)) :
    members.readOr? name default read = some ((value.map content).getD default) := by
  rw [Members.readOr?, found]
  cases value with
  | none => rfl
  | some b => exact reads b rfl

def ofInteger (z : Int) : Json :=
  .number { negative := z < 0, whole := Nat.toDigits 10 z.natAbs }

theorem toInt?_ofInteger {z : Int} (least : Int64.minValue.toInt ≤ z) (most : z < UInt64.size) :
    (ofInteger z).toInt? = some z := by
  unfold ofInteger
  by_cases negative : z < 0
  · have size : z = -(z.natAbs : Int) := by omega
    rw [decide_eq_true negative]
    refine (integer?_minus z.natAbs).trans ?_
    rw [if_pos ⟨by omega, by omega⟩, ← size]
  · have size : z = z.natAbs := by omega
    rw [decide_eq_false negative]
    refine (integer?_plain z.natAbs).trans ?_
    rw [if_pos (by omega), ← size]

theorem toNat?_ofInteger (n : UInt64) : (ofInteger n.toNat).toNat? = some n.toNat := by
  have small := n.toNat_lt
  rw [toNat?, toInt?_ofInteger (by simp) (by exact_mod_cast small)]
  rfl

theorem toUInt32?_ofInteger (n : UInt32) : (ofInteger n.toNat).toUInt32? = some n := by
  have small : n.toNat < UInt32.size := n.toNat_lt
  have size : UInt32.size ≤ UInt64.size := by decide
  have natural : (ofInteger n.toNat).toNat? = some n.toNat := by
    rw [toNat?, toInt?_ofInteger (by simp) (by omega)]
    rfl
  rw [toUInt32?, natural, Option.filter_some, if_pos (decide_eq_true small), Option.map_some,
    UInt32.ofNat_toNat]

theorem toInt32?_ofInteger (z : Int32) : (ofInteger z.toInt).toInt32? = some z := by
  have lowest : Int64.minValue.toInt ≤ Int32.minValue.toInt := by decide
  have highest : Int32.maxValue.toInt < UInt64.size := by decide
  have low : Int32.minValue.toInt ≤ z.toInt := z.minValue_le_toInt
  have high : z.toInt ≤ Int32.maxValue.toInt := z.toInt_le
  have within : (Int32.minValue.toInt ≤ z.toInt && z.toInt ≤ Int32.maxValue.toInt) = true :=
    (Bool.and_eq_true _ _).mpr ⟨decide_eq_true low, decide_eq_true high⟩
  rw [toInt32?, toInt?_ofInteger (by omega) (by omega), Option.filter_some, if_pos within,
    Option.map_some, Int32.ofInt_toInt]

end Dashboard.Json
