import Mathlib.Data.List.Count
import Mathlib.Data.List.Nodup
import Mathlib.Data.Option.Basic
import Mathlib.Logic.Function.Basic
import Dashboard.Proofs.Json.Places
import Dashboard.Proofs.Payload.Written

/-!
# Places in a payload

`written?` says what a record writes for each of its members, whether it is an object or an array.
A payload is decoded in the same way whatever stands in the place of one record
(`decode_at_record`), or of one member of a record (`decode_at_member`), up to what is read there.
-/

namespace Dashboard.Payload

open Json (Phase Writes reached?)

def Member.place (m : Member) : Nat :=
  all.idxOf m

/-- What a record writes for each member. An object may write a member once, under its name, and
an array writes every member, in its place. Anything else is no record. -/
def written? : Json → Option (Member → Option Json)
  | .object ms =>
    if none ∉ ms.map (·.1) ∧ ∀ m ∈ Member.all, (ms.map (·.1)).count (some m.name) ≤ 1 then
      some fun m => ms.lookup (some m.name)
    else none
  | .array vs => if vs.length = Member.all.length then some fun m => vs[m.place]? else none
  | _ => none

/-- What is read of a member: none if it cannot be read. -/
def scalar? : Option Json → Option (Option Scalar)
  | some v => v.nullable? Scalar.ofJson?
  | none => some none

def ofWritten? (w : Member → Option Json) : Option Entry :=
  if Member.all.all fun m => (scalar? (w m)).isSome then some fun m => (scalar? (w m)).join
  else none

theorem Member.mem_all (m : Member) : m ∈ all := by
  cases m <;> decide

theorem ofWritten?_eq_some_iff {w : Member → Option Json} {e : Entry} :
    ofWritten? w = some e ↔ ∀ m, scalar? (w m) = some (e m) := by
  unfold ofWritten?
  constructor
  · intro read m
    split at read
    · next all =>
      cases read
      obtain ⟨s, found⟩ := Option.isSome_iff_exists.mp (List.all_eq_true.mp all m m.mem_all)
      dsimp only
      rw [found]
      rfl
    · cases read
  · intro read
    rw [if_pos (List.all_eq_true.mpr fun m _ => by rw [read m]; rfl)]
    congr
    funext m
    rw [read m]
    rfl

/-! ### Records are read from what they write -/

theorem lookup_filter {κ ν : Type} [DecidableEq κ] {p : κ → Bool} {k : κ} (kept : p k = true)
    (rows : List (κ × ν)) : (rows.filter fun row => p row.1).lookup k = rows.lookup k := by
  induction rows with
  | nil => rfl
  | cons row rows ih =>
    obtain ⟨j, w⟩ := row
    rw [List.filter_cons, Table.lookup_cons]
    by_cases same : k = j
    · rw [if_pos (same ▸ kept), Table.lookup_cons, if_pos same, if_pos same]
    · rw [if_neg same, ← ih]
      split
      · rw [Table.lookup_cons, if_neg same]
      · rfl

theorem lookup_map_some {ν : Type} (named : List (String × ν)) (name : String) :
    (named.map fun row => (some row.1, row.2)).lookup (some name) = named.lookup name := by
  induction named with
  | nil => rfl
  | cons row named ih =>
    obtain ⟨j, w⟩ := row
    simp only [List.map_cons, List.lookup_cons, Option.some_beq_some, ih]

def declared (name : String) : Bool :=
  Member.fields.any (·.name = name)

theorem declared_iff {name : String} : declared name = true ↔ ∃ m ∈ Member.all, m.name = name := by
  simp [declared, Member.fields]

theorem nodup_declared_iff {names : List String} :
    (names.filter declared).Nodup ↔
      ∀ m ∈ Member.all, (names.map some).count (some m.name) ≤ 1 := by
  have count (name : String) : (names.map some).count (some name) = names.count name :=
    List.count_map_of_injective names some (Option.some_injective String) name
  rw [List.nodup_iff_count_le_one]
  constructor
  · intro once m member
    rw [count, ← List.count_filter (declared_iff.mpr ⟨m, member, rfl⟩)]
    exact once m.name
  · intro once name
    by_cases known : declared name = true
    · obtain ⟨m, member, rfl⟩ := declared_iff.mp known
      rw [List.count_filter known, ← count]
      exact once m member
    · rw [List.count_eq_zero_of_not_mem]
      · exact Nat.zero_le 1
      · exact fun member => known (List.mem_filter.mp member).2

theorem optional_fields {known : Json.Members} : (Member.fields.any fun f =>
    f.presence = .required && (known.lookup f.name).isNone) = false := by
  simp [Member.fields]

theorem members?_named_object (named : List (String × Json)) :
    (Json.object (named.map fun row => (some row.1, row.2))).members? Member.fields =
      if ((named.map (·.1)).filter declared).Nodup then
        some (named.filter fun row => declared row.1)
      else none := by
  have names : (named.filter fun row => declared row.1).map (·.1) =
      (named.map (·.1)).filter declared := by
    rw [List.filter_map]
    rfl
  have known : named.filter (fun row => Member.fields.any (·.name = row.1)) =
      named.filter fun row => declared row.1 := rfl
  rw [Json.members?, Json.ofObject?, Json.mapM_named]
  simp only [Option.bind_eq_bind, Option.bind_some, known, names, optional_fields, ite_not]
  rfl

theorem members?_object (ms : List (Option String × Json)) :
    ((Json.object ms).members? Member.fields).map (fun known m => known.lookup m.name) =
      written? (.object ms) := by
  -- One name that is no text makes the object unreadable, even if no member has it.
  by_cases nameless : none ∈ ms.map (·.1)
  · have unread : ms.mapM (fun m => m.1.map fun name => (name, m.2)) = none := by
      obtain ⟨m, member, noName⟩ := List.mem_map.mp nameless
      apply Option.eq_none_iff_forall_ne_some.mpr
      intro named read
      have image := List.mem_map_of_mem (f := fun m => m.1.map fun name => (name, m.2)) member
      rw [mapM_eq_some_iff.mp read, noName] at image
      simp at image
    rw [Json.members?, Json.ofObject?, unread, written?, if_neg fun both => both.1 nameless]
    rfl
  · obtain ⟨named, rfl⟩ : ∃ named : List (String × Json),
        ms = named.map fun row => (some row.1, row.2) := by
      refine ⟨ms.map fun row => (row.1.getD "", row.2), ?_⟩
      rw [List.map_map]
      refine (List.map_id ms).symm.trans (List.map_congr_left fun row member => ?_)
      obtain ⟨name, v⟩ := row
      cases name with
      | none => exact absurd (List.mem_map_of_mem member) nameless
      | some name => rfl
    have names : (named.map fun row => (some row.1, row.2)).map (·.1) =
        (named.map (·.1)).map some := by
      simp
    have reads (m : Member) : (named.filter fun row => declared row.1).lookup m.name =
        named.lookup m.name :=
      lookup_filter (declared_iff.mpr ⟨m, m.mem_all, rfl⟩) named
    rw [names] at nameless
    rw [members?_named_object, written?, names]
    simp only [nodup_declared_iff, lookup_map_some, nameless, not_false_eq_true, true_and]
    split
    · simp [reads]
    · rfl

/-- Names that differ are looked up in their places. -/
theorem lookup_zip {names : List String} (unique : names.Nodup) {name : String} {i : Nat}
    (place : names[i]? = some name) (items : List Json) :
    (names.zip items).lookup name = items[i]? := by
  induction names generalizing i items with
  | nil => cases place
  | cons first names ih =>
    obtain ⟨other, unique⟩ := List.nodup_cons.mp unique
    cases items with
    | nil => rfl
    | cons v items =>
      rw [List.zip_cons_cons, Table.lookup_cons]
      cases i with
      | zero =>
        cases place
        rw [if_pos rfl]
        rfl
      | succ i =>
        rw [List.getElem?_cons_succ] at place
        have differs : name ≠ first := fun same => other (same ▸ List.mem_of_getElem? place)
        rw [if_neg differs, ih unique place, List.getElem?_cons_succ]

theorem members?_array (vs : List Json) :
    ((Json.array vs).members? Member.fields).map (fun known m => known.lookup m.name) =
      written? (.array vs) := by
  have same : Member.fields.length = Member.all.length := rfl
  rw [written?, Json.members?, Json.ofArray?]
  by_cases whole : vs.length = Member.all.length
  · have rest : Member.fields.drop vs.length = [] := List.drop_eq_nil_of_le (by omega)
    rw [if_pos whole, if_neg (by omega), rest]
    refine congrArg some (funext fun m => ?_)
    exact lookup_zip (by decide) (by cases m <;> rfl) vs
  · rw [if_neg whole]
    by_cases long : Member.fields.length < vs.length
    · rw [if_pos long]
      rfl
    · have rest : Member.fields.drop vs.length ≠ [] := by
        rw [ne_eq, List.drop_eq_nil_iff]
        omega
      rw [if_neg long, if_pos]
      · rfl
      · obtain ⟨f, others, split⟩ := List.exists_cons_of_ne_nil rest
        have field : f ∈ Member.fields := List.mem_of_mem_drop (split ▸ List.mem_cons_self)
        have optional : f.presence = .optional := by
          obtain ⟨m, _, rfl⟩ := List.mem_map.mp field
          rfl
        simp [split, optional]

theorem Entry.ofJson?_eq (v : Json) : Entry.ofJson? v = (written? v).bind ofWritten? := by
  have same : (v.members? Member.fields).map (fun known m => known.lookup m.name) = written? v := by
    cases v with
    | object ms => exact members?_object ms
    | array vs => exact members?_array vs
    | _ => rfl
  have read (known : Json.Members) (m : Member) :
      known.readNullable? m.name Scalar.ofJson? = scalar? (known.lookup m.name) := by
    rw [Json.Members.readNullable?, Json.Members.readOr?]
    cases known.lookup m.name <;> rfl
  rw [← same, Entry.ofJson?]
  cases v.members? Member.fields with
  | none => rfl
  | some known =>
    simp only [Option.bind_eq_bind, Option.bind_some, Option.map_some, read]
    rfl

/-! ### One member of a record -/

/-- The value that comes next in the record is the member's. -/
inductive Slot : Json.Frame → Member → Prop where
  | named (before : List (Option String × Json)) (m : Member) :
      Slot (.object before (some m.name)) m
  | listed {items : List Json} {m : Member} (place : items.length = m.place) :
      Slot (.array items) m

theorem Member.place_injective : Function.Injective Member.place := by
  intro m m'
  cases m <;> cases m' <;> decide

theorem lookup_around {name : Option String} {before : List (Option String × Json)}
    (once : name ∉ before.map (·.1)) (v : Json) (back : List (Option String × Json)) :
    (before ++ (name, v) :: back).lookup name = some v := by
  have absent : before.lookup name = none := by
    apply List.lookup_eq_none_iff.mpr
    intro row member
    exact bne_iff_ne.mpr fun same => once (List.mem_map.mpr ⟨row, member, same.symm⟩)
  rw [List.lookup_append, absent, List.lookup_cons_self]
  rfl

theorem lookup_beside {name name' : Option String} (other : name' ≠ name)
    (before : List (Option String × Json)) (v w : Json) (back : List (Option String × Json)) :
    (before ++ (name, v) :: back).lookup name' = (before ++ (name, w) :: back).lookup name' := by
  rw [List.lookup_append, List.lookup_append, List.lookup_cons, List.lookup_cons,
    beq_false_of_ne other]

theorem getElem?_around {α : Type} (before : List α) (v : α) (back : List α) :
    (before ++ v :: back)[before.length]? = some v := by
  rw [List.getElem?_append_right (Nat.le_refl _), Nat.sub_self, List.getElem?_cons_zero]

theorem getElem?_beside {α : Type} {before : List α} {place : Nat} (other : place ≠ before.length)
    (v w : α) (back : List α) :
    (before ++ v :: back)[place]? = (before ++ w :: back)[place]? := by
  rw [List.getElem?_append, List.getElem?_append]
  split
  · rfl
  · obtain ⟨n, behind⟩ : ∃ n, place - before.length = n + 1 := ⟨place - before.length - 1, by omega⟩
    rw [behind, List.getElem?_cons_succ, List.getElem?_cons_succ]

/-- The value in a member's place is what the record writes for that member, and for no other. -/
theorem written?_closes {frame : Json.Frame} {m : Member} (slot : Slot frame m)
    {close : Json → Json} (closes : frame.Closes close) :
    (∀ v, written? (close v) = none) ∨
      ∃ w, ∀ v, written? (close v) = some (Function.update w m (some v)) := by
  cases slot with
  | named before m =>
    obtain _ | ⟨_, _, back⟩ := closes
    have names (v : Json) : (before.reverse ++ (some m.name, v) :: back).map (·.1) =
        before.reverse.map (·.1) ++ some m.name :: back.map (·.1) := by
      simp
    simp only [written?, names]
    split
    · next unique =>
      let rows v := before.reverse ++ (some m.name, v) :: back
      refine .inr ⟨fun m' => (rows .null).lookup (some m'.name), ?_⟩
      intro v
      refine congrArg some (funext fun m' => ?_)
      by_cases same : m' = m
      · subst same
        rw [Function.update_self, lookup_around]
        intro twice
        have once := unique.2 m' m'.mem_all
        rw [List.count_append, List.count_cons_self] at once
        have again := List.count_pos_iff.mpr twice
        omega
      · rw [Function.update_of_ne same]
        exact lookup_beside (fun names => same (name_injective (Option.some.inj names))) ..
    · exact .inl fun _ => rfl
  | listed place =>
    next items =>
    obtain ⟨_, back⟩ | _ := closes
    have size (v : Json) :
        (items.reverse ++ v :: back).length = items.length + 1 + back.length := by
      simp
      omega
    simp only [written?, size]
    split
    · refine .inr ⟨fun m' => (items.reverse ++ .null :: back)[m'.place]?, ?_⟩
      intro v
      refine congrArg some (funext fun m' => ?_)
      by_cases same : m' = m
      · subst same
        rw [Function.update_self, ← place, ← List.length_reverse, getElem?_around]
      · rw [Function.update_of_ne same]
        refine getElem?_beside (fun places => same (Member.place_injective ?_)) ..
        rw [places, List.length_reverse, place]
    · exact .inl fun _ => rfl

/-- One member decides whether the record can be read only if the others can. -/
theorem ofWritten?_update (w : Member → Option Json) (m : Member) :
    (∀ o, ofWritten? (Function.update w m o) = none) ∨
      ∃ base : Entry, ∀ o, ofWritten? (Function.update w m o) =
        (scalar? o).map (Function.update base m ·) := by
  by_cases readable : ∀ m' ≠ m, (scalar? (w m')).isSome
  · refine .inr ⟨fun m' => (scalar? (w m')).join, ?_⟩
    intro o
    cases read : scalar? o with
    | none =>
      refine Option.eq_none_iff_forall_ne_some.mpr fun e all => ?_
      have own := ofWritten?_eq_some_iff.mp all m
      rw [Function.update_self, read] at own
      cases own
    | some s =>
      refine ofWritten?_eq_some_iff.mpr fun m' => ?_
      dsimp only
      by_cases same : m' = m
      · rw [same, Function.update_self, Function.update_self, read]
      · obtain ⟨s', other⟩ := Option.isSome_iff_exists.mp (readable m' same)
        rw [Function.update_of_ne same, Function.update_of_ne same, other]
        rfl
  · refine .inl fun o => Option.eq_none_iff_forall_ne_some.mpr fun e all => readable ?_
    intro m' other
    have read := ofWritten?_eq_some_iff.mp all m'
    rw [Function.update_of_ne other] at read
    rw [read]
    rfl

theorem ofJson?_closes {frame : Json.Frame} {m : Member} (slot : Slot frame m)
    {close : Json → Json} (closes : frame.Closes close) :
    (∀ v, Entry.ofJson? (close v) = none) ∨
      ∃ base : Entry, ∀ v, Entry.ofJson? (close v) =
        (v.nullable? Scalar.ofJson?).map (Function.update base m ·) := by
  simp only [Entry.ofJson?_eq]
  rcases written?_closes slot closes with refused | ⟨w, writes⟩
  · exact .inl fun v => by rw [refused]; rfl
  · simp only [writes, Option.bind_some]
    rcases ofWritten?_update w m with refused | ⟨base, read⟩
    · exact .inl fun v => refused (some v)
    · exact .inr ⟨base, fun v => read (some v)⟩

/-! ### One record of a payload -/

/-- The records of a payload with this entry between the others. It is refused if the entry cannot
be read. -/
def recordsAround (before after : List Entry) : Option Entry → Except Fault (List Record)
  | some e => records 0 (before ++ e :: after)
  | none => .error .unreadable

theorem recordsAround_congr {e e' : Entry} (same : ∀ index, e.record index = e'.record index)
    (before after : List Entry) :
    recordsAround before after (some e) = recordsAround before after (some e') := by
  simp only [recordsAround, records_append, records, same]

theorem length_records {index : Nat} {entries : List Entry} {read : List Record}
    (done : records index entries = .ok read) : read.length = entries.length := by
  have each := congrArg List.length (records_eq_ok_iff.mp done)
  rw [List.length_map, List.length_map, List.length_zipIdx] at each
  exact each.symm

/-- A payload that is decoded with one entry is decoded with any other in its place, to the same
records but for this entry's, if only the other entry makes a record. -/
theorem recordsAround_of_ok {before after : List Entry} {e : Entry} {batch : List Record}
    (done : recordsAround before after (some e) = .ok batch) :
    ∃ record, e.record before.length = .ok record ∧ batch[before.length]? = some record ∧
      ∀ e', recordsAround before after (some e') =
        (e'.record before.length).map (batch.set before.length) := by
  rw [recordsAround, records_append, Nat.zero_add, bind_eq_ok_iff] at done
  obtain ⟨front, first, done⟩ := done
  obtain ⟨_, made, ⟨⟩⟩ := bind_eq_ok_iff.mp done
  obtain ⟨record, own, made⟩ := bind_eq_ok_iff.mp made
  obtain ⟨others, last, ⟨⟩⟩ := bind_eq_ok_iff.mp made
  rw [← length_records first] at own last ⊢
  refine ⟨record, own, getElem?_around .., fun e' => ?_⟩
  rw [recordsAround, records_append, Nat.zero_add, first, ← length_records first]
  cases own' : e'.record front.length with
  | error fault => simp [records, own', bind, Except.bind, Except.map]
  | ok record' => simp [records, own', last, bind, Except.bind, pure, Except.pure, Except.map]

theorem ofJson_closes {items : List Json} {close : Json → Json}
    (closes : (Json.Frame.array items).Closes close) :
    (∀ v, ofJson (close v) = .error .unreadable) ∨
      ∃ before after, before.length = items.length ∧
        ∀ v, ofJson (close v) = recordsAround before after (Entry.ofJson? v) := by
  obtain ⟨_, back⟩ := closes
  simp only [ofJson, Json.toList?, List.mapM_append, List.mapM_cons]
  cases first : items.reverse.mapM Entry.ofJson? with
  | none => exact .inl fun _ => rfl
  | some before =>
    cases last : back.mapM Entry.ofJson? with
    | none => exact .inl fun v => by cases Entry.ofJson? v <;> rfl
    | some after =>
      refine .inr ⟨before, after, ?_, fun v => by cases Entry.ofJson? v <;> rfl⟩
      have each := congrArg List.length (mapM_eq_some_iff.mp first)
      rw [List.length_map, List.length_map, List.length_reverse] at each
      exact each.symm

section
variable {text post : String} {ph : Phase} (reached : reached? text = some ph)
include reached

theorem decode_of_rest {v : Json} (rest : ph.rest? post.toList = some v) :
    decode (text ++ post) = ofJson v := by
  rw [decode, Json.parse?_append reached, rest]

theorem decode_of_no_rest (rest : ph.rest? post.toList = none) :
    decode (text ++ post) = .error .unreadable := by
  rw [decode, Json.parse?_append reached, rest]

end

/-- After the text, the value of the member comes next in the record with this index. -/
inductive At (pre : String) : Member → Nat → Prop where
  | mk {ph : Phase} {frame : Json.Frame} {items : List Json} {m : Member}
      (reached : reached? pre = some ph) (awaits : ph.Awaits [frame, .array items])
      (slot : Slot frame m) : At pre m items.length

/-- Payloads that differ in one member of a record alone are decoded alike up to what is read as
that member. -/
theorem decode_at_member {pre : String} {m : Member} {index : Nat} (place : At pre m index)
    (post : String) :
    (∀ (text : String) v, Writes text.toList post.toList v →
      decode (pre ++ text ++ post) = .error .unreadable) ∨
    ∃ before after, ∃ base : Entry, before.length = index ∧
      ∀ (text : String) v, Writes text.toList post.toList v →
        decode (pre ++ text ++ post) = recordsAround before after
          ((v.nullable? Scalar.ofJson?).map (Function.update base m ·)) := by
  obtain ⟨reached, awaits, slot⟩ := place
  next ph frame items =>
  have rest (text : String) (v : Json) (writes : Writes text.toList post.toList v) :
      ph.rest? (text ++ post).toList =
        (Phase.done v [frame, .array items]).rest? post.toList := by
    rw [String.toList_append, awaits.rest? writes]
  simp only [String.append_assoc]
  rcases Json.rest?_done [frame, .array items] post.toList with refused | ⟨_, closes, closed⟩
  · refine .inl fun text v writes => ?_
    exact decode_of_no_rest reached ((rest text v writes).trans (refused v))
  · -- The record is closed around the value, and the array around the record.
    obtain _ | ⟨inner, _ | ⟨outer, _ | _⟩⟩ := closes
    have decoded (text : String) (v : Json) (writes : Writes text.toList post.toList v) :=
      decode_of_rest reached ((rest text v writes).trans (closed v))
    rcases ofJson_closes outer with unreadable | ⟨before, after, index, read⟩
    · exact .inl fun text v writes => (decoded text v writes).trans (unreadable _)
    · rcases ofJson?_closes slot inner with unreadable | ⟨base, entry⟩
      · refine .inl fun text v writes => (decoded text v writes).trans ((read _).trans ?_)
        rw [unreadable]
        rfl
      · refine .inr ⟨before, after, base, index, fun text v writes => ?_⟩
        refine (decoded text v writes).trans ((read _).trans ?_)
        rw [entry]

end Dashboard.Payload
