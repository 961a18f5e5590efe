import Mathlib.Data.List.Forall2
import Dashboard.Proofs.Json.Spelled

/-!
# Arrays of flat objects

The tokens of an array of objects whose members are strings. Each value is read in the same way
whatever encloses it (`Reads`), so an array is read from what its items are read from
(`reads_array`), and a text of these tokens is parsed to the value they were written from
(`parse?_laid`).
-/

namespace Dashboard.Json

def Phase.after? (ph : Phase) (pieces : List Piece) : Option Phase :=
  (pieces.map Piece.token).foldlM Phase.next ph

theorem Phase.after?_append (ph : Phase) (front back : List Piece) :
    ph.after? (front ++ back) = (ph.after? front).bind fun middle => middle.after? back := by
  rw [after?, List.map_append, List.foldlM_append]
  rfl

/-- The tokens are those of the value, inside any frames. -/
def Reads (pieces : List Piece) (v : Json) : Prop :=
  ∀ frames, (Phase.value frames).after? pieces = some (.done v frames)

theorem parse?_laid {pieces : List Piece} {v : Json} {s : String} (laid : Laid pieces s.toList)
    (reads : Reads pieces v) : parse? s = some v := by
  rw [parse?_eq_bind, tokens?_laid laid]
  exact ofTokens?_eq_some.mpr (reads [])

def memberPieces (m : String × String) : List Piece :=
  [.string m.1, .mark .colon, .string m.2]

def objectPieces (ms : List (String × String)) : List Piece :=
  .mark .openObject :: ([.mark .comma].intercalate (ms.map memberPieces) ++ [.mark .closeObject])

def ofMembers (ms : List (String × String)) : Json :=
  .object (ms.map fun m => (some m.1, .string (some m.2)))

theorem laid_member {m : String × String} (name : ∀ c ∈ m.1.toList, Plain c)
    (value : ∀ c ∈ m.2.toList, Plain c) {pieces : List Piece} {text : List Char}
    (rest : Laid pieces text) :
    Laid (memberPieces m ++ pieces)
      ('\"' :: (m.1.toList ++ '\"' :: ':' :: '\"' :: (m.2.toList ++ '\"' :: text))) := by
  have tight : Blank [] := List.forall_mem_nil _
  exact .string tight (spelled_plain name) <| .mark tight .colon <|
    .string tight (spelled_plain value) rest

theorem after?_members (m : String × String) (rest : List (String × String))
    (before : List (Option String × Json)) (frames : List Frame) :
    (Phase.name before frames).after?
        ([.mark .comma].intercalate ((m :: rest).map memberPieces) ++ [.mark .closeObject]) =
      some (.done (.object (before.reverse ++
        (m :: rest).map fun m => (some m.1, .string (some m.2)))) frames) := by
  induction rest generalizing m before with
  | nil =>
    rw [List.map_singleton, List.map_singleton, List.intercalate_singleton, ← List.reverse_cons]
    rfl
  | cons m' rest ih =>
    have first : (Phase.name before frames).after? (memberPieces m ++ [.mark .comma]) =
        some (.name ((some m.1, .string (some m.2)) :: before) frames) := rfl
    have others := ih m' ((some m.1, .string (some m.2)) :: before)
    rw [List.map_cons, List.map_cons, List.intercalate_cons_cons, List.append_assoc,
      Phase.after?_append, first, Option.bind_some, ← List.map_cons, others, List.reverse_cons,
      List.append_assoc]
    rfl

theorem reads_object (ms : List (String × String)) : Reads (objectPieces ms) (ofMembers ms) := by
  intro frames
  cases ms with
  | nil => rfl
  | cons m rest =>
    -- An object that has just begun takes its first name as it takes the others.
    have named : ∃ more, [.mark .comma].intercalate ((m :: rest).map memberPieces) =
        .string m.1 :: more := by
      cases rest with
      | nil => exact ⟨_, rfl⟩
      | cons m' rest => exact ⟨_, List.intercalate_cons_cons⟩
    obtain ⟨more, split⟩ := named
    have members := after?_members m rest [] frames
    rw [split] at members
    rw [objectPieces, split]
    exact members

def arrayPieces (parts : List (List Piece)) : List Piece :=
  .mark .openArray :: ([.mark .comma].intercalate parts ++ [.mark .closeArray])

theorem after?_items {part : List Piece} {v : Json} {parts : List (List Piece)} {vs : List Json}
    (reads : Reads part v) (others : List.Forall₂ Reads parts vs) (items : List Json)
    (frames : List Frame) :
    (Phase.value (.array items :: frames)).after?
        ([.mark .comma].intercalate (part :: parts) ++ [.mark .closeArray]) =
      some (.done (.array (items.reverse ++ v :: vs)) frames) := by
  induction others generalizing part v items with
  | nil =>
    rw [List.intercalate_singleton, Phase.after?_append, reads, Option.bind_some]
    exact congrArg (fun vs => some (Phase.done (.array vs) frames)) List.reverse_cons
  | cons next rest ih =>
    have comma : (Phase.done v (.array items :: frames)).after? [.mark .comma] =
        some (.value (.array (v :: items) :: frames)) := rfl
    rw [List.intercalate_cons_cons, List.append_assoc, Phase.after?_append, Phase.after?_append,
      reads, Option.bind_some, comma, Option.bind_some, ih next, List.reverse_cons,
      List.append_assoc]
    rfl

/-- An array that has just begun takes its first item as it takes the others. -/
theorem after?_firstItem {pieces : List Piece} {v : Json} {frames : List Frame}
    (read : (Phase.value (.array [] :: frames)).after? pieces = some (.done v frames)) :
    (Phase.firstItem frames).after? pieces = some (.done v frames) := by
  cases pieces with
  | nil => cases read
  | cons piece rest =>
    cases piece with
    | string s => exact read
    | mark m => cases m with
      | closeArray => cases read
      | _ => exact read

theorem reads_array {parts : List (List Piece)} {vs : List Json}
    (reads : List.Forall₂ Reads parts vs) : Reads (arrayPieces parts) (.array vs) := by
  intro frames
  cases reads with
  | nil => rfl
  | cons first others => exact after?_firstItem (after?_items first others [] frames)

end Dashboard.Json
