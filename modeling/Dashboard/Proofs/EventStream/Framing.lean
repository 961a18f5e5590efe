import Dashboard.Proofs.EventStream.Reference

/-!
# Streams that frame payloads

A sender writes each payload as an event, one data line for each of its parts, and may put comments
and other fields between any two lines. `Framed payloads lines` says that the lines are such a
stream. Under each of the three line breaks the decoder gives the payloads back, however the text
is cut (`decode_framed`).
-/

namespace Dashboard.EventStream

/-- Characters that stand on one line under any of the line breaks. -/
structure Unbroken (line : List Char) : Prop where
  noFeed : '\n' ∉ line
  noReturn : '\r' ∉ line

theorem unbroken_nil : Unbroken [] :=
  ⟨List.not_mem_nil, List.not_mem_nil⟩

/-- A line that carries no data: a comment or a field of another name. -/
structure Aside (line : List Char) : Prop where
  unbroken : Unbroken line
  /-- An empty line is neither; it would end the event. -/
  named : line.head? = some ':' ∨ line ≠ [] ∧ line.takeWhile (· ≠ ':') ≠ "data".toList

def dataLine (part : List Char) : List Char :=
  "data: ".toList ++ part

def partsOf (payload : String) : List (List Char) :=
  payload.toList.splitOn '\n'

def frame (payloads : List String) : List (List Char) :=
  payloads.flatMap fun payload => (partsOf payload).map dataLine ++ [[]]

/-- The data lines of the parts in order, with asides among them. -/
inductive Laced : (parts lines : List (List Char)) → Prop
  | nil : Laced [] []
  | part {parts lines} (part) (rest : Laced parts lines) :
      Laced (part :: parts) (dataLine part :: lines)
  | aside {parts lines line} (skipped : Aside line) (rest : Laced parts lines) :
      Laced parts (line :: lines)

/-- The payloads in order, each as the data lines of its parts and an empty line. Asides may stand
anywhere, and further empty lines outside the events. -/
inductive Framed : (payloads : List String) → (lines : List (List Char)) → Prop
  | nil : Framed [] []
  | blank {payloads lines} (rest : Framed payloads lines) : Framed payloads ([] :: lines)
  | aside {payloads lines line} (skipped : Aside line) (rest : Framed payloads lines) :
      Framed payloads (line :: lines)
  | event {payloads payload body lines} (laced : Laced (partsOf payload) body)
      (rest : Framed payloads lines) : Framed (payload :: payloads) (body ++ [] :: lines)

theorem laced_map_dataLine (parts : List (List Char)) : Laced parts (parts.map dataLine) := by
  induction parts with
  | nil => exact .nil
  | cons part parts ih => exact .part part ih

theorem framed_frame (payloads : List String) : Framed payloads (frame payloads) := by
  induction payloads with
  | nil => exact .nil
  | cons payload payloads ih =>
    rw [frame, List.flatMap_cons, List.append_assoc, List.singleton_append]
    exact .event (laced_map_dataLine (partsOf payload)) ih

theorem dataLine_ne_nil (part : List Char) : dataLine part ≠ [] :=
  List.cons_ne_nil _ _

theorem dataOf?_dataLine (part : List Char) :
    dataOf? (dataLine part) = some (String.ofList part) := rfl

theorem Aside.dataOf?_eq {line : List Char} (skipped : Aside line) : dataOf? line = none := by
  refine if_neg fun both => ?_
  obtain comment | other := skipped.named
  · exact both.2 comment
  · exact other.2 both.1

theorem Aside.ne_nil {line : List Char} (skipped : Aside line) : line ≠ [] := by
  rintro rfl
  obtain comment | other := skipped.named
  · cases comment
  · exact other.1 rfl

theorem dispatch_parts (payload : String) :
    dispatch ((partsOf payload).map String.ofList) = (some payload, []) := by
  have nonempty : (partsOf payload).map String.ofList ≠ [] :=
    mt List.map_eq_nil_iff.mp (List.splitOn_ne_nil '\n' payload.toList)
  have joined : "\n".intercalate ((partsOf payload).map String.ofList) = payload := by
    rw [← String.toList_inj, String.toList_intercalate, List.map_map]
    have back : String.toList ∘ String.ofList = id := funext fun _ => String.toList_ofList
    rw [back, List.map_id]
    exact List.intercalate_splitOn '\n'
  rw [dispatch, if_neg nonempty, joined]

theorem readLines_skip {data : List String} {line : List Char} (skipped : Aside line)
    (lines : List (List Char)) : readLines data (line :: lines) = readLines data lines := by
  rw [readLines, takeLine_eq, if_neg skipped.ne_nil, skipped.dataOf?_eq]
  simp

theorem readLines_laced {parts body : List (List Char)} (laced : Laced parts body)
    (data : List String) (rest : List (List Char)) :
    readLines data (body ++ [] :: rest) =
      (dispatch (data ++ parts.map String.ofList)).1.toList ++ readLines [] rest := by
  induction laced generalizing data with
  | nil => rw [readLines_append, readLines.eq_1, List.map_nil, List.append_nil]
  | part part _ ih =>
    rw [List.cons_append, readLines, takeLine_eq, if_neg (dataLine_ne_nil part), dataOf?_dataLine,
      ih]
    simp
  | aside skipped _ ih => rw [List.cons_append, readLines_skip skipped, ih]

theorem readLines_framed {payloads : List String} {lines : List (List Char)}
    (framed : Framed payloads lines) : readLines [] lines = payloads := by
  induction framed with
  | nil => rfl
  | blank _ ih => exact ih
  | aside skipped _ ih => rw [readLines_skip skipped, ih]
  | event laced _ ih =>
    rw [readLines_laced laced, List.nil_append, dispatch_parts, ih]
    rfl

/-! ### Lines under a break -/

inductive Break where
  | lf
  | cr
  | crlf

def Break.chars : Break → List Char
  | lf => ['\n']
  | cr => ['\r']
  | crlf => ['\r', '\n']

def Break.write (br : Break) (lines : List (List Char)) : String :=
  String.ofList (lines.flatMap (· ++ br.chars))

/-- A line feed after a lone carriage return would be read as the rest of its break. -/
theorem linesOf_append_chars {line rest : List Char} (unbroken : Unbroken line) {br : Break}
    (apart : br = .cr → rest.head? ≠ some '\n') :
    linesOf (line ++ (br.chars ++ rest)) = line :: linesOf rest := by
  induction line with
  | nil =>
    cases br with
    | lf => simp [Break.chars, linesOf]
    | crlf => simp [Break.chars, linesOf]
    | cr =>
      refine linesOf.eq_3 rest fun after same => apart rfl ?_
      rw [same, List.head?_cons]
  | cons c line ih =>
    have notFeed : c ≠ '\n' := (List.ne_of_not_mem_cons unbroken.noFeed).symm
    have notReturn : c ≠ '\r' := (List.ne_of_not_mem_cons unbroken.noReturn).symm
    have others : Unbroken line :=
      ⟨List.not_mem_of_not_mem_cons unbroken.noFeed, List.not_mem_of_not_mem_cons unbroken.noReturn⟩
    rw [List.cons_append, linesOf_cons notFeed notReturn, ih others, extendFirst]

theorem head?_append_return_ne {line : List Char} (unbroken : Unbroken line) (rest : List Char) :
    (line ++ ('\r' :: rest)).head? ≠ some '\n' := by
  cases line with
  | nil => simp
  | cons c line =>
    intro feed
    cases feed
    exact unbroken.noFeed List.mem_cons_self

theorem linesOf_write (br : Break) {lines : List (List Char)}
    (unbroken : ∀ line ∈ lines, Unbroken line) : linesOf (br.write lines).toList = lines := by
  rw [Break.write, String.toList_ofList]
  induction lines with
  | nil => rfl
  | cons line lines ih =>
    obtain ⟨first, others⟩ := List.forall_mem_cons.mp unbroken
    have apart : br = .cr → (lines.flatMap (· ++ br.chars)).head? ≠ some '\n' := by
      rintro rfl
      cases lines with
      | nil => simp
      | cons next lines =>
        rw [List.flatMap_cons, List.append_assoc]
        exact head?_append_return_ne (others next List.mem_cons_self) _
    rw [List.flatMap_cons, List.append_assoc, linesOf_append_chars first apart, ih others]

theorem not_mem_and_subset_of_mem_splitOn {α : Type} [BEq α] [LawfulBEq α] {sep : α}
    {text part : List α} (among : part ∈ text.splitOn sep) : sep ∉ part ∧ part ⊆ text := by
  induction text generalizing part with
  | nil =>
    cases List.mem_singleton.mp among
    exact ⟨List.not_mem_nil, List.nil_subset []⟩
  | cons c text ih =>
    obtain ⟨first, others, cut⟩ := List.exists_cons_of_ne_nil (List.splitOn_ne_nil sep text)
    rw [List.splitOn_cons_eq_if_modifyHead, cut] at among
    rw [cut] at ih
    split at among
    · obtain rfl | among := List.mem_cons.mp among
      · exact ⟨List.not_mem_nil, List.nil_subset _⟩
      · have inner := ih among
        exact ⟨inner.1, List.subset_cons_of_subset c inner.2⟩
    · next differs =>
      obtain rfl | among := List.mem_cons.mp among
      · have inner := ih List.mem_cons_self
        have other : sep ≠ c := fun same => differs (beq_iff_eq.mpr same.symm)
        exact ⟨List.not_mem_cons_of_ne_of_not_mem other inner.1, List.cons_subset_cons c inner.2⟩
      · have inner := ih (List.mem_cons_of_mem _ among)
        exact ⟨inner.1, List.subset_cons_of_subset c inner.2⟩

theorem unbroken_dataLine {payload : String} (whole : '\r' ∉ payload.toList) {part : List Char}
    (among : part ∈ partsOf payload) : Unbroken (dataLine part) := by
  obtain ⟨noFeed, inside⟩ := not_mem_and_subset_of_mem_splitOn among
  have noReturn : '\r' ∉ part := fun broken => whole (inside broken)
  exact ⟨List.not_mem_append (by decide) noFeed, List.not_mem_append (by decide) noReturn⟩

theorem Laced.forall_mem {parts body : List (List Char)} (laced : Laced parts body)
    {P : List Char → Prop} (ofPart : ∀ part ∈ parts, P (dataLine part))
    (ofAside : ∀ line, Aside line → P line) : ∀ line ∈ body, P line := by
  induction laced with
  | nil => exact List.forall_mem_nil P
  | part part _ ih =>
    obtain ⟨first, others⟩ := List.forall_mem_cons.mp ofPart
    exact List.forall_mem_cons.mpr ⟨first, ih others⟩
  | aside skipped _ ih => exact List.forall_mem_cons.mpr ⟨ofAside _ skipped, ih ofPart⟩

theorem Framed.unbroken {payloads : List String} {lines : List (List Char)}
    (framed : Framed payloads lines) (whole : ∀ payload ∈ payloads, '\r' ∉ payload.toList) :
    ∀ line ∈ lines, Unbroken line := by
  induction framed with
  | nil => exact List.forall_mem_nil _
  | blank _ ih => exact List.forall_mem_cons.mpr ⟨unbroken_nil, ih whole⟩
  | aside skipped _ ih => exact List.forall_mem_cons.mpr ⟨skipped.unbroken, ih whole⟩
  | event laced _ ih =>
    obtain ⟨first, others⟩ := List.forall_mem_cons.mp whole
    have body := laced.forall_mem (fun _ among => unbroken_dataLine first among)
      fun _ skipped => skipped.unbroken
    exact List.forall_mem_append.mpr ⟨body, List.forall_mem_cons.mpr ⟨unbroken_nil, ih others⟩⟩

/-! ### The round trip -/

/-- The lines of the payloads frame them, and of every text that frames them a new decoder gives out
exactly the payloads, under any break and cut into any chunks. -/
theorem decode_framed {payloads : List String}
    (whole : ∀ payload ∈ payloads, '\r' ∉ payload.toList) :
    Framed payloads (frame payloads) ∧
      ∀ lines, Framed payloads lines → ∀ (br : Break) (chunks : List String),
        String.join chunks = br.write lines →
          Pending.decode {} chunks = (payloads, {}) := by
  refine ⟨framed_frame payloads, fun lines framed br chunks cut => ?_⟩
  rw [decode_eq, cut, eventsOf, linesOf_write br (framed.unbroken whole), ← readLines_nil,
    readLines_framed framed]

/-- Under lone carriage returns, with a comment inside an event and a break cut in two. -/
theorem decode_framed_lone_returns :
    Pending.decode {} [":k\r\rid: 7\rdata:  :a\rda", "ta: \r:\rdata: b\r", "\rdata: \r\r"] =
      ([" :a\n\nb", ""], {}) := by
  have comment : Aside ":k".toList := ⟨⟨by decide, by decide⟩, .inl rfl⟩
  have field : Aside "id: 7".toList := ⟨⟨by decide, by decide⟩, .inr ⟨by decide, by decide⟩⟩
  have colon : Aside ":".toList := ⟨⟨by decide, by decide⟩, .inl rfl⟩
  have first : Laced (partsOf " :a\n\nb")
      ["id: 7".toList, dataLine " :a".toList, dataLine [], ":".toList, dataLine ['b']] :=
    .aside field (.part _ (.part _ (.aside colon (.part _ .nil))))
  have second : Laced (partsOf "") [dataLine []] := .part _ .nil
  have framed := Framed.aside comment (.blank (.event first (.event second .nil)))
  exact (decode_framed (by decide)).2 _ framed .cr _ (by decide)

end Dashboard.EventStream
