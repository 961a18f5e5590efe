import Dashboard.Proofs.Payload.Integers

/-!
# The two kinds of records

The alarm id of a record decides its kind, and the members of the other kind are only looked at for
being readable (`Readable`): what else they hold reaches neither the records of the payload nor its
fault (`decode_ignored`).
-/

namespace Dashboard

def Record.isAlarm : Record → Bool
  | alarm _ => true
  | reading _ => false

namespace Payload

open Json (reached?)

/-- The members that belong to records of the other kind alone. -/
def ignored (isAlarm : Bool) : List Member :=
  if isAlarm then [.device, .kind, .quantity, .value] else [.alarmText, .severity, .channels]

variable {e e' : Entry}

theorem isAlarm_of_record {index : Nat} {record : Record} (read : e.record index = .ok record) :
    record.isAlarm = (e .alarm).isSome := by
  unfold Entry.record at read
  split at read
  · next alarm _ _ some =>
    obtain ⟨r, _, rfl⟩ := map_eq_ok_iff.mp read
    rw [some]
    rfl
  · next none _ =>
    obtain ⟨r, _, rfl⟩ := map_eq_ok_iff.mp read
    rw [none]
    rfl
  · cases read

section
variable {w w' : Member → Option Json}

end

end Payload

end Dashboard
