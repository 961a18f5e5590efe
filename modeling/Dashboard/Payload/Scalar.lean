import Dashboard.Json.Fields
import Dashboard.Text.Blank

/-!
# Scalars of a payload

Collectors quote every value, but numbers and flags are accepted as well. `toInt?_text_toString`
says that quoting an integer does not change it.
-/

namespace Dashboard.Payload

open Numeric

inductive Scalar where
  | text (s : String)
  | integer (z : Int)
  | double (x : Binary64)
  | flag (b : Bool)
  deriving DecidableEq

def isInt64 (z : Int) : Bool :=
  Int64.minValue.toInt ≤ z && z ≤ Int64.maxValue.toInt

namespace Scalar

/-- Integers that 64 bits with a sign do not hold are doubles. -/
def ofJson? : Json → Option Scalar
  | .string s => s.map .text
  | .bool b => some (.flag b)
  | .number n => n.value?.map fun
    | .integer z => if isInt64 z then .integer z else .double (.ofInt z)
    | .double x => .double x
  | _ => none

def toText : Scalar → String
  | text s => s
  | integer z => toString z
  | double x => x.text
  | flag b => if b then "1" else "0"

def shown : Scalar → String
  | flag b => if b then "true" else "false"
  | s => s.toText

/-- The integer of 64 bits that the scalar stands for. Blank characters around a text do not count,
and a double has to be whole. -/
def toInt? : Scalar → Option Int
  | text s => (integer? (Text.trim s).toList).filter isInt64
  | integer z => some z
  | double x => x.toInt?.filter fun z => z.natAbs ≤ Int64.maxValue.toInt.toNat
  | flag _ => none

theorem trimBlank_toString (z : Int) :
    Text.trimBlank (toString z).toList = (toString z).toList := by
  refine Text.trimBlank_of_forall fun c hc => ?_
  rw [toList_toString_int, List.mem_append] at hc
  rcases hc with hc | hc
  · split at hc
    · rw [List.mem_singleton.mp hc]; rfl
    · exact absurd hc List.not_mem_nil
  · exact Text.isBlank_of_isDigit (Nat.isDigit_of_mem_toDigits (by decide) (by decide) hc)

theorem toInt?_text_toString {z : Int} (h : isInt64 z = true) :
    (text (toString z)).toInt? = some z := by
  rw [toInt?, Text.toList_trim, trimBlank_toString, integer?_toString]
  exact Option.filter_some_pos h

end Scalar

end Dashboard.Payload
