import Mathlib.Data.List.Forall2
import Mathlib.Data.Option.Basic
import Dashboard.Proofs.Json.Members
import Dashboard.Stored.Settings

/-!
# Settings in files and in programs

A setting that is left out has the same default in a file as in a program. Whatever settings are
chosen, a file that gives exactly these is read as the configuration that is built by exactly these
calls, members and calls in any order (`file_agrees_with_builder`).
-/

namespace Dashboard

open Numeric

section
variable {σ κ α : Type} (apply : σ → κ → σ) (field : σ → α) (given : κ → Option α)
  (step : ∀ s c, field (apply s c) = (given c).getD (field s))
include step

/-- A field holds what the last call for it gave. -/
theorem field_foldl (calls : List κ) (s : σ) :
    field (calls.foldl apply s) = (calls.filterMap given).getLast?.getD (field s) := by
  induction calls generalizing s with
  | nil => rfl
  | cons c calls ih =>
    rw [List.foldl_cons, ih, step, List.filterMap_cons]
    cases given c with
    | none => rfl
    | some a =>
      rw [List.getLast?_cons]
      rfl

/-- The order of calls does not matter for a field that only one of them sets. -/
theorem field_foldl_perm (value : Option α) {calls all : List κ} (perm : calls.Perm all)
    (once : all.filterMap given = value.toList) (s : σ) :
    field (calls.foldl apply s) = value.getD (field s) := by
  have same : calls.filterMap given = value.toList := by
    have only := perm.filterMap given
    rw [once] at only
    cases value with
    | none => exact List.perm_nil.mp only
    | some a => exact List.perm_singleton.mp only
  rw [field_foldl apply field given step, same]
  cases value <;> rfl

end

theorem filterMap_toList {α β κ : Type} (call : β → κ) (value : Option β) (given : κ → Option α) :
    (value.map call).toList.filterMap given = (value.bind fun b => given (call b)).toList := by
  cases value with
  | none => rfl
  | some b => cases sets : given (call b) <;> simp [sets]

/-! ### Panels -/

namespace Alarm.Panel

/-- The settings of a panel, each of them given or left out except for the number of slots. -/
structure Choice where
  slotCount : UInt64
  name : Option String := none
  severity : Option (Int32 × Int32) := none
  mask : Option Channels := none
  textWidth : Option UInt64 := none

inductive Call where
  | severity (min max : Int32)
  | mask (mask : Channels)
  | textWidth (textWidth : Nat)

def Call.apply (p : Panel) : Call → Panel
  | severity min max => p.withSeverity min max
  | mask m => p.withMask m
  | textWidth n => p.withTextWidth n

namespace Call

def min? : Call → Option Int32
  | severity min _ => some min
  | _ => none

def max? : Call → Option Int32
  | severity _ max => some max
  | _ => none

def mask? : Call → Option Channels
  | mask m => some m
  | _ => none

def textWidth? : Call → Option Nat
  | textWidth n => some n
  | _ => none

end Call

namespace Choice

def panel (c : Choice) : Panel :=
  let default : Panel := { slotCount := c.slotCount.toNat }
  { name := c.name.getD default.name
    minSeverity := (c.severity.map (·.1)).getD default.minSeverity
    maxSeverity := (c.severity.map (·.2)).getD default.maxSeverity
    mask := c.mask.getD default.mask
    slotCount := c.slotCount.toNat
    textWidth := (c.textWidth.map UInt64.toNat).getD default.textWidth }

def calls (c : Choice) : List Call :=
  (c.severity.map fun s => .severity s.1 s.2).toList ++ (c.mask.map .mask).toList ++
    (c.textWidth.map fun n => .textWidth n.toNat).toList

theorem filterMap_calls {α : Type} (c : Choice) (given : Call → Option α) :
    c.calls.filterMap given = (c.severity.bind fun s => given (.severity s.1 s.2)).toList ++
      (c.mask.bind fun m => given (.mask m)).toList ++
      (c.textWidth.bind fun n => given (.textWidth n.toNat)).toList := by
  simp only [calls, List.filterMap_append, filterMap_toList]

/-- The panel is made by exactly the chosen calls in some order. -/
def Builds (c : Choice) (p : Panel) : Prop :=
  ∃ calls : List Call, calls.Perm c.calls ∧
    p = calls.foldl Call.apply { name := c.name.getD "", slotCount := c.slotCount.toNat }

def rows (c : Choice) : List (String × Option Json) :=
  [("name", c.name.map fun s => .string (some s)),
    ("min_severity", c.severity.map fun s => .ofInteger s.1.toInt),
    ("max_severity", c.severity.map fun s => .ofInteger s.2.toInt),
    ("channel_mask", c.mask.map fun m => .ofInteger m.bits.toNat),
    ("slot_count", some (.ofInteger c.slotCount.toNat)),
    ("text_width", c.textWidth.map fun n => .ofInteger n.toNat)]

/-- The value is an object with exactly the given members in some order. -/
def Written (c : Choice) (v : Json) : Prop :=
  ∃ ms : Json.Members, ms.Perm (Json.given c.rows) ∧ v = .ofNamed ms

theorem eq_panel {c : Choice} {p : Panel} (built : c.Builds p) : p = c.panel := by
  obtain ⟨calls, perm, rfl⟩ := built
  have set {α : Type} (field : Panel → α) (given : Call → Option α) (value : Option α)
      (step : ∀ p call, field (Call.apply p call) = (given call).getD (field p))
      (once : c.calls.filterMap given = value.toList) (p : Panel) :
      field (calls.foldl Call.apply p) = value.getD (field p) :=
    field_foldl_perm Call.apply field given step value perm once p
  generalize start : ({ name := c.name.getD "", slotCount := c.slotCount.toNat } : Panel) = p
  -- No call sets the name or the number of slots.
  have name := set Panel.name (fun _ => none) none (by rintro _ ⟨⟩ <;> rfl)
    (List.filterMap_none ..) p
  have least := set Panel.minSeverity Call.min? (c.severity.map (·.1)) (by rintro _ ⟨⟩ <;> rfl)
    (by simp [filterMap_calls, Call.min?, Option.map_eq_bind]) p
  have most := set Panel.maxSeverity Call.max? (c.severity.map (·.2)) (by rintro _ ⟨⟩ <;> rfl)
    (by simp [filterMap_calls, Call.max?, Option.map_eq_bind]) p
  have mask := set Panel.mask Call.mask? c.mask (by rintro _ ⟨⟩ <;> rfl)
    (by simp [filterMap_calls, Call.mask?]) p
  have slots := set Panel.slotCount (fun _ => none) none (by rintro _ ⟨⟩ <;> rfl)
    (List.filterMap_none ..) p
  have width := set Panel.textWidth Call.textWidth? (c.textWidth.map UInt64.toNat)
    (by rintro _ ⟨⟩ <;> rfl)
    (by simp [filterMap_calls, Call.textWidth?, Option.map_eq_bind]) p
  subst start
  generalize calls.foldl Call.apply _ = q at *
  obtain ⟨_, _, _, _, _, _⟩ := q
  rw [panel, Panel.mk.injEq]
  exact ⟨name, least, most, mask, slots, width⟩

theorem ofJson?_written {c : Choice} {v : Json} (written : c.Written v) :
    Panel.ofJson? v = some c.panel := by
  obtain ⟨ms, perm, rfl⟩ := written
  have unique : (fields.map Json.Field.name).Nodup := by decide
  have required : ∀ f ∈ fields, f.presence = .required → ∃ v, (f.name, some v) ∈ c.rows := by
    simp [fields, rows]
  have found := Json.lookup_of_perm rfl unique perm
  simp only [rows, List.forall_mem_cons] at found
  obtain ⟨name, least, most, mask, slots, width, -⟩ := found
  have slotCount : ms.read? "slot_count" Json.toNat? = some c.slotCount.toNat := by
    rw [Json.Members.read?, slots]
    exact Json.toNat?_ofInteger c.slotCount
  have name := Json.readOr?_of_lookup Json.toText? id "" name fun _ _ => rfl
  have least := Json.readOr?_of_lookup Json.toInt32? (·.1) 1 least
    fun s _ => Json.toInt32?_ofInteger s.1
  have most := Json.readOr?_of_lookup Json.toInt32? (·.2) Int32.maxValue most
    fun s _ => Json.toInt32?_ofInteger s.2
  have mask := Json.readOr?_of_lookup Channels.ofJson? id .all mask
    fun m _ => by rw [Channels.ofJson?, Json.toUInt32?_ofInteger]; rfl
  have width := Json.readOr?_of_lookup Json.toNat? UInt64.toNat defaultTextWidth width
    fun n _ => Json.toNat?_ofInteger n
  rw [Option.map_id] at name mask
  rw [ofJson?, Json.members?_ofNamed rfl unique perm required]
  simp only [Option.bind_eq_bind, Option.bind_some, slotCount, name, least, most, mask, width]
  rfl

theorem eq_map_panel {choices : List Choice} {panels : List Panel}
    (built : List.Forall₂ Builds choices panels) : panels = choices.map panel := by
  induction built with
  | nil => rfl
  | cons first _ ih => rw [List.map_cons, eq_panel first, ih]

theorem mapM_written {choices : List Choice} {items : List Json}
    (written : List.Forall₂ Written choices items) :
    items.mapM Panel.ofJson? = some (choices.map panel) := by
  induction written with
  | nil => rfl
  | cons first _ ih =>
    rw [List.mapM_cons, ofJson?_written first, ih]
    rfl

end Choice

end Alarm.Panel

/-! ### Configurations -/

namespace Config

/-- A threshold, and a literal that is read as it. -/
structure Threshold where
  literal : Json.Number
  number : Binary64
  read : (Json.number literal).toDouble? = some number

structure Choice where
  historyCapacity : Option UInt64 := none
  largeAbove : Option Threshold := none
  panels : Option (List Alarm.Panel.Choice) := none
  queueCapacity : Option { n : UInt64 // n.toNat ≠ 0 } := none

inductive Call where
  | historyCapacity (historyCapacity : Nat)
  | largeAbove (largeAbove : Binary64)
  | panel (panel : Alarm.Panel)
  | queueCapacity (queueCapacity : Nat)

def Call.apply (c : Config) : Call → Config
  | historyCapacity n => c.withHistoryCapacity n
  | largeAbove x => c.withLargeAbove x
  | panel p => c.withPanel p
  | queueCapacity n => c.withQueueCapacity n

namespace Call

def historyCapacity? : Call → Option Nat
  | historyCapacity n => some n
  | _ => none

def largeAbove? : Call → Option Binary64
  | largeAbove x => some x
  | _ => none

def panel? : Call → Option Alarm.Panel
  | panel p => some p
  | _ => none

/-- A capacity of zero sets nothing. -/
def queueCapacity? : Call → Option Nat
  | queueCapacity n => if n = 0 then none else some n
  | _ => none

end Call

theorem apply_queueCapacity (c : Config) (n : Nat) :
    Call.apply c (.queueCapacity n) =
      { c with queueCapacity := (Call.queueCapacity? (.queueCapacity n)).getD c.queueCapacity } := by
  rw [Call.apply, withQueueCapacity, Call.queueCapacity?]
  split <;> rfl

theorem panels_foldl (calls : List Call) (c : Config) :
    (calls.foldl Call.apply c).panels = c.panels ++ calls.filterMap Call.panel? := by
  induction calls generalizing c with
  | nil => exact (List.append_nil _).symm
  | cons call calls ih =>
    rw [List.foldl_cons, ih]
    cases call with
    | panel p => exact List.append_assoc ..
    | queueCapacity n =>
      rw [apply_queueCapacity]
      rfl
    | _ => rfl

namespace Choice

def config (c : Choice) : Config :=
  let default : Config := {}
  { historyCapacity := (c.historyCapacity.map UInt64.toNat).getD default.historyCapacity
    largeAbove := (c.largeAbove.map Threshold.number).getD default.largeAbove
    panels := (c.panels.map (List.map Alarm.Panel.Choice.panel)).getD default.panels
    queueCapacity := (c.queueCapacity.map (·.1.toNat)).getD default.queueCapacity }

def calls (c : Choice) (panels : List Alarm.Panel) : List Call :=
  (c.historyCapacity.map fun n => .historyCapacity n.toNat).toList ++
    (c.largeAbove.map fun t => .largeAbove t.number).toList ++ panels.map .panel ++
    (c.queueCapacity.map fun n => .queueCapacity n.1.toNat).toList

theorem filterMap_calls {α : Type} (c : Choice) (panels : List Alarm.Panel)
    (given : Call → Option α) : (c.calls panels).filterMap given =
      (c.historyCapacity.bind fun n => given (.historyCapacity n.toNat)).toList ++
      (c.largeAbove.bind fun t => given (.largeAbove t.number)).toList ++
      panels.filterMap (fun p => given (.panel p)) ++
      (c.queueCapacity.bind fun n => given (.queueCapacity n.1.toNat)).toList := by
  simp only [calls, List.filterMap_append, filterMap_toList, List.filterMap_map, Function.comp_def]

/-- The configuration is made by exactly the chosen calls in some order, which keeps that of the
panels. -/
def Builds (c : Choice) (config : Config) : Prop :=
  ∃ (panels : List Alarm.Panel) (calls : List Call),
    List.Forall₂ Alarm.Panel.Choice.Builds (c.panels.getD []) panels ∧
      calls.Perm (c.calls panels) ∧ calls.filterMap Call.panel? = panels ∧
      config = calls.foldl Call.apply {}

def rows (c : Choice) (panels : List Json) : List (String × Option Json) :=
  [("history_capacity", c.historyCapacity.map fun n => .ofInteger n.toNat),
    ("large_value_threshold", c.largeAbove.map fun t => .number t.literal),
    ("alarm_panels", c.panels.map fun _ => .array panels),
    ("channel_size", c.queueCapacity.map fun n => .ofInteger n.1.toNat)]

def Written (c : Choice) (v : Json) : Prop :=
  ∃ (panels : List Json) (ms : Json.Members),
    List.Forall₂ Alarm.Panel.Choice.Written (c.panels.getD []) panels ∧
      ms.Perm (Json.given (c.rows panels)) ∧ v = .ofNamed ms

theorem eq_config {c : Choice} {config : Config} (built : c.Builds config) : config = c.config := by
  obtain ⟨panels, calls, made, perm, order, rfl⟩ := built
  have set {α : Type} (field : Config → α) (given : Call → Option α) (value : Option α)
      (step : ∀ c call, field (Call.apply c call) = (given call).getD (field c))
      (once : (c.calls panels).filterMap given = value.toList) (start : Config) :
      field (calls.foldl Call.apply start) = value.getD (field start) :=
    field_foldl_perm Call.apply field given step value perm once start
  have history := set Config.historyCapacity Call.historyCapacity?
    (c.historyCapacity.map UInt64.toNat)
    (by rintro _ ⟨⟩ <;> first | rfl | rw [apply_queueCapacity]; rfl)
    (by simp [filterMap_calls, Call.historyCapacity?, Option.map_eq_bind]) {}
  have threshold := set Config.largeAbove Call.largeAbove? (c.largeAbove.map Threshold.number)
    (by rintro _ ⟨⟩ <;> first | rfl | rw [apply_queueCapacity]; rfl)
    (by simp [filterMap_calls, Call.largeAbove?, Option.map_eq_bind]) {}
  have kept (n : { n : UInt64 // n.toNat ≠ 0 }) :
      Call.queueCapacity? (.queueCapacity n.1.toNat) = some n.1.toNat := if_neg n.2
  have queue := set Config.queueCapacity Call.queueCapacity? (c.queueCapacity.map (·.1.toNat))
    (by rintro _ ⟨⟩ <;> first | rfl | rw [apply_queueCapacity])
    (by
      simp only [filterMap_calls, kept]
      simp [Call.queueCapacity?, Option.map_eq_bind]) {}
  have shown : (calls.foldl Call.apply {}).panels = c.config.panels := by
    rw [panels_foldl, order, Alarm.Panel.Choice.eq_map_panel made, config]
    cases c.panels <;> rfl
  generalize calls.foldl Call.apply {} = built at *
  obtain ⟨_, _, _, _⟩ := built
  rw [config, Config.mk.injEq]
  exact ⟨history, threshold, shown, queue⟩

theorem ofJson?_written {c : Choice} {v : Json} (written : c.Written v) :
    Config.ofJson? v = some c.config := by
  obtain ⟨panels, ms, items, perm, rfl⟩ := written
  have unique : (fields.map Json.Field.name).Nodup := by decide
  have required : ∀ f ∈ fields, f.presence = .required → ∃ v, (f.name, some v) ∈ c.rows panels := by
    simp [fields]
  have found := Json.lookup_of_perm rfl unique perm
  simp only [rows, List.forall_mem_cons] at found
  obtain ⟨history, threshold, shown, queue, -⟩ := found
  have history := Json.readOr?_of_lookup Json.toNat? UInt64.toNat defaultHistoryCapacity history
    fun n _ => Json.toNat?_ofInteger n
  have threshold := Json.readOr?_of_lookup Json.toDouble? Threshold.number Figure.largeNumber
    threshold fun t _ => t.read
  have shown := Json.readOr?_of_lookup (Json.toList? Alarm.Panel.ofJson?)
    (List.map Alarm.Panel.Choice.panel) [] shown fun choices given => by
      rw [given, Option.getD_some] at items
      exact Alarm.Panel.Choice.mapM_written items
  have queue := Json.readOr?_of_lookup Json.toNat? (·.1.toNat) 64 queue
    fun n _ => Json.toNat?_ofInteger n.1
  rw [ofJson?, Json.members?_ofNamed rfl unique perm required]
  simp only [Option.bind_eq_bind, Option.bind_some, history, threshold, shown, queue]
  rfl

end Choice

/-- A file that gives exactly the chosen settings is read as the configuration that is built with
exactly these, and a panel is found in it as the first that was chosen with its name. -/
theorem file_agrees_with_builder {choice : Choice} {text : String} {v : Json} {config : Config}
    (parsed : Json.parse? text = some v) (written : choice.Written v)
    (built : choice.Builds config) :
    ofText? text = some config ∧ ∀ name, config.panel? name =
      ((choice.panels.getD []).find? (·.name.getD "" = name)).map Alarm.Panel.Choice.panel := by
  obtain rfl := Choice.eq_config built
  refine ⟨?_, fun name => ?_⟩
  · rw [ofText?, parsed, Option.bind_some, Choice.ofJson?_written written]
  · have panels : choice.config.panels =
        (choice.panels.getD []).map Alarm.Panel.Choice.panel := by
      rw [Choice.config]
      cases choice.panels <;> rfl
    rw [panel?, panels, List.find?_map]
    rfl

/-- A file with a panel and a threshold, each object in the reverse order. -/
theorem file_agrees_with_builder_panel :
    ofText? ("\x7b\"alarm_panels\":[\x7b\"slot_count\":4,\"name\":\"a\"\x7d]," ++
        "\"large_value_threshold\":0.5\x7d") =
      some ((({} : Config).withPanel { name := "a", slotCount := 4 }).withLargeAbove .half) := by
  have parsed : Json.parse? ("\x7b\"alarm_panels\":[\x7b\"slot_count\":4,\"name\":\"a\"\x7d]," ++
        "\"large_value_threshold\":0.5\x7d") =
      some (.object [(some "alarm_panels", .array
          [.object [(some "slot_count", .ofInteger 4), (some "name", .string "a")]]),
        (some "large_value_threshold", .number { whole := ['0'], fraction := some ['5'] })]) := by
    decide +kernel
  have read : (Json.number { whole := ['0'], fraction := some ['5'] }).toDouble? =
      some Binary64.half := by decide +kernel
  let first : Alarm.Panel.Choice := { slotCount := 4, name := some "a" }
  let choice : Choice := { largeAbove := some ⟨_, _, read⟩, panels := some [first] }
  have panels : List.Forall₂ Alarm.Panel.Choice.Written [first]
      [.ofNamed (Json.given first.rows).reverse] :=
    .cons ⟨_, List.reverse_perm _, rfl⟩ .nil
  have written : choice.Written _ := ⟨_, _, panels, List.reverse_perm _, rfl⟩
  have made : List.Forall₂ Alarm.Panel.Choice.Builds [first] [{ name := "a", slotCount := 4 }] :=
    .cons ⟨[], .refl _, rfl⟩ .nil
  have built : choice.Builds _ := ⟨_, [.panel _, .largeAbove .half], made, .swap .., rfl, rfl⟩
  exact (file_agrees_with_builder parsed written built).1

/-- The threshold 9999.000000002137 is read as another number from the text it is written as. -/
theorem threshold_read_beside :
    (Decimal.nearest { digits := 9999000000002137, exponent := -12 }).text = "9999.000000002137" ∧
      ofText? "\x7b\"large_value_threshold\":9999.000000002137\x7d" ≠
        some (({} : Config).withLargeAbove
          (Decimal.nearest { digits := 9999000000002137, exponent := -12 })) := by
  decide +kernel

end Config

end Dashboard
