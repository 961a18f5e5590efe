import Mathlib.Data.List.DropRight
import Dashboard.Proofs.Reading
import Dashboard.Proofs.Session.Levels

/-!
# Samples that are not finite

The sample of a figure is a finite number, and the sample of a flag is its level, which may be an
infinity. `finite_iff_bounded` tells which readings leave a gap in a trend, and that the ends of a
trend are finite only if all of it is.
-/

namespace Dashboard

open Numeric

section
variable {α : Type} {f : α → α → α}

theorem foldl_mem (chooses : ∀ x y, f x y = x ∨ f x y = y) (x : α) (rest : List α) :
    rest.foldl f x ∈ x :: rest := by
  induction rest generalizing x with
  | nil => exact List.mem_cons_self
  | cons y rest ih =>
    rw [List.foldl_cons]
    rcases List.mem_cons.mp (ih (f x y)) with first | other
    · rw [first]
      rcases chooses x y with same | same <;> simp [same]
    · exact List.mem_cons_of_mem x (List.mem_cons_of_mem y other)

theorem foldl_absorbing {a : α} (left : ∀ y, f a y = a) (right : ∀ x, f x a = a) {x : α}
    {rest : List α} (member : a ∈ x :: rest) : rest.foldl f x = a := by
  induction rest generalizing x with
  | nil => exact (List.mem_singleton.mp member).symm
  | cons y rest ih =>
    rw [List.foldl_cons]
    refine ih ?_
    rcases List.mem_cons.mp member with rfl | member
    · rw [left]
      exact List.mem_cons_self
    · rcases List.mem_cons.mp member with rfl | member
      · rw [right]
        exact List.mem_cons_self
      · exact List.mem_cons_of_mem _ member

end

namespace Numeric.Binary64

/-- Every position is within those of the infinities, which only the infinities have. -/
theorem position?_range {x : Binary64} {p : Int} (position : x.position? = some p) :
    (-unitLimit ≤ p ∧ p ≤ unitLimit) ∧
      (p = -unitLimit ↔ x = infinity true) ∧ (p = unitLimit ↔ x = infinity false) := by
  have limit := unitLimit_pos
  cases x with
  | nan => cases position
  | infinity negative =>
    cases position
    cases negative <;> simp [signed] <;> omega
  | finite negative m =>
    cases position
    have below := m.units_lt
    cases negative <;> simp [signed] <;> omega

/-- Nothing is below the one infinity or above the other. -/
theorem not_lt_ends (x : Binary64) :
    x.lt (infinity true) = false ∧ (infinity false).lt x = false := by
  rw [Bool.eq_false_iff, Bool.eq_false_iff]
  cases position : x.position? with
  | none => simp [lt, position]
  | some p =>
    obtain ⟨⟨low, high⟩, _⟩ := position?_range position
    rw [Ne, lt_iff position rfl, Ne, lt_iff rfl position, signed, signed, if_pos rfl,
      if_neg Bool.false_ne_true, not_lt, not_lt]
    exact ⟨low, high⟩

theorem lt_ends {x : Binary64} (number : x ≠ nan) :
    (x ≠ infinity true → (infinity true).lt x = true) ∧
      (x ≠ infinity false → x.lt (infinity false) = true) := by
  obtain ⟨p, position⟩ := Option.ne_none_iff_exists'.mp (mt (position?_eq_none_iff x).mp number)
  obtain ⟨⟨low, high⟩, lowest, highest⟩ := position?_range position
  rw [lt_iff rfl position, lt_iff position rfl, signed, signed, if_pos rfl,
    if_neg Bool.false_ne_true]
  constructor
  · exact fun other => lt_of_le_of_ne low fun same => other (lowest.mp same.symm)
  · exact fun other => lt_of_le_of_ne high fun same => other (highest.mp same)

theorem min_choose (x y : Binary64) : min x y = x ∨ min x y = y := by
  unfold min
  split <;> simp

theorem max_choose (x y : Binary64) : max x y = x ∨ max x y = y := by
  unfold max
  split <;> simp

/-- Of two numbers the better one is taken, so the best one is always taken. -/
theorem take_best {better : Binary64 → Binary64 → Bool} {best : Binary64}
    (number : best.isNaN = false) (none : ∀ x, better x best = false)
    (all : ∀ x, x ≠ nan → x ≠ best → better best x = true) (x : Binary64) :
    (if best.isNaN || better x best then x else best) = best ∧
      (if x.isNaN || better best x then best else x) = best := by
  constructor
  · rw [number, none]
    rfl
  · by_cases nan : x = nan
    · rw [nan]
      rfl
    by_cases same : x = best
    · rw [same, ite_self]
    · rw [all x nan same, Bool.or_true, if_pos rfl]

theorem min_lowest (x : Binary64) :
    min (infinity true) x = infinity true ∧ min x (infinity true) = infinity true :=
  take_best rfl (fun y => (not_lt_ends y).1) (fun _ number => (lt_ends number).1) x

theorem max_highest (x : Binary64) :
    max (infinity false) x = infinity false ∧ max x (infinity false) = infinity false :=
  @take_best (fun y x => x.lt y) _ rfl (fun y => (not_lt_ends y).2)
    (fun _ number => (lt_ends number).2) x

theorem isFinite_iff {x : Binary64} :
    x.isFinite = true ↔ x ≠ nan ∧ x ≠ infinity true ∧ x ≠ infinity false := by
  rcases x with _ | (_ | _) | _ <;> simp [isFinite]

end Numeric.Binary64

namespace Trend

def Finite (t : Trend) : Prop :=
  ∀ x ∈ t.samples, x.isFinite = true

/-- A trend is finite if it has no gap. -/
theorem finite_iff_points (t : Trend) : t.Finite ↔ none ∉ t.points := by
  simp [Finite, points, Binary64.finite?]

theorem finite_iff_ends {t : Trend} (some : t.samples ≠ []) (numbers : .nan ∉ t.samples) :
    t.Finite ↔
      ∃ low high, t.min? = .some low ∧ t.max? = .some high ∧
        low.isFinite = true ∧ high.isFinite = true := by
  obtain ⟨style, samples⟩ := t
  obtain ⟨x, rest, rfl⟩ := List.exists_cons_of_ne_nil some
  constructor
  · intro finite
    exact ⟨_, _, rfl, rfl, finite _ (foldl_mem Binary64.min_choose x rest),
      finite _ (foldl_mem Binary64.max_choose x rest)⟩
  · rintro ⟨low, high, least, greatest, lowFinite, highFinite⟩ y member
    cases least
    cases greatest
    refine Binary64.isFinite_iff.mpr ⟨?_, ?_, ?_⟩ <;> rintro rfl
    · exact numbers member
    · rw [foldl_absorbing (fun z => (Binary64.min_lowest z).1) (fun z => (Binary64.min_lowest z).2)
        member] at lowFinite
      cases lowFinite
    · rw [foldl_absorbing (fun z => (Binary64.max_highest z).1)
        (fun z => (Binary64.max_highest z).2) member] at highFinite
      cases highFinite

end Trend

/-! ### Samples of readings -/

theorem value_eq_of_made {r : Reading} (made : (Record.reading r).Made) :
    r.value = .ofRaw r.quantity r.value.raw := by
  cases made with
  | reading device kind quantity raw => rw [Reading.ofRaw, Value.raw_ofRaw]

theorem sample?_of_flag {r : Reading} (made : (Record.reading r).Made)
    (flag : r.quantity.isFlag = true) : r.value.sample? = some (flagLevel r.value.raw) := by
  have value := value_eq_of_made made
  rw [Value.ofRaw, if_pos flag] at value
  exact congrArg Value.sample? value

theorem isFinite_of_figure {r : Reading} (made : (Record.reading r).Made)
    (figure : r.quantity.isFlag = false) {x : Binary64} (sampled : r.value.sample? = some x) :
    x.isFinite = true := by
  rw [value_eq_of_made made, Value.ofRaw, figure, if_neg Bool.false_ne_true, Value.sample?,
    Figure.finiteNumber?] at sampled
  obtain ⟨y, _, kept⟩ := Option.bind_eq_some_iff.mp sampled
  rw [Binary64.finite?] at kept
  split at kept
  · next finite =>
    cases kept
    exact finite
  · cases kept

section
variable {readings : List Reading} {quantity : Quantity}
  (made : ∀ r ∈ readings, (Record.reading r).Made)
include made

theorem samplesAs_of_flag (flag : quantity.isFlag = true) :
    samplesAs quantity readings =
      (readings.filter (·.quantity = quantity)).map fun r => flagLevel r.value.raw := by
  rw [samplesAs, ← List.filterMap_eq_map]
  refine List.filterMap_congr fun r member => ?_
  obtain ⟨among, same⟩ := List.mem_filter.mp member
  obtain rfl := of_decide_eq_true same
  exact sample?_of_flag (made r among) flag

theorem isFinite_of_mem_samplesAs (figure : quantity.isFlag = false) {x : Binary64}
    (member : x ∈ samplesAs quantity readings) : x.isFinite = true := by
  obtain ⟨r, kept, sampled⟩ := List.mem_filterMap.mp member
  obtain ⟨among, same⟩ := List.mem_filter.mp kept
  obtain rfl := of_decide_eq_true same
  exact isFinite_of_figure (made r among) figure sampled

end

theorem lastOf_map {α : Type} (f : α → Binary64) (n : Nat) (l : List α) :
    Window.lastOf n (l.map f) = (l.rtake n).map f := by
  rw [Window.lastOf, List.rtake, List.length_map, List.map_drop]

namespace Session

/-- The readings of the series that a history of this capacity keeps the samples of. -/
def lastReadings (config : Config) (series : Series) (records : List Record) : List Reading :=
  ((readingsOf series.device records).filter (·.quantity = series.quantity)).rtake
    (max config.historyCapacity 1)

theorem Keeps.trend_samples {config : Config} {records : List Record} {s : Session}
    (h : Keeps config records s) {series : Series} {style : ChartStyle} {trend : Trend}
    (found : s.history.trend? series style = some trend) :
    trend.samples ≠ [] ∧
      trend.samples = Window.lastOf (max config.historyCapacity 1)
        (samplesAs series.quantity (readingsOf series.device records)) := by
  have held := History.samples?_pushAll config.historyCapacity (pushesOf records) series
  rw [← h.history, samplesOf_pushesOf] at held
  rw [History.trend?, held] at found
  split at found
  · cases found
  · next some =>
    cases found
    exact ⟨Window.lastOf_ne_nil (by omega) some, rfl⟩

/-- The samples of a trend of flags are the levels of the last readings. -/
theorem Keeps.trend_levels {config : Config} {records : List Record} {s : Session}
    (h : Keeps config records s) (made : ∀ record ∈ records, record.Made) {series : Series}
    {style : ChartStyle} {trend : Trend} (flag : series.quantity.isFlag = true)
    (found : s.history.trend? series style = some trend) :
    trend.samples = (lastReadings config series records).map fun r => flagLevel r.value.raw := by
  have made' : ∀ r ∈ readingsOf series.device records, (Record.reading r).Made :=
    fun r member => made _ (mem_of_mem_readingsOf member)
  rw [(h.trend_samples found).2, samplesAs_of_flag made' flag, lastOf_map, lastReadings]

/-- The samples of a trend of figures are finite numbers. -/
theorem Keeps.trend_figures {config : Config} {records : List Record} {s : Session}
    (h : Keeps config records s) (made : ∀ record ∈ records, record.Made) {series : Series}
    {style : ChartStyle} {trend : Trend} (figure : series.quantity.isFlag = false)
    (found : s.history.trend? series style = some trend) : trend.Finite := by
  have made' : ∀ r ∈ readingsOf series.device records, (Record.reading r).Made :=
    fun r member => made _ (mem_of_mem_readingsOf member)
  intro x member
  rw [(h.trend_samples found).2] at member
  exact isFinite_of_mem_samplesAs made' figure (List.mem_of_mem_drop member)

/-- After any payloads to a new session no sample is NaN, and all samples of a trend are finite
numbers unless the trend is of a flag and one of the readings that it keeps has a text without
bounds. Exactly then the trend has no gap, and exactly then both its ends are finite. -/
theorem finite_iff_bounded (config : Config) (run : List Delivery) {series : Series}
    {style : ChartStyle} {trend : Trend}
    (found : ((ofConfig config).ingestEach run).2.history.trend? series style = some trend) :
    .nan ∉ trend.samples ∧
      (trend.Finite ↔ (series.quantity.isFlag = true →
        ∀ r ∈ lastReadings config series (recordsOf run), ¬Boundless r.value.raw)) ∧
      (trend.Finite ↔ none ∉ trend.points) ∧
      (trend.Finite ↔ ∃ low high, trend.min? = some low ∧ trend.max? = some high ∧
        low.isFinite = true ∧ high.isFinite = true) := by
  have keeps := ingestEach_keeps config run
  have made := recordsOf_made run
  have nonempty := (keeps.trend_samples found).1
  cases flag : series.quantity.isFlag with
  | false =>
    have finite := keeps.trend_figures made flag found
    have numbers : .nan ∉ trend.samples := fun member => by cases finite _ member
    exact ⟨numbers, iff_of_true finite Bool.noConfusion, trend.finite_iff_points,
      Trend.finite_iff_ends nonempty numbers⟩
  | true =>
    have levels := keeps.trend_levels made flag found
    have numbers : .nan ∉ trend.samples := by
      rw [levels]
      intro member
      obtain ⟨r, _, nan⟩ := List.mem_map.mp member
      exact flagLevel_ne_nan _ nan
    refine ⟨numbers, ?_, trend.finite_iff_points, Trend.finite_iff_ends nonempty numbers⟩
    rw [Trend.Finite, levels, List.forall_mem_map, forall_prop_of_true rfl]
    exact forall₂_congr fun r _ => flagLevel_isFinite_iff r.value.raw

theorem finite_iff_bounded_half :
    let payload := "[\x7b\"uid\":\"a\",\"type\":\"2\",\"subt\":\"1\",\"value\":\"0.5\"\x7d]"
    let run : List Delivery := [{ preferences := {}, payload }]
    let trend : Trend := { style := .line, samples := [.half] }
    ((ofConfig {}).ingestEach run).2.history.trend? { device := "a", quantity := .switch } .line =
        some trend ∧
      (trend.Finite ↔ (Quantity.isFlag .switch = true →
        ∀ r ∈ lastReadings {} { device := "a", quantity := .switch } (recordsOf run),
          ¬Boundless r.value.raw)) := by
  intro payload run trend
  have found : ((ofConfig {}).ingestEach run).2.history.trend?
      { device := "a", quantity := .switch } .line = some trend := by
    decide +kernel
  exact ⟨found, (finite_iff_bounded {} run found).2.1⟩

/-- A switch that sends an infinity leaves a sample that is no finite number. -/
theorem infinity_kept :
    let payload := "[\x7b\"uid\":\"a\",\"type\":\"1\",\"subt\":\"1\",\"value\":\"inf\"\x7d]"
    let s := ((ofConfig {}).ingestEach [{ preferences := {}, payload }]).2
    ∃ trend, s.history.trend? { device := "a", quantity := .switch } .line = some trend ∧
      trend.samples = [.infinity false] ∧ trend.points = [none] ∧
      trend.max? = some (.infinity false) := by
  intro payload s
  have found : s.history.trend? { device := "a", quantity := .switch } .line =
      some { style := .line, samples := [.infinity false] } := by
    decide +kernel
  exact ⟨_, found, rfl, rfl, rfl⟩

end Session

end Dashboard
