import Mathlib.Algebra.Order.Field.Rat
import Mathlib.Data.Rat.Floor
import Mathlib.Tactic.Linarith
import Howler.Python.Raising
import Howler.Python.Text

namespace Howler.Datastore

open Python

/-- A bound or the gap of a histogram: an integer, or a text with what `int` makes of it. -/
inductive Bound where
  | int (n : ℤ)
  | text (s : Str) (value : Option ℤ)
  deriving DecidableEq

/-- How a function of the date-math library fails: by its own exception, or by another one. -/
inductive DateError where
  | dateMath
  | foreign
  deriving DecidableEq

inductive HistogramError where
  | search (msg : Str)
  | zeroDivision
  | overflow
  | foreign
  deriving DecidableEq

namespace Bound

/-- `int(value)`. -/
def toInt : Bound → Option ℤ
  | int n => some n
  | text _ value => value

/-- `str(value)`. -/
def toText : Bound → Str
  | int n => (toString n).toList
  | text s _ => s

end Bound

section Validation

/-- What the language and the date-math library do: the float next to a quotient, if there is one,
and the second that a text stands for at each of the calls. -/
structure Arithmetic where
  round : ℚ → Option ℚ
  dm : ℕ → Str → Except DateError ℤ

def maxFacetLimit : ℤ := 100

/-- `int(x)` of a float. -/
def truncate (x : ℚ) : ℤ := if 0 ≤ x then ⌊x⌋ else ⌈x⌉

/-- The pairs of `to_pydatemath`. -/
def pydatemathPairs : List (Str × Str) :=
  [("now".toList, "now".toList), ("y".toList, "y".toList), ("M".toList, "M".toList),
    ("w".toList, "w".toList), ("d".toList, "d".toList), ("h".toList, "h".toList),
    ("m".toList, "m".toList), ("s".toList, "s".toList), ("Z".toList, "Z||".toList)]

def toPydatemath (value : Str) : Str :=
  pydatemathPairs.foldl (fun value x => replace x.1 x.2 value) value

/-- `s.strip(c)`. -/
def stripChar (c : Char) (s : Str) : Str :=
  ((s.dropWhile (· = c)).reverse.dropWhile (· = c)).reverse

/-- `gap.strip("+").strip("-")`. -/
def stripSigns (gap : Str) : Str := stripChar '-' (stripChar '+' gap)

variable (A : Arithmetic)

/-- `int(range / gap)`. -/
def divideSteps (range gap : ℤ) : Except HistogramError ℤ :=
  if gap = 0 then .error .zeroDivision
  else match A.round (range / gap) with
    | none => .error .overflow
    | some steps => .ok (truncate steps)

/-- The assignments of the first `try`: those before the first text that is no integer are made. -/
def readInts (start stop gap : Bound) : (Bound × Bound × Bound) × Option (ℤ × ℤ × ℤ) :=
  match start.toInt with
  | none => ((start, stop, gap), none)
  | some m =>
    match stop.toInt with
    | none => ((.int m, stop, gap), none)
    | some n =>
      match gap.toInt with
      | none => ((.int m, .int n, gap), none)
      | some g => ((.int m, .int n, .int g), some (m, n, g))

/-- The seconds of the bounds and of the gap, as the library reads them. -/
def readDates (start stop tGap : Str) : Except DateError (ℤ × ℤ × ℤ) := do
  let parsedStart ← A.dm 0 (toPydatemath start)
  let parsedEnd ← A.dm 1 (toPydatemath stop)
  let later ← A.dm 2 (toPydatemath ('+' :: tGap))
  let now ← A.dm 3 "now".toList
  return (parsedStart, parsedEnd, later - now)

/-- The second `try`. An integer has no text to parse (an `AttributeError`). -/
def dateSteps : Bound → Bound → Bound → Except HistogramError (Option ℤ)
  | .text start _, .text stop _, .text gap _ =>
    match readDates A start stop (stripSigns gap) with
    | .error .dateMath => .ok none
    | .error .foreign => .error .foreign
    | .ok (parsedStart, parsedEnd, parsedGap) => do
      let gapsCount ← divideSteps A (parsedEnd - parsedStart) parsedGap
      return some gapsCount
  | .text start _, .int _, .text _ _ =>
    -- the start is parsed before the end
    match A.dm 0 (toPydatemath start) with
    | .error .foreign => .error .foreign
    | .error .dateMath | .ok _ => .ok none
  | _, _, _ => .ok none

inductive HistogramType where
  | histogram
  | dateHistogram
  deriving DecidableEq

/-- The steps and the type of the histogram after the two `try`s. -/
def countSteps (start stop gap : Bound) :
    Except HistogramError (Option (ℤ × HistogramType)) := do
  let (locals, ints) := readInts start stop gap
  let count ← match ints with
    | none => pure none
    | some (m, n, g) => some <$> divideSteps A (n - m) g
  -- no steps are as good as none counted: the dates are tried too
  match count with
  | none | some 0 => do
    match ← dateSteps A locals.1 locals.2.1 locals.2.2 with
    | some steps => return some (steps, .dateHistogram)
    | none => return count.map fun steps => (steps, .histogram)
  | some steps => return some (steps, .histogram)

def rangesNotParsed (locals : Bound × Bound × Bound) : Str :=
  ("Could not parse histogram ranges. Either you've mix integer and dates values or you ".toList ++
    "have invalid date math values. (start='".toList ++ locals.1.toText ++ "', end='".toList ++
    locals.2.1.toText ++ "', gap='".toList ++ locals.2.2.toText ++ "')".toList)

def tooManySteps (steps : ℤ) : Str :=
  ("Histograms are limited to a maximum of 100 steps. Current settings would generate ".toList ++
    (toString steps).toList ++ " steps".toList)

/-- `_validate_steps_count`. -/
def validateStepsCount (start stop gap : Bound) : Except HistogramError HistogramType := do
  match ← countSteps A start stop gap with
  | none => throw (.search (rangesNotParsed (readInts start stop gap).1))
  | some (steps, type) =>
    if steps > maxFacetLimit then throw (.search (tooManySteps steps))
    else return type

/-- What `histogram` asks for. -/
structure HistogramArgs where
  query : Str
  field : Str
  type : HistogramType
  gap : ℤ ⊕ Str
  mincount : ℕ
  start : ℤ ⊕ Str
  stop : ℤ ⊕ Str
  filters : List Str

/-- `type_modifier(value)`. -/
def modify : HistogramType → Bound → ℤ ⊕ Str
  | .histogram, value => .inl (value.toInt.getD 0)
  | .dateHistogram, value => .inr value.toText

def valueText : ℤ ⊕ Str → Str
  | .inl n => (toString n).toList
  | .inr s => s

/-- `histogram`, up to the search. -/
def histogram (field : Str) (start stop gap : Bound) (query : Str) (mincount : Option ℕ)
    (filters : List Str) (accessControl : Option Str) : Except HistogramError HistogramArgs := do
  let type ← validateStepsCount A start stop gap
  let range := field ++ ":[".toList ++ valueText (modify type start) ++ " TO ".toList ++
    valueText (modify type stop) ++ "]".toList
  return {
    query := query
    field := field
    type := type
    gap := (modify type gap).map id stripSigns
    mincount := mincount.getD 1
    start := modify type start
    stop := modify type stop
    filters := filters ++ [range] ++ (accessControl.filter (· ≠ [])).toList }

end Validation

section Guard

variable (A : Arithmetic) (start stop gap : Bound)

/-- The steps of a range are counted, and only a range of at most so many steps of a positive gap
does not count as too many. -/
def StepsRight (range gap : ℤ) : Prop :=
  gap ≠ 0 ∧ ∃ steps, A.round (range / gap) = some steps ∧
    (steps < maxFacetLimit + 1 → 0 < gap ∧ range ≤ maxFacetLimit * gap)

/-- A query with a positive interval and at most so many steps, of the type of its bounds. -/
def WellSent (a : HistogramArgs) : Prop :=
  (match a.type with
  | .histogram => ∃ m n g, a.start = .inl m ∧ a.stop = .inl n ∧ a.gap = .inl g ∧ 0 < g ∧
      n - m ≤ maxFacetLimit * g
  | .dateHistogram => ∃ s e t parsedStart parsedEnd interval, a.start = .inr s ∧ a.stop = .inr e ∧
      a.gap = .inr t ∧ readDates A s e t = .ok (parsedStart, parsedEnd, interval) ∧
      0 < interval ∧ parsedEnd - parsedStart ≤ maxFacetLimit * interval) ∧
  (start.toInt ≠ none → stop.toInt ≠ none → gap.toInt ≠ none → a.type = .histogram) ∧
  (start.toInt = none → stop.toInt = none → gap.toInt = none → a.type = .dateHistogram)

/-- A query that is well sent, or a search exception before it. -/
def Guarded : Except HistogramError HistogramArgs → Prop
  | .ok a => WellSent A start stop gap a
  | .error (.search _) => True
  | .error _ => False

/-- What the bounds have to be: integers, or dates, with a range that is counted right. A mixture is
refused, unless the library reads the integers as dates; but its first text may fail to be read. -/
def RangeRight : Bound → Bound → Bound → Prop
  | .text start none, .text stop _, .text gap _ =>
    match readDates A start stop (stripSigns gap) with
    | .error .dateMath => True
    | .error .foreign => False
    | .ok (parsedStart, parsedEnd, interval) => StepsRight A (parsedEnd - parsedStart) interval
  | .text start none, .int _, .text _ _ => A.dm 0 (toPydatemath start) ≠ .error .foreign
  | start, stop, gap =>
    ∀ m n g, start.toInt = some m → stop.toInt = some n → gap.toInt = some g →
      StepsRight A (n - m) g

variable {A start stop gap}

theorem truncate_gt_iff {x : ℚ} : truncate x > maxFacetLimit ↔ ¬ x < maxFacetLimit + 1 := by
  rw [truncate, maxFacetLimit, not_lt]
  split_ifs with hx
  · rw [gt_iff_lt, ← Int.add_one_le_iff, Int.le_floor]
    norm_num
  · have hceil : ⌈x⌉ ≤ 0 := Int.ceil_le.mpr (by simpa using (not_le.mp hx).le)
    refine iff_of_false (by omega) ?_
    have hlt := not_le.mp hx
    norm_num
    linarith

/-- What the division says of a range. -/
theorem divideSteps_cases (range gap : ℤ) :
    ((divideSteps A range gap = .error .zeroDivision ∨ divideSteps A range gap = .error .overflow) ∧
      ¬ StepsRight A range gap) ∨
    ∃ steps, divideSteps A range gap = .ok steps ∧
      (StepsRight A range gap ↔
        (¬ steps > maxFacetLimit → 0 < gap ∧ range ≤ maxFacetLimit * gap)) := by
  unfold divideSteps
  by_cases hgap : gap = 0
  · exact .inl ⟨.inl (if_pos hgap), fun h => h.1 hgap⟩
  · rw [if_neg hgap]
    cases hround : A.round (range / gap) with
    | none =>
      refine .inl ⟨.inr rfl, fun h => ?_⟩
      obtain ⟨-, steps, hsteps, -⟩ := h
      rw [hround] at hsteps
      cases hsteps
    | some steps =>
      refine .inr ⟨truncate steps, rfl, ?_⟩
      rw [truncate_gt_iff, not_not, StepsRight, hround]
      constructor
      · rintro ⟨-, steps', hsteps', h⟩
        obtain rfl := Option.some.inj hsteps'
        exact h
      · exact fun h => ⟨hgap, steps, rfl, h⟩

/-- The last test, and the type. -/
def checkSteps (type : HistogramType) (steps : ℤ) : Except HistogramError HistogramType :=
  if steps > maxFacetLimit then .error (.search (tooManySteps steps)) else .ok type

theorem validate_ints {m n g : ℤ} (hstart : start.toInt = some m) (hstop : stop.toInt = some n)
    (hgap : gap.toInt = some g) :
    validateStepsCount A start stop gap =
      (divideSteps A (n - m) g >>= checkSteps .histogram) := by
  rw [validateStepsCount, countSteps, readInts, hstart, hstop, hgap]
  cases hsteps : divideSteps A (n - m) g with
  | error e =>
    simp [hsteps]
    rfl
  | ok steps =>
    simp only [hsteps]
    rcases steps with (_ | k) | k <;> rfl

theorem validate_dates {s e t : Str} {v w : Option ℤ} :
    validateStepsCount A (.text s none) (.text e v) (.text t w) =
      match readDates A s e (stripSigns t) with
      | .error .dateMath => .error (.search (rangesNotParsed (.text s none, .text e v, .text t w)))
      | .error .foreign => .error .foreign
      | .ok (parsedStart, parsedEnd, interval) =>
        divideSteps A (parsedEnd - parsedStart) interval >>= checkSteps .dateHistogram := by
  have hsteps : countSteps A (.text s none) (.text e v) (.text t w) = (do
      match ← dateSteps A (.text s none) (.text e v) (.text t w) with
      | some steps => return some (steps, .dateHistogram)
      | none => return none) := rfl
  rw [validateStepsCount, hsteps, dateSteps]
  cases readDates A s e (stripSigns t) with
  | error error => cases error <;> rfl
  | ok parsed =>
    obtain ⟨parsedStart, parsedEnd, interval⟩ := parsed
    cases hdivide : divideSteps A (parsedEnd - parsedStart) interval with
    | error e =>
      simp only [hdivide]
      rfl
    | ok steps =>
      simp only [hdivide]
      rfl

theorem validate_readStart {s t : Str} {n : ℤ} {w : Option ℤ} :
    validateStepsCount A (.text s none) (.int n) (.text t w) =
      if A.dm 0 (toPydatemath s) = .error .foreign then .error .foreign
      else .error (.search (rangesNotParsed (.text s none, .int n, .text t w))) := by
  have hsteps : countSteps A (.text s none) (.int n) (.text t w) = (do
      match ← dateSteps A (.text s none) (.int n) (.text t w) with
      | some steps => return some (steps, .dateHistogram)
      | none => return none) := rfl
  rw [validateStepsCount, hsteps, dateSteps]
  cases A.dm 0 (toPydatemath s) with
  | error error => cases error <;> rfl
  | ok seconds => rfl

/-- Bounds that are neither all integers nor a text that is no integer before a gap that is a text. -/
theorem validate_mixed (h : ¬ ∃ m n g, start.toInt = some m ∧ stop.toInt = some n ∧
      gap.toInt = some g)
    (hread : ∀ s t w, ¬ (start = .text s none ∧ gap = .text t w)) :
    ∃ msg, validateStepsCount A start stop gap = .error (.search msg) := by
  refine ⟨rangesNotParsed (readInts start stop gap).1, ?_⟩
  rw [validateStepsCount]
  have hnone : countSteps A start stop gap = .ok none := by
    rw [countSteps, readInts]
    cases hstart : start.toInt with
    | none =>
      cases start with
      | int m => cases hstart
      | text s v =>
        obtain rfl : v = none := hstart
        cases gap with
        | int g => cases stop <;> rfl
        | text t x => exact absurd ⟨rfl, rfl⟩ (hread s t x)
    | some m =>
      cases hstop : stop.toInt with
      | none => rfl
      | some n =>
        cases hgap : gap.toInt with
        | none => rfl
        | some g => exact absurd ⟨m, n, g, hstart, hstop, hgap⟩ h
  rw [hnone]
  rfl

/-- A count that is checked is well sent where the steps are right, if what is sent says so. -/
theorem guarded_bind_iff {range g : ℤ} {type : HistogramType}
    {send : HistogramType → HistogramArgs}
    (hsend : WellSent A start stop gap (send type) ↔ 0 < g ∧ range ≤ maxFacetLimit * g) :
    Guarded A start stop gap
        ((divideSteps A range g >>= checkSteps type) >>= fun type => .ok (send type)) ↔
      StepsRight A range g := by
  rcases divideSteps_cases (A := A) range g with ⟨herror, hwrong⟩ | ⟨steps, hsteps, hright⟩
  · refine iff_of_false (fun h => ?_) hwrong
    rcases herror with herror | herror
    · rw [herror] at h
      exact h
    · rw [herror] at h
      exact h
  · rw [hsteps, hright]
    by_cases hmany : steps > maxFacetLimit
    · have hcheck : checkSteps type steps = .error (.search (tooManySteps steps)) := if_pos hmany
      refine iff_of_true ?_ fun h => absurd hmany h
      change Guarded A start stop gap (checkSteps type steps >>= _)
      rw [hcheck]
      trivial
    · have hcheck : checkSteps type steps = .ok type := if_neg hmany
      change Guarded A start stop gap (checkSteps type steps >>= _) ↔ _
      rw [hcheck]
      exact hsend.trans ⟨fun h _ => h, fun h => h hmany⟩

end Guard

section Main

variable (A : Arithmetic) (field query : Str) (start stop gap : Bound) (mincount : Option ℕ)
  (filters : List Str) (accessControl : Option Str)

/-- A histogram is guarded where its range is right. -/
theorem histogram_iff :
    Guarded A start stop gap
        (histogram A field start stop gap query mincount filters accessControl) ↔
      RangeRight A start stop gap := by
  unfold histogram
  by_cases hints : ∃ m n g, start.toInt = some m ∧ stop.toInt = some n ∧ gap.toInt = some g
  · obtain ⟨m, n, g, hstart, hstop, hgap⟩ := hints
    have hright : RangeRight A start stop gap ↔ StepsRight A (n - m) g := by
      have hdefault : (∀ m n g, start.toInt = some m → stop.toInt = some n → gap.toInt = some g →
          StepsRight A (n - m) g) ↔ StepsRight A (n - m) g := by
        simp [hstart, hstop, hgap]
      rw [← hdefault]
      cases start with
      | int m => rfl
      | text s v =>
        obtain rfl : v = some m := hstart
        rfl
    rw [hright, validate_ints hstart hstop hgap]
    refine guarded_bind_iff ?_
    simp [WellSent, modify, hstart, hstop, hgap]
  · by_cases hread : ∃ s t w, start = .text s none ∧ gap = .text t w
    · obtain ⟨s, t, w, rfl, rfl⟩ := hread
      cases stop with
      | int n =>
        rw [validate_readStart, RangeRight]
        by_cases hforeign : A.dm 0 (toPydatemath s) = .error .foreign
        · rw [if_pos hforeign]
          exact iff_of_false id fun h => h hforeign
        · rw [if_neg hforeign]
          exact iff_of_true trivial hforeign
      | text e v =>
        rw [validate_dates, RangeRight]
        cases hdates : readDates A s e (stripSigns t) with
        | error error =>
          cases error with
          | dateMath => exact Iff.rfl
          | foreign => exact Iff.rfl
        | ok parsed =>
          obtain ⟨parsedStart, parsedEnd, interval⟩ := parsed
          refine guarded_bind_iff ?_
          simp [WellSent, modify, Bound.toText, Bound.toInt, hdates]
    · obtain ⟨msg, hmsg⟩ := validate_mixed (A := A) hints fun s t w h => hread ⟨s, t, w, h⟩
      rw [hmsg]
      refine iff_of_true trivial ?_
      unfold RangeRight
      split
      · exact absurd ⟨_, _, _, rfl, rfl⟩ hread
      · exact absurd ⟨_, _, _, rfl, rfl⟩ hread
      · intro m n g hstart hstop hgap
        exact absurd ⟨m, n, g, hstart, hstop, hgap⟩ hints

end Main

section ZeroGap

/-- Exact division, and no dates. -/
def exactArithmetic : Arithmetic where
  round := some
  dm _ _ := .error .dateMath

theorem zero_gap_raises :
    ¬ ∀ (A : Arithmetic) (field query : Str) (start stop gap : Bound) (mincount : Option ℕ)
      (filters : List Str) (accessControl : Option Str), Guarded A start stop gap
        (histogram A field start stop gap query mincount filters accessControl) := by
  intro h
  exact h exactArithmetic [] [] (.int 0) (.int 10) (.int 0) none [] none

end ZeroGap

end Howler.Datastore
