import Mathlib.Algebra.Order.Floor.Ring
import Mathlib.Algebra.Order.Ring.Rat
import Mathlib.Data.Int.ConditionallyCompleteOrder
import Mathlib.Data.Rat.Floor
import Howler.Python.Datetime

namespace Howler.Lucene

open Python

/-- A number, or an infinity. -/
abbrev Number := WithBot (WithTop ℚ)

/-- A finite number. -/
def finite (q : ℚ) : Number := ((q : WithTop ℚ) : WithBot (WithTop ℚ))

/-- An address of version 4 or 6. -/
structure Ip where
  v6 : Bool
  number : ℕ
  deriving DecidableEq

/-- An element of a field. A date is a text in ISO format, which may have a fraction of a second. -/
inductive Element where
  | int (n : ℤ)
  | float (q : ℚ)
  | date (d : Datetime) (fraction : Bool)
  | ip (a : Ip)

inductive FieldValue where
  | missing
  | scalar (e : Element)
  | list (es : List Element)

/-- What the text of a bound spells. -/
inductive Bound where
  | int (n : ℤ)
  | float (x : Number)
  | ip (a : Ip)
  deriving DecidableEq

/-- What the rounding of floats leaves open: the float of an integer, and the microseconds of
`datetime.fromtimestamp(ms / 1000)`, which are exact as long as a float tells them apart. -/
structure Floats where
  ofInt : ℤ → ℚ
  micros : ℤ → ℤ
  ofInt_mono : Monotone ofInt
  ofInt_exact : ∀ n : ℤ, |n| ≤ 2 ^ 53 → ofInt n = n
  micros_exact : ∀ ms : ℤ, |ms| < 2 ^ 33 * 1000 → micros ms = 1000 * ms
  micros_near : ∀ ms : ℤ, |micros ms - 1000 * ms| ≤ 1 + |ms|

/-- What is raised. -/
inductive RangeError where
  | attribute
  | value
  | overflow
  | versions
  | invalidData
  deriving DecidableEq

section Parsers

/-- `try_parse_date`. The running version is taken for an old one, for which the text has to have a
fraction and an offset. -/
def tryParseDate : Element → Option Datetime
  | .date d fraction => if fraction && d.offset.isSome then some d else none
  | _ => none

/-- `try_parse_number` of an element. -/
def tryParseNumber : Element → Option ℚ
  | .int n => some n
  | .float q => some q
  | _ => none

def Bound.tryParseNumber : Bound → Option Number
  | .int n => some (finite n)
  | .float x => some x
  | .ip _ => none

/-- `try_parse_ip` of an element: an integer is an address too. -/
def tryParseIp : Element → Option Ip
  | .int n =>
    if 0 ≤ n ∧ n < 2 ^ 32 then some ⟨false, n.toNat⟩
    else if 0 ≤ n ∧ n < 2 ^ 128 then some ⟨true, n.toNat⟩
    else none
  | .ip a => some a
  | _ => none

def Bound.tryParseIp : Bound → Option Ip
  | .ip a => some a
  | _ => none

/-- `int(element)`, or a `ValueError`. -/
def toInt : Element → Option ℤ
  | .int n => some n
  | .float q => some (if 0 ≤ q then ⌊q⌋ else ⌈q⌉)
  | _ => none

def Bound.toInt : Bound → Option ℤ
  | .int n => some n
  | _ => none

variable (fl : Floats)

/-- `float(element)`, or a `ValueError`. -/
def toFloat : Element → Option ℚ
  | .int n => some (fl.ofInt n)
  | .float q => some q
  | _ => none

def Bound.toFloat : Bound → Option Number
  | .int n => some (finite (fl.ofInt n))
  | .float x => some x
  | .ip _ => none

/-- `coerce(values, fn)` for a list, where `fn` does not raise: what is falsy is left out. -/
def coerceList {β : Type} (fn : Element → Option β) (truthy : β → Bool) (es : List Element) : List β :=
  es.filterMap fun e => (fn e).filter truthy

/-- `coerce(values, fn)` for a list, where `fn` raises a `ValueError`. -/
def convertList {β : Type} (fn : Element → Option β) (truthy : β → Bool) (es : List Element) :
    Option (List β) :=
  (es.mapM fn).map fun vs => vs.filter truthy

end Parsers

/-- The epoch, in microseconds from `datetime.min`. -/
def epoch : ℤ := 62135596800 * 1000000

/-- `datetime.fromtimestamp(ms / 1000, tz=...)`: the reading of a clock with the offset. -/
def fromTimestamp (fl : Floats) (ms offset : ℤ) : Except RangeError ℤ :=
  let utc := epoch + fl.micros ms
  if 0 ≤ utc ∧ utc ≤ maxWall then
    if 0 ≤ utc + offset ∧ utc + offset ≤ maxWall then .ok (utc + offset) else .error .overflow
  else .error .value

/-- The result of `__parse_range`. -/
inductive Parsed where
  | dates (low : ℤ) (values : List ℤ) (high : ℤ)
  | numbers (low : Number) (values : List Number) (high : Number)
  | ips (low : Ip) (values : List Ip) (high : Ip)

section ParseRange

variable (fl : Floats)

/-- A date: the bounds as readings of its clock. -/
def parseDates (low high : Bound) (d : Datetime) : Except RangeError Parsed := do
  let offset := d.offset.getD 0
  let some lowMs := low.toInt | .error .value
  let lowWall ← fromTimestamp fl lowMs offset
  let some highMs := high.toInt | .error .value
  let highWall ← fromTimestamp fl highMs offset
  if maxWall < highWall + 1000 then .error .overflow
  else .ok (.dates lowWall [d.wall] (highWall + 1000))

/-- The last attempt, for values coerced to floats. -/
def parseFloats (low high : Bound) (floats : Option (List ℚ)) : Except RangeError Parsed :=
  match low.toFloat fl, floats, high.toFloat fl with
  | some l, some vs, some h => .ok (.numbers l (vs.map finite) h)
  | _, _, _ => .error .invalidData

/-- The attempts from the one for addresses on. -/
def parseIps (low high : Bound) (ips : List Ip) (floats : Option (List ℚ)) :
    Except RangeError Parsed :=
  match (if ips.isEmpty then none else low.tryParseIp), high.tryParseIp with
  | some l, some h => .ok (.ips l ips h)
  | _, _ => parseFloats fl low high floats

/-- The attempts from the one for simple integers on. -/
def parseInts (low high : Bound) (ints : Option (List ℤ)) (ips : List Ip)
    (floats : Option (List ℚ)) : Except RangeError Parsed :=
  match low.toInt, ints, high.toInt with
  | some l, some vs, some h =>
    .ok (.numbers (finite l) (vs.map fun v : ℤ => finite (v : ℚ)) (finite h))
  | _, _, _ => parseIps fl low high ips floats

/-- The attempts from the one for numbers on. -/
def parseNumbers (low high : Bound) (numbers : List ℚ) (ints : Option (List ℤ)) (ips : List Ip)
    (floats : Option (List ℚ)) : Except RangeError Parsed :=
  match (if numbers.isEmpty then none else low.tryParseNumber), high.tryParseNumber with
  | some l, some h => .ok (.numbers l (numbers.map finite) h)
  | _, _ => parseInts fl low high ints ips floats

/-- `__parse_range`. -/
def parseRange (low high : Bound) : FieldValue → Except RangeError Parsed
  | .missing => .error .attribute
  | .scalar e =>
    match tryParseDate e with
    | some d => parseDates fl low high d
    | none =>
      parseNumbers fl low high (((tryParseNumber e).filter (· ≠ 0)).toList)
        ((toInt e).map ([·])) (tryParseIp e).toList ((toFloat fl e).map ([·]))
  | .list es =>
    -- a list of dates has no time zone
    if !(coerceList tryParseDate (fun _ => true) es).isEmpty then
      .error (if low.toInt.isSome then .attribute else .value)
    else
      parseNumbers fl low high (coerceList tryParseNumber (· ≠ 0) es)
        (convertList toInt (· ≠ 0) es) (coerceList tryParseIp (fun _ => true) es)
        (convertList (toFloat fl) (· ≠ 0) es)

end ParseRange

section Search

/-- The loop of `visit_range`. -/
def search {α : Type} [DecidableEq α] (le : α → α → Except RangeError Bool) (low high : α)
    (includeLow includeHigh : Bool) : List α → Except RangeError Bool
  | [] => .ok false
  | v :: vs => do
    let above ← le low v
    let inside ← if above then le v high else .ok false
    if inside then
      if !includeHigh && decide (v = high) then search le low high includeLow includeHigh vs
      else if !includeLow && decide (v = low) then search le low high includeLow includeHigh vs
      else .ok true
    else search le low high includeLow includeHigh vs

/-- `a <= b` for addresses, which raises for different versions. -/
def leIp (a b : Ip) : Except RangeError Bool :=
  if a.v6 = b.v6 then .ok (a.number ≤ b.number) else .error .versions

end Search

/-- `visit_range`. -/
def visitRange (fl : Floats) (value : FieldValue) (low high : Bound)
    (includeLow includeHigh : Bool) : Except RangeError Bool := do
  match ← parseRange fl low high value with
  | .dates l vs h => search (fun a b => .ok (a ≤ b)) l h includeLow includeHigh vs
  | .numbers l vs h => search (fun a b => .ok (a ≤ b)) l h includeLow includeHigh vs
  | .ips l vs h => search leIp l h includeLow includeHigh vs

section Meaning

/-- The microseconds of a date since the epoch. -/
def sinceEpoch (d : Datetime) : ℤ := d.wall - d.offset.getD 0 - epoch

/-- The number that an address of any version is. -/
def Ip.address (a : Ip) : ℕ := if a.v6 then a.number else 0xffff00000000 + a.number

/-- What an element is compared by. -/
def Element.measure : Element → Number
  | .int n => finite n
  | .float q => finite q
  | .date d _ => finite ((sinceEpoch d / 1000 : ℤ) : ℚ)
  | .ip a => finite a.address

def Bound.measure : Bound → Number
  | .int n => finite n
  | .float x => x
  | .ip a => finite a.address

/-- An element lies in a range. -/
def Lies (low high : Bound) (includeLow includeHigh : Bool) (e : Element) : Prop :=
  (if includeLow then low.measure ≤ e.measure else low.measure < e.measure) ∧
    if includeHigh then e.measure ≤ high.measure else e.measure < high.measure

instance (low high : Bound) (includeLow includeHigh : Bool) (e : Element) :
    Decidable (Lies low high includeLow includeHigh e) := by
  rw [Lies]
  infer_instance

def FieldValue.elements : FieldValue → List Element
  | .missing => []
  | .scalar e => [e]
  | .list es => es

/-- What a range is for: whether some element lies in it, and no error. -/
def Judges (fl : Floats) (value : FieldValue) (low high : Bound) (includeLow includeHigh : Bool) :
    Prop :=
  visitRange fl value low high includeLow includeHigh =
    .ok (value.elements.any fun e => decide (Lies low high includeLow includeHigh e))

inductive Kind where
  | number
  | date
  | ip
  deriving DecidableEq

def Element.kind : Element → Kind
  | .int _ => .number
  | .float _ => .number
  | .date _ _ => .date
  | .ip _ => .ip

/-- The bounds that an explanation has for a field. -/
def Bound.suits : Bound → Kind → Bool
  | .int _, .number => true
  | .int _, .date => true
  | .float _, .number => true
  | .ip _, .ip => true
  | _, _ => false

/-- A field of a kind, and bounds for it. -/
structure Typed (kind : Kind) (value : FieldValue) (low high : Bound) : Prop where
  elements : ∀ e ∈ value.elements, e.kind = kind
  low : low.suits kind = true
  high : high.suits kind = true

end Meaning

section Numbers

variable {fl : Floats} {low high : Bound} {includeLow includeHigh : Bool} {e : Element}
  {es : List Element}

/-- What the loop takes for an element of the range. -/
def Accepts {α : Type} [LinearOrder α] (low high : α) (includeLow includeHigh : Bool) (v : α) : Prop :=
  (low ≤ v ∧ v ≤ high) ∧ (includeHigh = true ∨ v ≠ high) ∧ (includeLow = true ∨ v ≠ low)

instance {α : Type} [LinearOrder α] (low high : α) (includeLow includeHigh : Bool) (v : α) :
    Decidable (Accepts low high includeLow includeHigh v) :=
  inferInstanceAs (Decidable (_ ∧ _))

theorem search_eq {α : Type} [LinearOrder α] (low high : α) (includeLow includeHigh : Bool)
    (vs : List α) : search (fun a b => .ok (decide (a ≤ b))) low high includeLow includeHigh vs =
      .ok (vs.any fun v => decide (Accepts low high includeLow includeHigh v)) := by
  induction vs with
  | nil => rfl
  | cons v vs ih =>
    rw [search, List.any_cons, ih]
    by_cases hlow : low ≤ v
    · by_cases hhigh : v ≤ high
      · cases includeLow with
        | true =>
          cases includeHigh with
          | true => simp [Accepts, hlow, hhigh, bind, Except.bind]
          | false => by_cases heq : v = high <;> simp [Accepts, hlow, hhigh, heq, bind, Except.bind]
        | false =>
          cases includeHigh with
          | true => by_cases heq : v = low <;> simp [Accepts, hlow, hhigh, heq, bind, Except.bind]
          | false =>
            by_cases heq : v = high
            · simp [Accepts, heq, bind, Except.bind]
            · by_cases heq' : v = low <;>
                simp [Accepts, hlow, hhigh, heq, heq', bind, Except.bind]
      · simp [Accepts, hlow, hhigh, bind, Except.bind]
    · simp [Accepts, hlow, bind, Except.bind]

/-- The loop takes the numbers that lie in the range. -/
theorem lies_iff_accepts : Lies low high includeLow includeHigh e ↔
    Accepts low.measure high.measure includeLow includeHigh e.measure := by
  rw [Lies, Accepts]
  cases includeLow <;> cases includeHigh <;> simp [lt_iff_le_and_ne, eq_comm, and_assoc, and_comm] <;>
    tauto

theorem finite_le {p q : ℚ} : finite p ≤ finite q ↔ p ≤ q := by
  simp [finite]

theorem finite_inj {p q : ℚ} : finite p = finite q ↔ p = q := by
  simp [finite]

theorem number_measure (h : e.kind = .number) :
    ∃ q, tryParseNumber e = some q ∧ e.measure = finite q ∧ tryParseDate e = none := by
  cases e with
  | int n => exact ⟨n, rfl, rfl, rfl⟩
  | float q => exact ⟨q, rfl, rfl, rfl⟩
  | date d fraction => cases h
  | ip a => cases h

theorem bound_number (h : low.suits .number = true) :
    low.tryParseNumber = some low.measure ∧ low.tryParseIp = none := by
  cases low with
  | int n => exact ⟨rfl, rfl⟩
  | float x => exact ⟨rfl, rfl⟩
  | ip a => cases h

/-- A bound as a float is on the same side of zero. -/
theorem bound_float (h : low.suits .number = true) : ∃ x, low.toFloat fl = some x ∧
    (x ≤ finite 0 ↔ low.measure ≤ finite 0) ∧ (finite 0 ≤ x ↔ finite 0 ≤ low.measure) := by
  cases low with
  | float x => exact ⟨x, rfl, Iff.rfl, Iff.rfl⟩
  | ip a => cases h
  | int n =>
    have hzero : fl.ofInt 0 = 0 := by simpa using fl.ofInt_exact 0 (by norm_num)
    have hone : fl.ofInt 1 = 1 := by simpa using fl.ofInt_exact 1 (by norm_num)
    have hminus : fl.ofInt (-1) = -1 := by simpa using fl.ofInt_exact (-1) (by norm_num)
    refine ⟨finite (fl.ofInt n), rfl, ?_, ?_⟩
    · rw [Bound.measure, finite_le, finite_le]
      constructor
      · intro hle
        by_contra hpos
        have hn : 1 ≤ n := by
          have : (0 : ℚ) < n := not_le.mp hpos
          exact_mod_cast this
        have hmono := fl.ofInt_mono hn
        rw [hone] at hmono
        linarith
      · intro hle
        have hn : n ≤ 0 := by exact_mod_cast hle
        have hmono := fl.ofInt_mono hn
        rwa [hzero] at hmono
    · rw [Bound.measure, finite_le, finite_le]
      constructor
      · intro hle
        by_contra hneg
        have hn : n ≤ -1 := by
          have : (n : ℚ) < 0 := not_le.mp hneg
          have hlt : n < 0 := by exact_mod_cast this
          omega
        have hmono := fl.ofInt_mono hn
        rw [hminus] at hmono
        linarith
      · intro hle
        have hn : 0 ≤ n := by exact_mod_cast hle
        have hmono := fl.ofInt_mono hn
        rwa [hzero] at hmono

theorem accepts_zero {x y x' y' : Number} (hx : (x ≤ finite 0 ↔ x' ≤ finite 0))
    (hx' : (finite 0 ≤ x ↔ finite 0 ≤ x')) (hy : (y ≤ finite 0 ↔ y' ≤ finite 0))
    (hy' : (finite 0 ≤ y ↔ finite 0 ≤ y')) :
    Accepts x y includeLow includeHigh (finite 0) ↔
      Accepts x' y' includeLow includeHigh (finite 0) := by
  have hne : (finite 0 = y ↔ finite 0 = y') := by
    rw [le_antisymm_iff, le_antisymm_iff, hy, hy']
  have hne' : (finite 0 = x ↔ finite 0 = x') := by
    rw [le_antisymm_iff, le_antisymm_iff, hx, hx']
  simp only [Accepts, ne_eq, hx, hy', hne, hne']

theorem visitRange_numbers {value : FieldValue} {x y : Number} {vs : List Number}
    (h : parseRange fl low high value = .ok (.numbers x vs y)) :
    visitRange fl value low high includeLow includeHigh =
      .ok (vs.any fun v => decide (Accepts x y includeLow includeHigh v)) := by
  rw [visitRange, h, ← search_eq]
  rfl

theorem toInt_measure {n : ℤ} (h : low.toInt = some n) : low.measure = finite n := by
  cases low with
  | int m =>
    obtain rfl := Option.some.inj h
    rfl
  | _ => cases h

/-- Without numbers that are not zero, integers or floats are compared. -/
theorem parseInts_numbers {is : List ℤ} {fs : List ℚ} (ips : List Ip)
    (hlow : low.suits .number = true) (hhigh : high.suits .number = true) :
    ∃ x y vs, parseInts fl low high (some is) ips (some fs) = .ok (.numbers x vs y) ∧
      (vs = is.map (fun n : ℤ => finite (n : ℚ)) ∨ vs = fs.map finite) ∧
      (Accepts x y includeLow includeHigh (finite 0) ↔
        Accepts low.measure high.measure includeLow includeHigh (finite 0)) := by
  obtain ⟨x, hx, hxle, hxge⟩ := @bound_float fl _ hlow
  obtain ⟨y, hy, hyle, hyge⟩ := @bound_float fl _ hhigh
  have hips : parseIps fl low high ips (some fs) = .ok (.numbers x (fs.map finite) y) := by
    rw [parseIps, (bound_number hlow).2, ite_self]
    simp only [parseFloats, hx, hy]
  have hfloats := @accepts_zero includeLow includeHigh _ _ _ _ hxle hxge hyle hyge
  cases hl : low.toInt with
  | none =>
    refine ⟨x, y, _, ?_, .inr rfl, hfloats⟩
    simp only [parseInts, hl, hips]
  | some l =>
    cases hh : high.toInt with
    | none =>
      refine ⟨x, y, _, ?_, .inr rfl, hfloats⟩
      simp only [parseInts, hl, hh, hips]
    | some h =>
      refine ⟨low.measure, high.measure, _, ?_, .inl rfl, Iff.rfl⟩
      simp only [parseInts, hl, hh, toInt_measure hl, toInt_measure hh]

theorem convert_zero (h : tryParseNumber e = some 0) :
    toInt e = some 0 ∧ toFloat fl e = some 0 := by
  cases e with
  | int n =>
    obtain rfl : n = 0 := by simpa [tryParseNumber] using h
    exact ⟨rfl, congrArg some (by simpa using fl.ofInt_exact 0 (by norm_num))⟩
  | float q =>
    obtain rfl := Option.some.inj h
    exact ⟨by simp [toInt], rfl⟩
  | _ => cases h

theorem coerceList_cons {β : Type} (fn : Element → Option β) (truthy : β → Bool) (e : Element)
    (es : List Element) : coerceList fn truthy (e :: es) =
      ((fn e).filter truthy).toList ++ coerceList fn truthy es := by
  rw [coerceList, List.filterMap_cons]
  cases (fn e).filter truthy <;> rfl

/-- Zeros are left out. -/
theorem convertList_zero {β : Type} [Zero β] [DecidableEq β] {fn : Element → Option β}
    (h : ∀ e ∈ es, fn e = some 0) : convertList fn (· ≠ 0) es = some [] := by
  have hmap : es.mapM fn = some (es.map fun _ => 0) := by
    induction es with
    | nil => rfl
    | cons e es ih =>
      rw [List.mapM_cons, h e (by simp), ih fun e he => h e (List.mem_cons_of_mem _ he)]
      rfl
  rw [convertList, hmap, Option.map_some, List.filter_eq_nil_iff.mpr]
  intro v hv
  obtain ⟨-, -, rfl⟩ := List.mem_map.mp hv
  simp

/-- A number is judged rightly, zero too. -/
theorem judges_number (he : e.kind = .number) (hlow : low.suits .number = true)
    (hhigh : high.suits .number = true) :
    Judges fl (.scalar e) low high includeLow includeHigh := by
  obtain ⟨q, hq, hmeasure, hdate⟩ := number_measure he
  have hparse : parseRange fl low high (.scalar e) =
      parseNumbers fl low high ((some q).filter (· ≠ 0)).toList ((toInt e).map ([·]))
        (tryParseIp e).toList ((toFloat fl e).map ([·])) := by
    rw [parseRange, hdate, hq]
  have hlies : FieldValue.elements (.scalar e) = [e] := rfl
  rw [Judges, hlies, List.any_cons, List.any_nil, Bool.or_false]
  by_cases hzero : q = 0
  · subst hzero
    have hints := @convert_zero fl _ hq
    obtain ⟨x, y, vs, hints', hvs, haccepts⟩ := @parseInts_numbers fl _ _ includeLow includeHigh
        [0] [0] (tryParseIp e).toList hlow hhigh
    have hnumbers : ((some (0 : ℚ)).filter (· ≠ 0)).toList = [] := by simp
    rw [hnumbers, hints.1, hints.2, parseNumbers] at hparse
    have hvs : vs = [finite 0] := by
      cases hvs with
      | inl hvs => simpa using hvs
      | inr hvs => simpa using hvs
    rw [visitRange_numbers (hparse.trans hints'), hvs]
    simp [lies_iff_accepts, hmeasure, haccepts]
  · have hnumbers : ((some q).filter (· ≠ 0)).toList = [q] := by simp [hzero]
    rw [hnumbers, parseNumbers] at hparse
    simp only [List.isEmpty_cons, Bool.false_eq_true, if_false, (bound_number hlow).1,
      (bound_number hhigh).1] at hparse
    rw [visitRange_numbers hparse]
    simp [lies_iff_accepts, hmeasure]

/-- In a list the numbers that are not zero are looked at. -/
theorem visitRange_list (hes : ∀ e ∈ es, e.kind = .number) (hlow : low.suits .number = true)
    (hhigh : high.suits .number = true) :
    visitRange fl (.list es) low high includeLow includeHigh =
      .ok (es.any fun e => decide (e.measure ≠ finite 0 ∧
        Lies low high includeLow includeHigh e)) := by
  have hdates : coerceList tryParseDate (fun _ => true) es = [] := by
    rw [coerceList, List.filterMap_eq_nil_iff]
    intro e he
    obtain ⟨q, -, -, hdate⟩ := number_measure (hes e he)
    rw [hdate]
    rfl
  have hany : (coerceList tryParseNumber (· ≠ 0) es).any (fun q =>
        decide (Accepts low.measure high.measure includeLow includeHigh (finite q))) =
      es.any fun e => decide (e.measure ≠ finite 0 ∧ Lies low high includeLow includeHigh e) := by
    clear hdates
    induction es with
    | nil => rfl
    | cons e es ih =>
      obtain ⟨q, hq, hmeasure, -⟩ := number_measure (hes e (by simp))
      have ih := ih fun e he => hes e (List.mem_cons_of_mem _ he)
      rw [coerceList_cons, List.any_append, List.any_cons, ← ih, hq]
      by_cases hzero : q = 0
      · simp [hzero, hmeasure, Option.filter_some]
      · have hne : finite q ≠ finite 0 := fun heq => hzero (finite_inj.mp heq)
        simp [hzero, hmeasure, hne, lies_iff_accepts, Option.filter_some]
  have hparse : parseRange fl low high (.list es) =
      parseNumbers fl low high (coerceList tryParseNumber (· ≠ 0) es)
        (convertList toInt (· ≠ 0) es) (coerceList tryParseIp (fun _ => true) es)
        (convertList (toFloat fl) (· ≠ 0) es) := by
    rw [parseRange, hdates]
    rfl
  cases hnumbers : coerceList tryParseNumber (· ≠ 0) es with
  | nil =>
    have hzero : ∀ e ∈ es, tryParseNumber e = some 0 := by
      intro e he
      obtain ⟨q, hq, -, -⟩ := number_measure (hes e he)
      have hfilter := List.filterMap_eq_nil_iff.mp hnumbers e he
      rw [hq, Option.filter_some] at hfilter
      have hq0 : q = 0 := by simpa using hfilter
      rw [hq, hq0]
    obtain ⟨x, y, vs, hints, hvs, -⟩ := @parseInts_numbers fl _ _ includeLow includeHigh [] []
        (coerceList tryParseIp (fun _ => true) es) hlow hhigh
    rw [hnumbers, convertList_zero fun e he => (@convert_zero fl _ (hzero e he)).1,
      convertList_zero fun e he => (convert_zero (hzero e he)).2, parseNumbers] at hparse
    have hvs : vs = [] := by
      cases hvs with
      | inl hvs => exact hvs
      | inr hvs => exact hvs
    rw [visitRange_numbers (hparse.trans hints), hvs, ← hany, hnumbers]
    rfl
  | cons q qs =>
    rw [hnumbers, parseNumbers] at hparse
    simp only [List.isEmpty_cons, Bool.false_eq_true, if_false, (bound_number hlow).1,
      (bound_number hhigh).1] at hparse
    rw [visitRange_numbers hparse, ← hany, hnumbers, List.any_map]
    rfl

end Numbers

section Ips

variable {fl : Floats} {l h : Ip} {low high : Bound} {includeLow includeHigh : Bool}

/-- The comparisons that are made with an address are with addresses of its version. -/
def SameVersions (l h a : Ip) : Prop := l.v6 = a.v6 ∧ (l.number ≤ a.number → a.v6 = h.v6)

/-- No address of another version is come to before one that lies in the range. -/
def Comparable (l h : Ip) (includeLow includeHigh : Bool) (as : List Ip) : Prop :=
  ∀ before a after, as = before ++ a :: after →
    (∀ b ∈ before, ¬ Lies (.ip l) (.ip h) includeLow includeHigh (.ip b)) → SameVersions l h a

theorem address_le {a b : Ip} (h : a.v6 = b.v6) : a.address ≤ b.address ↔ a.number ≤ b.number := by
  rw [Ip.address, Ip.address, h]
  split <;> omega

theorem address_inj {a b : Ip} (h : a.v6 = b.v6) : a.address = b.address ↔ a = b := by
  constructor
  · intro heq
    have hle := (address_le h).mp heq.le
    have hge := (address_le h.symm).mp heq.ge
    cases a
    cases b
    simp only at h hle hge
    rw [Ip.mk.injEq]
    exact ⟨h, by omega⟩
  · intro heq
    rw [heq]

theorem lies_ip {a : Ip} : Lies (.ip l) (.ip h) includeLow includeHigh (.ip a) ↔
    Accepts l.address h.address includeLow includeHigh a.address := by
  rw [lies_iff_accepts]
  simp [Accepts, Bound.measure, Element.measure, finite]

/-- The loop over addresses goes through if and only if they can be compared. -/
theorem search_ips (as : List Ip) :
    search leIp l h includeLow includeHigh as =
        .ok (as.any fun a => decide (Lies (.ip l) (.ip h) includeLow includeHigh (.ip a))) ↔
      Comparable l h includeLow includeHigh as := by
  induction as with
  | nil =>
    refine ⟨fun _ before a after heq => ?_, fun _ => rfl⟩
    simp at heq
  | cons a as ih =>
    by_cases hsame : SameVersions l h a
    · -- the first address is judged rightly, so that the others decide
      have hstep : search leIp l h includeLow includeHigh (a :: as) =
          if Lies (.ip l) (.ip h) includeLow includeHigh (.ip a) then .ok true
          else search leIp l h includeLow includeHigh as := by
        obtain ⟨hlow, hhigh⟩ := hsame
        have hle : l.address ≤ a.address ↔ l.number ≤ a.number := address_le hlow
        rw [search, leIp, if_pos hlow]
        by_cases habove : l.number ≤ a.number
        · have hversion := hhigh habove
          have hle' : a.address ≤ h.address ↔ a.number ≤ h.number := address_le hversion
          have heq : a.address = h.address ↔ a = h := address_inj hversion
          have heq' : a.address = l.address ↔ a = l := address_inj hlow.symm
          simp only [lies_ip, Accepts, hle, hle', ne_eq, heq, heq', habove, leIp, if_pos hversion]
          by_cases hinside : a.number ≤ h.number
          · by_cases hah : a = h
            · subst hah
              by_cases hal : a = l
              · subst hal
                cases includeHigh <;> cases includeLow <;> simp [bind, Except.bind]
              · cases includeHigh <;> simp [hal, bind, Except.bind]
            · by_cases hal : a = l
              · subst hal
                cases includeLow <;> simp [hinside, hah, bind, Except.bind]
              · simp [hinside, hah, hal, bind, Except.bind]
          · simp [hinside, bind, Except.bind]
        · simp [lies_ip, Accepts, hle, habove, bind, Except.bind]
      rw [hstep, List.any_cons]
      by_cases hlies : Lies (.ip l) (.ip h) includeLow includeHigh (.ip a)
      · rw [if_pos hlies]
        simp only [hlies, decide_true, Bool.true_or, true_iff]
        intro before b after heq hbefore
        cases before with
        | nil =>
          obtain ⟨rfl, -⟩ := List.cons.inj heq
          exact hsame
        | cons b' before =>
          obtain ⟨rfl, -⟩ := List.cons.inj heq
          exact absurd hlies (hbefore a (by simp))
      · rw [if_neg hlies]
        simp only [hlies, decide_false, Bool.false_or]
        rw [ih]
        constructor
        · intro hcomp before b after heq hbefore
          cases before with
          | nil =>
            obtain ⟨rfl, -⟩ := List.cons.inj heq
            exact hsame
          | cons b' before =>
            obtain ⟨rfl, htail⟩ := List.cons.inj heq
            exact hcomp before b after htail fun b hb => hbefore b (List.mem_cons_of_mem _ hb)
        · intro hcomp before b after heq hbefore
          refine hcomp (a :: before) b after (by rw [heq]; rfl) fun b hb => ?_
          cases List.mem_cons.mp hb with
          | inl heq => exact heq ▸ hlies
          | inr hb => exact hbefore b hb
    · have herror : search leIp l h includeLow includeHigh (a :: as) = .error .versions := by
        rw [search]
        by_cases hlow : l.v6 = a.v6
        · have hhigh : l.number ≤ a.number ∧ a.v6 ≠ h.v6 := by
            simpa [SameVersions, hlow] using hsame
          simp [leIp, hlow, hhigh, bind, Except.bind]
        · simp [leIp, hlow, bind, Except.bind]
      rw [herror]
      constructor
      · intro heq
        cases heq
      · intro hcomp
        exact absurd (hcomp [] a as rfl (by simp)) hsame

/-- Addresses are judged rightly if there are some and they can be compared. -/
theorem judges_ips {value : FieldValue} {as : List Ip} (hvalue : value ≠ .missing)
    (has : value.elements = as.map .ip) :
    Judges fl value (.ip l) (.ip h) includeLow includeHigh ↔
      as ≠ [] ∧ Comparable l h includeLow includeHigh as := by
  have hmap : ∀ as : List Ip, coerceList tryParseIp (fun _ => true) (as.map .ip) = as := by
    intro as
    induction as with
    | nil => rfl
    | cons a as ih =>
      rw [List.map_cons, coerceList_cons, ih]
      rfl
  have hints : ∀ ints floats, parseInts fl (.ip l) (.ip h) ints as floats =
      if as = [] then .error .invalidData else .ok (.ips l as h) := by
    intro ints floats
    cases as with
    | nil => rfl
    | cons a as => rfl
  have hparse : parseRange fl (.ip l) (.ip h) value =
      if as = [] then .error .invalidData else .ok (.ips l as h) := by
    cases value with
    | missing => exact absurd rfl hvalue
    | scalar e =>
      obtain ⟨a, rfl⟩ : ∃ a, as = [a] := by
        cases as with
        | nil => cases has
        | cons a as =>
          cases as with
          | nil => exact ⟨a, rfl⟩
          | cons b as => cases has
      obtain rfl : e = .ip a := by simpa [FieldValue.elements] using has
      exact hints none none
    | list es =>
      obtain rfl : es = as.map .ip := has
      have hdates : coerceList tryParseDate (fun _ => true) (as.map .ip) = [] := by
        simp [coerceList, tryParseDate]
      have hnumbers : coerceList tryParseNumber (· ≠ 0) (as.map .ip) = [] := by
        simp [coerceList, tryParseNumber]
      rw [parseRange, hdates, hnumbers, hmap]
      exact hints (convertList toInt (· ≠ 0) (as.map .ip))
        (convertList (toFloat fl) (· ≠ 0) (as.map .ip))
  rw [Judges, visitRange, hparse]
  by_cases hnil : as = []
  · rw [if_pos hnil]
    constructor
    · intro herr
      cases herr
    · intro hne
      exact absurd hnil hne.1
  · rw [if_neg hnil, has, List.any_map]
    have hsearch := @search_ips l h includeLow includeHigh as
    constructor
    · intro hjudges
      exact ⟨hnil, hsearch.mp hjudges⟩
    · intro hgood
      exact hsearch.mpr hgood.2

end Ips

section Dates

variable {fl : Floats} {l h : ℤ} {includeLow includeHigh : Bool} {d : Datetime} {fraction : Bool}

/-- A bound as a reading of the clock of a date. -/
def boundWall (d : Datetime) (ms : ℤ) : ℤ := epoch + 1000 * ms + d.offset.getD 0

/-- The date is taken to lie in a range that it does not lie in: it is the millisecond after an
included upper bound, or in the millisecond of a bound that is not included. -/
def Misplaced (l h : ℤ) (includeLow includeHigh : Bool) (v : ℤ) : Prop :=
  1000 * l ≤ v ∧ (includeLow = true ∨ 1000 * l < v) ∧
    (includeHigh = true ∧ v = 1000 * (h + 1) ∨
      includeHigh = false ∧ 1000 * h ≤ v ∧ v < 1000 * (h + 1) ∨
      includeLow = false ∧ v < 1000 * (l + 1) ∧ v < 1000 * (h + 1))

/-- A date is judged rightly if its text and its bounds can be converted, and it is not misplaced. -/
structure Placed (fl : Floats) (d : Datetime) (fraction : Bool) (l h : ℤ)
    (includeLow includeHigh : Bool) : Prop where
  text : fraction = true ∧ d.offset.isSome = true
  low : fromTimestamp fl l (d.offset.getD 0) = .ok (boundWall d l)
  high : fromTimestamp fl h (d.offset.getD 0) = .ok (boundWall d h)
  room : boundWall d h + 1000 ≤ maxWall
  place : ¬ Misplaced l h includeLow includeHigh (sinceEpoch d)

theorem lies_date : Lies (.int l) (.int h) includeLow includeHigh (.date d fraction) ↔
    Accepts l h includeLow includeHigh (sinceEpoch d / 1000) := by
  rw [lies_iff_accepts]
  simp only [Accepts, Bound.measure, Element.measure, finite_le, ne_eq, finite_inj]
  norm_cast

/-- The loop takes a date that lies in the range, or is misplaced. -/
theorem accepts_wall : Accepts (boundWall d l) (boundWall d h + 1000) includeLow includeHigh d.wall ↔
    Lies (.int l) (.int h) includeLow includeHigh (.date d fraction) ∨
      Misplaced l h includeLow includeHigh (sinceEpoch d) := by
  rw [lies_date]
  have hwall : d.wall = sinceEpoch d + epoch + d.offset.getD 0 := by
    rw [sinceEpoch]
    omega
  simp only [Accepts, Misplaced, boundWall, hwall, ne_eq]
  generalize sinceEpoch d = v
  cases includeLow <;> cases includeHigh <;> simp <;> omega

theorem misplaced_not_lies (hm : Misplaced l h includeLow includeHigh (sinceEpoch d)) :
    ¬ Lies (.int l) (.int h) includeLow includeHigh (.date d fraction) := by
  rw [lies_date]
  simp only [Accepts, Misplaced, ne_eq] at hm ⊢
  generalize sinceEpoch d = v at hm ⊢
  cases includeLow <;> cases includeHigh <;> simp at hm ⊢ <;> omega

/-- A bound that is converted is converted exactly. -/
def Exact (fl : Floats) (d : Datetime) (ms : ℤ) : Prop :=
  ∀ wall, fromTimestamp fl ms (d.offset.getD 0) = .ok wall → wall = boundWall d ms

/-- Bounds that floats tell apart by microseconds are converted exactly. -/
theorem exact_of_small {ms : ℤ} (hms : |ms| < 2 ^ 33 * 1000) : Exact fl d ms := by
  intro wall hwall
  rw [fromTimestamp, fl.micros_exact ms hms] at hwall
  split at hwall
  · split at hwall
    · obtain rfl := Except.ok.inj hwall
      rfl
    · cases hwall
  · cases hwall

/-- The bounds of an open range are not converted. -/
theorem exact_of_extreme {ms : ℤ} (hms : 2 ^ 62 ≤ |ms|) : Exact fl d ms := by
  intro wall hwall
  have hnear := fl.micros_near ms
  have hout : ¬ (0 ≤ epoch + fl.micros ms ∧ epoch + fl.micros ms ≤ maxWall) := by
    simp only [epoch, maxWall, microsecondsPerDay]
    rw [abs_le] at hnear
    cases abs_cases ms with
    | inl hpos => omega
    | inr hneg => omega
  rw [fromTimestamp] at hwall
  rw [if_neg hout] at hwall
  cases hwall

/-- A date whose text can be converted. -/
theorem visitRange_date (ho : fraction = true ∧ d.offset.isSome = true) :
    visitRange fl (.scalar (.date d fraction)) (.int l) (.int h) includeLow includeHigh =
      (do
        let lowWall ← fromTimestamp fl l (d.offset.getD 0)
        let highWall ← fromTimestamp fl h (d.offset.getD 0)
        if maxWall < highWall + 1000 then .error .overflow
        else .ok (decide (Accepts lowWall (highWall + 1000) includeLow includeHigh d.wall))) := by
  have hdate : tryParseDate (.date d fraction) = some d := by
    simp [tryParseDate, ho]
  have hparse : parseRange fl (.int l) (.int h) (.scalar (.date d fraction)) =
      parseDates fl (.int l) (.int h) d := by
    rw [parseRange, hdate]
  rw [visitRange, hparse, parseDates]
  simp only [Bound.toInt]
  cases fromTimestamp fl l (d.offset.getD 0) with
  | error e => rfl
  | ok lowWall =>
    cases fromTimestamp fl h (d.offset.getD 0) with
    | error e => rfl
    | ok highWall =>
      by_cases hroom : maxWall < highWall + 1000
      · simp [hroom, bind, Except.bind]
      · have hsearch := search_eq lowWall (highWall + 1000) includeLow includeHigh [d.wall]
        simp only [bind, Except.bind, hroom, if_false]
        rw [List.any_cons, List.any_nil, Bool.or_false] at hsearch
        exact hsearch

/-- A date whose text cannot be converted raises. -/
theorem not_judges_text (ho : ¬ (fraction = true ∧ d.offset.isSome = true)) :
    ¬ Judges fl (.scalar (.date d fraction)) (.int l) (.int h) includeLow includeHigh := by
  have hdate : tryParseDate (.date d fraction) = none := by
    rw [tryParseDate, if_neg (by simpa using ho)]
  have hparse : parseRange fl (.int l) (.int h) (.scalar (.date d fraction)) =
      .error .invalidData := by
    rw [parseRange, hdate]
    rfl
  rw [Judges, visitRange, hparse]
  intro herr
  cases herr

theorem judges_date_of_placed (hplaced : Placed fl d fraction l h includeLow includeHigh) :
    Judges fl (.scalar (.date d fraction)) (.int l) (.int h) includeLow includeHigh := by
  obtain ⟨htext, hlow, hhigh, hroom, hplace⟩ := hplaced
  have haccepts := @accepts_wall l h includeLow includeHigh d fraction
  rw [Judges, visitRange_date htext, hlow, hhigh]
  simp only [bind, Except.bind, if_neg (not_lt.mpr hroom), FieldValue.elements, List.any_cons,
    List.any_nil, Bool.or_false]
  simp [haccepts, hplace]

theorem placed_of_judges (hl : Exact fl d l) (hh : Exact fl d h)
    (hj : Judges fl (.scalar (.date d fraction)) (.int l) (.int h) includeLow includeHigh) :
    Placed fl d fraction l h includeLow includeHigh := by
  by_cases htext : fraction = true ∧ d.offset.isSome = true
  · rw [Judges, visitRange_date htext] at hj
    cases hlow : fromTimestamp fl l (d.offset.getD 0) with
    | error e =>
      rw [hlow] at hj
      cases hj
    | ok lowWall =>
      cases hhigh : fromTimestamp fl h (d.offset.getD 0) with
      | error e =>
        rw [hlow, hhigh] at hj
        cases hj
      | ok highWall =>
        obtain rfl := hl lowWall hlow
        obtain rfl := hh highWall hhigh
        rw [hlow, hhigh] at hj
        by_cases hroom : maxWall < boundWall d h + 1000
        · simp [hroom, bind, Except.bind] at hj
        · refine ⟨htext, hlow, hhigh, not_lt.mp hroom, fun hmisplaced => ?_⟩
          have hnot := @misplaced_not_lies _ _ _ _ _ fraction hmisplaced
          have haccepts := (@accepts_wall _ _ _ _ _ fraction).mpr (.inr hmisplaced)
          simp [hroom, bind, Except.bind, FieldValue.elements, hnot, haccepts] at hj
  · exact absurd hj (not_judges_text htext)

/-- A list of dates raises, unless it is empty. -/
theorem judges_dates {es : List Element} (hes : ∀ e ∈ es, e.kind = .date) :
    Judges fl (.list es) (.int l) (.int h) includeLow includeHigh ↔ es = [] := by
  constructor
  · intro hj
    cases es with
    | nil => rfl
    | cons e es =>
      exfalso
      have hnumbers : coerceList tryParseNumber (· ≠ 0) (e :: es) = [] := by
        rw [coerceList, List.filterMap_eq_nil_iff]
        intro e he
        have hkind := hes e he
        cases e with
        | date d fraction => rfl
        | _ => cases hkind
      have hkind := hes e (by simp)
      obtain ⟨d, fraction, rfl⟩ : ∃ d fraction, e = .date d fraction := by
        cases e with
        | date d fraction => exact ⟨d, fraction, rfl⟩
        | _ => cases hkind
      have hfloats : convertList (toFloat fl) (· ≠ 0) (.date d fraction :: es) = none := rfl
      have hints : convertList toInt (· ≠ 0) (.date d fraction :: es) = none := rfl
      have herr : ∃ err, parseRange fl (.int l) (.int h) (.list (.date d fraction :: es)) =
          .error err := by
        rw [parseRange, hnumbers, hints, hfloats]
        split
        · exact ⟨_, rfl⟩
        · refine ⟨.invalidData, ?_⟩
          simp [parseNumbers, parseInts, parseIps, parseFloats, Bound.tryParseIp]
      obtain ⟨err, herr⟩ := herr
      rw [Judges, visitRange, herr] at hj
      cases hj
  · intro hnil
    subst hnil
    rfl

end Dates

section Bounds

variable {fl : Floats} {kind : Kind} {value : FieldValue} {low high : Bound}
  {includeLow includeHigh : Bool}

/-- When a range is judged rightly. -/
def Good (fl : Floats) (kind : Kind) (low high : Bound) (includeLow includeHigh : Bool) :
    FieldValue → Prop
  | .missing => False
  | .scalar (.date d fraction) => ∀ l h, low = .int l → high = .int h →
      Placed fl d fraction l h includeLow includeHigh
  | .scalar (.ip a) => ∀ l h, low = .ip l → high = .ip h → SameVersions l h a
  | .scalar _ => True
  | .list es =>
    match kind with
    | .number => (∃ e ∈ es, e.measure = finite 0 ∧ Lies low high includeLow includeHigh e) →
        ∃ e ∈ es, e.measure ≠ finite 0 ∧ Lies low high includeLow includeHigh e
    | .date => es = []
    | .ip => es ≠ [] ∧ ∀ l h as, low = .ip l → high = .ip h → es = as.map .ip →
        Comparable l h includeLow includeHigh as

/-- The bounds for a date are converted exactly if they are converted. -/
def Certain (fl : Floats) (low high : Bound) : FieldValue → Prop
  | .scalar (.date d _) => ∀ ms, low = .int ms ∨ high = .int ms → Exact fl d ms
  | _ => True

theorem judges_missing :
    ¬ Judges fl .missing low high includeLow includeHigh := by
  intro hj
  cases hj

theorem judges_list_iff {es : List Element} (hes : ∀ e ∈ es, e.kind = .number)
    (hlow : low.suits .number = true) (hhigh : high.suits .number = true) :
    Judges fl (.list es) low high includeLow includeHigh ↔
      Good fl .number low high includeLow includeHigh (.list es) := by
  have hiff : Judges fl (.list es) low high includeLow includeHigh ↔
      ((∃ e ∈ es, e.measure ≠ finite 0 ∧ Lies low high includeLow includeHigh e) ↔
        ∃ e ∈ es, Lies low high includeLow includeHigh e) := by
    rw [Judges, visitRange_list hes hlow hhigh, Except.ok.injEq, Bool.eq_iff_iff]
    simp [FieldValue.elements]
  rw [hiff, Good]
  constructor
  · intro h hzero
    obtain ⟨e, he, -, hlies⟩ := hzero
    exact h.mpr ⟨e, he, hlies⟩
  · intro h
    refine ⟨fun hex => hex.imp fun e he => ⟨he.1, he.2.2⟩, fun hex => ?_⟩
    obtain ⟨e, he, hlies⟩ := hex
    by_cases hzero : e.measure = finite 0
    · exact h ⟨e, he, hzero, hlies⟩
    · exact ⟨e, he, hzero, hlies⟩

theorem exists_ips {es : List Element} (hes : ∀ e ∈ es, e.kind = .ip) :
    ∃ as : List Ip, es = as.map .ip := by
  induction es with
  | nil => exact ⟨[], rfl⟩
  | cons e es ih =>
    obtain ⟨as, rfl⟩ := ih fun e he => hes e (List.mem_cons_of_mem _ he)
    have hkind := hes e (by simp)
    cases e with
    | ip a => exact ⟨a :: as, rfl⟩
    | _ => cases hkind

theorem comparable_singleton {l h a : Ip} :
    Comparable l h includeLow includeHigh [a] ↔ SameVersions l h a := by
  constructor
  · intro hcomp
    exact hcomp [] a [] rfl (by simp)
  · intro hsame before b after heq _
    obtain ⟨-, hb, -⟩ : before = [] ∧ a = b ∧ after = [] := by
      cases before with
      | nil => simpa using heq
      | cons b' before => simp at heq
    exact hb ▸ hsame

/-- A range is judged rightly if the field is there and its elements are not lost or misplaced on
the way. Where the bounds of dates are converted exactly or not at all, it is not otherwise. -/
theorem visit_range_iff (h : Typed kind value low high) :
    (Good fl kind low high includeLow includeHigh value →
      Judges fl value low high includeLow includeHigh) ∧
    (Certain fl low high value → Judges fl value low high includeLow includeHigh →
      Good fl kind low high includeLow includeHigh value) := by
  obtain ⟨helements, hlow, hhigh⟩ := h
  cases value with
  | missing => exact ⟨fun hgood => hgood.elim, fun _ hj => absurd hj judges_missing⟩
  | scalar e =>
    have hkind := helements e (by simp [FieldValue.elements])
    cases e with
    | int n =>
      obtain rfl : kind = .number := hkind.symm
      exact ⟨fun _ => judges_number rfl hlow hhigh, fun _ _ => trivial⟩
    | float q =>
      obtain rfl : kind = .number := hkind.symm
      exact ⟨fun _ => judges_number rfl hlow hhigh, fun _ _ => trivial⟩
    | date d fraction =>
      obtain rfl : kind = .date := hkind.symm
      obtain ⟨l, rfl⟩ : ∃ l, low = .int l := by
        cases low with
        | int l => exact ⟨l, rfl⟩
        | _ => cases hlow
      obtain ⟨h, rfl⟩ : ∃ h, high = .int h := by
        cases high with
        | int h => exact ⟨h, rfl⟩
        | _ => cases hhigh
      refine ⟨fun hgood => judges_date_of_placed (hgood l h rfl rfl), fun hsettled hj => ?_⟩
      intro l' h' hl hh
      obtain rfl := Bound.int.inj hl
      obtain rfl := Bound.int.inj hh
      exact placed_of_judges (hsettled l (.inl rfl)) (hsettled h (.inr rfl)) hj
    | ip a =>
      obtain rfl : kind = .ip := hkind.symm
      obtain ⟨l, rfl⟩ : ∃ l, low = .ip l := by
        cases low with
        | ip l => exact ⟨l, rfl⟩
        | _ => cases hlow
      obtain ⟨h, rfl⟩ : ∃ h, high = .ip h := by
        cases high with
        | ip h => exact ⟨h, rfl⟩
        | _ => cases hhigh
      have hiff := @judges_ips fl l h includeLow includeHigh (.scalar (.ip a)) [a] (by simp) rfl
      rw [comparable_singleton] at hiff
      constructor
      · intro hgood
        exact hiff.mpr ⟨by simp, hgood l h rfl rfl⟩
      · intro _ hj l' h' hl hh
        obtain rfl := Bound.ip.inj hl
        obtain rfl := Bound.ip.inj hh
        exact (hiff.mp hj).2
  | list es =>
    have helements : ∀ e ∈ es, e.kind = kind := helements
    cases kind with
    | number =>
      have hiff := @judges_list_iff fl _ _ includeLow includeHigh _ helements hlow hhigh
      exact ⟨hiff.mpr, fun _ => hiff.mp⟩
    | date =>
      obtain ⟨l, rfl⟩ : ∃ l, low = .int l := by
        cases low with
        | int l => exact ⟨l, rfl⟩
        | _ => cases hlow
      obtain ⟨h, rfl⟩ : ∃ h, high = .int h := by
        cases high with
        | int h => exact ⟨h, rfl⟩
        | _ => cases hhigh
      exact ⟨(judges_dates helements).mpr, fun _ => (judges_dates helements).mp⟩
    | ip =>
      obtain ⟨l, rfl⟩ : ∃ l, low = .ip l := by
        cases low with
        | ip l => exact ⟨l, rfl⟩
        | _ => cases hlow
      obtain ⟨h, rfl⟩ : ∃ h, high = .ip h := by
        cases high with
        | ip h => exact ⟨h, rfl⟩
        | _ => cases hhigh
      obtain ⟨as, rfl⟩ := exists_ips helements
      have hiff := @judges_ips fl l h includeLow includeHigh (.list (as.map .ip)) as (by simp)
          rfl
      constructor
      · intro hgood
        exact hiff.mpr ⟨by simpa using hgood.1, hgood.2 l h as rfl rfl rfl⟩
      · intro _ hj
        refine ⟨by simpa using (hiff.mp hj).1, fun l' h' as' hl hh has => ?_⟩
        obtain rfl := Bound.ip.inj hl
        obtain rfl := Bound.ip.inj hh
        have hinj : Function.Injective Element.ip := fun a b hab => Element.ip.inj hab
        obtain rfl := hinj.list_map has
        exact (hiff.mp hj).2

/-- Floats that round nothing. -/
def exactFloats : Floats where
  ofInt n := n
  micros ms := 1000 * ms
  ofInt_mono := Int.cast_mono
  ofInt_exact _ _ := rfl
  micros_exact _ _ := rfl
  micros_near ms := by
    rw [sub_self, abs_zero]
    have hms := abs_nonneg ms
    omega

/-- A list of numbers in which one lies in the range. -/
theorem visit_range_list :
    Judges exactFloats (.list [.int 0, .int 7]) (.int 0) (.int 9) true true := by
  refine (@visit_range_iff _ .number _ _ _ _ _ ⟨?_, rfl, rfl⟩).1 fun _ => ?_
  · intro e he
    cases List.mem_cons.mp he with
    | inl heq => exact heq ▸ rfl
    | inr he => exact List.mem_singleton.mp he ▸ rfl
  · exact ⟨.int 7, by simp, by simp [Element.measure, finite], by decide +kernel⟩

/-- A field that is missing raises, and a zero in a list is not seen. -/
theorem missing_and_zero_misjudged :
    ¬ Judges exactFloats .missing (.int 0) (.int 9) true true ∧
    visitRange exactFloats .missing (.int 0) (.int 9) true true = .error .attribute ∧
    ¬ Judges exactFloats (.list [.int 0]) (.int 0) (.int 9) true true := by
  have hzero : visitRange exactFloats (.list [.int 0]) (.int 0) (.int 9) true true =
      .ok false := by decide +kernel
  refine ⟨judges_missing, rfl, fun hj => ?_⟩
  rw [Judges, hzero] at hj
  have hlies : Lies (.int 0) (.int 9) true true (.int 0) := by decide +kernel
  simp [FieldValue.elements, hlies] at hj

end Bounds

end Howler.Lucene
