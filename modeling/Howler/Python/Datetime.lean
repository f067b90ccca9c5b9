import Mathlib.Data.Int.Basic

namespace Python

/-- The microseconds of a day. -/
def microsecondsPerDay : Int := 86400 * 1000000

/-- `datetime.max`, in microseconds from `datetime.min`. -/
def maxWall : Int := 3652059 * microsecondsPerDay - 1

/-- A `datetime`: the reading of a clock, in microseconds from `datetime.min`, and the offset of
that clock from UTC if it is known. -/
structure Datetime where
  wall : Int
  offset : Option Int
  wall_nonneg : 0 ≤ wall
  wall_le : wall ≤ maxWall
  deriving DecidableEq

-- the bounds of the first moment
theorem Datetime.zero_nonneg : (0 : Int) ≤ 0 := Int.le_refl 0

theorem Datetime.zero_le_maxWall : (0 : Int) ≤ maxWall := by decide

/-- What date arithmetic raises. -/
inductive DatetimeError where
  | overflow
  | naiveAndAware
  deriving DecidableEq, Repr

namespace Datetime

/-- `d.replace(tzinfo=timezone.utc)`. -/
def replaceUtc (d : Datetime) : Datetime := { d with offset := some 0 }

/-- The moment, for a `datetime` that is aware. -/
def moment (d : Datetime) : Option Int := d.offset.map (d.wall - ·)

/-- `d + timedelta(days=n)`. -/
def addDays (d : Datetime) (n : Int) : Except DatetimeError Datetime :=
  if n < -999999999 ∨ 999999999 < n then .error .overflow
  else if h : 0 ≤ d.wall + n * microsecondsPerDay ∧ d.wall + n * microsecondsPerDay ≤ maxWall then
    .ok ⟨d.wall + n * microsecondsPerDay, d.offset, h.1, h.2⟩
  else .error .overflow

/-- `d > e`, which raises for a naive and an aware `datetime`. -/
def later (d e : Datetime) : Except DatetimeError Bool :=
  match d.moment, e.moment with
  | some m, some n => .ok (decide (n < m))
  | none, none => .ok (decide (e.wall < d.wall))
  | _, _ => .error .naiveAndAware

theorem addDays_ok_iff (d : Datetime) {n : Int} (hn : 0 ≤ n) :
    (∃ e, d.addDays n = .ok e) ↔ d.wall + n * microsecondsPerDay ≤ maxWall := by
  have h0 := d.wall_nonneg
  unfold addDays
  by_cases h : d.wall + n * microsecondsPerDay ≤ maxWall
  · have hb : ¬ (n < -999999999 ∨ 999999999 < n) := by
      simp only [maxWall, microsecondsPerDay] at h
      omega
    have hw : 0 ≤ d.wall + n * microsecondsPerDay := by
      simp only [microsecondsPerDay]
      omega
    simp [hb, hw, h]
  · simp only [h, and_false, dite_false]
    simp

theorem addDays_ok {d e : Datetime} {n : Int} (h : d.addDays n = .ok e) :
    e.wall = d.wall + n * microsecondsPerDay ∧ e.offset = d.offset := by
  unfold addDays at h
  split at h
  · contradiction
  · split at h
    · obtain rfl := Except.ok.inj h
      exact ⟨rfl, rfl⟩
    · contradiction

end Datetime

end Python
