import Mathlib.Data.Int.Notation
import Mathlib.Data.Option.Basic
import Mathlib.Logic.Function.Basic

namespace Systems

/-- A value and the last moment at which it is kept. -/
structure Entry (V : Type*) where
  value : V
  deadline : Option ℤ := none

/-- A store that drops its entries when their deadlines have passed. -/
abbrev Keyspace (K V : Type*) := K → Option (Entry V)

variable {K V : Type*}

def Entry.Live (now : ℤ) (e : Entry V) : Prop := ∀ d ∈ e.deadline, now ≤ d

instance (now : ℤ) (e : Entry V) : Decidable (e.Live now) :=
  inferInstanceAs (Decidable (∀ d ∈ e.deadline, now ≤ d))

namespace Keyspace

variable [DecidableEq K] (ks : Keyspace K V) (now : ℤ) (k : K)

/-- The value of a key that was not dropped. -/
def lookup : Option V := ((ks k).filter fun e => decide (e.Live now)).map Entry.value

def put (e : Entry V) : Keyspace K V := Function.update ks k (some e)

def del : Keyspace K V := Function.update ks k none

/-- Sets a key that has no value. -/
def setnx (v : V) : Bool × Keyspace K V :=
  if (ks.lookup now k).isSome then (false, ks) else (true, ks.put k { value := v })

/-- Gives a key that has a value a deadline. A deadline that has come deletes the key. -/
def expireAt (deadline : ℤ) : Keyspace K V :=
  match ks.lookup now k with
  | none => ks
  | some v => if deadline ≤ now then ks.del k else ks.put k { value := v, deadline := some deadline }

variable {ks now k} {k' : K} {v : V}

omit [DecidableEq K] in
theorem lookup_of_entry {e : Entry V} (h : ks k = some e) (hlive : e.Live now) :
    ks.lookup now k = some e.value := by
  have hfilter : (ks k).filter (fun e => decide (e.Live now)) = some e := by
    rw [h, Option.filter_some, if_pos (decide_eq_true hlive)]
  rw [lookup, hfilter]
  rfl

theorem put_same (e : Entry V) : ks.put k e k = some e := Function.update_self ..

theorem put_other (e : Entry V) (h : k' ≠ k) : ks.put k e k' = ks k' := Function.update_of_ne h ..

theorem del_other (h : k' ≠ k) : ks.del k k' = ks k' := Function.update_of_ne h ..

/-- A key that has a value keeps it. -/
theorem setnx_of_some (h : ks.lookup now k = some v) (v' : V) : ks.setnx now k v' = (false, ks) := by
  rw [setnx, h]
  rfl

theorem setnx_of_none (h : ks.lookup now k = none) (v : V) :
    ks.setnx now k v = (true, ks.put k { value := v }) := by
  rw [setnx, h]
  rfl

theorem setnx_other (v : V) (h : k' ≠ k) : (ks.setnx now k v).2 k' = ks k' := by
  unfold setnx
  split
  · rfl
  · exact put_other _ h

theorem expireAt_other (deadline : ℤ) (h : k' ≠ k) : ks.expireAt now k deadline k' = ks k' := by
  unfold expireAt
  cases ks.lookup now k with
  | none => rfl
  | some v =>
    dsimp only
    split
    · exact del_other h
    · exact put_other _ h

/-- A key that was set just now keeps its value up to the deadline. -/
theorem expireAt_put {deadline : ℤ} (h : now < deadline) :
    (ks.put k { value := v }).expireAt now k deadline k =
      some { value := v, deadline := some deadline } := by
  have hlookup : (ks.put k { value := v }).lookup now k = some v :=
    lookup_of_entry (put_same _) (by simp [Entry.Live])
  rw [expireAt, hlookup]
  dsimp only
  rw [if_neg (by omega)]
  exact put_same _

end Keyspace

end Systems
