import Mathlib.Data.List.Basic
import Mathlib.Logic.Function.Basic

namespace Systems

/-- A store that keeps, under each key, all that was stored there: `none` where a document was
removed. -/
abbrev Versioned (K D : Type*) := K → List (Option D)

namespace Versioned

variable {K D : Type*} {s s' s'' : Versioned K D} {k : K} {v : ℕ} {x : Option D}

def current (s : Versioned K D) (k : K) : Option D := (s k).getLast?.getD none

/-- The version of a document: how often it has changed. -/
def version (s : Versioned K D) (k : K) : ℕ := (s k).length

/-- Nothing that was stored is forgotten. -/
def Grows (s s' : Versioned K D) : Prop := ∀ k, s k <+: s' k

/-- What stood under a key at some version. -/
def Saw (s : Versioned K D) (k : K) (v : ℕ) (x : Option D) : Prop :=
  v ≤ s.version k ∧ ((s k).take v).getLast?.getD none = x

theorem Grows.refl (s : Versioned K D) : Grows s s := fun _ => List.prefix_rfl

theorem Grows.trans (h : Grows s s') (h' : Grows s' s'') : Grows s s'' :=
  fun k => (h k).trans (h' k)

theorem saw_current (s : Versioned K D) (k : K) : s.Saw k (s.version k) (s.current k) := by
  refine ⟨Nat.le_refl _, ?_⟩
  rw [version, List.take_length, current]

theorem Saw.mono (h : s.Saw k v x) (hgrows : Grows s s') : s'.Saw k v x := by
  obtain ⟨rest, hrest⟩ := hgrows k
  have hv : v ≤ (s k).length := h.1
  refine ⟨?_, ?_⟩
  · rw [version, ← hrest, List.length_append]
    omega
  · rw [← hrest, List.take_append_of_le_length hv]
    exact h.2

/-- A version that is still the one of the document was read from the document as it is. -/
theorem Saw.current_eq (h : s.Saw k v x) (hv : v = s.version k) : s.current k = x := by
  rw [← h.2, hv, version, List.take_length, current]

section Record

variable [DecidableEq K]

/-- A document is stored or removed. -/
def record (s : Versioned K D) (k : K) (x : Option D) : Versioned K D :=
  Function.update s k (s k ++ [x])

theorem grows_record (s : Versioned K D) (k : K) (x : Option D) : Grows s (s.record k x) := by
  intro k'
  by_cases hk : k' = k
  · rw [hk, record, Function.update_self]
    exact List.prefix_append ..
  · have hsame : s.record k x k' = s k' := Function.update_of_ne hk _ _
    exact ⟨[], by rw [List.append_nil, hsame]⟩

theorem current_record (s : Versioned K D) (k : K) (x : Option D) : (s.record k x).current k = x := by
  rw [current, record, Function.update_self, List.getLast?_concat, Option.getD_some]

theorem version_record (s : Versioned K D) (k : K) (x : Option D) :
    (s.record k x).version k = s.version k + 1 := by
  rw [version, record, Function.update_self, List.length_append]
  rfl

end Record

end Versioned

end Systems
