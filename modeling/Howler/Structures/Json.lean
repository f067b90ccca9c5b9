import Mathlib.Data.List.GetD
import Mathlib.Data.Rat.Defs
import Howler.Python.Dict
import Howler.Python.Text

namespace Structures

open Python

/-- A JSON value. -/
inductive Json where
  | null
  | bool (b : Bool)
  | num (n : ℚ)
  | str (s : Str)
  | list (xs : List Json)
  | obj (fields : List (Str × Json))

namespace Json

/-- What holds of a list if it holds of its items, of a map if it holds of its values, and of what is
neither, holds of all values. -/
theorem treeInduction {P : Json → Prop}
    (leaf : ∀ j, (∀ xs, j ≠ list xs) → (∀ fields, j ≠ obj fields) → P j)
    (list : ∀ xs, (∀ x ∈ xs, P x) → P (.list xs))
    (obj : ∀ fields, (∀ e ∈ fields, P (Prod.snd e)) → P (.obj fields)) (j : Json) : P j := by
  refine @Json.rec P (fun xs => ∀ x ∈ xs, P x) (fun fields => ∀ e ∈ fields, P e.2) (fun e => P e.2)
    ?_ ?_ ?_ ?_ list obj ?_ ?_ ?_ ?_ ?_ j
  · exact leaf _ (by simp) (by simp)
  · exact fun b => leaf _ (by simp) (by simp)
  · exact fun n => leaf _ (by simp) (by simp)
  · exact fun s => leaf _ (by simp) (by simp)
  · intro x hx
    cases hx
  · intro x xs hx hxs y hy
    rcases List.mem_cons.mp hy with rfl | hy
    · exact hx
    · exact hxs y hy
  · intro e he
    cases he
  · intro e fields he hfields e' he'
    rcases List.mem_cons.mp he' with rfl | he'
    · exact he
    · exact hfields e' he'
  · exact fun k v hv => hv

/-- The entry of a map, which is null if it is missing. -/
def entry (fields : Dict Str Json) (k : Str) : Json := (Dict.get? fields k).getD null

/-- The place in a list that a name stands for. -/
def position (k : Str) (n : ℕ) : Option ℕ := (List.range n).find? fun i => Nat.toDigits 10 i = k

/-- The value at a path through nested maps and lists. -/
def getAt : List Str → Json → Option Json
  | [], j => some j
  | k :: ks, obj fields => getAt ks (entry fields k)
  | k :: ks, list xs => (position k xs.length).bind fun i => getAt ks (xs.getD i null)
  | _ :: _, _ => none

/-- The value at a path changed. What is on the way has to be there. -/
def modifyAt (f : Json → Option Json) : List Str → Json → Option Json
  | [], j => f j
  | k :: ks, obj fields =>
    (modifyAt f ks (entry fields k)).map fun v => obj (Dict.set fields k v)
  | k :: ks, list xs =>
    (position k xs.length).bind fun i =>
      (modifyAt f ks (xs.getD i null)).map fun v => list (xs.set i v)
  | _ :: _, _ => none

/-- Neither of the paths leads through the end of the other. -/
def Apart (p q : List Str) : Prop := ¬ p <+: q ∧ ¬ q <+: p

instance (p q : List Str) : Decidable (Apart p q) := inferInstanceAs (Decidable (_ ∧ _))

theorem Apart.of_cons {k : Str} {ks ks' : List Str} (h : Apart (k :: ks) (k :: ks')) :
    Apart ks ks' := by
  constructor
  · intro hp
    exact h.1 (List.cons_prefix_cons.mpr ⟨rfl, hp⟩)
  · intro hp
    exact h.2 (List.cons_prefix_cons.mpr ⟨rfl, hp⟩)

theorem of_position {k : Str} {n i : ℕ} (h : position k n = some i) :
    i < n ∧ Nat.toDigits 10 i = k := by
  have hmem := List.mem_of_find?_eq_some h
  have hk := List.find?_some h
  exact ⟨List.mem_range.mp hmem, by simpa using hk⟩

/-- A change at a path is not seen at a path apart from it. -/
theorem getAt_modifyAt {f : Json → Option Json} {p q : List Str} {j j' : Json}
    (h : modifyAt f p j = some j') (hpq : Apart p q) : getAt q j' = getAt q j := by
  induction p generalizing q j j' with
  | nil => exact absurd List.nil_prefix hpq.1
  | cons k ks ih =>
    cases q with
    | nil => exact absurd List.nil_prefix hpq.2
    | cons k' ks' =>
      cases j with
      | obj fields =>
        rw [modifyAt, Option.map_eq_some_iff] at h
        obtain ⟨v, hv, rfl⟩ := h
        rw [getAt, getAt, entry, Dict.get?_set]
        by_cases hk : k' = k
        · subst hk
          rw [if_pos rfl, Option.getD_some]
          exact ih hv hpq.of_cons
        · rw [if_neg hk]
          rfl
      | list xs =>
        rw [modifyAt, Option.bind_eq_some_iff] at h
        obtain ⟨i, hi, h⟩ := h
        rw [Option.map_eq_some_iff] at h
        obtain ⟨v, hv, rfl⟩ := h
        have hlen := (of_position hi).1
        rw [getAt, getAt, List.length_set]
        by_cases hk : k' = k
        · subst hk
          simp only [hi, Option.bind_some]
          rw [List.getD_eq_getElem _ _ (by simpa using hlen), List.getElem_set_self]
          exact ih hv hpq.of_cons
        · cases hi' : position k' xs.length with
          | none => rfl
          | some i' =>
            have hne : i ≠ i' := by
              intro heq
              exact hk ((of_position hi').2.symm.trans (heq ▸ (of_position hi).2))
            have hget : (xs.set i v).getD i' null = xs.getD i' null := by
              simp [List.getD_eq_getElem?_getD, hne]
            simp only [Option.bind_some, hget]
      | _ => cases h

/-- Where there is no value there is nothing to change. -/
theorem modifyAt_eq_none {f : Json → Option Json} {p : List Str} {j : Json}
    (h : getAt p j = none) : modifyAt f p j = none := by
  induction p generalizing j with
  | nil => cases h
  | cons k ks ih =>
    cases j with
    | obj fields =>
      rw [getAt] at h
      rw [modifyAt, ih h]
      rfl
    | list xs =>
      rw [getAt] at h
      rw [modifyAt]
      cases hi : position k xs.length with
      | none => rfl
      | some i =>
        rw [hi, Option.bind_some] at h
        rw [Option.bind_some, ih h]
        rfl
    | _ => rfl

/-- Only what is done with the value that is there matters. -/
theorem modifyAt_congr {f g : Json → Option Json} {p : List Str} {j v : Json}
    (h : getAt p j = some v) (hfg : f v = g v) : modifyAt f p j = modifyAt g p j := by
  induction p generalizing j with
  | nil =>
    obtain rfl : j = v := by simpa [getAt] using h
    exact hfg
  | cons k ks ih =>
    cases j with
    | obj fields =>
      rw [getAt] at h
      rw [modifyAt, modifyAt, ih h]
    | list xs =>
      rw [getAt] at h
      rw [modifyAt, modifyAt]
      cases hi : position k xs.length with
      | none => rfl
      | some i =>
        rw [hi, Option.bind_some] at h
        rw [Option.bind_some, Option.bind_some, ih h]
    | _ => rfl

theorem modifyAt_none {p : List Str} {j : Json} : modifyAt (fun _ => none) p j = none := by
  induction p generalizing j with
  | nil => rfl
  | cons k ks ih =>
    cases j with
    | obj fields => rw [modifyAt, ih]; rfl
    | list xs =>
      rw [modifyAt]
      cases position k xs.length with
      | none => rfl
      | some i => rw [Option.bind_some, ih]; rfl
    | _ => rfl

/-- Nothing changes if the value that is there stays. -/
theorem modifyAt_self {p : List Str} {j v : Json} (h : getAt p j = some v) (hv : v ≠ null) :
    modifyAt (fun _ => some v) p j = some j := by
  induction p generalizing j with
  | nil => simpa [getAt, modifyAt, eq_comm] using h
  | cons k ks ih =>
    cases j with
    | obj fields =>
      rw [getAt] at h
      rw [modifyAt, ih h, Option.map_some]
      have hentry : Dict.get? fields k = some (entry fields k) := by
        cases hget : Dict.get? fields k with
        | some w => rw [entry, hget]; rfl
        | none =>
          have hnull : entry fields k = null := by rw [entry, hget]; rfl
          rw [hnull] at h
          cases ks with
          | nil => exact absurd (Option.some.inj h).symm hv
          | cons k' ks' => cases h
      rw [Dict.set_eq_self hentry]
    | list xs =>
      rw [getAt] at h
      rw [modifyAt]
      cases hi : position k xs.length with
      | none => rw [hi] at h; cases h
      | some i =>
        have hlen := (of_position hi).1
        rw [hi, Option.bind_some] at h
        rw [Option.bind_some, ih h, Option.map_some, List.getD_eq_getElem _ _ hlen,
          List.set_getElem_self]
    | _ => cases h

mutual

/-- The second value put over the first: maps key by key, anything else in its place. -/
def merge : Json → Json → Json
  | obj fields, obj changes => obj (mergeFields fields changes)
  | _, j => j

def mergeFields : Dict Str Json → List (Str × Json) → Dict Str Json
  | fields, [] => fields
  | fields, (k, v) :: changes => mergeFields (Dict.set fields k (merge (entry fields k) v)) changes

end

theorem get?_mergeFields {changes : Dict Str Json} (hnodup : (Dict.keys changes).Nodup)
    (fields : Dict Str Json) (k : Str) :
    Dict.get? (mergeFields fields changes) k =
      match Dict.get? changes k with
      | some v => some (merge (entry fields k) v)
      | none => Dict.get? fields k := by
  induction changes generalizing fields with
  | nil => rw [mergeFields]; rfl
  | cons e changes ih =>
    obtain ⟨k', v⟩ := e
    obtain ⟨hk', hchanges⟩ := List.nodup_cons.mp hnodup
    have hnone : Dict.get? changes k' = none := (Dict.get?_eq_none_iff _ _).mpr hk'
    rw [mergeFields, ih hchanges, Dict.get?_cons]
    by_cases hk : k = k'
    · subst hk
      rw [if_pos rfl, hnone, Dict.get?_set, if_pos rfl]
    · rw [if_neg hk, entry, Dict.get?_set, if_neg hk]
      rfl

end Json

end Structures
