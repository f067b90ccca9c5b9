import Howler.Structures.Json

namespace Structures

open Python

inductive Step where
  | key (k : Str)
  | index (i : ℕ)
  deriving DecidableEq

/-- A place in a value. -/
abbrev Address := List Step

namespace Json

/-- The value at a place, which is null where there is none. -/
def lookup : Address → Json → Json
  | [], j => j
  | .key k :: a, obj fields => lookup a (entry fields k)
  | .index i :: a, list xs => lookup a (xs.getD i null)
  | _ :: _, _ => null

/-- A value without what is in it. -/
def top : Json → Json
  | obj _ => obj []
  | list xs => list (xs.map fun _ => null)
  | j => j

/-- A value that is neither a map nor a list. -/
def leaf : Json → Json
  | obj _ => null
  | list _ => null
  | j => j

theorem top_eq_null {j : Json} : top j = null ↔ j = null := by
  cases j with
  | _ => simp [top]

theorem lookup_null (a : Address) : lookup a null = null := by
  cases a with
  | nil => rfl
  | cons s a => cases s <;> rfl

/-- The maps have distinct keys. -/
def Keyed (j : Json) : Prop := ∀ a fields, lookup a j = obj fields → (Dict.keys fields).Nodup

theorem Keyed.nodup {fields : Dict Str Json} (h : Keyed (obj fields)) : (Dict.keys fields).Nodup :=
  h [] fields rfl

theorem Keyed.entry {fields : Dict Str Json} (h : Keyed (obj fields)) (k : Str) :
    Keyed (entry fields k) :=
  fun a => h (.key k :: a)

theorem Keyed.get? {fields : Dict Str Json} (h : Keyed (obj fields)) {k : Str} {v : Json}
    (hv : Dict.get? fields k = some v) : Keyed v := by
  have hentry := h.entry k
  rw [Json.entry, hv] at hentry
  exact hentry

theorem Keyed.getD {xs : List Json} (h : Keyed (list xs)) (i : ℕ) : Keyed (xs.getD i null) :=
  fun a => h (.index i :: a)

theorem keyed_obj {fields : Dict Str Json} (hnodup : (Dict.keys fields).Nodup)
    (h : ∀ e ∈ fields, Keyed e.2) : Keyed (obj fields) := by
  intro a fields' hfields'
  cases a with
  | nil =>
    obtain rfl := Json.obj.inj hfields'
    exact hnodup
  | cons s a =>
    cases s with
    | index i => cases hfields'
    | key k =>
      rw [lookup, Json.entry] at hfields'
      cases hget : Dict.get? fields k with
      | none =>
        rw [hget, Option.getD_none, lookup_null] at hfields'
        cases hfields'
      | some v =>
        rw [hget] at hfields'
        exact h (k, v) (Dict.mem_of_get? hget) a fields' hfields'

theorem keyed_str (s : Str) : Keyed (str s) := by
  intro a fields h
  cases a with
  | nil => cases h
  | cons s a => cases s <;> cases h

theorem keyed_num (n : ℚ) : Keyed (num n) := by
  intro a fields h
  cases a with
  | nil => cases h
  | cons s a => cases s <;> cases h

theorem keyed_list {xs : List Json} (h : ∀ x ∈ xs, Keyed x) : Keyed (list xs) := by
  intro a fields hfields
  cases a with
  | nil => cases hfields
  | cons s a =>
    cases s with
    | key k => cases hfields
    | index i =>
      rw [lookup] at hfields
      by_cases hi : i < xs.length
      · rw [List.getD_eq_getElem _ _ hi] at hfields
        exact h _ (List.getElem_mem hi) a fields hfields
      · rw [List.getD_eq_default _ _ (by omega), lookup_null] at hfields
        cases hfields

/-- How two values that are merged meet at a place. -/
inductive Meeting where
  | replaced
  | kept
  | both
  deriving DecidableEq

/-- The changes replace what is there, have nothing there, or meet it as one map another. -/
def meeting : Address → Json → Json → Meeting
  | [], obj _, obj _ => .both
  | .key k :: a, obj fields, obj changes =>
    match Dict.get? changes k with
    | some v => meeting a (entry fields k) v
    | none => .kept
  | _, _, _ => .replaced

/-- Two values that are not both maps. -/
theorem merge_of_not_obj {stored j : Json}
    (h : ∀ fields fields', stored = obj fields → j ≠ obj fields') :
    merge stored j = j ∧ ∀ a, meeting a stored j = .replaced := by
  cases stored with
  | obj fields =>
    cases j with
    | obj fields' => exact absurd rfl (h fields fields' rfl)
    | _ =>
      refine ⟨rfl, ?_⟩
      intro a
      cases a with
      | nil => rfl
      | cons s a => cases s <;> rfl
  | _ =>
    refine ⟨by cases j <;> rfl, ?_⟩
    intro a
    cases a with
    | nil => rfl
    | cons s a => cases s <;> rfl

/-- What is at a place after a merge. -/
theorem lookup_merge {a : Address} {stored changes : Json} (hkeyed : Keyed changes) :
    match meeting a stored changes with
    | .replaced => lookup a (merge stored changes) = lookup a changes
    | .kept => lookup a (merge stored changes) = lookup a stored ∧ lookup a changes = null
    | .both => ∃ merged fields fields', lookup a (merge stored changes) = obj merged ∧
        lookup a stored = obj fields ∧ lookup a changes = obj fields' := by
  by_cases hobj : ∀ fields fields', stored = obj fields → changes ≠ obj fields'
  · obtain ⟨hmerge, hmeeting⟩ := merge_of_not_obj hobj
    rw [hmeeting, hmerge]
  · push Not at hobj
    obtain ⟨fields, fields', rfl, rfl⟩ := hobj
    induction a generalizing fields fields' with
    | nil => exact ⟨_, fields, fields', rfl, rfl, rfl⟩
    | cons s a ih =>
      cases s with
      | index i => rfl
      | key k =>
        have hget := get?_mergeFields hkeyed.nodup fields k
        have hmerged : lookup (.key k :: a) (merge (obj fields) (obj fields')) =
            lookup a (entry (mergeFields fields fields') k) := rfl
        rw [hmerged, entry, meeting, lookup, lookup]
        cases hk : Dict.get? fields' k with
        | none =>
          rw [hk] at hget
          rw [hget, entry, entry, hk]
          exact ⟨rfl, lookup_null a⟩
        | some v =>
          rw [hk] at hget
          have hv := hkeyed.get? hk
          have hentry : entry fields' k = v := by rw [entry, hk]; rfl
          rw [hget, hentry, Option.getD_some]
          dsimp only
          by_cases hobj : ∀ gs gs', entry fields k = obj gs → v ≠ obj gs'
          · obtain ⟨hmerge, hmeeting⟩ := merge_of_not_obj hobj
            rw [hmeeting, hmerge]
          · push Not at hobj
            obtain ⟨gs, gs', hgs, rfl⟩ := hobj
            rw [hgs]
            exact ih gs gs' hv

end Json

end Structures
