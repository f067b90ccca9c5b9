import Howler.Python.Dict

namespace Structures

open Python

variable {α K V : Type} [DecidableEq K]

section Group

variable (key : α → K) (value : α → V)

/-- One more item: its value comes last in the group of its key. -/
def groupStep (groups : Dict K (List V)) (a : α) : Dict K (List V) :=
  match Dict.get? groups (key a) with
  | some values => Dict.set groups (key a) (values ++ [value a])
  | none => Dict.set groups (key a) [value a]

/-- The values of the items by their keys, each group in the order of the items. -/
def group (items : List α) : Dict K (List V) := items.foldl (groupStep key value) []

variable {key value} {groups : Dict K (List V)} {items : List α}

theorem groupStep_eq (groups : Dict K (List V)) (a : α) :
    groupStep key value groups a =
      Dict.set groups (key a) ((Dict.get? groups (key a)).getD [] ++ [value a]) := by
  unfold groupStep
  cases Dict.get? groups (key a) <;> rfl

theorem nodup_keys_foldl_groupStep (h : (Dict.keys groups).Nodup) (items : List α) :
    (Dict.keys (items.foldl (groupStep key value) groups)).Nodup := by
  induction items generalizing groups with
  | nil => exact h
  | cons a items ih =>
    apply ih
    rw [groupStep_eq]
    exact Dict.nodup_keys_set h _ _

theorem get?_foldl_groupStep (items : List α) (k : K) :
    (Dict.get? (items.foldl (groupStep key value) groups) k).getD [] =
      (Dict.get? groups k).getD [] ++ (items.filter fun a => key a = k).map value := by
  induction items generalizing groups with
  | nil => simp
  | cons a items ih =>
    rw [List.foldl_cons, ih, groupStep_eq, Dict.get?_set]
    by_cases hk : k = key a
    · subst hk
      simp
    · rw [if_neg hk, List.filter_cons_of_neg (by simpa using Ne.symm hk)]

theorem mem_keys_foldl_groupStep (items : List α) (k : K) :
    k ∈ Dict.keys (items.foldl (groupStep key value) groups) ↔
      k ∈ Dict.keys groups ∨ ∃ a ∈ items, key a = k := by
  induction items generalizing groups with
  | nil => simp
  | cons a items ih =>
    rw [List.foldl_cons, ih, groupStep_eq, Dict.mem_keys_set]
    simp only [List.mem_cons, exists_eq_or_imp]
    constructor
    · rintro ((rfl | hk) | hitem)
      · exact .inr (.inl rfl)
      · exact .inl hk
      · exact .inr (.inr hitem)
    · rintro (hk | rfl | hitem)
      · exact .inl (.inr hk)
      · exact .inl (.inl rfl)
      · exact .inr hitem

theorem nodup_keys_group (items : List α) : (Dict.keys (group key value items)).Nodup :=
  nodup_keys_foldl_groupStep (by simp [Dict.keys]) items

theorem mem_keys_group {k : K} :
    k ∈ Dict.keys (group key value items) ↔ ∃ a ∈ items, key a = k :=
  (mem_keys_foldl_groupStep items k).trans (by simp [Dict.keys])

/-- The group of a key holds the values of its items, in their order. -/
theorem values_of_mem_group {k : K} {values : List V} (h : (k, values) ∈ group key value items) :
    values = (items.filter fun a => key a = k).map value := by
  have hget := Dict.get?_of_mem (nodup_keys_group items) h
  have hvalues := @get?_foldl_groupStep α K V _ key value [] items k
  rw [group] at hget
  rw [hget] at hvalues
  simpa using hvalues

end Group

section Extend

variable (key : α → K) (values : α → List V)

/-- One more item: its values come last in the group of its key. -/
def extendStep (groups : Dict K (List V)) (a : α) : Dict K (List V) :=
  Dict.set groups (key a) ((Dict.get? groups (key a)).getD [] ++ values a)

/-- All values of the items by their keys, each group in the order of the items. -/
def extendGroups (items : List α) : Dict K (List V) := items.foldl (extendStep key values) []

variable {key values} {groups : Dict K (List V)} {items : List α}

theorem nodup_keys_extendGroups (items : List α) :
    (Dict.keys (extendGroups key values items)).Nodup := by
  have hfold (groups : Dict K (List V)) (h : (Dict.keys groups).Nodup) :
      (Dict.keys (items.foldl (extendStep key values) groups)).Nodup := by
    induction items generalizing groups with
    | nil => exact h
    | cons a items ih => exact ih _ (Dict.nodup_keys_set h _ _)
  exact hfold [] (by simp [Dict.keys])

theorem get?_foldl_extendStep (items : List α) (k : K) :
    (Dict.get? (items.foldl (extendStep key values) groups) k).getD [] =
      (Dict.get? groups k).getD [] ++ (items.filter fun a => key a = k).flatMap values := by
  induction items generalizing groups with
  | nil => simp
  | cons a items ih =>
    rw [List.foldl_cons, ih, extendStep, Dict.get?_set]
    by_cases hk : k = key a
    · subst hk
      simp
    · rw [if_neg hk, List.filter_cons_of_neg (by simpa using Ne.symm hk)]

theorem mem_keys_extendGroups {k : K} :
    k ∈ Dict.keys (extendGroups key values items) ↔ ∃ a ∈ items, key a = k := by
  have hfold (groups : Dict K (List V)) :
      k ∈ Dict.keys (items.foldl (extendStep key values) groups) ↔
        k ∈ Dict.keys groups ∨ ∃ a ∈ items, key a = k := by
    induction items generalizing groups with
    | nil => simp
    | cons a items ih =>
      rw [List.foldl_cons, ih, extendStep, Dict.mem_keys_set]
      simp only [List.mem_cons, exists_eq_or_imp, eq_comm (a := k)]
      tauto
  exact (hfold []).trans (by simp [Dict.keys])

/-- The group of a key holds all values of its items, in their order. -/
theorem values_of_mem_extendGroups {k : K} {vs : List V}
    (h : (k, vs) ∈ extendGroups key values items) :
    vs = (items.filter fun a => key a = k).flatMap values := by
  have hget := Dict.get?_of_mem (nodup_keys_extendGroups items) h
  have hvalues := @get?_foldl_extendStep α K V _ key values [] items k
  rw [extendGroups] at hget
  rw [hget] at hvalues
  simpa using hvalues

end Extend

end Structures
