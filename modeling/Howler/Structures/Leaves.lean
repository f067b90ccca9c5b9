import Mathlib.Data.List.Flatten
import Mathlib.Data.List.Pairwise
import Mathlib.Data.List.Perm.Subperm
import Howler.Structures.Addresses

namespace Structures

open Python

namespace Json

/-- What holds of a map if it holds of its values, and of what is not a map, holds of all values. -/
theorem objInduction {P : Json → Prop} (leaf : ∀ j, (∀ fields, j ≠ obj fields) → P j)
    (obj : ∀ fields, (∀ e ∈ fields, P (Prod.snd e)) → P (.obj fields)) (j : Json) : P j := by
  induction j using treeInduction with
  | leaf j _ hobj => exact leaf j hobj
  | list xs => exact leaf _ fun _ h => by cases h
  | obj fields ih => exact obj fields ih

variable {α : Type}

mutual

/-- The values of a document that are not maps of something, with their paths. A key may stand for
several steps of a path. -/
def leaves (steps : Str → List α) : Json → List (List α × Json)
  | obj fields => if fields.isEmpty then [([], obj [])] else leavesFields steps fields
  | j => [([], j)]

def leavesFields (steps : Str → List α) : List (Str × Json) → List (List α × Json)
  | [] => []
  | (k, v) :: fields =>
    ((leaves steps v).map fun l => (steps k ++ l.1, l.2)) ++ leavesFields steps fields

end

mutual

/-- The equality of documents in Python: the order of the keys does not matter. -/
def Equal : Json → Json → Prop
  | obj fields, j => ∃ fields', j = obj fields' ∧ fields'.length = fields.length ∧
      EqualFields fields fields'
  | j, j' => j = j'

def EqualFields : List (Str × Json) → Dict Str Json → Prop
  | [], _ => True
  | (k, v) :: fields, fields' =>
    (∃ w, Dict.get? fields' k = some w ∧ Equal v w) ∧ EqualFields fields fields'

end

section Leaves

variable {steps : Str → List α} {fields fields' : Dict Str Json} {p : List α} {u v : Json} {k : Str}

theorem leavesFields_eq (steps : Str → List α) (fields : List (Str × Json)) :
    leavesFields steps fields =
      fields.flatMap fun e => (leaves steps e.2).map fun l => (steps e.1 ++ l.1, l.2) := by
  induction fields with
  | nil => rfl
  | cons e fields ih =>
    obtain ⟨k, v⟩ := e
    rw [leavesFields, ih, List.flatMap_cons]

theorem mem_leavesFields : (p, u) ∈ leavesFields steps fields ↔
    ∃ k v q, (k, v) ∈ fields ∧ p = steps k ++ q ∧ (q, u) ∈ leaves steps v := by
  rw [leavesFields_eq, List.mem_flatMap]
  constructor
  · intro h
    obtain ⟨⟨k, v⟩, hmem, hp⟩ := h
    obtain ⟨⟨q, w⟩, hq, heq⟩ := List.mem_map.mp hp
    obtain ⟨rfl, rfl⟩ := Prod.mk.inj heq
    exact ⟨k, v, q, hmem, rfl, hq⟩
  · intro h
    obtain ⟨k, v, q, hmem, rfl, hq⟩ := h
    exact ⟨(k, v), hmem, List.mem_map.mpr ⟨(q, u), hq, rfl⟩⟩

theorem leaves_obj (h : fields ≠ []) :
    leaves steps (obj fields) = leavesFields steps fields := by
  rw [leaves, if_neg (by simpa using h)]

theorem mem_leaves_of_fields {l : List α × Json} (h : l ∈ leavesFields steps fields) :
    l ∈ leaves steps (obj fields) := by
  cases fields with
  | nil => contradiction
  | cons e fields =>
    rw [leaves_obj (by simp)]
    exact h

theorem leavesFields_append (fields fields' : List (Str × Json)) :
    leavesFields steps (fields ++ fields') =
      leavesFields steps fields ++ leavesFields steps fields' := by
  simp only [leavesFields_eq, List.flatMap_append]

theorem leaves_of_not_obj (h : ∀ fields, v ≠ obj fields) : leaves steps v = [([], v)] := by
  cases v with
  | obj fields => exact absurd rfl (h fields)
  | _ => rfl

theorem leaves_ne_nil (steps : Str → List α) (j : Json) : leaves steps j ≠ [] := by
  induction j using objInduction with
  | leaf j h => simp [leaves_of_not_obj h]
  | obj fields ih =>
    cases fields with
    | nil => simp [leaves]
    | cons e fields =>
      obtain ⟨k, v⟩ := e
      have hv := ih (k, v) (by simp)
      simp [leaves, leavesFields, hv]

theorem exists_mem_leaves (steps : Str → List α) (j : Json) : ∃ p u, (p, u) ∈ leaves steps j := by
  obtain ⟨l, hl⟩ := List.exists_mem_of_ne_nil _ (leaves_ne_nil steps j)
  exact ⟨l.1, l.2, hl⟩

/-- The leaves of a value are those at its keys and below. -/
theorem mem_leaves_cons {a : α} (hfields : ∀ e ∈ fields, ∃ b, steps e.1 = [b]) :
    (a :: p, u) ∈ leaves steps (obj fields) ↔
      ∃ k v, (k, v) ∈ fields ∧ steps k = [a] ∧ (p, u) ∈ leaves steps v := by
  by_cases h : fields = []
  · simp [h, leaves]
  · rw [leaves_obj h, mem_leavesFields]
    constructor
    · intro h
      obtain ⟨k, v, q, hmem, hp, hq⟩ := h
      obtain ⟨b, hb⟩ := hfields _ hmem
      rw [hb] at hp
      obtain ⟨rfl, rfl⟩ := List.cons.inj hp
      exact ⟨k, v, hmem, hb, hq⟩
    · intro h
      obtain ⟨k, v, hmem, hk, hp⟩ := h
      exact ⟨k, v, p, hmem, by rw [hk]; rfl, hp⟩

theorem mem_leaves_nil (hfields : ∀ e ∈ fields, steps e.1 ≠ []) :
    ([], u) ∈ leaves steps (obj fields) ↔ fields = [] ∧ u = obj [] := by
  by_cases h : fields = []
  · simp [h, leaves]
  · rw [leaves_obj h, mem_leavesFields]
    constructor
    · intro hmem
      obtain ⟨k, v, q, hmem, hp, -⟩ := hmem
      have hnil := (List.append_eq_nil_iff.mp hp.symm).1
      exact absurd hnil (hfields _ hmem)
    · intro hnil
      exact absurd hnil.1 h

/-- The leaves of a document by its own keys. -/
abbrev keyed : Str → List Str := fun k => [k]

theorem mem_leaves_iff {j : Json} :
    (p, u) ∈ leaves steps j ↔ ∃ q, (q, u) ∈ leaves keyed j ∧ p = q.flatMap steps := by
  induction j using objInduction generalizing p with
  | leaf j h => simp [leaves_of_not_obj h, and_comm]
  | obj fields ih =>
    by_cases hfields : fields = []
    · simp [hfields, leaves, and_comm]
    · rw [leaves_obj hfields, leaves_obj hfields, mem_leavesFields]
      constructor
      · intro h
        obtain ⟨k, v, q, hmem, rfl, hq⟩ := h
        obtain ⟨q', hq', rfl⟩ := (ih _ hmem).mp hq
        exact ⟨k :: q', mem_leavesFields.mpr ⟨k, v, q', hmem, rfl, hq'⟩, rfl⟩
      · intro h
        obtain ⟨q, hq, rfl⟩ := h
        obtain ⟨k, v, q', hmem, rfl, hq'⟩ := mem_leavesFields.mp hq
        exact ⟨k, v, q'.flatMap steps, hmem, rfl, (ih _ hmem).mpr ⟨q', hq', rfl⟩⟩

end Leaves

section Equal

variable {fields fields' : Dict Str Json} {u v : Json} {k : Str} {p : List Str}

theorem mem_leaves_get? (hnodup : (Dict.keys fields).Nodup) :
    (k :: p, u) ∈ leaves keyed (obj fields) ↔
      ∃ v, Dict.get? fields k = some v ∧ (p, u) ∈ leaves keyed v := by
  rw [mem_leaves_cons fun e _ => ⟨e.1, rfl⟩]
  constructor
  · intro h
    obtain ⟨k', v, hmem, hk, hp⟩ := h
    obtain rfl := List.singleton_inj.mp hk
    exact ⟨v, Dict.get?_of_mem hnodup hmem, hp⟩
  · intro h
    obtain ⟨v, hget, hp⟩ := h
    exact ⟨k, v, Dict.mem_of_get? hget, rfl, hp⟩

theorem equalFields_iff : EqualFields fields fields' ↔
    ∀ e ∈ fields, ∃ w, Dict.get? fields' e.1 = some w ∧ Equal e.2 w := by
  induction fields with
  | nil => simp [EqualFields]
  | cons e fields ih =>
    obtain ⟨k, v⟩ := e
    rw [EqualFields, ih, List.forall_mem_cons]

theorem equal_obj {j : Json} : Equal (obj fields) j ↔ ∃ fields', j = obj fields' ∧
    fields'.length = fields.length ∧
      ∀ e ∈ fields, ∃ w, Dict.get? fields' e.1 = some w ∧ Equal e.2 w := by
  rw [Equal]
  simp only [equalFields_iff]

theorem equal_of_not_obj {j j' : Json} (h : ∀ fields, j ≠ obj fields) : Equal j j' ↔ j = j' := by
  cases j with
  | obj fields => exact absurd rfl (h fields)
  | _ =>
    rw [Equal]
    exact h

/-- Distinct keys that are among as many distinct keys are all of them. -/
theorem keys_subset (hnodup : (Dict.keys fields).Nodup)
    (hlength : fields'.length = fields.length) (h : Dict.keys fields ⊆ Dict.keys fields') :
    Dict.keys fields' ⊆ Dict.keys fields := by
  have hsub := List.subperm_of_subset hnodup h
  have hperm := hsub.perm_of_length_le (by simp [Dict.keys, hlength])
  exact hperm.symm.subset

theorem length_le_of_get? (hnodup : (Dict.keys fields).Nodup)
    (h : ∀ k v, Dict.get? fields k = some v → ∃ w, Dict.get? fields' k = some w) :
    fields.length ≤ fields'.length := by
  have hsub : Dict.keys fields ⊆ Dict.keys fields' := by
    intro k hk
    obtain ⟨v, hv⟩ := (Dict.mem_keys_iff _ _).mp hk
    exact (Dict.mem_keys_iff _ _).mpr (h k v hv)
  simpa [Dict.keys] using (List.subperm_of_subset hnodup hsub).length_le

/-- Maps with the same leaves have the same leaves at each of their keys. -/
theorem exists_get?_of_leaves (hnodup : (Dict.keys fields).Nodup)
    (hnodup' : (Dict.keys fields').Nodup)
    (h : ∀ l, l ∈ leaves keyed (obj fields) ↔ l ∈ leaves keyed (obj fields'))
    (hv : Dict.get? fields k = some v) : ∃ w, Dict.get? fields' k = some w ∧
      ∀ l, l ∈ leaves keyed v ↔ l ∈ leaves keyed w := by
  obtain ⟨p, u, hp⟩ := exists_mem_leaves keyed v
  obtain ⟨w, hw, -⟩ :=
    (mem_leaves_get? hnodup').mp ((h _).mp ((mem_leaves_get? hnodup).mpr ⟨v, hv, hp⟩))
  refine ⟨w, hw, fun l => ?_⟩
  have hl := h (k :: l.1, l.2)
  rw [mem_leaves_get? hnodup, mem_leaves_get? hnodup'] at hl
  simpa [hv, hw] using hl

/-- Documents are equal if they have the same leaves. -/
theorem equal_iff {j j' : Json} (hj : Keyed j) (hj' : Keyed j') :
    Equal j j' ↔ ∀ l, l ∈ leaves keyed j ↔ l ∈ leaves keyed j' := by
  induction j using objInduction generalizing j' with
  | leaf j h =>
    rw [equal_of_not_obj h, leaves_of_not_obj h]
    constructor
    · intro heq
      rw [← heq, leaves_of_not_obj h]
      exact fun _ => Iff.rfl
    · intro hleaves
      cases j' with
      | obj fields' =>
        have hnil := (hleaves ([], j)).mp (by simp)
        rw [mem_leaves_nil (by simp)] at hnil
        exact absurd hnil.2 (h [])
      | _ => simpa [leaves] using (hleaves ([], j)).mp (by simp)
  | obj fields ih =>
    rw [equal_obj]
    constructor
    · intro hequal
      obtain ⟨fields', rfl, hlength, hget⟩ := hequal
      have hsub : Dict.keys fields ⊆ Dict.keys fields' := by
        intro k hk
        obtain ⟨e, he, rfl⟩ := List.mem_map.mp hk
        obtain ⟨w, hw, -⟩ := hget e he
        exact (Dict.mem_keys_iff _ _).mpr ⟨w, hw⟩
      have hsup := keys_subset hj.nodup hlength hsub
      have hvalues : ∀ k v w, Dict.get? fields k = some v → Dict.get? fields' k = some w →
          ∀ l, l ∈ leaves keyed v ↔ l ∈ leaves keyed w := by
        intro k v w hv hw
        obtain ⟨w', hw', hequal⟩ := hget _ (Dict.mem_of_get? hv)
        obtain rfl := Option.some.inj (hw.symm.trans hw')
        exact (ih _ (Dict.mem_of_get? hv) (hj.get? hv) (hj'.get? hw)).mp hequal
      intro l
      obtain ⟨p, u⟩ := l
      cases p with
      | nil =>
        rw [mem_leaves_nil (by simp), mem_leaves_nil (by simp), ← List.length_eq_zero_iff,
          ← List.length_eq_zero_iff, hlength]
      | cons k p =>
        rw [mem_leaves_get? hj.nodup, mem_leaves_get? hj'.nodup]
        constructor
        · intro h
          obtain ⟨v, hv, hp⟩ := h
          obtain ⟨w, hw⟩ := (Dict.mem_keys_iff _ _).mp (hsub ((Dict.mem_keys_iff _ _).mpr ⟨v, hv⟩))
          exact ⟨w, hw, (hvalues k v w hv hw _).mp hp⟩
        · intro h
          obtain ⟨w, hw, hp⟩ := h
          obtain ⟨v, hv⟩ := (Dict.mem_keys_iff _ _).mp (hsup ((Dict.mem_keys_iff _ _).mpr ⟨w, hw⟩))
          exact ⟨v, hv, (hvalues k v w hv hw _).mpr hp⟩
    · intro hleaves
      cases j' with
      | obj fields' =>
        have hvalues : ∀ k v, Dict.get? fields k = some v → ∃ w, Dict.get? fields' k = some w ∧
            ∀ l, l ∈ leaves keyed v ↔ l ∈ leaves keyed w :=
          fun k v hv => exists_get?_of_leaves hj.nodup hj'.nodup hleaves hv
        have hvalues' : ∀ k v, Dict.get? fields' k = some v → ∃ w, Dict.get? fields k = some w ∧
            ∀ l, l ∈ leaves keyed v ↔ l ∈ leaves keyed w :=
          fun k v hv => exists_get?_of_leaves hj'.nodup hj.nodup (fun l => (hleaves l).symm) hv
        refine ⟨fields', rfl, le_antisymm ?_ ?_, fun e he => ?_⟩
        · exact length_le_of_get? hj'.nodup fun k v hv => (hvalues' k v hv).imp fun _ h => h.1
        · exact length_le_of_get? hj.nodup fun k v hv => (hvalues k v hv).imp fun _ h => h.1
        · have hv := Dict.get?_of_mem hj.nodup he
          obtain ⟨w, hw, hiff⟩ := hvalues _ _ hv
          exact ⟨w, hw, (ih e he (hj.get? hv) (hj'.get? hw)).mpr hiff⟩
      | _ =>
        obtain ⟨p, u, hl⟩ := exists_mem_leaves keyed (obj fields)
        have hmem := (hleaves _).mp hl
        obtain ⟨rfl, rfl⟩ : p = [] ∧ u = _ := by simpa [leaves] using hmem
        rw [mem_leaves_nil (by simp)] at hl
        cases hl.2

theorem Apart.cons {k : Str} {ks ks' : List Str} (h : Apart ks ks') :
    Apart (k :: ks) (k :: ks') := by
  constructor
  · intro hp
    exact h.1 (List.cons_prefix_cons.mp hp).2
  · intro hp
    exact h.2 (List.cons_prefix_cons.mp hp).2

theorem Apart.of_ne {k k' : Str} (h : k ≠ k') (ks ks' : List Str) : Apart (k :: ks) (k' :: ks') := by
  constructor
  · intro hp
    exact h (List.cons_prefix_cons.mp hp).1
  · intro hp
    exact h (List.cons_prefix_cons.mp hp).1.symm

/-- No leaf of a document is at or below another one. -/
theorem pairwise_leaves {j : Json} (hj : Keyed j) :
    ((leaves keyed j).map Prod.fst).Pairwise Apart := by
  induction j using objInduction with
  | leaf j h => simp [leaves_of_not_obj h]
  | obj fields ih =>
    by_cases hfields : fields = []
    · simp [hfields, leaves]
    · rw [leaves_obj hfields, leavesFields_eq, List.pairwise_map, List.pairwise_flatMap]
      constructor
      · intro e he
        have hv := ih e he (hj.get? (Dict.get?_of_mem hj.nodup he))
        rw [List.pairwise_map] at hv ⊢
        exact hv.imp fun h => h.cons
      · have hkeys : fields.Pairwise fun e e' => e.1 ≠ e'.1 := List.pairwise_map.mp hj.nodup
        refine hkeys.imp fun hne l hl l' hl' => ?_
        obtain ⟨l, -, rfl⟩ := List.mem_map.mp hl
        obtain ⟨l', -, rfl⟩ := List.mem_map.mp hl'
        exact Apart.of_ne hne _ _

theorem Keyed.of_mem_leaves {j : Json} (hj : Keyed j) (h : (p, u) ∈ leaves keyed j) : Keyed u := by
  induction j using objInduction generalizing p with
  | leaf j hleaf =>
    rw [leaves_of_not_obj hleaf] at h
    obtain ⟨-, rfl⟩ := Prod.mk.inj (List.mem_singleton.mp h)
    exact hj
  | obj fields ih =>
    by_cases hfields : fields = []
    · subst hfields
      obtain ⟨-, rfl⟩ : p = [] ∧ u = obj [] := by simpa [leaves] using h
      exact hj
    · rw [leaves_obj hfields] at h
      obtain ⟨k, v, q, hmem, -, hq⟩ := mem_leavesFields.mp h
      exact ih _ hmem (hj.get? (Dict.get?_of_mem hj.nodup hmem)) hq

theorem Keyed.of_mem {xs : List Json} {x : Json} (h : Keyed (list xs)) (hx : x ∈ xs) : Keyed x := by
  obtain ⟨i, hi, rfl⟩ := List.getElem_of_mem hx
  rw [← List.getD_eq_getElem _ null hi]
  exact h.getD i

end Equal

end Json

end Structures
