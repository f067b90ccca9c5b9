import Mathlib.Logic.Equiv.Basic
import Howler.Cases.Paths

namespace Howler

open Python

/-- The item with other ids. -/
def CaseItem.rename (f : Equiv.Perm Str) (i : CaseItem) : CaseItem :=
  { i with id := f i.id, parent := i.parent.map f }

namespace Cases

/-- An id that no item has, nor a parent. -/
structure Unused (items : List CaseItem) (id : Str) : Prop where
  nonempty : id ≠ []
  ids : ∀ i ∈ items, i.id ≠ id
  parents : ∀ i ∈ items, i.parent ≠ some id

/-- The items agree one by one in everything but their ids, and the ids correspond. -/
structure Renames (f : Equiv.Perm Str) (items items' : List CaseItem) : Prop where
  empty : f [] = []
  eq : items' = items.map (·.rename f)

/-- A parent that is none, or the id of an item. -/
def Known (items : List CaseItem) (parent : Option Str) : Prop :=
  ∀ p, parent = some p → ∃ i ∈ items, i.id = p

section Renames

variable {f : Equiv.Perm Str} {items items' : List CaseItem} {c c' : Case}

theorem optionalText_map (h : f [] = []) (p : Option Str) :
    optionalText (p.map f) = (optionalText p).map f := by
  cases p with
  | none => rfl
  | some q =>
    cases q with
    | nil => simp [optionalText, h]
    | cons a q =>
      have hne : f (a :: q) ≠ [] := fun hf => by
        rw [← h] at hf
        simpa using f.injective hf
      cases hq : f (a :: q) with
      | nil => exact absurd hq hne
      | cons b r => simp [optionalText, hq]

/-- An unused id may be made to correspond to another. -/
theorem Renames.extend {a a' : Str} (h : Renames f items items') (ha : Unused items a)
    (ha' : Unused items' a') : ∃ f' : Equiv.Perm Str, f' a = a' ∧ Renames f' items items' ∧
      ∀ i ∈ items, f' i.id = f i.id := by
  have hold : ∀ x, x ≠ a → f x ≠ a' → (f.trans (Equiv.swap (f a) a')) x = f x := by
    intro x hx hx'
    rw [Equiv.trans_apply]
    exact Equiv.swap_apply_of_ne_of_ne (fun heq => hx (f.injective heq)) hx'
  have hids : ∀ i ∈ items, f i.id ≠ a' := by
    intro i hi
    have hi' : i.rename f ∈ items' := h.eq ▸ List.mem_map_of_mem hi
    exact ha'.ids _ hi'
  have hparents : ∀ i ∈ items, ∀ p, i.parent = some p → f p ≠ a' := by
    intro i hi p hp heq
    have hi' : i.rename f ∈ items' := h.eq ▸ List.mem_map_of_mem hi
    exact ha'.parents _ hi' (by simp [CaseItem.rename, hp, heq])
  refine ⟨f.trans (Equiv.swap (f a) a'), by simp, ⟨?_, ?_⟩, fun i hi => ?_⟩
  · have hempty : f [] ≠ a' := by
      rw [h.empty]
      exact ha'.nonempty.symm
    rw [hold [] ha.nonempty.symm hempty, h.empty]
  · rw [h.eq]
    refine List.map_congr_left fun i hi => ?_
    have hid := hold i.id (ha.ids i hi) (hids i hi)
    have hpar : i.parent.map f = i.parent.map (f.trans (Equiv.swap (f a) a')) := by
      cases hp : i.parent with
      | none => rfl
      | some p =>
        have hne : p ≠ a := fun heq => ha.parents i hi (heq ▸ hp)
        rw [Option.map_some, Option.map_some, hold p hne (hparents i hi p hp)]
    rw [CaseItem.rename, CaseItem.rename, hid, hpar]
  · exact hold i.id (ha.ids i hi) (hids i hi)

theorem Renames.append {i i' : CaseItem} (h : Renames f items items') (hi : i' = i.rename f) :
    Renames f (items ++ [i]) (items' ++ [i']) :=
  ⟨h.empty, by rw [h.eq, hi, List.map_append, List.map_singleton]⟩

theorem Known.map_eq {f' : Equiv.Perm Str} {p : Option Str} (h : Known items p)
    (hf : ∀ i ∈ items, f' i.id = f i.id) : p.map f' = p.map f := by
  cases p with
  | none => rfl
  | some q =>
    obtain ⟨i, hi, rfl⟩ := h q rfl
    rw [Option.map_some, Option.map_some, hf i hi]

theorem parent_eq_iff {p q : Option Str} : p.map f = q.map f ↔ p = q :=
  (Option.map_injective f.injective).eq_iff

theorem findFolder_rename (h : Renames f items items') (name : Str) (p : Option Str) :
    findFolder items' name (p.map f) = (findFolder items name p).map (·.rename f) := by
  rw [h.eq, findFolder, findFolder, List.find?_map]
  congr 2
  funext i
  simp only [Function.comp_apply, CaseItem.rename, parent_eq_iff]

theorem displayName_rename (i : CaseItem) : Case.displayName (i.rename f) = Case.displayName i :=
  rfl

theorem any_rename (h : Renames f items items') {P P' : CaseItem → Bool}
    (hP : ∀ i, P' (i.rename f) = P i) : items'.any P' = items.any P := by
  rw [h.eq, List.any_map]
  congr 1
  funext i
  exact hP i

theorem checkConflicts_rename (h : Renames f c.items c'.items) (i : CaseItem) (b : Bool) :
    Case.checkConflicts c' (i.rename f) = .ok b ↔ Case.checkConflicts c i = .ok b := by
  have hexists : (∃ e ∈ c'.items, e.type = i.type ∧ e.value = i.value) ↔
      ∃ e ∈ c.items, e.type = i.type ∧ e.value = i.value := by
    rw [h.eq]
    simp [CaseItem.rename]
  have hany : (c'.items.any fun ci => ci.name = some (Case.displayName (i.rename f)) ∧
      ci.parent = (i.rename f).parent) =
      c.items.any fun ci => ci.name = some (Case.displayName i) ∧ ci.parent = i.parent := by
    refine any_rename h fun e => ?_
    rw [displayName_rename]
    simp only [CaseItem.rename, parent_eq_iff]
  unfold Case.checkConflicts
  rw [hany]
  simp only [CaseItem.rename, hexists]
  split
  · simp
  · rfl

theorem checkParent_rename (h : Renames f c.items c'.items) (p : Option Str) :
    Case.checkParent c' (p.map f) = .ok () ↔ Case.checkParent c p = .ok () := by
  cases p with
  | none => rfl
  | some q =>
    have hfind : c'.items.find? (·.id = f q) = (c.items.find? (·.id = q)).map (·.rename f) := by
      rw [h.eq, List.find?_map]
      congr 2
      funext i
      simp [CaseItem.rename]
    rw [Option.map_some, Case.checkParent, Case.checkParent, Case.ensureParentExists,
      Case.ensureParentExists, hfind]
    cases c.items.find? (·.id = q) with
    | none => simp
    | some i =>
      simp only [Option.map_some, CaseItem.rename]
      split <;> simp

end Renames

end Cases

end Howler
