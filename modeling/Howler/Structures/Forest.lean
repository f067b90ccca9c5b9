import Mathlib.Data.List.Nodup
import Mathlib.Logic.Function.Basic
import Mathlib.Tactic.Common

namespace Structures

variable {α K : Type*} (key : α → K) (parent : α → Option K) (inner : α → Prop)

/-- Nodes with distinct keys that point to their parents: a parent is an inner node of the list,
and ranks go down on the way to it, so that there is no cycle. -/
structure Forest (xs : List α) : Prop where
  nodup : (xs.map key).Nodup
  parents : ∀ x ∈ xs, ∀ p, parent x = some p → ∃ y ∈ xs, key y = p ∧ inner y
  ranked : ∃ rank : K → Nat, ∀ x ∈ xs, ∀ p, parent x = some p → rank p < rank (key x)

/-- Going from parent to parent ends at a root. -/
inductive Rooted (xs : List α) : α → Prop
  | root {x : α} (h : parent x = none) : Rooted xs x
  | child {x y : α} (hy : y ∈ xs) (h : parent x = some (key y)) (hr : Rooted xs y) : Rooted xs x

/-- The node with a key is the node with another key or lies below it. -/
inductive Under (xs : List α) (a : K) : K → Prop
  | refl : Under xs a a
  | step {x : α} {p : K} (hx : x ∈ xs) (h : parent x = some p) (hp : Under xs a p) :
      Under xs a (key x)

variable {key parent inner} {xs : List α}

theorem forest_nil : Forest key parent inner [] :=
  ⟨List.nodup_nil, by simp, fun _ => 0, by simp⟩

theorem key_inj (hnd : (xs.map key).Nodup) {x y : α} (hx : x ∈ xs) (hy : y ∈ xs)
    (h : key x = key y) : x = y :=
  List.inj_on_of_nodup_map hnd hx hy h

/-- Ranks go up on the way down. -/
theorem rank_le_of_under {rank : K → Nat}
    (hrank : ∀ x ∈ xs, ∀ p, parent x = some p → rank p < rank (key x)) {a c : K}
    (hu : Under key parent xs a c) : rank a ≤ rank c := by
  induction hu with
  | refl => exact Nat.le_refl _
  | step hx hp _ ih =>
    exact Nat.le_of_lt (Nat.lt_of_le_of_lt ih (hrank _ hx _ hp))

namespace Forest

variable (h : Forest key parent inner xs)

include h

theorem rooted {x : α} (hx : x ∈ xs) : Rooted key parent xs x := by
  obtain ⟨rank, hrank⟩ := h.ranked
  induction hn : rank (key x) using Nat.strongRecOn generalizing x with
  | ind n ih =>
    cases hp : parent x with
    | none => exact .root hp
    | some p =>
      obtain ⟨y, hy, rfl, -⟩ := h.parents x hx p hp
      have hlt := hrank x hx _ hp
      exact .child hy hp (ih _ (hn ▸ hlt) hy rfl)

/-- A node with a new key, below an inner node or as a root. -/
theorem append [DecidableEq K] {x : α} (hk : key x ∉ xs.map key)
    (hp : ∀ p, parent x = some p → ∃ y ∈ xs, key y = p ∧ inner y) :
    Forest key parent inner (xs ++ [x]) := by
  have hpar : ∀ z ∈ xs ++ [x], ∀ p, parent z = some p → ∃ y ∈ xs, key y = p ∧ inner y := by
    intro z hz p hzp
    cases List.mem_append.mp hz with
    | inl hz => exact h.parents z hz p hzp
    | inr hz =>
      obtain rfl := List.mem_singleton.mp hz
      exact hp p hzp
  obtain ⟨rank, hrank⟩ := h.ranked
  refine ⟨?_, fun z hz p hzp => ?_, ?_⟩
  · rw [List.map_append, List.nodup_append]
    refine ⟨h.nodup, by simp, fun a ha b hb => ?_⟩
    obtain rfl : b = key x := by simpa using hb
    exact fun heq => hk (heq ▸ ha)
  · obtain ⟨y, hy, hyp⟩ := hpar z hz p hzp
    exact ⟨y, List.mem_append_left _ hy, hyp⟩
  · -- the new node is ranked above its parent
    refine ⟨Function.update rank (key x) ((parent x).elim 0 fun p => rank p + 1),
      fun z hz p hzp => ?_⟩
    obtain ⟨y, hy, hyp, -⟩ := hpar z hz p hzp
    have hpx : p ≠ key x := fun heq => hk (heq ▸ hyp ▸ List.mem_map_of_mem hy)
    rw [Function.update_of_ne hpx]
    cases List.mem_append.mp hz with
    | inl hz =>
      have hzx : key z ≠ key x := fun heq => hk (heq ▸ List.mem_map_of_mem hz)
      rw [Function.update_of_ne hzx]
      exact hrank z hz p hzp
    | inr hz =>
      obtain rfl := List.mem_singleton.mp hz
      simp [hzp]

/-- Nodes may go as long as the parents of those that stay do. -/
theorem filter (keep : α → Bool)
    (hk : ∀ x ∈ xs, keep x → ∀ y ∈ xs, parent x = some (key y) → keep y) :
    Forest key parent inner (xs.filter keep) := by
  obtain ⟨rank, hrank⟩ := h.ranked
  refine ⟨h.nodup.sublist (List.filter_sublist.map key), fun x hx p hp => ?_, rank,
    fun x hx => hrank x (List.mem_filter.mp hx).1⟩
  obtain ⟨hx, hkx⟩ := List.mem_filter.mp hx
  obtain ⟨y, hy, rfl, hin⟩ := h.parents x hx p hp
  exact ⟨y, List.mem_filter.mpr ⟨hy, hk x hx hkx y hy hp⟩, rfl, hin⟩

/-- Nodes may change in other respects than their keys and parents. -/
theorem map {f : α → α} (hkey : ∀ x, key (f x) = key x) (hpar : ∀ x, parent (f x) = parent x)
    (hin : ∀ x, inner x → inner (f x)) : Forest key parent inner (xs.map f) := by
  obtain ⟨rank, hrank⟩ := h.ranked
  refine ⟨?_, fun x hx p hp => ?_, rank, fun x hx p hp => ?_⟩
  · rw [List.map_map]
    simpa [Function.comp_def, hkey] using h.nodup
  · obtain ⟨z, hz, rfl⟩ := List.mem_map.mp hx
    obtain ⟨y, hy, rfl, hiny⟩ := h.parents z hz p (hpar z ▸ hp)
    exact ⟨f y, List.mem_map_of_mem hy, hkey y, hin y hiny⟩
  · obtain ⟨z, hz, rfl⟩ := List.mem_map.mp hx
    rw [hkey]
    exact hrank z hz p (hpar z ▸ hp)

/-- One node may move to an inner node that is not below it, or become a root. -/
theorem reparent {f : α → α} {a : K} {newParent : Option K} (hkey : ∀ x, key (f x) = key x)
    (hin : ∀ x, inner x → inner (f x)) (hother : ∀ x, key x ≠ a → parent (f x) = parent x)
    (hmoved : ∀ x, key x = a → parent (f x) = newParent)
    (hnew : ∀ p, newParent = some p →
      (∃ y ∈ xs, key y = p ∧ inner y) ∧ ¬ Under key parent xs a p) :
    Forest key parent inner (xs.map f) := by
  classical
  obtain ⟨rank, hrank⟩ := h.ranked
  have hpar : ∀ x ∈ xs, ∀ p, parent (f x) = some p → ∃ y ∈ xs, key y = p ∧ inner y := by
    intro x hx p hp
    by_cases hxa : key x = a
    · exact (hnew p (hmoved x hxa ▸ hp)).1
    · exact h.parents x hx p (hother x hxa ▸ hp)
  refine ⟨?_, fun x hx p hp => ?_, ?_⟩
  · rw [List.map_map]
    simpa [Function.comp_def, hkey] using h.nodup
  · obtain ⟨z, hz, rfl⟩ := List.mem_map.mp hx
    obtain ⟨y, hy, rfl, hiny⟩ := hpar z hz p hp
    exact ⟨f y, List.mem_map_of_mem hy, hkey y, hin y hiny⟩
  · -- what is below the moved node is ranked above the new parent
    refine ⟨fun c => if Under key parent xs a c then rank c + newParent.elim 0 rank + 1
      else rank c, fun x hx p hp => ?_⟩
    obtain ⟨z, hz, rfl⟩ := List.mem_map.mp hx
    rw [hkey]
    beta_reduce
    by_cases hza : key z = a
    · have hnp : newParent = some p := (hmoved z hza).symm.trans hp
      rw [hza, if_neg (hnew p hnp).2, if_pos .refl, hnp]
      simp only [Option.elim_some]
      omega
    · have hp' : parent z = some p := (hother z hza).symm.trans hp
      have hlt := hrank z hz p hp'
      by_cases hup : Under key parent xs a p
      · rw [if_pos hup, if_pos (.step hz hp' hup)]
        omega
      · rw [if_neg hup]
        split <;> omega

/-- Only an inner node has something below it. -/
theorem under_iff_of_not_inner {a c : K} (ha : ∀ y ∈ xs, key y = a → ¬ inner y) :
    Under key parent xs a c ↔ c = a := by
  constructor
  · intro hu
    induction hu with
    | refl => rfl
    | step hx hp _ ih =>
      obtain ⟨y, hy, hyp, hin⟩ := h.parents _ hx _ hp
      exact absurd hin (ha y hy (hyp.trans ih))
  · intro hc
    exact hc ▸ .refl

/-- A parent is not below its child. -/
theorem not_under_parent {x : α} {p : K} (hx : x ∈ xs) (hp : parent x = some p) :
    ¬Under key parent xs (key x) p := by
  obtain ⟨rank, hrank⟩ := h.ranked
  intro hu
  have hle := rank_le_of_under hrank hu
  have hlt := hrank x hx p hp
  omega

end Forest

theorem Under.trans {a b c : K} (hab : Under key parent xs a b) (hbc : Under key parent xs b c) :
    Under key parent xs a c := by
  induction hbc with
  | refl => exact hab
  | step hx hp _ ih => exact .step hx hp ih

open Classical in
/-- The nodes below a key. -/
noncomputable def below (key : α → K) (parent : α → Option K) (xs : List α) (a : K) : List α :=
  xs.filter fun x => Under key parent xs a (key x) ∧ key x ≠ a

theorem mem_below {a : K} {x : α} :
    x ∈ below key parent xs a ↔ x ∈ xs ∧ Under key parent xs a (key x) ∧ key x ≠ a := by
  classical
  simp [below]

/-- Fewer nodes are below a child than below its parent. -/
theorem Forest.below_child_lt (h : Forest key parent inner xs) {x : α} {p : K} (hx : x ∈ xs)
    (hp : parent x = some p) :
    (below key parent xs (key x)).length < (below key parent xs p).length := by
  classical
  have hchild : Under key parent xs p (key x) := .step hx hp .refl
  have hnot := h.not_under_parent hx hp
  have hne : key x ≠ p := fun heq => hnot (heq ▸ .refl)
  have hsub : below key parent xs (key x) =
      (below key parent xs p).filter fun y => Under key parent xs (key x) (key y) ∧
        key y ≠ key x := by
    rw [below, below, List.filter_filter]
    refine List.filter_congr fun y hy => ?_
    by_cases hu : Under key parent xs (key x) (key y)
    · have hpy : key y ≠ p := fun heq => hnot (heq ▸ hu)
      simp [hu, hchild.trans hu, hpy]
    · simp [hu]
  rw [hsub]
  exact List.length_filter_lt_length_iff_exists.mpr
    ⟨x, mem_below.mpr ⟨hx, hchild, hne⟩, by simp⟩

end Structures
