import Howler.Datastore.AliasActions
import Howler.Datastore.Reindex

namespace Howler.Datastore

open Python Systems Prog

variable {D : Type}

/-- The indices that `reindex` works on. -/
def Own (name i : Str) : Prop := i = hotIndex name ∨ isRollover name i = true

instance (name i : Str) : Decidable (Own name i) :=
  inferInstanceAs (Decidable (i = hotIndex name ∨ isRollover name i = true))

theorem own_ne_copyOf {name i : Str} (hi : Own name i) (j : Str) : i ≠ copyOf j := by
  have hlast : ∀ s : Str, s.getLast? = some 'x' → s ≠ i := by
    intro s hs h
    rw [h] at hs
    cases hi with
    | inl hhot =>
      rw [hhot, hotIndex, List.getLast?_append] at hs
      simp at hs
    | inr hroll =>
      simp only [isRollover, Bool.decide_and, Bool.and_eq_true, decide_eq_true_eq] at hroll
      obtain ⟨-, hlength, hdigits⟩ := hroll
      have hlen : (i.drop (name.length + 1)).length = 6 := by
        rw [List.length_drop]
        omega
      have hne : i.drop (name.length + 1) ≠ [] := by
        intro h
        simp [h] at hlen
      have hdrop : (i.drop (name.length + 1)).getLast? = some 'x' := by
        rw [List.getLast?_drop, if_neg (by omega), hs]
      have hmem := List.mem_of_getLast? hdrop
      have hx := List.all_eq_true.mp hdigits 'x' hmem
      exact absurd hx (by decide)
  intro h
  apply hlast (copyOf j) _ h.symm
  rw [copyOf, List.getLast?_append]
  rfl

theorem copyOf_inj {i j : Str} (h : copyOf i = copyOf j) : i = j := List.append_cancel_right h

/-- The cluster with another index and another copy of it. -/
def Patched (c : Cluster D) (j : Str) (source copy : Option (Index D)) (c' : Cluster D) : Prop :=
  ∀ n, c'.index? n = if n = j then source else if n = copyOf j then copy else c.index? n

def SameAliases (ix ix' : Index D) : Prop := ∀ a, ix'.aliases.get? a = ix.aliases.get? a

/-- What is there of an index of the collection, and of its copy. -/
def Phase (whole : Index D) : Option (Index D) → Option (Index D) → Prop
  | some ix, none => ix.docs = whole.docs ∧ SameAliases whole ix
  | some ix, some cp => ix.docs = whole.docs ∧ cp.aliases = []
  | none, some cp => cp.docs = whole.docs ∧ cp.aliases = []
  | none, none => False

/-- Every index of the collection as it should be is in one of the phases. -/
def InPhase (name : Str) (whole c : Cluster D) : Prop :=
  ∀ i, Own name i → match whole.index? i with
    | some ix => Phase ix (c.index? i) (c.index? (copyOf i))
    | none => c.index? i = none ∧ c.index? (copyOf i) = none

/-- Neither the index nor its copy blocks writes. -/
def Unblocked (c : Cluster D) (i : Str) : Prop :=
  (∀ ix, c.index? i = some ix → ix.blocked = false) ∧
    ∀ ix, c.index? (copyOf i) = some ix → ix.blocked = false

/-- No index of the collection blocks writes that did not. -/
def Lifted (name : Str) (c c' : Cluster D) : Prop :=
  ∀ i, Own name i → Unblocked c i → Unblocked c' i

/-- Every index is still there with its documents. -/
def Remains (c c' : Cluster D) : Prop :=
  ∀ n ix, c.index? n = some ix → ∃ ix', c'.index? n = some ix' ∧ ix'.docs = ix.docs

theorem Lifted.trans {name : Str} {c₁ c₂ c₃ : Cluster D} (h₁ : Lifted name c₁ c₂)
    (h₂ : Lifted name c₂ c₃) : Lifted name c₁ c₃ :=
  fun i hi h => h₂ i hi (h₁ i hi h)

theorem Remains.trans {c₁ c₂ c₃ : Cluster D} (h₁ : Remains c₁ c₂) (h₂ : Remains c₂ c₃) :
    Remains c₁ c₃ := by
  intro n ix hix
  obtain ⟨ix₂, hix₂, hdocs₂⟩ := h₁ n ix hix
  obtain ⟨ix₃, hix₃, hdocs₃⟩ := h₂ n ix₂ hix₂
  exact ⟨ix₃, hix₃, hdocs₃.trans hdocs₂⟩

theorem Remains.refl (c : Cluster D) : Remains c c := fun _ ix hix => ⟨ix, hix, rfl⟩

section Patched

variable {name : Str} {whole c c' c'' : Cluster D} {j : Str} {x y x' y' : Option (Index D)}

theorem copyOf_ne (j : Str) : copyOf j ≠ j := by
  intro h
  have := congrArg List.length h
  simp [copyOf] at this

theorem Patched.source (h : Patched c j x y c') : c'.index? j = x := by
  rw [h, if_pos rfl]

theorem Patched.copy (h : Patched c j x y c') : c'.index? (copyOf j) = y := by
  rw [h, if_neg (copyOf_ne j), if_pos rfl]

/-- What changes the source and the copy of a patched cluster patches it. -/
theorem Patched.trans (h : Patched c j x y c') (h' : Patched c' j x' y' c'') :
    Patched c j x' y' c'' := by
  intro n
  rw [h', h]
  by_cases hn : n = j
  · simp [hn]
  · by_cases hc : n = copyOf j
    · simp [hc, copyOf_ne]
    · simp [hn, hc]

theorem Patched.inPhase (h : Patched c j x y c') (hj : Own name j) (hc : InPhase name whole c)
    (hxy : match whole.index? j with
      | some ix => Phase ix x y
      | none => x = none ∧ y = none) : InPhase name whole c' := by
  intro i hi
  by_cases hij : i = j
  · subst hij
    rw [h.source, h.copy]
    exact hxy
  · rw [h i, h (copyOf i), if_neg hij, if_neg (own_ne_copyOf hi j),
      if_neg (own_ne_copyOf hj i).symm, if_neg (fun he => hij (copyOf_inj he))]
    exact hc i hi

theorem Patched.lifted (h : Patched c j x y c') (hj : Own name j)
    (hx : Unblocked c j → ∀ ix, x = some ix → ix.blocked = false)
    (hy : Unblocked c j → ∀ ix, y = some ix → ix.blocked = false) : Lifted name c c' := by
  intro i hi hu
  by_cases hij : i = j
  · subst hij
    rw [Unblocked, h.source, h.copy]
    exact ⟨hx hu, hy hu⟩
  · rw [Unblocked, h i, h (copyOf i), if_neg hij, if_neg (own_ne_copyOf hi j),
      if_neg (own_ne_copyOf hj i).symm, if_neg (fun he => hij (copyOf_inj he))]
    exact hu

theorem Patched.remains (h : Patched c j x y c')
    (hx : ∀ ix, c.index? j = some ix → ∃ ix', x = some ix' ∧ ix'.docs = ix.docs)
    (hy : ∀ ix, c.index? (copyOf j) = some ix → ∃ ix', y = some ix' ∧ ix'.docs = ix.docs) :
    Remains c c' := by
  intro n ix hix
  rw [h n]
  by_cases hn : n = j
  · rw [if_pos hn]
    exact hx ix (hn ▸ hix)
  · by_cases hc : n = copyOf j
    · rw [if_neg hn, if_pos hc]
      exact hy ix (hc ▸ hix)
    · rw [if_neg hn, if_neg hc]
      exact ⟨ix, hix, rfl⟩

end Patched

end Howler.Datastore
