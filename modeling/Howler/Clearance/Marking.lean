import Mathlib.Data.Finset.Image

namespace Clearance

section Admits

variable {α : Type*} [DecidableEq α]

/-- One common member is enough, and a document that names none is open to everybody. -/
def Admits (user doc : Finset α) : Prop := doc = ∅ ∨ (user ∩ doc).Nonempty

instance (user doc : Finset α) : Decidable (Admits user doc) :=
  inferInstanceAs (Decidable (doc = ∅ ∨ (user ∩ doc).Nonempty))

theorem Admits.exists_mem {user doc : Finset α} (h : Admits user doc) (hd : doc.Nonempty) :
    ∃ a ∈ user, a ∈ doc := by
  rcases h with h | ⟨a, ha⟩
  · rw [h] at hd
    exact absurd hd Finset.not_nonempty_empty
  · exact ⟨a, (Finset.mem_inter.mp ha).1, (Finset.mem_inter.mp ha).2⟩

theorem admits_of_mem {user doc : Finset α} {a : α} (hu : a ∈ user) (hd : a ∈ doc) :
    Admits user doc :=
  .inr ⟨a, Finset.mem_inter.mpr ⟨hu, hd⟩⟩

theorem admits_empty (user : Finset α) : Admits user ∅ := .inl rfl

/-- A user keeps what was admitted when groups are added to the clearance. -/
theorem Admits.mono {u u' doc : Finset α} (h : Admits u doc) (hu : u ⊆ u') : Admits u' doc := by
  rcases h with h | h
  · exact .inl h
  · exact .inr (h.mono (Finset.inter_subset_inter_right hu))

/-- Fewer groups admit fewer users, as long as one is left. -/
theorem Admits.of_subset {user doc doc' : Finset α} (h : Admits user doc') (hne : doc'.Nonempty)
    (hd : doc' ⊆ doc) : Admits user doc := by
  obtain ⟨a, hu, ha⟩ := h.exists_mem hne
  exact admits_of_mem hu (hd ha)

/-- The narrowing of one family by another: their intersection, or the one that is not empty. -/
def meetGroups (a b : Finset α) : Finset α := if a = ∅ ∨ b = ∅ then a ∪ b else a ∩ b

/-- Whoever is admitted by the first family is admitted by the second. -/
def Narrows (a b : Finset α) : Prop := b = ∅ ∨ (a.Nonempty ∧ a ⊆ b)

instance (a b : Finset α) : Decidable (Narrows a b) :=
  inferInstanceAs (Decidable (b = ∅ ∨ (a.Nonempty ∧ a ⊆ b)))

theorem Narrows.admits {a b user : Finset α} (h : Narrows a b) (hu : Admits user a) :
    Admits user b := by
  rcases h with rfl | ⟨hne, hab⟩
  · exact admits_empty user
  · exact hu.of_subset hne hab

/-- Where one family does not narrow the other, some choice from it admits to the first and not
to the second. -/
theorem exists_apart {a b : Finset α} (h : ¬ Narrows a b) :
    b.Nonempty ∧ ∃ c ⊆ a, (a = ∅ ∨ c.Nonempty) ∧ Disjoint c b := by
  rw [Narrows, not_or, ← Ne, ← Finset.nonempty_iff_ne_empty] at h
  refine ⟨h.1, ?_⟩
  by_cases ha : a = ∅
  · exact ⟨∅, Finset.empty_subset a, .inl ha, Finset.disjoint_empty_left b⟩
  · obtain ⟨x, hx, hxb⟩ := Finset.not_subset.mp fun hs =>
      h.2 ⟨Finset.nonempty_iff_ne_empty.mpr ha, hs⟩
    exact ⟨{x}, Finset.singleton_subset_iff.mpr hx, .inr (Finset.singleton_nonempty x),
      Finset.disjoint_singleton_left.mpr hxb⟩

theorem not_admits_of_disjoint {user doc : Finset α} (hd : doc.Nonempty)
    (h : Disjoint user doc) : ¬ Admits user doc := by
  rintro (h' | h')
  · exact hd.ne_empty h'
  · exact h'.ne_empty (Finset.disjoint_iff_inter_eq_empty.mp h)

end Admits

/-- A marking: a level, tokens that are all needed, and two families of groups of which one
member is enough. The same record is a document's label and a user's clearance. -/
@[ext] structure Marking (L T G S : Type*) where
  lvl : L
  req : Finset T
  grp : Finset G
  sub : Finset S

/-- Part by part: a derived instance would rewrite along the equality of the sets before. -/
instance {L T G S : Type*} [DecidableEq L] [DecidableEq T] [DecidableEq G] [DecidableEq S] :
    DecidableEq (Marking L T G S) := fun _ _ =>
  decidable_of_iff _ Marking.ext_iff.symm

variable {L T G S : Type*} [LE L] [DecidableEq G] [DecidableEq S]

/-- Two documents in one: the higher level, all the tokens and the narrowed families. -/
def mix {L T G S : Type*} [Max L] [DecidableEq T] [DecidableEq G] [DecidableEq S]
    (d₁ d₂ : Marking L T G S) : Marking L T G S where
  lvl := max d₁.lvl d₂.lvl
  req := d₁.req ∪ d₂.req
  grp := meetGroups d₁.grp d₂.grp
  sub := meetGroups d₁.sub d₂.sub

/-- The user may see the document. -/
structure CanSee (user doc : Marking L T G S) : Prop where
  lvl : doc.lvl ≤ user.lvl
  req : doc.req ⊆ user.req
  grp : Admits user.grp doc.grp
  sub : Admits user.sub doc.sub

/-- Clearances grow with each of their four parts. -/
structure AtMost (u u' : Marking L T G S) : Prop where
  lvl : u.lvl ≤ u'.lvl
  req : u.req ⊆ u'.req
  grp : u.grp ⊆ u'.grp
  sub : u.sub ⊆ u'.sub

theorem AtMost.trans {L T G S : Type*} [Preorder L] {u u' u'' : Marking L T G S}
    (h : AtMost u u') (h' : AtMost u' u'') : AtMost u u'' :=
  ⟨h.lvl.trans h'.lvl, h.req.trans h'.req, h.grp.trans h'.grp, h.sub.trans h'.sub⟩

/-- Two clearances in one: the higher level and everything that either names. -/
def combine {L T G S : Type*} [Max L] [DecidableEq T] [DecidableEq G] [DecidableEq S]
    (u₁ u₂ : Marking L T G S) : Marking L T G S where
  lvl := max u₁.lvl u₂.lvl
  req := u₁.req ∪ u₂.req
  grp := u₁.grp ∪ u₂.grp
  sub := u₁.sub ∪ u₂.sub

section Combine

variable {L T : Type*} [LinearOrder L] [DecidableEq T] {u u' : Marking L T G S}

theorem atMost_combine_left (u u' : Marking L T G S) : AtMost u (combine u u') :=
  ⟨le_max_left _ _, Finset.subset_union_left, Finset.subset_union_left,
    Finset.subset_union_left⟩

theorem atMost_combine_right (u u' : Marking L T G S) : AtMost u' (combine u u') :=
  ⟨le_max_right _ _, Finset.subset_union_right, Finset.subset_union_right,
    Finset.subset_union_right⟩

end Combine

theorem CanSee.mono {L : Type*} [Preorder L] {u u' d : Marking L T G S} (h : CanSee u d)
    (hu : AtMost u u') : CanSee u' d :=
  ⟨h.lvl.trans hu.lvl, h.req.trans hu.req, h.grp.mono hu.grp, h.sub.mono hu.sub⟩

/-- What two clearances have in common: the lower level and what both name. -/
def intersect {L T G S : Type*} [Min L] [DecidableEq T] [DecidableEq G] [DecidableEq S]
    (u₁ u₂ : Marking L T G S) : Marking L T G S where
  lvl := min u₁.lvl u₂.lvl
  req := u₁.req ∩ u₂.req
  grp := u₁.grp ∩ u₂.grp
  sub := u₁.sub ∩ u₂.sub

section Intersect

variable {L T : Type*} [LinearOrder L] [DecidableEq T]

theorem atMost_intersect_left (u u' : Marking L T G S) : AtMost (intersect u u') u :=
  ⟨min_le_left _ _, Finset.inter_subset_left, Finset.inter_subset_left,
    Finset.inter_subset_left⟩

theorem atMost_intersect_right (u u' : Marking L T G S) : AtMost (intersect u u') u' :=
  ⟨min_le_right _ _, Finset.inter_subset_right, Finset.inter_subset_right,
    Finset.inter_subset_right⟩

end Intersect

/-- The widening of one family by another: their union, or nothing where one of them is open to
everybody. -/
def joinGroups (a b : Finset G) : Finset G := if a = ∅ ∨ b = ∅ then ∅ else a ∪ b

theorem joinGroups_comm (a b : Finset G) : joinGroups a b = joinGroups b a := by
  simp only [joinGroups, Finset.union_comm a, or_comm (a := a = ∅)]

theorem mem_joinGroups {a b : Finset G} {x : G} :
    x ∈ joinGroups a b ↔ a.Nonempty ∧ b.Nonempty ∧ (x ∈ a ∨ x ∈ b) := by
  unfold joinGroups
  split_ifs with h
  · have hno : ¬ (a.Nonempty ∧ b.Nonempty) := by
      rintro ⟨ha, hb⟩
      exact h.elim ha.ne_empty hb.ne_empty
    simp only [Finset.notMem_empty, false_iff]
    exact fun hx => hno ⟨hx.1, hx.2.1⟩
  · rw [not_or, ← Ne, ← Ne, ← Finset.nonempty_iff_ne_empty, ← Finset.nonempty_iff_ne_empty] at h
    simp [h]

/-- Whoever is admitted by one of the families is admitted by the widened one. -/
theorem narrows_joinGroups (a b : Finset G) : Narrows a (joinGroups a b) := by
  by_cases h : a = ∅ ∨ b = ∅
  · exact .inl (if_pos h)
  · have ha : a.Nonempty := Finset.nonempty_iff_ne_empty.mpr fun he => h (.inl he)
    have hu : joinGroups a b = a ∪ b := if_neg h
    exact .inr ⟨ha, hu ▸ Finset.subset_union_left⟩

/-- Two documents in one that keeps out nobody whom one of them lets in: the lower level, the
tokens in common and the widened families. -/
def pool {L T G S : Type*} [Min L] [DecidableEq T] [DecidableEq G] [DecidableEq S]
    (d₁ d₂ : Marking L T G S) : Marking L T G S where
  lvl := min d₁.lvl d₂.lvl
  req := d₁.req ∩ d₂.req
  grp := joinGroups d₁.grp d₂.grp
  sub := joinGroups d₁.sub d₂.sub

theorem pool_comm {L T : Type*} [LinearOrder L] [DecidableEq T] (d d' : Marking L T G S) :
    pool d d' = pool d' d := by
  simp only [pool, min_comm d.lvl, Finset.inter_comm d.req, joinGroups_comm d.grp,
    joinGroups_comm d.sub]

end Clearance
