import Howler.Classification.Normal
import Mathlib.Algebra.BigOperators.Group.Finset.Basic
import Mathlib.Algebra.Order.BigOperators.Group.Finset

namespace Howler

open Python Clearance

namespace Engine

theorem weight_unnested_le (x : Str) : weight (unnested x) ≤ weight x := by
  rw [unnested, weight_strip]
  exact (weight_replace_nil_le _ _).trans (weight_replace_nil_le _ _)

/-- A name that opens a `REL` marking loses that opening. -/
theorem weight_unnested_lt {x : Str} (h : ¬ Clean x) : weight (unnested x) < weight x := by
  have hrel : "REL ".toList <:+: x := not_not.mp h
  rw [unnested, weight_strip]
  by_cases hto : "REL TO ".toList <:+: x
  · have hle : weight (replace ('R' :: "EL TO ".toList) [] x) +
        weight ('R' :: "EL TO ".toList) ≤ weight x := weight_replace_nil_of_occurs hto
    have hpos : 0 < weight ('R' :: "EL TO ".toList) := by decide
    exact (weight_replace_nil_le _ _).trans_lt
      (show weight (replace ('R' :: "EL TO ".toList) [] x) < weight x by omega)
  · rw [replace_nil_of_absent hto]
    have hle : weight (replace ('R' :: "EL ".toList) [] x) + weight ('R' :: "EL ".toList) ≤
        weight x := weight_replace_nil_of_occurs hrel
    have hpos : 0 < weight ('R' :: "EL ".toList) := by decide
    exact show weight (replace ('R' :: "EL ".toList) [] x) < weight x by omega

/-- A finite set whose members are all read from its members has none that opens a marking. -/
theorem clean_of_unnested_surj {U : Finset Str} (h : ∀ u ∈ U, ∃ x ∈ U, unnested x = u) :
    ∀ x ∈ U, Clean x := by
  have himg : U ⊆ U.image unnested := fun u hu => Finset.mem_image.mpr (h u hu)
  have heq : U = U.image unnested :=
    Finset.eq_of_subset_of_card_le himg Finset.card_image_le
  have hinj : Set.InjOn unnested U := by
    rw [← Finset.card_image_iff, ← heq]
  have hsum : ∑ x ∈ U, weight (unnested x) = ∑ x ∈ U, weight x := by
    conv_rhs => rw [heq]
    rw [Finset.sum_image hinj]
  intro x hx
  by_contra hc
  have hlt : ∑ y ∈ U, weight (unnested y) < ∑ y ∈ U, weight y :=
    Finset.sum_lt_sum (fun y _ => weight_unnested_le y) ⟨x, hx, weight_unnested_lt hc⟩
  omega

variable {rt : Runtime} {E : Engine} {long skip : Bool} {M : Label}

theorem aliasGroups_known (hC : E.Coherent) {xs : List Str}
    (h : ∃ x ∈ xs, E.groupKeys x = none) : E.aliasGroups xs = xs := by
  rcases aliasGroups_cases (E := E) xs with ⟨h', -⟩ | ⟨e, he, hl, hs, -⟩
  · exact h'
  · obtain ⟨x, hx, hn⟩ := h
    have hm : x ∈ e.2 := by rwa [← hs, mem_sorted] at hx
    exact absurd hn (groupKeys_ne_none (hC.grpAlias e he x hm))

/-- A name that stands for itself is shown in a `REL TO` marking. -/
theorem groupMark_unknown (hC : E.Coherent) (hL : Legible rt E long) {xs : List Str}
    (h : ∃ x ∈ xs, E.groupKeys x = none) :
    E.groupMark xs long = "REL TO ".toList ++ join ", ".toList (sorted xs) := by
  rcases xs with - | ⟨x, - | ⟨y, ys⟩⟩
  · simp at h
  · obtain ⟨z, hz, hn⟩ := h
    rw [List.mem_singleton.mp hz] at hn
    show (if (E.params x).solitaryDisplayName.getD x ≠ x then _ else _) = _
    rw [solitaryDisplayName_of_unknown hL hn, if_neg (by simp), show sorted [x] = [x] from rfl,
      join_singleton]
  · show "REL TO ".toList ++ join ", ".toList
      (sorted (if long then x :: y :: ys else E.aliasGroups (x :: y :: ys))) = _
    rw [aliasGroups_known hC h, ite_self]

section Unknown

variable (skip) (hC : E.Coherent) (hL : Legible rt E long) (hN : Nameable rt E M) {u : Str}
  (hu : u ∈ M.grp) (hun : E.groupKeys u = none)

include hL hN hu hun in
theorem mem_groupList_unknown : u ∈ groupList rt E long skip M := by
  rw [groupList, mem_shownGroups rt skip hL hN (shows_partsOf E long M)]
  exact ⟨u, subset_withAuto _ _ _ (Finset.mem_union_left _ hu), groupText_of_unknown long hun⟩

include hC hL hN hu hun

theorem shownMark_unknown :
    shownMark rt E (E.partsOf long M).groups (E.partsOf long M).subgroups long skip =
      some ("REL TO ".toList ++ join ", ".toList (sorted (groupList rt E long skip M))) := by
  have hmem := mem_groupList_unknown skip hL hN hu hun
  rw [shownMark_eq, if_neg (List.ne_nil_of_mem hmem), groupMark_unknown hC hL ⟨u, hmem, hun⟩]

end Unknown

/-- A text whose groups are read back as they were has no name that opens a `REL` marking. -/
theorem tidy_of_heard (hC : E.Coherent) (hL : Legible rt E long) (hN : Nameable rt E M)
    (hgrp : E.heard (E.closure skip M).grp = (E.closure skip M).grp) : E.Tidy M := by
  let U : Finset Str := M.grp.filter fun g => E.groupKeys g = none
  suffices h : ∀ u ∈ U, ∃ x ∈ U, unnested x = u by
    intro g hg hn
    exact clean_of_unnested_surj h g (Finset.mem_filter.mpr ⟨hg, hn⟩)
  intro u hu
  obtain ⟨huM, hun⟩ := Finset.mem_filter.mp hu
  have huc : u ∈ (E.closure skip M).grp := subset_withAuto _ _ _ (Finset.mem_union_left _ huM)
  rw [← hgrp, mem_heard] at huc
  obtain ⟨g, hg, hug⟩ := huc
  by_cases hk : E.groupKeys g = none
  · rcases (mem_readAs_unknown hk).mp hug with ⟨ks, hks, hm⟩ | ⟨rfl, -⟩
    · exact absurd hun (groupKeys_ne_none (hC.mem_of_groupKeys hks hm))
    · exact ⟨g, Finset.mem_filter.mpr ⟨mem_of_closure_unknown hL hN hg hk, hk⟩, rfl⟩
  · rw [readAs_known hk, Finset.mem_singleton] at hug
    exact absurd (hug ▸ hun) hk

/-- The words that open a `REL` marking occur at the start of parts only. -/
def Flat (c : Str) : Prop := ∀ p ∈ c.splitOn '/', Clean (p.drop 1)

instance (c : Str) : Decidable (Flat c) :=
  inferInstanceAs (Decidable (∀ p ∈ c.splitOn '/', Clean (p.drop 1)))

/-- A rendered text in which no `REL` marking is nested shows no name that would open one. -/
theorem tidy_of_flat (hC : E.Coherent) (hL : Legible rt E long) (hM : Proper rt E M) {t : Str}
    (ht : E.render rt long skip M = .ok t) (hf : Flat t) : E.Tidy M := by
  have hN := hM.toNameable
  intro u hu hun hrel
  rw [render_eq hL hN, bind_eq_ok] at ht
  obtain ⟨lvl, hlvl, ht⟩ := ht
  obtain rfl := Except.ok.inj ht
  obtain ⟨hbare, -⟩ := hL.level _ (raised_mem hM.lvl) _ (mem_toOption hlvl)
  have hmark := shownMark_unknown skip hC hL hN hu hun
  have hp : _ ∈ shownPieces rt E (E.partsOf long M).req (E.partsOf long M).groups
      (E.partsOf long M).subgroups long skip :=
    (mem_shownPieces (by simp)).mpr (.inr (.inl hmark))
  have hmem : u ∈ sorted (groupList rt E long skip M) :=
    mem_sorted.mpr (mem_groupList_unknown skip hL hN hu hun)
  refine hf ("REL TO ".toList ++ join ", ".toList (sorted (groupList rt E long skip M))) ?_ ?_
  · rw [splitOn_append_slashed hbare.slash fun p hp =>
      (shownPieces_bare hC hL hN (shows_partsOf E long M) p hp).slash]
    exact List.mem_cons_of_mem _ hp
  · exact (hrel.trans (infix_join ", ".toList hmem)).trans ⟨"EL TO ".toList, [], by simp⟩

end Engine

end Howler
