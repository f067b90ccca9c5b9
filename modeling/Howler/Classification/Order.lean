import Howler.Classification.Normal

namespace Howler

open Python Clearance

namespace Engine

variable {rt rt' : Runtime} {E : Engine}

section Reading

variable (h : rt'.upperChar = rt.upperChar)

theorem mem_relGroups_congr (rt rt' : Runtime) (p x : Str) :
    x ∈ relGroups rt' p ↔ x ∈ relGroups rt p := by
  simp only [relGroups, List.mem_flatMap, Runtime.mem_listSet]

theorem partGroup_congr (rt rt' : Runtime) (dynamic : Bool) (p g : Str) :
    PartGroup rt' E dynamic p g ↔ PartGroup rt E dynamic p g := by
  simp only [PartGroup, mem_relGroups_congr rt rt']

theorem partOther_congr (rt rt' : Runtime) (dynamic : Bool) (p x : Str) :
    PartOther rt' E dynamic p x ↔ PartOther rt E dynamic p x := by
  simp only [PartOther, mem_relGroups_congr rt rt']

include h in
/-- What a text says does not depend on the order sets iterate in. -/
theorem Says.congr {c : Str} {M : Label} (hs : Says rt E c M) : Says rt' E c M := by
  obtain ⟨r, hr, ho, hl, hm⟩ := hs
  obtain ⟨rest, hi, hreq, hg⟩ := reading_ok_iff.mp hr
  obtain ⟨hF, hlim⟩ := found_of_groupSets hg
  have hup : rt'.upper = rt.upper := by
    funext s
    rw [Runtime.upper, h]
    rfl
  have hi' : E.getC12nLevelIndex rt' c = .ok (r.lvl, rest) := by
    rw [← hi, getC12nLevelIndex, getC12nLevelIndex, hup]
  have hus : ∀ p, p ∈ (E.requiredSets rt' rest).2 ↔ p ∈ (E.requiredSets rt rest).2 := by
    intro p
    rw [mem_requiredSets_snd, mem_requiredSets_snd, hup]
  obtain ⟨g, hF', hg'⟩ := exists_found rt' true fun p hp => hF.known p ((hus p).mp hp)
  have hsub : ∀ s, s ∈ g.2.1 ↔ s ∈ r.sub := by
    intro s
    rw [hF'.sub, hF.sub]
    exact exists_congr fun p => and_congr_left fun _ => hus p
  have hgrp : ∀ x, x ∈ g.1 ↔ x ∈ r.grp := by
    intro x
    rw [hF'.grp, hF.grp]
    apply or_congr
    · exact exists_congr fun p => and_congr (hus p) (partGroup_congr rt rt' _ p x)
    · exact exists_congr fun s => and_congr_left fun _ => hsub s
  have hothers : g.2.2 = [] := by
    apply List.eq_nil_iff_forall_not_mem.mpr
    intro x hx
    obtain ⟨p, hp, hx⟩ := (hF'.others x).mp hx
    have hmem : x ∈ r.others :=
      (hF.others x).mpr ⟨p, (hus p).mp hp, (partOther_congr rt rt' _ p x).mp hx⟩
    rw [ho] at hmem
    simp at hmem
  have hlim' : E.LimitsKept g.1 g.2.1 := fun s hs l hl x hx =>
    hlim s ((hsub s).mp hs) l hl x ((hgrp x).mp hx)
  refine ⟨⟨r.lvl, (E.requiredSets rt' rest).1, g.1, g.2.1, g.2.2⟩, reading_ok_iff.mpr
    ⟨rest, hi', rfl, (hg' g).mpr ⟨rfl, hlim'⟩⟩, hothers, hl, ?_⟩
  rw [← hm]
  ext1
  · rfl
  · ext x
    simp only [Reading.label, List.mem_toFinset, ← hreq, mem_requiredSets_fst, hup]
  · ext x
    simp only [Reading.label, List.mem_toFinset, hgrp]
  · ext x
    simp only [Reading.label, List.mem_toFinset, hsub]

end Reading

section Plain

variable {long skip : Bool} {M : Label}

/-- At most one required token is shown outside the group section. -/
def PlainOnce (E : Engine) (M : Label) : Prop :=
  ∀ a ∈ M.req, ∀ b ∈ M.req, (E.params a).isRequiredGroup = false →
    (E.params b).isRequiredGroup = false → a = b

instance (E : Engine) (M : Label) : Decidable (PlainOnce E M) :=
  inferInstanceAs (Decidable (∀ a ∈ M.req, ∀ b ∈ M.req, _))

theorem mem_plainReq (hL : Legible rt E long) (hN : Nameable rt E M) (rt' : Runtime) (x : Str) :
    x ∈ E.plainReq rt' (E.partsOf long M).req ↔
      ∃ a ∈ M.req, (E.params a).isRequiredGroup = false ∧ E.reqText long a = x := by
  simp only [plainReq, Runtime.mem_listSet, List.mem_filter, partsOf, mem_texts,
    Bool.not_eq_eq_eq_not, Bool.not_true]
  constructor
  · rintro ⟨⟨a, ha, rfl⟩, hp⟩
    rw [(hL.required a (hN.req a ha)).2] at hp
    exact ⟨a, ha, hp, rfl⟩
  · rintro ⟨a, ha, hp, rfl⟩
    refine ⟨⟨a, ha, rfl⟩, ?_⟩
    rwa [(hL.required a (hN.req a ha)).2]

/-- A single plain token is shown the same in every order. -/
theorem plainReq_congr (hL : Legible rt E long) (hN : Nameable rt E M) (h : E.PlainOnce M)
    (rt' : Runtime) :
    E.plainReq rt (E.partsOf long M).req = E.plainReq rt' (E.partsOf long M).req := by
  have hnd : ∀ rt' : Runtime, (E.plainReq rt' (E.partsOf long M).req).Nodup := fun rt' =>
    rt'.listSet_nodup _
  have hperm : (E.plainReq rt (E.partsOf long M).req).Perm
      (E.plainReq rt' (E.partsOf long M).req) := by
    rw [List.perm_ext_iff_of_nodup (hnd rt) (hnd rt')]
    intro x
    rw [mem_plainReq hL hN, mem_plainReq hL hN]
  have hone : ∀ x ∈ E.plainReq rt (E.partsOf long M).req,
      ∀ y ∈ E.plainReq rt (E.partsOf long M).req, x = y := by
    intro x hx y hy
    obtain ⟨a, ha, hpa, rfl⟩ := (mem_plainReq hL hN rt x).mp hx
    obtain ⟨b, hb, hpb, rfl⟩ := (mem_plainReq hL hN rt y).mp hy
    rw [h a ha b hb hpa hpb]
  have hnd' := hnd rt
  generalize E.plainReq rt (E.partsOf long M).req = xs at *
  rcases xs with - | ⟨x, - | ⟨y, xs⟩⟩
  · exact (List.nil_perm.mp hperm).symm
  · exact List.singleton_perm.mp hperm
  · exact absurd (hone x (by simp) y (by simp)) fun e => (List.nodup_cons.mp hnd').1 (by simp [e])

theorem plainReq_reversed (rt : Runtime) (req : List Str) :
    E.plainReq rt.reversed req = (E.plainReq rt.ordered req).reverse := by
  rw [plainReq, plainReq, Runtime.reversed_listSet]
  congr 1
  apply rt.ordered_listSet_congr
  intro a
  simp only [List.mem_filter, Runtime.mem_listSet]

theorem plainReq_ordered_sorted (rt : Runtime) (req : List Str) :
    (E.plainReq rt.ordered req).Pairwise (· ≤ ·) := pairwise_sorted _

/-- Where the order of iteration does not matter, there is one plain token at most. -/
theorem plainOnce_of_eq (hL : Legible rt E long) (hN : Nameable rt E M)
    (h : E.plainReq rt.ordered (E.partsOf long M).req =
      E.plainReq rt.reversed (E.partsOf long M).req) : E.PlainOnce M := by
  rw [plainReq_reversed] at h
  have hsorted := plainReq_ordered_sorted (E := E) rt (E.partsOf long M).req
  have hlen : (E.plainReq rt.ordered (E.partsOf long M).req).length ≤ 1 :=
    length_le_one_of_sorted_reverse (rt.ordered.listSet_nodup _) hsorted (h ▸ hsorted)
  intro a ha b hb hpa hpb
  have hxa := (mem_plainReq hL hN rt.ordered _).mpr ⟨a, ha, hpa, rfl⟩
  have hxb := (mem_plainReq hL hN rt.ordered _).mpr ⟨b, hb, hpb, rfl⟩
  apply hL.reqText_inj (hN.req a ha) (hN.req b hb)
  generalize E.plainReq rt.ordered (E.partsOf long M).req = xs at hlen hxa hxb
  rcases xs with - | ⟨x, - | ⟨y, xs⟩⟩
  · simp at hxa
  · rw [List.mem_singleton.mp hxa, List.mem_singleton.mp hxb]
  · exact absurd hlen (by simp)

end Plain

section Alias

variable {long skip : Bool} {M : Label}

/-- Where no group is selected automatically, the groups come in the order of the set. -/
theorem groupList_reversed (hL : Legible rt.ordered E long) (hL' : Legible rt.reversed E long)
    (hN : Nameable rt.ordered E M) (hN' : Nameable rt.reversed E M)
    (hw : E.WithinLimits (E.closure skip M))
    (ha : ¬ (skip = false ∧ E.groupsAutoSelectShort ≠ [])) :
    (groupList rt.ordered E long skip M).Pairwise (· ≤ ·) ∧
      groupList rt.reversed E long skip M = (groupList rt.ordered E long skip M).reverse := by
  have hno : ∀ (rt : Runtime) (groups subgroups : List Str), Legible rt E long →
      E.shownGroups rt groups subgroups long skip =
        rt.listSet (groups ++ (E.tempGroups subgroups).map (E.tempGroupText long)) := by
    intro rt groups subgroups hL
    refine if_neg fun hc => ha ⟨by simpa using hc.2.2, ?_⟩
    have := hc.2.1
    rwa [hL.autoGroups.1, Ne, List.map_eq_nil_iff] at this
  have hperm := groupList_perm hL hL' hN hN' rfl hw
  refine ⟨?_, ?_⟩
  · rw [groupList, hno _ _ _ hL]
    exact pairwise_sorted _
  · rw [groupList, groupList, hno _ _ _ hL', hno _ _ _ hL, Runtime.reversed_listSet]
    congr 1
    apply rt.ordered_listSet_congr
    intro a
    have := hperm.mem_iff (a := a)
    rw [groupList, groupList, hno _ _ _ hL, hno _ _ _ hL', Runtime.mem_listSet,
      Runtime.mem_listSet] at this
    exact this.symm

/-- An alias for all groups is shown in one order and not in the other. -/
theorem groupMark_order (hL : Legible rt E false) {xs : List Str} (hs : xs.Pairwise (· ≤ ·))
    (hnd : xs.Nodup) (ha : E.AliasFor xs.toFinset) :
    E.groupMark xs false ≠ E.groupMark xs.reverse false := by
  obtain ⟨e, he, hl, hend, hes⟩ := ha
  have hperm : e.2.Perm xs := by
    rw [List.perm_ext_iff_of_nodup hend hnd]
    intro x
    rw [← List.mem_toFinset, hes, List.mem_toFinset]
  have hsorted : sorted e.2 = xs :=
    ((List.perm_insertionSort (· ≤ ·) e.2).trans hperm).eq_of_pairwise' (pairwise_sorted _) hs
  have hlen : xs.length > 1 := hperm.length_eq ▸ hl
  have hrev : E.aliasGroups xs.reverse = xs.reverse := by
    rcases aliasGroups_cases (E := E) xs.reverse with ⟨h, -⟩ | ⟨e', -, -, hs', -⟩
    · exact h
    · have hr : xs.reverse.Pairwise (· ≤ ·) := hs' ▸ pairwise_sorted _
      exact absurd (length_le_one_of_sorted_reverse hnd hs hr) (by omega)
  obtain ⟨e', he', hl', hfwd⟩ : ∃ e' ∈ E.groupsAliases, e'.2.length > 1 ∧
      E.aliasGroups xs = [e'.1] := by
    rcases aliasGroups_cases (E := E) xs with ⟨-, h⟩ | ⟨e', he', hl', -, h⟩
    · exact absurd hsorted (h e he hl)
    · exact ⟨e', he', hl', h⟩
  have hcomma : ',' ∉ e'.1 := (hL.groupAlias rfl e' he' hl').comma
  have hmark : ∀ ys : List Str, ys.length > 1 → E.groupMark ys false =
      "REL TO ".toList ++ join ", ".toList (sorted (E.aliasGroups ys)) := by
    intro ys hy
    rcases ys with - | ⟨y, - | ⟨z, ys⟩⟩
    · simp at hy
    · simp at hy
    · rfl
  rw [hmark xs hlen, hmark xs.reverse (by simpa using hlen), hfwd, hrev]
  intro h
  have h := List.append_cancel_left h
  rw [show sorted [e'.1] = [e'.1] from rfl, join_singleton,
    sorted_congr (List.reverse_perm xs), ← hsorted, sorted_sorted, hsorted] at h
  rcases xs with - | ⟨x, - | ⟨y, xs⟩⟩
  · simp at hlen
  · simp at hlen
  · rw [join_cons_cons] at h
    exact hcomma (by simp [h])

end Alias

end Engine

end Howler
