import Howler.Classification.RoundTrip
import Mathlib.Data.Finset.Sort

namespace Howler

open Python Clearance

/-- The sorted texts of a set of short names. -/
def texts (f : Str → Str) (S : Finset Str) : List Str := (S.image f).sort

theorem mem_texts {f : Str → Str} {S : Finset Str} {x : Str} :
    x ∈ texts f S ↔ ∃ a ∈ S, f a = x := by
  simp [texts]

theorem texts_nodup (f : Str → Str) (S : Finset Str) : (texts f S).Nodup :=
  Finset.sort_nodup _ _

/-- What the format functions return does not depend on the order sets iterate in. -/
theorem sorted_map_listSet (rt : Runtime) (f : Str → Str) (xs : List Str)
    (hf : ∀ a ∈ xs, ∀ b ∈ xs, f a = f b → a = b) :
    sorted ((rt.listSet xs).map f) = texts f xs.toFinset := by
  have hnd : ((rt.listSet xs).map f).Nodup := by
    apply List.Nodup.map_on _ (rt.listSet_nodup xs)
    intro a ha b hb
    exact hf a ((rt.mem_listSet xs a).mp ha) b ((rt.mem_listSet xs b).mp hb)
  apply List.Perm.eq_of_pairwise' (r := (· ≤ ·))
  · exact pairwise_sorted _
  · exact Finset.pairwise_sort (xs.toFinset.image f) _
  · rw [List.perm_ext_iff_of_nodup (nodup_sorted hnd) (texts_nodup f _)]
    intro x
    rw [rt.mem_sorted_map_listSet, mem_texts]
    simp

namespace Engine

variable {rt : Runtime} {E : Engine}

/-- The parts of a label in a format. -/
def partsOf (E : Engine) (long : Bool) (M : Label) : Parts where
  lvl := .idx M.lvl
  req := texts (E.reqText long) M.req
  groups := texts (E.groupText long) M.grp
  subgroups := texts (E.subgroupText long) M.sub

theorem shows_partsOf (E : Engine) (long : Bool) (M : Label) :
    Shows E long M (E.partsOf long M).req (E.partsOf long M).groups (E.partsOf long M).subgroups :=
  ⟨fun _ => mem_texts, fun _ => mem_texts, fun _ => mem_texts⟩

theorem parts_reading {long : Bool} (hL : Legible rt E long) {r : Reading} {n : Int}
    (hN : Nameable rt E (r.label n)) (hl : r.lvl = .idx n) :
    r.parts rt E long = E.partsOf long (r.label n) := by
  have hreq := sorted_map_listSet rt (E.reqText long) r.req fun a ha b hb =>
    hL.reqText_inj (hN.req a (List.mem_toFinset.mpr ha)) (hN.req b (List.mem_toFinset.mpr hb))
  have hgrp := sorted_map_listSet rt (E.groupText long) r.grp fun a ha b hb =>
    hL.groupText_inj (hN.grp a (List.mem_toFinset.mpr ha)) (hN.grp b (List.mem_toFinset.mpr hb))
  have hsub := sorted_map_listSet rt (E.subgroupText long) r.sub fun a ha b hb =>
    hL.subgroupText_inj (hN.sub a (List.mem_toFinset.mpr ha))
      (hN.sub b (List.mem_toFinset.mpr hb))
  rw [Reading.parts, hl, hreq, hgrp, hsub]
  rfl

theorem Says.proper {long : Bool} (hC : E.Coherent) (hL : Legible rt E long) {c : Str} {M : Label}
    (h : Says rt E c M) : Proper rt E M := by
  obtain ⟨r, hr, -, hl, hm⟩ := h
  refine ⟨hm ▸ nameable_of_reading hC hL hr M.lvl, ?_⟩
  obtain ⟨rest, hi, -⟩ := reading_ok_iff.mp hr
  exact level_mem (hl ▸ hi)

/-- A text that says a label has the parts of that label, whatever the flags that only deal with
parts that are not known. -/
theorem Says.parts {long : Bool} (hC : E.Coherent) (hL : Legible rt E long) {c : Str} {M : Label}
    (h : Says rt E c M) (ignoreUnused : Bool) :
    E.getClassificationParts rt c { longFormat := long, ignoreUnused := ignoreUnused } =
      .ok (E.partsOf long M) := by
  obtain ⟨r, hr, ho, hl, hm⟩ := h
  refine getClassificationParts_ok_iff.mpr ⟨r, hr, .inl ho, ?_⟩
  have hN := nameable_of_reading hC hL hr M.lvl
  show r.parts rt E long = E.partsOf long M
  rw [parts_reading hL hN hl, hm]

/-- The text of a label in a format. -/
def render (rt : Runtime) (E : Engine) (long skip : Bool) (M : Label) : Except PyError Str :=
  let p := E.partsOf long M
  E.getNormalizedClassificationText rt p.lvl p.req p.groups p.subgroups long skip

theorem Says.computeNormal {f : Flags} (hC : E.Coherent) (hL : Legible rt E f.longFormat)
    {c : Str} {M : Label} (h : Says rt E c M) (hd : f.getDynamicGroups = true) :
    E.computeNormal rt c f = E.render rt f.longFormat f.skipAutoSelect M := by
  have hp := h.parts hC hL f.ignoreUnused
  have hf : f.parts = { longFormat := f.longFormat, ignoreUnused := f.ignoreUnused } := by
    rw [Flags.parts, hd]
  rw [Engine.computeNormal, hf, hp]
  rfl

section Text

variable {long skip : Bool} {M : Label}

theorem render_eq (hL : Legible rt E long) (hN : Nameable rt E M) :
    E.render rt long skip M = (do
      let t ← E.getC12nLevelText (E.raised M) long
      let p := E.partsOf long M
      return t ++ slashed (shownPieces rt E p.req p.groups p.subgroups long skip)) := by
  rw [render, getNormalizedClassificationText_eq]
  show (E.raisedLvl (.idx M.lvl) _ >>= _) = _
  rw [raisedLvl_eq hL hN (shows_partsOf E long M)]
  rfl

variable (rt skip) in
theorem render_ok_iff (hL : Legible rt E long) (hN : Nameable rt E M) :
    (∃ t, E.render rt long skip M = .ok t) ↔
      ∃ l, E.getC12nLevelText (E.raised M) long = .ok l := by
  rw [render_eq hL hN]
  cases E.getC12nLevelText (E.raised M) long with
  | error e => simp [bind, Except.bind]
  | ok l => simp [bind, Except.bind, pure, Except.pure]

/-- What a rendered label says. -/
theorem says_of_render (hC : E.Coherent) (hL : Legible rt E long) (hM : Proper rt E M) {t : Str}
    (ht : E.render rt long skip M = .ok t) :
    (E.WithinLimits (E.said (E.closure skip M)) → Says rt E t (E.said (E.closure skip M))) ∧
      ∀ r, E.reading rt t true = .ok r → E.WithinLimits (E.said (E.closure skip M)) :=
  says_render hC hL hM (shows_partsOf E long M) ht

theorem says_of_render_tidy (hC : E.Coherent) (hL : Legible rt E long) (hM : Proper rt E M)
    (hT : E.Tidy M) {t : Str} (ht : E.render rt long skip M = .ok t) :
    (E.WithinLimits (E.closure skip M) → Says rt E t (E.closure skip M)) ∧
      ∀ r, E.reading rt t true = .ok r → E.WithinLimits (E.closure skip M) := by
  have h := says_of_render hC hL hM ht
  rwa [said_closure hL hM.toNameable hT] at h

end Text

section Closure

variable {long skip : Bool} {M : Label}

theorem withAuto_idem (auto : List Str) (S : Finset Str) :
    withAuto skip auto (withAuto skip auto S) = withAuto skip auto S := by
  by_cases h : S = ∅ ∨ skip = true
  · rw [withAuto, withAuto, if_pos h, if_pos h]
  · have hS : withAuto skip auto S = S ∪ auto.toFinset := if_neg h
    rw [hS, withAuto]
    split_ifs
    · rfl
    · rw [Finset.union_assoc, Finset.union_self]

variable (E skip M) in
theorem raised_closure : E.raised (E.closure skip M) = E.raised M := by
  apply eq_of_forall_ge_iff
  intro c
  have hc : (E.closure skip M).req = M.req := rfl
  have hl : (E.closure skip M).lvl = E.raised M := rfl
  rw [raised, hc, hl, Finset.fold_max_le, max_le_iff, raised, Finset.fold_max_le, max_le_iff]
  constructor
  · exact fun h => h.1.1
  · exact fun h => ⟨⟨h, h.1.2⟩, h.2⟩

/-- Closing twice adds nothing. -/
theorem closure_closure : E.closure skip (E.closure skip M) = E.closure skip M := by
  have hsub : (E.closure skip (E.closure skip M)).sub = (E.closure skip M).sub :=
    withAuto_idem _ _
  have hgrp : (E.closure skip (E.closure skip M)).grp = (E.closure skip M).grp := by
    show withAuto skip _ ((E.closure skip M).grp ∪
      E.requiredBy (E.closure skip (E.closure skip M)).sub) = _
    rw [hsub, Finset.union_eq_left.mpr requiredBy_subset_closure]
    exact withAuto_idem _ _
  ext1
  · exact raised_closure _ _ _
  · rfl
  · exact hgrp
  · exact hsub

end Closure

theorem WithinLimits.required {skip : Bool} {M : Label}
    (h : E.WithinLimits (E.closure skip M)) :
    ∀ s ∈ (E.closure skip M).sub, ∀ l ∈ E.limitedToGroup s,
      ∀ g ∈ E.requiredBy (E.closure skip M).sub, g = l :=
  fun s hm l hl g hg => h s hm l hl g (requiredBy_subset_closure hg)

section Same

variable {rt rt' : Runtime} {long skip : Bool} {M M' : Label}

/-- The same groups, listed once each, give the same mark, unless the order decides about an
alias. -/
theorem groupMark_congr {xs ys : List Str} (h : xs.Perm ys)
    (ha : xs = ys ∨ long = true ∨
      ∀ e ∈ E.groupsAliases, e.2.length > 1 → sorted e.2 ≠ sorted xs) :
    E.groupMark xs long = E.groupMark ys long := by
  rcases ha with rfl | ha
  · rfl
  rcases xs with - | ⟨x, - | ⟨x', xs⟩⟩
  · rw [List.nil_perm.mp h]
  · rw [List.singleton_perm.mp h]
  · have hlen := h.length_eq
    rcases ys with - | ⟨y, - | ⟨y', ys⟩⟩
    · simp at hlen
    · simp at hlen
    · show "REL TO ".toList ++ join ", ".toList (sorted (if long then x :: x' :: xs
          else E.aliasGroups (x :: x' :: xs))) =
        "REL TO ".toList ++ join ", ".toList (sorted (if long then y :: y' :: ys
          else E.aliasGroups (y :: y' :: ys)))
      rcases ha with rfl | ha
      · rw [if_pos rfl, if_pos rfl, sorted_congr h]
      · have hno : ∀ zs, sorted zs = sorted (x :: x' :: xs) → E.aliasGroups zs = zs := by
          intro zs hz
          rcases aliasGroups_cases (E := E) zs with ⟨h', -⟩ | ⟨e, he, hl, hs, -⟩
          · exact h'
          · exact absurd (by rw [← sorted_sorted, hs, hz]) (ha e he hl)
        rw [hno _ rfl, hno _ (sorted_congr h.symm), ite_self, ite_self, sorted_congr h]

/-- Some alias stands for exactly these groups. -/
def AliasFor (E : Engine) (S : Finset Str) : Prop :=
  ∃ e ∈ E.groupsAliases, e.2.length > 1 ∧ e.2.Nodup ∧ e.2.toFinset = S

instance (E : Engine) (S : Finset Str) : Decidable (AliasFor E S) :=
  inferInstanceAs (Decidable (∃ e ∈ E.groupsAliases, _))

theorem shownSubgroups_nodup {subgroups : List Str} (h : subgroups.Nodup) :
    (E.shownSubgroups rt subgroups long skip).Nodup := by
  have hif : ∀ (c : Prop) [Decidable c] (xs ys : List Str), ys.Nodup →
      (if c then sorted (rt.listSet xs) else ys).Nodup := by
    intro c _ xs ys hys
    split_ifs
    · exact nodup_sorted (rt.listSet_nodup xs)
    · exact hys
  exact hif _ _ _ h

/-- The list of groups that a label is shown with. -/
def groupList (rt : Runtime) (E : Engine) (long skip : Bool) (M : Label) : List Str :=
  E.shownGroups rt (E.partsOf long M).groups
    (E.shownSubgroups rt (E.partsOf long M).subgroups long skip) long skip

theorem shownMark_eq (long skip : Bool) (M : Label) :
    shownMark rt E (E.partsOf long M).groups (E.partsOf long M).subgroups long skip =
      if groupList rt E long skip M = [] then none
      else some (E.groupMark (groupList rt E long skip M) long) := rfl

theorem mem_groupList (hL : Legible rt E long) (hN : Nameable rt E M)
    (hw : E.WithinLimits (E.closure skip M)) (x : Str) :
    x ∈ groupList rt E long skip M ↔ ∃ g ∈ (E.closure skip M).grp, E.groupText long g = x := by
  have hs := shows_partsOf E long M
  rw [groupList, mem_shownGroups rt skip hL hN hs, shownGrp_eq_closure hL hN hs hw.required]

/-- Where groups are selected automatically, they are sorted on the way. -/
theorem groupList_sorted (hL : Legible rt E long) (hs : skip = false)
    (ha : E.groupsAutoSelectShort ≠ []) (hne : groupList rt E long skip M ≠ []) :
    (groupList rt E long skip M).Pairwise (· ≤ ·) := by
  have hauto : (if long then E.groupsAutoSelect else E.groupsAutoSelectShort) ≠ [] := by
    rw [hL.autoGroups.1, Ne, List.map_eq_nil_iff]
    exact ha
  unfold groupList shownGroups at hne ⊢
  dsimp only at hne ⊢
  generalize rt.listSet ((E.partsOf long M).groups ++ _) = base at hne ⊢
  by_cases hb : base = []
  · rw [if_neg (by simp [hb])] at hne
    exact absurd hb hne
  · rw [if_pos ⟨hb, hauto, by simp [hs]⟩]
    exact pairwise_sorted _

/-- An alias whose sorted groups are a list without repetitions stands for just these. -/
theorem aliasFor_of_sorted {S : Finset Str} {xs : List Str} (hnd : xs.Nodup)
    (hmem : ∀ x, x ∈ xs ↔ x ∈ S) {e : Str × List Str} (he : e ∈ E.groupsAliases)
    (hl : e.2.length > 1) (hs : sorted e.2 = sorted xs) : E.AliasFor S := by
  have hp : e.2.Perm xs := (List.perm_insertionSort (· ≤ ·) e.2).symm.trans
    ((List.Perm.of_eq hs).trans (List.perm_insertionSort (· ≤ ·) xs))
  refine ⟨e, he, hl, hp.nodup_iff.mpr hnd, ?_⟩
  ext x
  rw [List.mem_toFinset, hp.mem_iff, hmem]

/-- The alias that might be shown does not depend on the order sets iterate in. -/
def AliasSettled (E : Engine) (long skip : Bool) (S : Finset Str) : Prop :=
  long = true ∨ (skip = false ∧ E.groupsAutoSelectShort ≠ []) ∨ ¬ E.AliasFor S

instance (E : Engine) (long skip : Bool) (S : Finset Str) : Decidable (AliasSettled E long skip S) :=
  inferInstanceAs (Decidable (_ ∨ _ ∨ _))

section Congr

variable {skip' : Bool} (hL : Legible rt E long) (hL' : Legible rt' E long)
  (hN : Nameable rt E M) (hN' : Nameable rt' E M')
  (hc : E.closure skip M = E.closure skip' M') (hw : E.WithinLimits (E.closure skip M))

include hL hL' hN hN' hc hw

theorem groupList_perm :
    (groupList rt E long skip M).Perm (groupList rt' E long skip' M') := by
  rw [groupList, groupList, List.perm_ext_iff_of_nodup (shownGroups_nodup _ _)
    (shownGroups_nodup _ _), ← groupList, ← groupList]
  intro x
  rw [mem_groupList hL hN hw, mem_groupList hL' hN' (hc ▸ hw), hc]

theorem shownMark_congr (ha : E.AliasSettled long (skip || skip') (E.closure skip M).grp) :
    shownMark rt E (E.partsOf long M).groups (E.partsOf long M).subgroups long skip =
      shownMark rt' E (E.partsOf long M').groups (E.partsOf long M').subgroups long skip' := by
  have hperm := groupList_perm hL hL' hN hN' hc hw
  rw [shownMark_eq, shownMark_eq]
  by_cases hx : groupList rt E long skip M = []
  · rw [hx] at hperm
    rw [hx, List.nil_perm.mp hperm]
  · have hy : groupList rt' E long skip' M' ≠ [] := fun h => hx (List.perm_nil.mp (h ▸ hperm))
    rw [if_neg hx, if_neg hy]
    congr 1
    apply groupMark_congr hperm
    rcases ha with ha | ⟨hskip, hauto⟩ | ha
    · exact .inr (.inl ha)
    · obtain ⟨hs, hs'⟩ := Bool.or_eq_false_iff.mp hskip
      exact .inl (hperm.eq_of_pairwise' (groupList_sorted hL hs hauto hx)
        (groupList_sorted hL' hs' hauto hy))
    · cases long with
      | true => exact .inr (.inl rfl)
      | false =>
        refine .inr (.inr fun e he hl hs => ha (aliasFor_of_sorted (shownGroups_nodup _ _) ?_ he
          hl hs))
        intro x
        rw [← groupList, mem_groupList hL hN hw]
        simp [groupText]

omit hN hN' hw in
theorem sorted_shownSubgroups_congr :
    sorted (E.shownSubgroups rt (E.partsOf long M).subgroups long skip) =
      sorted (E.shownSubgroups rt' (E.partsOf long M').subgroups long skip') := by
  have hnd : ∀ K : Label, (E.partsOf long K).subgroups.Nodup := fun K => texts_nodup _ _
  apply sorted_congr
  rw [List.perm_ext_iff_of_nodup (shownSubgroups_nodup (hnd M)) (shownSubgroups_nodup (hnd M'))]
  intro x
  rw [mem_shownSubgroups hL (shows_partsOf E long M),
    mem_shownSubgroups hL' (shows_partsOf E long M'), hc]

/-- Labels that close to the same label are shown alike, if only their required tokens are. -/
theorem render_congr (ha : E.AliasSettled long (skip || skip') (E.closure skip M).grp)
    (hp : E.plainReq rt (E.partsOf long M).req = E.plainReq rt' (E.partsOf long M).req) :
    E.render rt long skip M = E.render rt' long skip' M' := by
  have hlvl : E.raised M = E.raised M' := congrArg Marking.lvl hc
  have hreq : (E.closure skip M).req = (E.closure skip' M').req := by rw [hc]
  change M.req = M'.req at hreq
  have hparts : (E.partsOf long M).req = (E.partsOf long M').req := by
    rw [partsOf, partsOf, hreq]
  have hsub := sorted_shownSubgroups_congr hL hL' hc
  rw [render_eq hL hN, render_eq hL' hN', hlvl]
  simp only [shownPieces, hp, hsub, shownMark_congr hL hL' hN hN' hc hw ha, ← hparts]

end Congr

end Same

end Engine

end Howler
