import Howler.Classification.Mix

namespace Howler

open Python Clearance Systems

/-- What `get_dynamic_classification` looks up in a user. -/
structure UserInfo where
  classification : Option Str := none
  email : Option Str := none
  groups : List Str := []
  deriving DecidableEq, Repr

namespace Engine

section Source

variable (rt : Runtime) (E : Engine)

/-- The flags under which user classifications are normalized before they are put together. -/
abbrev userFlags : Flags := { skipAutoSelect := true }

/-- The flags under which the stored classification of a user is normalized. -/
abbrev storedFlags : Flags :=
  { skipAutoSelect := true, getDynamicGroups := false, ignoreUnused := true }

/-- `email.upper().split("@")[1]`. -/
def emailDomain (email : Str) : Except PyError Str :=
  match ((rt.upper email).splitOn '@')[1]? with
  | some domain => .ok domain
  | none => .error .indexError

/-- The group that `get_dynamic_classification` adds for the domain of the email. -/
def addEmailGroup (unrestricted email : Str) (c12n : Option Str) : Method (Option Str) :=
  if E.dynamicGroupsType ∈ ["email".toList, "all".toList] ∧ email ≠ [] then do
    let dynGroup ← emailDomain rt email
    E.buildUserClassification rt c12n (some (unrestricted ++ "//REL ".toList ++ dynGroup)) true
  else pure c12n

/-- The groups that `get_dynamic_classification` adds for those of the user. -/
def addUserGroups (unrestricted : Str) (groups : List Str) (c12n : Option Str) :
    Method (Option Str) :=
  if E.dynamicGroupsType ∈ ["group".toList, "all".toList] ∧ groups ≠ [] then
    E.buildUserClassification rt c12n
      (some (unrestricted ++ "//REL ".toList ++ join ", ".toList groups)) true
  else pure c12n

/-- `get_dynamic_classification`. -/
def getDynamicClassification (info : UserInfo) : Method (Option Str) := do
  let unrestricted ← E.getUnrestricted
  let c ← E.normalizeClassification rt (info.classification.getD unrestricted) storedFlags
  if E.dynamicGroups then
    let c ← addEmailGroup rt E unrestricted (info.email.getD []) (some c)
    addUserGroups rt E unrestricted info.groups c
  else return some c

end Source

variable {rt : Runtime} {E : Engine}

/-- `build_user_classification` of two texts that are already normalized. -/
def combineTexts (rt : Runtime) (E : Engine) (long : Bool) (n₁ n₂ : Str) :
    Except PyError (Option Str) := do
  let p₁ ← E.getClassificationParts rt n₁ { longFormat := long }
  let p₂ ← E.getClassificationParts rt n₂ { longFormat := long }
  let req := rt.listSet (rt.listSet p₁.req ++ rt.listSet p₂.req)
  let groups := rt.listSet (rt.listSet p₁.groups ++ rt.listSet p₂.groups)
  let subgroups := rt.listSet (rt.listSet p₁.subgroups ++ rt.listSet p₂.subgroups)
  some <$> E.getNormalizedClassificationText rt (← p₁.lvl.max p₂.lvl) req groups subgroups long
    true

section Run

variable (he : E.enforce = true) (hv : E.invalidMode = false) {s : Caches} {c₁ c₂ : Str}
  {long : Bool}

include he hv

theorem buildUserClassification_run {n₁ n₂ : Str}
    (h₁ : (answer rt E s (c₁, userFlags)).1 = .ok n₁)
    (h₂ : (answer rt E (afterCall rt E s (c₁, userFlags)) (c₂, userFlags)).1 = .ok n₂) :
    ((E.buildUserClassification rt (some c₁) (some c₂) long).run s).1 =
      E.combineTexts rt long n₁ n₂ := by
  unfold buildUserClassification
  rw [he, hv]
  simp only [Bool.not_true, Bool.or_self, Bool.false_eq_true, if_false]
  rw [run_exceptT_bind_ok (run_normalize_some h₁), run_exceptT_bind_ok (run_normalize_some h₂)]
  exact congrArg Prod.fst (run_liftExcept_bind fun p₁ => run_liftExcept_bind fun p₂ =>
    run_liftExcept_bind fun lvl => run_map_liftExcept _ _ _)

theorem buildUserClassification_ok {o : Option Str}
    (h : ((E.buildUserClassification rt (some c₁) (some c₂) long).run s).1 = .ok o) :
    ∃ n₁ n₂, (answer rt E s (c₁, userFlags)).1 = .ok n₁ ∧
      (answer rt E (afterCall rt E s (c₁, userFlags)) (c₂, userFlags)).1 = .ok n₂ ∧
      E.combineTexts rt long n₁ n₂ = .ok o := by
  have h' := h
  unfold buildUserClassification at h'
  rw [he, hv] at h'
  simp only [Bool.not_true, Bool.or_self, Bool.false_eq_true, if_false] at h'
  obtain ⟨o₁, ho₁, h'⟩ := run_exceptT_bind_eq_ok.mp h'
  obtain ⟨n₁, h₁⟩ := run_normalize_some_eq_ok ho₁
  obtain ⟨o₂, ho₂, -⟩ := run_exceptT_bind_eq_ok.mp h'
  have hstate : ((Option.mapM (E.normalizeClassification rt · userFlags) (some c₁) :
      Method (Option Str)).run s).2 = afterCall rt E s (c₁, userFlags) :=
    congrArg Prod.snd (run_normalize_some h₁)
  obtain ⟨n₂, h₂⟩ := run_normalize_some_eq_ok (hstate ▸ ho₂)
  exact ⟨n₁, n₂, h₁, h₂, (buildUserClassification_run he hv h₁ h₂) ▸ h⟩

end Run

/-- Texts that say labels are combined into a text that shows both. -/
theorem combineTexts_of_says {long : Bool} (hC : E.Coherent) (hL : Legible rt E long)
    {n₁ n₂ : Str} {N₁ N₂ : Label} (h₁ : Says rt E n₁ N₁) (h₂ : Says rt E n₂ N₂) :
    ∃ req groups subgroups, Shows E long (combine N₁ N₂) req groups subgroups ∧
      E.combineTexts rt long n₁ n₂ = some <$> E.getNormalizedClassificationText rt
        (.idx (combine N₁ N₂).lvl) req groups subgroups long true := by
  refine ⟨rt.listSet (rt.listSet (E.partsOf long N₁).req ++ rt.listSet (E.partsOf long N₂).req),
    rt.listSet (rt.listSet (E.partsOf long N₁).groups ++ rt.listSet (E.partsOf long N₂).groups),
    rt.listSet (rt.listSet (E.partsOf long N₁).subgroups ++
      rt.listSet (E.partsOf long N₂).subgroups), ⟨fun x => ?_, fun x => ?_, fun x => ?_⟩, ?_⟩
  · simp only [Runtime.mem_listSet, List.mem_append, partsOf, mem_texts, combine, Finset.mem_union,
      or_and_right, exists_or]
  · simp only [Runtime.mem_listSet, List.mem_append, partsOf, mem_texts, combine, Finset.mem_union,
      or_and_right, exists_or]
  · simp only [Runtime.mem_listSet, List.mem_append, partsOf, mem_texts, combine, Finset.mem_union,
      or_and_right, exists_or]
  · have hp₁ := h₁.parts hC hL false
    have hp₂ := h₂.parts hC hL false
    unfold combineTexts
    rw [hp₁, hp₂]
    rfl

/-- Where two texts are combined, they say labels. -/
theorem says_of_combineTexts {long : Bool} (hC : E.Coherent) (hL : Legible rt E long)
    {n₁ n₂ : Str} {o : Option Str} (h : E.combineTexts rt long n₁ n₂ = .ok o) :
    ∃ N₁ N₂, Says rt E n₁ N₁ ∧ Says rt E n₂ N₂ := by
  obtain ⟨p₁, hp₁, h⟩ := bind_eq_ok.mp h
  obtain ⟨p₂, hp₂, h⟩ := bind_eq_ok.mp h
  obtain ⟨lvl, hlvl, h⟩ := bind_eq_ok.mp h
  obtain ⟨b, h, -⟩ := map_eq_ok.mp h
  obtain ⟨n, hn, -⟩ := bind_eq_ok.mp h
  obtain ⟨k₁, k₂, hk₁, hk₂⟩ : ∃ k₁ k₂, p₁.lvl = .idx k₁ ∧ p₂.lvl = .idx k₂ := by
    cases hl₁ : p₁.lvl <;> cases hl₂ : p₂.lvl <;> rw [hl₁, hl₂] at hlvl <;> cases hlvl
    · exact ⟨_, _, rfl, rfl⟩
    · contradiction
  obtain ⟨N₁, hs₁, -, -⟩ := says_of_parts_idx hC hL hp₁ hk₁
  obtain ⟨N₂, hs₂, -, -⟩ := says_of_parts_idx hC hL hp₂ hk₂
  exact ⟨N₁, N₂, hs₁, hs₂⟩

section Keep

variable {long skip : Bool} {M N : Label}

theorem lvl_le_raised (M : Label) : M.lvl ≤ E.raised M :=
  (le_max_left _ _).trans ((Finset.le_fold_max (b := max M.lvl 0) _).mpr (.inl (le_refl _)))

theorem raised_combine (N₁ N₂ : Label) :
    E.raised (combine N₁ N₂) = max (E.raised N₁) (E.raised N₂) := by
  apply eq_of_forall_ge_iff
  intro c
  simp only [raised, combine, Finset.fold_max_le, max_le_iff, Finset.mem_union]
  constructor
  · rintro ⟨⟨⟨h₁, h₂⟩, h0⟩, hreq⟩
    exact ⟨⟨⟨h₁, h0⟩, fun r hr => hreq r (.inl hr)⟩, ⟨h₂, h0⟩, fun r hr => hreq r (.inr hr)⟩
  · rintro ⟨⟨⟨h₁, h0⟩, hr₁⟩, ⟨h₂, -⟩, hr₂⟩
    exact ⟨⟨⟨h₁, h₂⟩, h0⟩, fun r hr => hr.elim (hr₁ r) (hr₂ r)⟩

/-- A tidy label is kept where it is shown together with more. -/
theorem atMost_said (hN : Nameable rt E N) (hT : E.Tidy N) (h : AtMost N M) :
    AtMost N (E.said (E.closure skip M)) := by
  refine ⟨h.lvl.trans (lvl_le_raised M), h.req, ?_, h.sub.trans (subset_withAuto _ _ _)⟩
  have hgrp : N.grp ⊆ (E.closure skip M).grp :=
    h.grp.trans (Finset.subset_union_left.trans (subset_withAuto _ _ _))
  calc N.grp = E.heard N.grp := (heard_eq_self rt hN.grp hT).symm
    _ ⊆ E.heard (E.closure skip M).grp :=
        Finset.biUnion_subset_biUnion_of_subset_left _ hgrp

/-- Whoever clears more sees more. -/
theorem accessible_mono (hC : E.Coherent) (hL : Legible rt E true) (hv : E.invalidMode = false)
    (he : E.enforce = true) {n b : Str} {B : Label} (hn : Says rt E n N) (hb : Says rt E b B)
    (h : AtMost N B) {c : Str} (hc : E.isAccessible rt n (some c) false = .ok true) :
    E.isAccessible rt b (some c) false = .ok true := by
  obtain ⟨N', K, hN', hK, hsee⟩ := (isAccessible_iff hC hL hv he).mp hc
  obtain rfl := hN'.unique hn.clears
  exact (isAccessible_iff hC hL hv he).mpr ⟨B, K, hb.clears, hK, hsee.mono h⟩

/-- What was rendered in the long format has a level with a name in both formats. -/
theorem level_of_computed (hC : E.Coherent) (hL : ∀ long, Legible rt E long) {n : Str}
    (hc : Computed rt E true n) (hn : Says rt E n N) :
    E.raised N = N.lvl ∧ ∀ long, ∃ l, E.getC12nLevelText N.lvl long = .ok l := by
  obtain ⟨M, skip, hM, ht⟩ := hc.render hC hL
  obtain ⟨r, hr, -⟩ := hn.clears
  have hsaid := (says_of_render hC (hL true) hM ht).1 ((says_of_render hC (hL true) hM ht).2 r hr)
  obtain rfl := hn.clears.unique hsaid.clears
  have hraised : E.raised (E.said (E.closure skip M)) = E.raised M := raised_closure E skip M
  obtain ⟨l, hl⟩ := level_of_render (hL true) hM.toNameable (shows_partsOf E true M) ht
  refine ⟨hraised, fun long => ?_⟩
  change ∃ l, E.getC12nLevelText (E.raised M) long = .ok l
  cases long with
  | true => exact ⟨l, hl⟩
  | false =>
    unfold getC12nLevelText at hl ⊢
    dsimp only at hl ⊢
    cases hg : E.levelsMap.get? (strOfInt (E.raised M)) with
    | none => simp [hg] at hl
    | some v =>
      cases v with
      | idx k => simp only [hg] at hl; split_ifs at hl
      | text t =>
        simp only [hg, Bool.false_eq_true, if_false] at hl ⊢
        split_ifs at hl ⊢ with h
        exact ⟨t, rfl⟩

end Keep

/-- The combined text parses and shows whatever one of the two texts shows. -/
structure Combines (rt : Runtime) (E : Engine) (n₁ n₂ b : Str) : Prop where
  parses : ∃ p, E.getClassificationParts rt b {} = .ok p
  left : ∀ c, E.isAccessible rt n₁ (some c) false = .ok true →
    E.isAccessible rt b (some c) false = .ok true
  right : ∀ c, E.isAccessible rt n₂ (some c) false = .ok true →
    E.isAccessible rt b (some c) false = .ok true

section Combine

variable {long : Bool} {n₁ n₂ : Str} {N₁ N₂ : Label}

theorem combine_proper (hC : E.Coherent) (hL : Legible rt E true) (h₁ : Says rt E n₁ N₁)
    (h₂ : Says rt E n₂ N₂) : Proper rt E (combine N₁ N₂) := by
  have hp₁ := h₁.proper hC hL
  have hp₂ := h₂.proper hC hL
  refine ⟨⟨fun r hr => ?_, fun g hg => ?_, fun s hs => ?_⟩, ?_⟩
  · exact (Finset.mem_union.mp hr).elim (hp₁.req r) (hp₂.req r)
  · exact (Finset.mem_union.mp hg).elim (hp₁.grp g) (hp₂.grp g)
  · exact (Finset.mem_union.mp hs).elim (hp₁.sub s) (hp₂.sub s)
  · have hmax : (combine N₁ N₂).lvl = max N₁.lvl N₂.lvl := rfl
    rw [hmax]
    cases max_choice N₁.lvl N₂.lvl with
    | inl h => rw [h]; exact hp₁.lvl
    | inr h => rw [h]; exact hp₂.lvl

/-- Two labels that were read are closed, and so is what they name together. -/
theorem grp_closure_combine (hC : E.Coherent) (hL : Legible rt E true) (h₁ : Says rt E n₁ N₁)
    (h₂ : Says rt E n₂ N₂) :
    (E.closure true (combine N₁ N₂)).grp = (combine N₁ N₂).grp := by
  have hauto : ∀ (auto : List Str) (S : Finset Str), withAuto true auto S = S := fun auto S =>
    if_pos (.inr rfl)
  simp only [closure, hauto]
  rw [Finset.union_eq_left]
  intro g hg
  obtain ⟨s, hs, hr⟩ := mem_requiredBy.mp hg
  cases Finset.mem_union.mp hs with
  | inl hs =>
    exact Finset.mem_union_left _ (h₁.clears.requiredBy_subset hC hL
      (mem_requiredBy.mpr ⟨s, hs, hr⟩))
  | inr hs =>
    exact Finset.mem_union_right _ (h₂.clears.requiredBy_subset hC hL
      (mem_requiredBy.mpr ⟨s, hs, hr⟩))

theorem combines_of_says (hC : E.Coherent) (hL : ∀ long, Legible rt E long)
    (hv : E.invalidMode = false) (he : E.enforce = true) (hc₁ : Computed rt E true n₁)
    (hc₂ : Computed rt E true n₂) (h₁ : Says rt E n₁ N₁) (h₂ : Says rt E n₂ N₂)
    (hT₁ : E.Tidy N₁) (hT₂ : E.Tidy N₂) (hw : E.WithinLimits (combine N₁ N₂)) :
    ∃ b, E.combineTexts rt long n₁ n₂ = .ok (some b) ∧ Combines rt E n₁ n₂ b := by
  obtain ⟨req, groups, subgroups, hs, heq⟩ := combineTexts_of_says hC (hL long) h₁ h₂
  have hM := combine_proper hC (hL true) h₁ h₂
  have hN := hM.toNameable
  obtain ⟨hr₁, hl₁⟩ := level_of_computed hC hL hc₁ h₁
  obtain ⟨hr₂, hl₂⟩ := level_of_computed hC hL hc₂ h₂
  obtain ⟨l, hl⟩ : ∃ l, E.getC12nLevelText (E.raised (combine N₁ N₂)) long = .ok l := by
    rw [raised_combine, hr₁, hr₂]
    cases max_choice N₁.lvl N₂.lvl with
    | inl h => rw [h]; exact hl₁ long
    | inr h => rw [h]; exact hl₂ long
  have hT : E.Tidy (combine N₁ N₂) := fun g hg hn =>
    (Finset.mem_union.mp hg).elim (hT₁ g · hn) (hT₂ g · hn)
  have ht : ∃ b, E.getNormalizedClassificationText rt (.idx (combine N₁ N₂).lvl) req groups
      subgroups long true = .ok b := by
    rw [getNormalizedClassificationText_eq, raisedLvl_eq (hL long) hN hs]
    exact ⟨_, bind_eq_ok.mpr ⟨_, rfl, bind_eq_ok.mpr ⟨l, hl, rfl⟩⟩⟩
  obtain ⟨b, ht⟩ := ht
  obtain ⟨hsay, -⟩ := says_render hC (hL long) hM hs ht
  have hb : Says rt E b (E.said (E.closure true (combine N₁ N₂))) := by
    apply hsay
    rw [said_closure (hL long) hN hT]
    intro s hs l hl g hg
    rw [grp_closure_combine hC (hL true) h₁ h₂] at hg
    have hs' : s ∈ (combine N₁ N₂).sub := by
      have hauto : (E.closure true (combine N₁ N₂)).sub = (combine N₁ N₂).sub := if_pos (.inr rfl)
      rwa [hauto] at hs
    exact hw s hs' l hl g hg
  refine ⟨b, by rw [heq, ht]; rfl, ?_, fun c hc => ?_, fun c hc => ?_⟩
  · obtain ⟨r, hr, ho, -⟩ := hb
    exact ⟨_, parse_default_ok_iff.mpr ⟨r, hr, ho, rfl⟩⟩
  · exact accessible_mono hC (hL true) hv he h₁ hb
      (atMost_said (h₁.proper hC (hL true)).toNameable hT₁ (atMost_combine_left N₁ N₂)) hc
  · exact accessible_mono hC (hL true) hv he h₂ hb
      (atMost_said (h₂.proper hC (hL true)).toNameable hT₂ (atMost_combine_right N₁ N₂)) hc

end Combine

/-- The label without the groups that are not part of the definition. -/
def withoutDynamic (E : Engine) (M : Label) : Label :=
  { M with grp := M.grp.filter fun g => E.groupKeys g ≠ none }

section Dynamic

variable {s : Caches} {c n b : Str} {K M : Label}

theorem tidy_withoutDynamic (E : Engine) (M : Label) : E.Tidy (E.withoutDynamic M) :=
  fun _ hg hn => absurd hn (Finset.mem_filter.mp hg).2

/-- Without dynamic groups a text is read as what it says without them. -/
theorem reading_static (hC : E.Coherent) (hL : Legible rt E true) {r : Reading}
    (h : E.reading rt c true = .ok r) (k : Int) :
    ∃ r', E.reading rt c false = .ok r' ∧ r'.lvl = r.lvl ∧
      r'.label k = E.withoutDynamic (r.label k) := by
  obtain ⟨rest, hl, hreq, hg⟩ := reading_ok_iff.mp h
  obtain ⟨hF, hlim⟩ := found_of_groupSets hg
  obtain ⟨g, hF', hg'⟩ := exists_found rt false hF.known
  have hsub : ∀ s, s ∈ g.2.1 ↔ s ∈ r.sub := fun s => (hF'.sub s).trans (hF.sub s).symm
  have hgrp : ∀ x, x ∈ g.1 ↔ x ∈ r.grp ∧ E.groupKeys x ≠ none := by
    intro x
    rw [hF'.grp, hF.grp]
    constructor
    · rintro (⟨p, hp, hpg⟩ | ⟨s, hs, hr⟩)
      · rcases hpg with ⟨hrel, m, hm, ks, hks, hx⟩ | ⟨hrel, ks, hks, hx⟩ | ⟨hd, -⟩
        · exact ⟨.inl ⟨p, hp, .inl ⟨hrel, m, hm, ks, hks, hx⟩⟩,
            groupKeys_ne_none (hC.mem_of_groupKeys hks hx)⟩
        · exact ⟨.inl ⟨p, hp, .inr (.inl ⟨hrel, ks, hks, hx⟩)⟩,
            groupKeys_ne_none ((hC.mem_of_subgroupKeys hks).1 x hx)⟩
        · simp at hd
      · have hs := (hsub s).mp hs
        refine ⟨.inr ⟨s, hs, hr⟩, groupKeys_ne_none ?_⟩
        have hk := (nameable_of_reading hC hL h 0).sub s (List.mem_toFinset.mpr hs)
        exact hL.requireGroup_mem hk (hL.truthyRequireGroup_eq hk ▸ hr)
    · rintro ⟨⟨p, hp, hpg⟩ | ⟨s, hs, hr⟩, hn⟩
      · rcases hpg with hpg | hpg | ⟨-, -, -, hn'⟩
        · exact .inl ⟨p, hp, .inl hpg⟩
        · exact .inl ⟨p, hp, .inr (.inl hpg)⟩
        · exact absurd hn' hn
      · exact .inr ⟨s, (hsub s).mpr hs, hr⟩
  have hlim' : E.LimitsKept g.1 g.2.1 := fun s hs l hl x hx =>
    hlim s ((hsub s).mp hs) l hl x ((hgrp x).mp hx).1
  refine ⟨⟨r.lvl, r.req, g.1, g.2.1, g.2.2⟩,
    reading_ok_iff.mpr ⟨rest, hl, hreq, (hg' _).mpr ⟨rfl, hlim'⟩⟩, rfl, ?_⟩
  ext1
  · rfl
  · rfl
  · ext x
    simp [Reading.label, withoutDynamic, hgrp]
  · ext x
    simp [Reading.label, withoutDynamic, hsub]

/-- The stored classification, normalized without dynamic groups. -/
theorem says_of_stored (hC : E.Coherent) (hL : Legible rt E true) {U : Label}
    (hU : Clears rt E c U) (h : E.computeNormal rt c storedFlags = .ok n) :
    ∃ N, Says rt E n N ∧ AtMost (E.withoutDynamic U) N := by
  obtain ⟨r, hr, -, hlvl, hlabel⟩ := hU
  obtain ⟨r', hr', hl', hm'⟩ := reading_static hC hL hr U.lvl
  obtain ⟨p, hp, h⟩ := bind_eq_ok.mp h
  obtain ⟨r'', hr'', -, rfl⟩ := getClassificationParts_ok_iff.mp hp
  obtain rfl := Except.ok.inj (hr'.symm.trans hr'')
  obtain ⟨k, hk, -⟩ := bind_eq_ok.mp h
  change E.raisedLvl r'.lvl _ = .ok k at hk
  cases hl : r'.lvl with
  | text t =>
    rw [hl] at hk
    contradiction
  | idx k' =>
    have hk' : k' = U.lvl := by
      rw [← hl', hl] at hlvl
      exact Except.ok.inj hlvl
    subst hk'
    rw [hlabel] at hm'
    have hN : Nameable rt E (E.withoutDynamic U) := hm' ▸ nameable_of_reading hC hL hr' U.lvl
    obtain ⟨rest, hi, -⟩ := reading_ok_iff.mp hr'
    have hP : Proper rt E (E.withoutDynamic U) := ⟨hN, level_mem (hl ▸ hi)⟩
    have ht : E.render rt true true (E.withoutDynamic U) = .ok n := by
      have hparts : r'.parts rt E true = E.partsOf true (r'.label U.lvl) :=
        parts_reading hL (hm' ▸ hN) hl
      rw [← h, Engine.render, ← hm', ← hparts]
      rfl
    have hT := tidy_withoutDynamic E U
    obtain ⟨hclosed, hkept⟩ := reading_closed hC hL hr'
    have hw : E.WithinLimits (E.closure true (E.withoutDynamic U)) := by
      have hauto : ∀ (auto : List Str) (S : Finset Str), withAuto true auto S = S :=
        fun auto S => if_pos (.inr rfl)
      intro s hs l hl g hg
      simp only [closure, hauto] at hs hg
      rw [← hm'] at hs hg
      have hs : s ∈ r'.sub := List.mem_toFinset.mp hs
      refine hkept s hs l hl g ?_
      cases Finset.mem_union.mp hg with
      | inl hg => exact List.mem_toFinset.mp hg
      | inr hg =>
        obtain ⟨s', hs', hr⟩ := mem_requiredBy.mp hg
        exact hclosed s' (List.mem_toFinset.mp hs') g hr
    refine ⟨_, (says_of_render_tidy hC hL hP hT ht).1 hw, ?_⟩
    have h : AtMost _ (E.said (E.closure true (E.withoutDynamic U))) := atMost_said hN hT
      ⟨le_refl _, Finset.Subset.refl _, Finset.Subset.refl _, Finset.Subset.refl _⟩
    rwa [said_closure hL hN hT] at h

/-- Where the text parses, it says at least this label. -/
def Holds (rt : Runtime) (E : Engine) (K : Label) (c : Str) : Prop :=
  ∀ r, E.reading rt c true = .ok r → ∃ M, Says rt E c M ∧ AtMost K M

section Keeps

variable (hC : E.Coherent) (hL : Legible rt E true) (hv : E.invalidMode = false)
  (he : E.enforce = true) (hK : Nameable rt E K) (hT : E.Tidy K)

include hC hL hv he hK hT

/-- Normalizing again for a user keeps a tidy label. -/
theorem answer_keeps (h : (answer rt E s (c, userFlags)).1 = .ok n) (hc : Holds rt E K c) {N : Label}
    (hn : Says rt E n N) : AtMost K N := by
  rw [answer_eq he hv] at h
  by_cases hhit : s.hit c userFlags = true
  · rw [if_pos hhit] at h
    obtain rfl := Except.ok.inj h
    obtain ⟨r, hr, -⟩ := hn.clears
    obtain ⟨M, hM, hKM⟩ := hc r hr
    rwa [← hM.clears.unique hn.clears]
  · rw [if_neg hhit] at h
    cases hcomp : E.computeNormal rt c userFlags with
    | error e =>
      rw [hcomp] at h
      contradiction
    | ok t =>
      rw [hcomp] at h
      obtain rfl := Except.ok.inj h
      obtain ⟨p, hp, -⟩ := bind_eq_ok.mp hcomp
      obtain ⟨r, hr, -⟩ := getClassificationParts_ok_iff.mp hp
      obtain ⟨M, hM, hKM⟩ := hc r hr
      have hrender : E.computeNormal rt c userFlags = E.render rt true true M :=
        hM.computeNormal (f := userFlags) hC hL rfl
      rw [hrender] at hcomp
      obtain ⟨r', hr', -⟩ := hn.clears
      have hw := (says_of_render hC hL (hM.proper hC hL) hcomp).2 r' hr'
      have hsaid := (says_of_render hC hL (hM.proper hC hL) hcomp).1 hw
      rw [hn.clears.unique hsaid.clears]
      exact atMost_said hK hT hKM

/-- So does combining with whatever else. -/
theorem build_keeps {c' : Str} {o : Option Str} (hc : Holds rt E K c)
    (h : ((E.buildUserClassification rt (some c) (some c') true).run s).1 = .ok o) :
    ∃ b, o = some b ∧ Holds rt E K b := by
  obtain ⟨n₁, n₂, h₁, -, hcomb⟩ := buildUserClassification_ok he hv h
  obtain ⟨N₁, N₂, hs₁, hs₂⟩ := says_of_combineTexts hC hL hcomb
  have hKN := answer_keeps hC hL hv he hK hT h₁ hc hs₁
  obtain ⟨req, groups, subgroups, hs, heq⟩ := combineTexts_of_says hC hL hs₁ hs₂
  rw [heq] at hcomb
  obtain ⟨b, ht, rfl⟩ := map_eq_ok.mp hcomb
  refine ⟨b, rfl, fun r hr => ?_⟩
  obtain ⟨hsay, hlim⟩ := says_render hC hL (combine_proper hC hL hs₁ hs₂) hs ht
  exact ⟨_, hsay (hlim r hr), atMost_said hK hT (hKN.trans (atMost_combine_left N₁ N₂))⟩

theorem addEmailGroup_keeps {unrestricted email : Str} {o : Option Str} (hc : Holds rt E K c)
    (h : ((addEmailGroup rt E unrestricted email (some c)).run s).1 = .ok o) :
    ∃ b, o = some b ∧ Holds rt E K b := by
  unfold addEmailGroup at h
  split_ifs at h
  · obtain ⟨g, -, h⟩ := run_exceptT_bind_eq_ok.mp h
    exact build_keeps hC hL hv he hK hT hc h
  · obtain rfl := Except.ok.inj h
    exact ⟨c, rfl, hc⟩

theorem addUserGroups_keeps {unrestricted : Str} {groups : List Str} {o : Option Str}
    (hc : Holds rt E K c)
    (h : ((addUserGroups rt E unrestricted groups (some c)).run s).1 = .ok o) :
    ∃ b, o = some b ∧ Holds rt E K b := by
  unfold addUserGroups at h
  split_ifs at h
  · exact build_keeps hC hL hv he hK hT hc h
  · obtain rfl := Except.ok.inj h
    exact ⟨c, rfl, hc⟩

end Keeps

/-- What the dynamic classification of a user keeps of the stored one. -/
theorem getDynamicClassification_keeps (hC : E.Coherent) (hL : Legible rt E true)
    (hv : E.invalidMode = false) (he : E.enforce = true) {info : UserInfo} {stored : Str}
    (hstored : info.classification = some stored) {U : Label} (hU : Clears rt E stored U)
    {o : Option Str} (h : ((E.getDynamicClassification rt info).run s).1 = .ok o) :
    ∃ b, o = some b ∧ Holds rt E (E.withoutDynamic U) b := by
  have hK : Nameable rt E (E.withoutDynamic U) := by
    obtain ⟨r, hr, -, -, hlabel⟩ := hU
    have hN := hlabel ▸ nameable_of_reading hC hL hr U.lvl
    exact ⟨hN.req, fun g hg => hN.grp g (Finset.mem_filter.mp hg).1, hN.sub⟩
  have hT := tidy_withoutDynamic E U
  obtain ⟨u, -, h⟩ := run_exceptT_bind_eq_ok.mp h
  obtain ⟨n, hn, h⟩ := run_exceptT_bind_eq_ok.mp h
  rw [run_liftExcept, hstored] at hn
  have hcomp : E.computeNormal rt stored storedFlags = .ok n := by
    have hmiss : s.hit stored storedFlags = false := by simp [Caches.hit]
    change (answer rt E s (stored, storedFlags)).1 = .ok n at hn
    rw [answer_eq he hv, if_neg (by simp [hmiss])] at hn
    cases hc : E.computeNormal rt stored storedFlags with
    | error e => rw [hc] at hn; contradiction
    | ok t => rw [hc] at hn; exact hn
  obtain ⟨N, hN, hUN⟩ := says_of_stored hC hL hU hcomp
  have hhold : Holds rt E (E.withoutDynamic U) n := fun _ _ => ⟨N, hN, hUN⟩
  split_ifs at h
  · obtain ⟨o₁, h₁, h⟩ := run_exceptT_bind_eq_ok.mp h
    obtain ⟨b₁, rfl, hb₁⟩ := addEmailGroup_keeps hC hL hv he hK hT hhold h₁
    exact addUserGroups_keeps hC hL hv he hK hT hb₁ h
  · obtain rfl := Except.ok.inj h
    exact ⟨n, rfl, hhold⟩

end Dynamic

end Engine

/-- For a valid definition, two user classifications that were normalized are combined into one
that parses and gives what either gave, where together they break no limit. The dynamic
classification of a user, where it parses, gives what the stored one gave without its dynamic
groups. -/
theorem user_classification_keeps {rt : Runtime} {d : Definition} (hv : Valid rt d) :
    (∀ (qs : List Call) (u₁ u₂ n₁ n₂ : Str) (N₁ N₂ : Label) (long : Bool),
      let E := engineOf rt d
      let s := run (Engine.afterCall rt E) (Classification.init rt d).caches qs
      (Engine.answer rt E s (u₁, Engine.userFlags)).1 = .ok n₁ →
      (Engine.answer rt E (Engine.afterCall rt E s (u₁, Engine.userFlags))
        (u₂, Engine.userFlags)).1 = .ok n₂ →
      Engine.Says rt E n₁ N₁ → Engine.Says rt E n₂ N₂ → E.Tidy N₁ → E.Tidy N₂ →
      E.WithinLimits (combine N₁ N₂) →
      ∃ b, ((E.buildUserClassification rt (some u₁) (some u₂) long).run s).1 = .ok (some b) ∧
        Engine.Combines rt E n₁ n₂ b) ∧
    ∀ (s : Caches) (info : UserInfo) (stored : Str) (U : Label) (o : Option Str),
      let E := engineOf rt d
      info.classification = some stored → Engine.Clears rt E stored U →
      ((E.getDynamicClassification rt info).run s).1 = .ok o →
      ∃ b, o = some b ∧ ((∃ p, E.getClassificationParts rt b {} = .ok p) →
        ∀ c C, Engine.Clears rt E c C → CanSee (E.withoutDynamic U) C →
          E.isAccessible rt b (some c) false = .ok true) := by
  have hC := engineOf_coherent rt d
  have hL := hv.legible
  constructor
  · intro qs u₁ u₂ n₁ n₂ N₁ N₂ long E s h₁ h₂ hs₁ hs₂ hT₁ hT₂ hw
    have hcaches : Engine.CachesComputed rt E s := run_cachesComputed hv qs
    have hc₁ := Engine.answer_spec hv.enforced hv.accepted hcaches (u₁, Engine.userFlags)
    have hc₂ := Engine.answer_spec hv.enforced hv.accepted hc₁.1 (u₂, Engine.userFlags)
    rw [Engine.buildUserClassification_run hv.enforced hv.accepted h₁ h₂]
    exact Engine.combines_of_says hC hL hv.accepted hv.enforced (hc₁.2 n₁ h₁) (hc₂.2 n₂ h₂) hs₁ hs₂
      hT₁ hT₂ hw
  · intro s info stored U o E hstored hU h
    obtain ⟨b, rfl, hb⟩ := Engine.getDynamicClassification_keeps hC (hL true) hv.accepted
      hv.enforced hstored hU h
    refine ⟨b, rfl, fun hp c C hc hsee => ?_⟩
    obtain ⟨p, hp⟩ := hp
    obtain ⟨r, hr, -⟩ := Engine.parse_default_ok_iff.mp hp
    obtain ⟨B, hsaid, hUB⟩ := hb r hr
    exact (Engine.isAccessible_iff hC (hL true) hv.accepted hv.enforced).mpr
      ⟨B, C, hsaid.clears, hc, hsee.mono hUB⟩

/-- Two departments, and a dynamic group for the domain of each email. -/
def dynamicDepartments : Definition where
  enforce := some true
  dynamicGroups := some true
  levels := some [{ name := "UNRESTRICTED".toList, shortName := "U".toList, lvl := 100 }]
  required := some []
  groups := some [{ name := "DEPARTMENT 1".toList, shortName := "D1".toList },
    { name := "DEPARTMENT 2".toList, shortName := "D2".toList }]
  subgroups := some []
  unrestricted := some "U".toList
  restricted := some "U//REL TO D1".toList

theorem dynamicDepartments_valid : Valid Runtime.ascii dynamicDepartments := by decide +kernel

/-- Two departments together, and a department with the group of the domain of an email. -/
theorem user_classification_keeps_departments :
    (∃ b, (((engineOf Runtime.ascii dynamicDepartments).buildUserClassification Runtime.ascii
        (some "U//REL TO D1".toList) (some "U//REL TO D2".toList) true).run
          (Classification.init Runtime.ascii dynamicDepartments).caches).1 = .ok (some b) ∧
      Engine.Combines Runtime.ascii (engineOf Runtime.ascii dynamicDepartments)
        "UNRESTRICTED//REL TO DEPARTMENT 1".toList "UNRESTRICTED//REL TO DEPARTMENT 2".toList b) ∧
    ∃ b, (((engineOf Runtime.ascii dynamicDepartments).getDynamicClassification Runtime.ascii
        { classification := some "U//REL TO D1".toList
          email := some "jane@example.org".toList }).run
        (Classification.init Runtime.ascii dynamicDepartments).caches).1 = .ok (some b) ∧
      (engineOf Runtime.ascii dynamicDepartments).isAccessible Runtime.ascii b
        (some "U//REL TO D1".toList) false = .ok true := by
  constructor
  · have hrun : (Engine.answer Runtime.ascii (engineOf Runtime.ascii dynamicDepartments)
          (Classification.init Runtime.ascii dynamicDepartments).caches
          ("U//REL TO D1".toList, Engine.userFlags)).1 =
            .ok "UNRESTRICTED//REL TO DEPARTMENT 1".toList ∧
        (Engine.answer Runtime.ascii (engineOf Runtime.ascii dynamicDepartments)
          (Engine.afterCall Runtime.ascii (engineOf Runtime.ascii dynamicDepartments)
            (Classification.init Runtime.ascii dynamicDepartments).caches
            ("U//REL TO D1".toList, Engine.userFlags)) ("U//REL TO D2".toList, Engine.userFlags)).1 =
            .ok "UNRESTRICTED//REL TO DEPARTMENT 2".toList := by decide +kernel
    exact (user_classification_keeps dynamicDepartments_valid).1 [] "U//REL TO D1".toList
      "U//REL TO D2".toList _ _ ⟨100, ∅, {"D1".toList}, ∅⟩ ⟨100, ∅, {"D2".toList}, ∅⟩ true hrun.1
      hrun.2 ⟨⟨.idx 100, [], ["D1".toList], [], []⟩, by decide +kernel⟩
      ⟨⟨.idx 100, [], ["D2".toList], [], []⟩, by decide +kernel⟩
      (by decide +kernel) (by decide +kernel) (by decide +kernel)
  · have hrun : (((engineOf Runtime.ascii dynamicDepartments).getDynamicClassification Runtime.ascii
          { classification := some "U//REL TO D1".toList
            email := some "jane@example.org".toList }).run
          (Classification.init Runtime.ascii dynamicDepartments).caches).1 =
            .ok (some "UNRESTRICTED//REL TO DEPARTMENT 1, EXAMPLE.ORG".toList) := by decide +kernel
    have hclears : Engine.Clears Runtime.ascii (engineOf Runtime.ascii dynamicDepartments)
        "U//REL TO D1".toList ⟨100, ∅, {"D1".toList}, ∅⟩ :=
      ⟨⟨.idx 100, [], ["D1".toList], [], []⟩, by decide +kernel⟩
    have hsee : CanSee ((engineOf Runtime.ascii dynamicDepartments).withoutDynamic
        ⟨100, ∅, {"D1".toList}, ∅⟩) ⟨100, ∅, {"D1".toList}, ∅⟩ :=
      ⟨by decide +kernel, by decide +kernel, by decide +kernel, by decide +kernel⟩
    obtain ⟨b, hb, hkeeps⟩ := (user_classification_keeps dynamicDepartments_valid).2 _
      { classification := some "U//REL TO D1".toList, email := some "jane@example.org".toList }
      "U//REL TO D1".toList _ _ rfl hclears hrun
    obtain rfl := Option.some.inj hb
    exact ⟨_, hrun, hkeeps ⟨⟨.idx 100, [], ["DEPARTMENT 1".toList, "EXAMPLE.ORG".toList], []⟩,
      by decide +kernel⟩ _ _ hclears hsee⟩

/-- A dynamic group in the stored classification is not carried over. -/
theorem dynamic_group_dropped :
    Valid Runtime.ascii dynamicDepartments ∧
      (engineOf Runtime.ascii dynamicDepartments).isAccessible Runtime.ascii
        "U//REL TO ACME".toList (some "U//REL TO ACME".toList) false = .ok true ∧
      (((engineOf Runtime.ascii dynamicDepartments).getDynamicClassification Runtime.ascii
        { classification := some "U//REL TO ACME".toList
          email := some "jane@example.org".toList }).run
        (Classification.init Runtime.ascii dynamicDepartments).caches).1 =
          .ok (some "UNRESTRICTED//REL TO EXAMPLE.ORG".toList) ∧
      (engineOf Runtime.ascii dynamicDepartments).isAccessible Runtime.ascii
        "UNRESTRICTED//REL TO EXAMPLE.ORG".toList (some "U//REL TO ACME".toList) false =
          .ok false :=
  ⟨dynamicDepartments_valid, by decide +kernel⟩

end Howler
