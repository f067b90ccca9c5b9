import Howler.Classification.UserMix

namespace Howler

open Python Clearance Systems

/-- `min(lvl_1, lvl_2)`, which raises for a number and a text. -/
def LvlEntry.min : LvlEntry → LvlEntry → Except PyError LvlEntry
  | .idx m, .idx n => .ok (.idx (Min.min m n))
  | .text s, .text t => .ok (.text (if t < s then t else s))
  | _, _ => .error .typeError

namespace Engine

section Source

variable (rt : Runtime) (E : Engine)

/-- `intersect_user_classification` of two texts that are already normalized. -/
def intersectTexts (long : Bool) (n₁ n₂ : Str) : Except PyError Str := do
  let p₁ ← E.getClassificationParts rt n₁ { longFormat := long }
  let p₂ ← E.getClassificationParts rt n₂ { longFormat := long }
  let req := rt.listSet ((rt.listSet p₁.req).filter (· ∈ p₂.req))
  let groups := rt.listSet ((rt.listSet p₁.groups).filter (· ∈ p₂.groups))
  let subgroups := rt.listSet ((rt.listSet p₁.subgroups).filter (· ∈ p₂.subgroups))
  E.getNormalizedClassificationText rt (← p₁.lvl.min p₂.lvl) req groups subgroups long true

/-- `intersect_user_classification`. -/
def intersectUserClassification (u₁ u₂ : Option Str) (long : Bool) : Method (Option Str) := do
  if !E.enforce || E.invalidMode then some <$> E.getUnrestricted
  else
    let n₁ ← u₁.mapM (E.normalizeClassification rt · userFlags)
    let n₂ ← u₂.mapM (E.normalizeClassification rt · userFlags)
    match n₁, n₂ with
    | none, n | n, none => return n
    | some n₁, some n₂ => some <$> (E.intersectTexts rt long n₁ n₂ : Except PyError Str)

end Source

variable {rt : Runtime} {E : Engine}

theorem intersectUserClassification_run (he : E.enforce = true) (hv : E.invalidMode = false)
    {s : Caches} {u₁ u₂ n₁ n₂ : Str} (long : Bool)
    (h₁ : (answer rt E s (u₁, userFlags)).1 = .ok n₁)
    (h₂ : (answer rt E (afterCall rt E s (u₁, userFlags)) (u₂, userFlags)).1 = .ok n₂) :
    ((E.intersectUserClassification rt (some u₁) (some u₂) long).run s).1 =
      some <$> E.intersectTexts rt long n₁ n₂ := by
  unfold intersectUserClassification
  rw [he, hv]
  simp only [Bool.not_true, Bool.or_self, Bool.false_eq_true, if_false]
  rw [run_exceptT_bind_ok (run_normalize_some h₁), run_exceptT_bind_ok (run_normalize_some h₂)]
  exact congrArg Prod.fst (run_map_liftExcept _ _ _)

theorem intersectTexts_of_says {long : Bool} (hC : E.Coherent) (hL : Legible rt E long)
    {n₁ n₂ : Str} {N₁ N₂ : Label} (h₁ : Says rt E n₁ N₁) (h₂ : Says rt E n₂ N₂) :
    ∃ req groups subgroups, Shows E long (intersect N₁ N₂) req groups subgroups ∧
      E.intersectTexts rt long n₁ n₂ = E.getNormalizedClassificationText rt
        (.idx (intersect N₁ N₂).lvl) req groups subgroups long true := by
  have hN₁ := (h₁.proper hC hL).toNameable
  have hN₂ := (h₂.proper hC hL).toNameable
  have hreq := @mem_common_texts rt _ _ _ _ _ (fun _ => mem_texts) (fun _ => mem_texts)
      fun a ha b hb => hL.reqText_inj (hN₁.req a ha) (hN₂.req b hb)
  have hgrp := @mem_common_texts rt _ _ _ _ _ (fun _ => mem_texts) (fun _ => mem_texts)
      fun a ha b hb => hL.groupText_inj (hN₁.grp a ha) (hN₂.grp b hb)
  have hsub := @mem_common_texts rt _ _ _ _ _ (fun _ => mem_texts) (fun _ => mem_texts)
      fun a ha b hb => hL.subgroupText_inj (hN₁.sub a ha) (hN₂.sub b hb)
  refine ⟨_, _, _, ⟨hreq, hgrp, hsub⟩, ?_⟩
  have hp₁ := h₁.parts hC hL false
  have hp₂ := h₂.parts hC hL false
  unfold intersectTexts
  rw [hp₁, hp₂]
  rfl

/-- Where two texts that parse have a least level, they say labels. -/
theorem says_of_min {long : Bool} (hC : E.Coherent) (hL : Legible rt E long) {n₁ n₂ : Str}
    {p₁ p₂ : Parts} (h₁ : E.getClassificationParts rt n₁ { longFormat := long } = .ok p₁)
    (h₂ : E.getClassificationParts rt n₂ { longFormat := long } = .ok p₂) {lvl : LvlEntry}
    (hlvl : p₁.lvl.min p₂.lvl = .ok lvl) {req : List Str} {n : Int}
    (hn : E.raisedLvl lvl req = .ok n) : ∃ N₁ N₂, Says rt E n₁ N₁ ∧ Says rt E n₂ N₂ := by
  obtain ⟨k₁, k₂, hk₁, hk₂⟩ : ∃ k₁ k₂, p₁.lvl = .idx k₁ ∧ p₂.lvl = .idx k₂ := by
    cases hl₁ : p₁.lvl <;> cases hl₂ : p₂.lvl <;> rw [hl₁, hl₂] at hlvl <;> cases hlvl
    · exact ⟨_, _, rfl, rfl⟩
    · contradiction
  obtain ⟨N₁, hs₁, -, -⟩ := says_of_parts_idx hC hL h₁ hk₁
  obtain ⟨N₂, hs₂, -, -⟩ := says_of_parts_idx hC hL h₂ hk₂
  exact ⟨N₁, N₂, hs₁, hs₂⟩

theorem says_of_intersectTexts {long : Bool} (hC : E.Coherent) (hL : Legible rt E long)
    {n₁ n₂ i : Str} (h : E.intersectTexts rt long n₁ n₂ = .ok i) :
    ∃ N₁ N₂, Says rt E n₁ N₁ ∧ Says rt E n₂ N₂ := by
  obtain ⟨p₁, hp₁, h⟩ := bind_eq_ok.mp h
  obtain ⟨p₂, hp₂, h⟩ := bind_eq_ok.mp h
  obtain ⟨lvl, hlvl, h⟩ := bind_eq_ok.mp h
  obtain ⟨n, hn, -⟩ := bind_eq_ok.mp h
  exact says_of_min hC hL hp₁ hp₂ hlvl hn

section Lowered

variable {N₁ N₂ M : Label}

theorem le_raised (M : Label) : 0 ≤ E.raised M ∧
    ∀ r ∈ M.req, (E.params r).requireLvl.getD 0 ≤ E.raised M := by
  have h : E.raised M ≤ E.raised M := le_refl _
  unfold raised at h ⊢
  rw [Finset.fold_max_le, max_le_iff] at h
  exact ⟨h.1.2, h.2⟩

/-- The tokens in common raise the lower of two settled levels no further. -/
theorem raised_of_min (h₁ : E.raised N₁ = N₁.lvl) (h₂ : E.raised N₂ = N₂.lvl)
    (hl : M.lvl = min N₁.lvl N₂.lvl) (hr : M.req = N₁.req ∩ N₂.req) :
    E.raised M = min N₁.lvl N₂.lvl := by
  apply le_antisymm
  · obtain ⟨hz₁, hr₁⟩ := E.le_raised N₁
    obtain ⟨hz₂, hr₂⟩ := E.le_raised N₂
    rw [h₁] at hz₁ hr₁
    rw [h₂] at hz₂ hr₂
    rw [raised, hl, hr, Finset.fold_max_le, max_le_iff]
    refine ⟨⟨le_refl _, le_min hz₁ hz₂⟩, fun r hm => ?_⟩
    have hm := Finset.mem_inter.mp hm
    exact le_min (hr₁ r hm.1) (hr₂ r hm.2)
  · exact hl ▸ lvl_le_raised M

/-- The lower of the levels of two computed texts can be rendered. -/
theorem level_of_min (hC : E.Coherent) (hL : ∀ long, Legible rt E long) {n₁ n₂ : Str}
    (hc₁ : Computed rt E true n₁) (hc₂ : Computed rt E true n₂) (hs₁ : Says rt E n₁ N₁)
    (hs₂ : Says rt E n₂ N₂) (hl : M.lvl = min N₁.lvl N₂.lvl) (hr : M.req = N₁.req ∩ N₂.req) :
    E.raised M = min N₁.lvl N₂.lvl ∧
      ∀ long, ∃ l, E.getC12nLevelText (E.raised M) long = .ok l := by
  obtain ⟨hr₁, hl₁⟩ := level_of_computed hC hL hc₁ hs₁
  obtain ⟨hr₂, hl₂⟩ := level_of_computed hC hL hc₂ hs₂
  have hraised := raised_of_min hr₁ hr₂ hl hr
  refine ⟨hraised, fun long => ?_⟩
  rw [hraised]
  cases min_choice N₁.lvl N₂.lvl with
  | inl h => rw [h]; exact hl₁ long
  | inr h => rw [h]; exact hl₂ long

/-- A label whose raised level has a text is rendered, in whatever order it is shown. -/
theorem text_of_level {long skip : Bool} (hL : Legible rt E long) (hN : Nameable rt E M)
    {req groups subgroups : List Str} (hs : Shows E long M req groups subgroups)
    (hl : ∃ l, E.getC12nLevelText (E.raised M) long = .ok l) :
    ∃ t, E.getNormalizedClassificationText rt (.idx M.lvl) req groups subgroups long skip =
      .ok t := by
  obtain ⟨l, hl⟩ := hl
  rw [getNormalizedClassificationText_eq, raisedLvl_eq hL hN hs]
  exact ⟨_, bind_eq_ok.mpr ⟨_, rfl, bind_eq_ok.mpr ⟨l, hl, rfl⟩⟩⟩

end Lowered

/-- The intersected text parses and shows nothing that one of the two texts does not show. -/
structure Intersects (rt : Runtime) (E : Engine) (n₁ n₂ i : Str) : Prop where
  parses : ∃ p, E.getClassificationParts rt i {} = .ok p
  left : ∀ c, E.isAccessible rt i (some c) false = .ok true →
    E.isAccessible rt n₁ (some c) false = .ok true
  right : ∀ c, E.isAccessible rt i (some c) false = .ok true →
    E.isAccessible rt n₂ (some c) false = .ok true

/-- The groups in common, shown in a text, are read as groups in common. -/
def HeardInCommon (E : Engine) (N₁ N₂ : Label) : Prop :=
  E.heard (N₁.grp ∩ N₂.grp) ⊆ N₁.grp ∩ N₂.grp

instance (E : Engine) (N₁ N₂ : Label) : Decidable (HeardInCommon E N₁ N₂) :=
  inferInstanceAs (Decidable (E.heard (N₁.grp ∩ N₂.grp) ⊆ N₁.grp ∩ N₂.grp))

section Common

variable {n₁ n₂ : Str} {N₁ N₂ : Label}

theorem intersect_proper (hC : E.Coherent) (hL : Legible rt E true) (h₁ : Says rt E n₁ N₁)
    (h₂ : Says rt E n₂ N₂) : Proper rt E (intersect N₁ N₂) := by
  have hp₁ := h₁.proper hC hL
  have hp₂ := h₂.proper hC hL
  refine ⟨⟨fun r hr => hp₁.req r (Finset.mem_inter.mp hr).1,
    fun g hg => hp₁.grp g (Finset.mem_inter.mp hg).1,
    fun s hs => hp₁.sub s (Finset.mem_inter.mp hs).1⟩, ?_⟩
  have hmin : (intersect N₁ N₂).lvl = min N₁.lvl N₂.lvl := rfl
  rw [hmin]
  cases min_choice N₁.lvl N₂.lvl with
  | inl h => rw [h]; exact hp₁.lvl
  | inr h => rw [h]; exact hp₂.lvl

/-- What two labels that were read have in common is closed. -/
theorem closure_intersect (hC : E.Coherent) (hL : Legible rt E true) (h₁ : Says rt E n₁ N₁)
    (h₂ : Says rt E n₂ N₂) :
    (E.closure true (intersect N₁ N₂)).grp = N₁.grp ∩ N₂.grp ∧
      (E.closure true (intersect N₁ N₂)).sub = N₁.sub ∩ N₂.sub := by
  have hauto : ∀ (auto : List Str) (S : Finset Str), withAuto true auto S = S := fun auto S =>
    if_pos (.inr rfl)
  refine ⟨?_, hauto _ _⟩
  simp only [closure, hauto, intersect]
  rw [Finset.union_eq_left]
  intro g hg
  obtain ⟨s, hs, hr⟩ := mem_requiredBy.mp hg
  have hs := Finset.mem_inter.mp hs
  have hg₁ := h₁.clears.requiredBy_subset hC hL (mem_requiredBy.mpr ⟨s, hs.1, hr⟩)
  have hg₂ := h₂.clears.requiredBy_subset hC hL (mem_requiredBy.mpr ⟨s, hs.2, hr⟩)
  exact Finset.mem_inter.mpr ⟨hg₁, hg₂⟩

/-- A text that parses breaks no limit. -/
theorem Says.withinLimits (hC : E.Coherent) (hL : Legible rt E true) (h : Says rt E n₁ N₁) :
    E.WithinLimits N₁ := by
  obtain ⟨r, hr, -, -, hm⟩ := h
  have hkept := (reading_closed hC hL hr).2
  exact hm ▸ (limitsKept_iff N₁.lvl r.req.toFinset).mp hkept

/-- The label that intersecting two labels results in. -/
def intersected (E : Engine) (N₁ N₂ : Label) : Label :=
  E.said (E.closure true (intersect N₁ N₂))

theorem intersected_limits (hC : E.Coherent) (hL : Legible rt E true) (h₁ : Says rt E n₁ N₁)
    (h₂ : Says rt E n₂ N₂) (h : E.HeardInCommon N₁ N₂) :
    E.WithinLimits (E.intersected N₁ N₂) := by
  obtain ⟨hgrp, hsub⟩ := closure_intersect hC hL h₁ h₂
  intro s hs l hl g hg
  have hs : s ∈ N₁.sub ∩ N₂.sub := hsub ▸ hs
  have hg : g ∈ E.heard (N₁.grp ∩ N₂.grp) := hgrp ▸ hg
  exact h₁.withinLimits hC hL s (Finset.mem_inter.mp hs).1 l hl g (Finset.mem_inter.mp (h hg)).1

theorem intersected_atMost (hC : E.Coherent) (hL : Legible rt E true) (h₁ : Says rt E n₁ N₁)
    (h₂ : Says rt E n₂ N₂) (hr : E.raised (intersect N₁ N₂) = min N₁.lvl N₂.lvl)
    (h : E.HeardInCommon N₁ N₂) : AtMost (E.intersected N₁ N₂) (intersect N₁ N₂) := by
  obtain ⟨hgrp, hsub⟩ := closure_intersect hC hL h₁ h₂
  refine ⟨hr.le, Finset.Subset.refl _, ?_, hsub.le⟩
  have hheard : (E.intersected N₁ N₂).grp = E.heard (N₁.grp ∩ N₂.grp) :=
    congrArg E.heard hgrp
  rw [hheard]
  exact h

variable {M N : Label} {i n : Str} {long skip : Bool}

/-- Who sees no more than a text does has none of its groups besides. -/
theorem grp_subset_of_accessible (hC : E.Coherent) (hL : ∀ long, Legible rt E long)
    (hv : E.invalidMode = false) (he : E.enforce = true) (hM : Proper rt E M)
    (hi : Says rt E i (E.said (E.closure skip M)))
    (hl : ∃ l, E.getC12nLevelText (E.raised M) long = .ok l)
    (hw : E.WithinLimits (E.said (E.closure skip M))) (hn : Says rt E n N)
    (h : ∀ c, E.isAccessible rt i (some c) false = .ok true →
      E.isAccessible rt n (some c) false = .ok true) :
    (E.said (E.closure skip M)).grp ⊆ N.grp := by
  intro g hg
  -- a document for this group alone, at the level and with the tokens of the text
  obtain ⟨c, hc⟩ := exists_clearance hC (hL long) hM hl hw (Finset.singleton_subset_iff.mpr hg)
    (Finset.empty_subset _)
  have hseen : E.isAccessible rt i (some c) false = .ok true := by
    refine (isAccessible_iff hC (hL true) hv he).mpr ⟨_, _, hi.clears, hc.clears, le_refl _,
      Finset.Subset.refl _, ?_, admits_empty _⟩
    exact admits_of_mem hg (Finset.mem_union_left _ (Finset.mem_singleton_self g))
  obtain ⟨N', K, hN', hK, hsee⟩ := (isAccessible_iff hC (hL true) hv he).mp (h c hseen)
  obtain rfl := hN'.unique hn.clears
  obtain rfl := hK.unique hc.clears
  obtain ⟨a, ha, hag⟩ := hsee.grp.exists_mem
    ⟨g, Finset.mem_union_left _ (Finset.mem_singleton_self g)⟩
  have hag : a = g := by simpa [requiredBy] using hag
  exact hag ▸ ha

theorem intersects_iff (hC : E.Coherent) (hL : ∀ long, Legible rt E long)
    (hv : E.invalidMode = false) (he : E.enforce = true) (hc₁ : Computed rt E true n₁)
    (hc₂ : Computed rt E true n₂) (h₁ : Says rt E n₁ N₁) (h₂ : Says rt E n₂ N₂) :
    (∃ i, E.intersectTexts rt long n₁ n₂ = .ok i ∧ Intersects rt E n₁ n₂ i) ↔
      E.HeardInCommon N₁ N₂ := by
  obtain ⟨req, groups, subgroups, hs, heq⟩ := intersectTexts_of_says hC (hL long) h₁ h₂
  have hM := intersect_proper hC (hL true) h₁ h₂
  obtain ⟨hr, hl⟩ := level_of_min (M := intersect N₁ N₂) hC hL hc₁ hc₂ h₁ h₂ rfl rfl
  rw [heq]
  constructor
  · rintro ⟨i, ht, hsafe⟩
    obtain ⟨hsay, hread⟩ := says_render hC (hL long) hM hs ht
    obtain ⟨p, hp⟩ := hsafe.parses
    obtain ⟨r, hread', -⟩ := parse_default_ok_iff.mp hp
    have hw := hread r hread'
    have hheard : (E.intersected N₁ N₂).grp = E.heard (N₁.grp ∩ N₂.grp) :=
      congrArg E.heard (closure_intersect hC (hL true) h₁ h₂).1
    rw [HeardInCommon, ← hheard]
    exact Finset.subset_inter
      (grp_subset_of_accessible hC hL hv he hM (hsay hw) (hl long) hw h₁ hsafe.left)
      (grp_subset_of_accessible hC hL hv he hM (hsay hw) (hl long) hw h₂ hsafe.right)
  · intro h
    obtain ⟨i, ht⟩ := text_of_level (hL long) hM.toNameable hs (hl long)
    have hi := (says_render hC (hL long) hM hs ht).1 (intersected_limits hC (hL true) h₁ h₂ h)
    have hle := intersected_atMost hC (hL true) h₁ h₂ hr h
    refine ⟨i, ht, ?_, fun c hc => ?_, fun c hc => ?_⟩
    · obtain ⟨r, hr, ho, -⟩ := hi
      exact ⟨_, parse_default_ok_iff.mpr ⟨r, hr, ho, rfl⟩⟩
    · exact accessible_mono hC (hL true) hv he hi h₁ (hle.trans (atMost_intersect_left N₁ N₂)) hc
    · exact accessible_mono hC (hL true) hv he hi h₂ (hle.trans (atMost_intersect_right N₁ N₂)) hc

end Common

/-- `intersect_user_classification` answers with a text that parses and shows nothing that one of
the two normalized classifications does not show. -/
def IntersectsUsers (rt : Runtime) (E : Engine) (s : Caches) (u₁ u₂ : Str) (long : Bool) : Prop :=
  ∃ n₁ n₂ i, (answer rt E s (u₁, userFlags)).1 = .ok n₁ ∧
    (answer rt E (afterCall rt E s (u₁, userFlags)) (u₂, userFlags)).1 = .ok n₂ ∧
    ((E.intersectUserClassification rt (some u₁) (some u₂) long).run s).1 = .ok (some i) ∧
    Intersects rt E n₁ n₂ i

end Engine

/-- For a valid definition and in every state the caches can reach, two user classifications are
intersected safely exactly where the normalized texts say labels whose groups in common are read
as they are shown. -/
theorem intersect_user_classification_iff {rt : Runtime} {d : Definition} (hv : Valid rt d)
    (qs : List Call) (u₁ u₂ : Str) (long : Bool) :
    let E := engineOf rt d
    let s := run (Engine.afterCall rt E) (Classification.init rt d).caches qs
    Engine.IntersectsUsers rt E s u₁ u₂ long ↔
      ∃ n₁ n₂ N₁ N₂, (Engine.answer rt E s (u₁, Engine.userFlags)).1 = .ok n₁ ∧
        (Engine.answer rt E (Engine.afterCall rt E s (u₁, Engine.userFlags))
          (u₂, Engine.userFlags)).1 = .ok n₂ ∧
        Engine.Says rt E n₁ N₁ ∧ Engine.Says rt E n₂ N₂ ∧ E.HeardInCommon N₁ N₂ := by
  intro E s
  have hC : E.Coherent := engineOf_coherent rt d
  have hL := hv.legible
  have hcaches : Engine.CachesComputed rt E s := run_cachesComputed hv qs
  have hspec₁ := Engine.answer_spec hv.enforced hv.accepted hcaches (u₁, Engine.userFlags)
  have hspec₂ := Engine.answer_spec hv.enforced hv.accepted hspec₁.1 (u₂, Engine.userFlags)
  constructor
  · rintro ⟨n₁, n₂, i, h₁, h₂, hi, hsafe⟩
    rw [Engine.intersectUserClassification_run hv.enforced hv.accepted long h₁ h₂] at hi
    obtain ⟨i', hi', he⟩ := map_eq_ok.mp hi
    obtain rfl := Option.some.inj he
    obtain ⟨N₁, N₂, hs₁, hs₂⟩ := Engine.says_of_intersectTexts hC (hL long) hi'
    refine ⟨n₁, n₂, N₁, N₂, h₁, h₂, hs₁, hs₂, ?_⟩
    exact (Engine.intersects_iff hC hL hv.accepted hv.enforced (hspec₁.2 n₁ h₁) (hspec₂.2 n₂ h₂)
      hs₁ hs₂).mp ⟨i', hi', hsafe⟩
  · rintro ⟨n₁, n₂, N₁, N₂, h₁, h₂, hs₁, hs₂, h⟩
    obtain ⟨i, hi, hsafe⟩ := (Engine.intersects_iff hC hL hv.accepted hv.enforced
      (hspec₁.2 n₁ h₁) (hspec₂.2 n₂ h₂) hs₁ hs₂).mpr h
    refine ⟨n₁, n₂, i, h₁, h₂, ?_, hsafe⟩
    rw [Engine.intersectUserClassification_run hv.enforced hv.accepted long h₁ h₂, hi]
    rfl

/-- Two departments in common with one. -/
theorem intersect_user_classification_iff_departments :
    Engine.IntersectsUsers Runtime.ascii (engineOf Runtime.ascii dynamicDepartments)
      (Classification.init Runtime.ascii dynamicDepartments).caches "U//REL TO D1, D2".toList
      "U//REL TO D1".toList true := by
  have hrun : (Engine.answer Runtime.ascii (engineOf Runtime.ascii dynamicDepartments)
        (Classification.init Runtime.ascii dynamicDepartments).caches
        ("U//REL TO D1, D2".toList, Engine.userFlags)).1 =
          .ok "UNRESTRICTED//REL TO DEPARTMENT 1, DEPARTMENT 2".toList ∧
      (Engine.answer Runtime.ascii (engineOf Runtime.ascii dynamicDepartments)
        (Engine.afterCall Runtime.ascii (engineOf Runtime.ascii dynamicDepartments)
          (Classification.init Runtime.ascii dynamicDepartments).caches
          ("U//REL TO D1, D2".toList, Engine.userFlags)) ("U//REL TO D1".toList,
            Engine.userFlags)).1 =
          .ok "UNRESTRICTED//REL TO DEPARTMENT 1".toList := by decide +kernel
  refine (intersect_user_classification_iff dynamicDepartments_valid [] "U//REL TO D1, D2".toList
    "U//REL TO D1".toList true).mpr ⟨_, _, ⟨100, ∅, {"D1".toList, "D2".toList}, ∅⟩,
      ⟨100, ∅, {"D1".toList}, ∅⟩, hrun.1, hrun.2, ?_, ?_, by decide +kernel⟩
  · exact ⟨⟨.idx 100, [], ["D1".toList, "D2".toList], [], []⟩, by decide +kernel⟩
  · exact ⟨⟨.idx 100, [], ["D1".toList], [], []⟩, by decide +kernel⟩

/-- A group with a nested marking: the intersection of a user with itself is read as another
group, and sees the documents of that group. -/
theorem intersect_user_classification_leaks :
    Valid Runtime.ascii dynamicDepartments ∧
      ¬ Engine.IntersectsUsers Runtime.ascii (engineOf Runtime.ascii dynamicDepartments)
        (Classification.init Runtime.ascii dynamicDepartments).caches
        "U//REL TO RRREL EL EL X".toList "U//REL TO RRREL EL EL X".toList true := by
  refine ⟨dynamicDepartments_valid, ?_⟩
  rintro ⟨n₁, n₂, i, h₁, -, hi, hsafe⟩
  have hn : (Engine.answer Runtime.ascii (engineOf Runtime.ascii dynamicDepartments)
      (Classification.init Runtime.ascii dynamicDepartments).caches
      ("U//REL TO RRREL EL EL X".toList, Engine.userFlags)).1 =
        .ok "UNRESTRICTED//REL TO RREL EL X".toList := by decide +kernel
  have hrun : (((engineOf Runtime.ascii dynamicDepartments).intersectUserClassification
      Runtime.ascii (some "U//REL TO RRREL EL EL X".toList)
      (some "U//REL TO RRREL EL EL X".toList) true).run
        (Classification.init Runtime.ascii dynamicDepartments).caches).1 =
          .ok (some "UNRESTRICTED//REL TO REL X".toList) := by decide +kernel
  obtain rfl := Except.ok.inj (hn.symm.trans h₁)
  obtain rfl := Option.some.inj (Except.ok.inj (hrun.symm.trans hi))
  have hsee : (engineOf Runtime.ascii dynamicDepartments).isAccessible Runtime.ascii
      "UNRESTRICTED//REL TO REL X".toList (some "U//REL TO X".toList) false = .ok true := by
    decide +kernel
  have hblind : (engineOf Runtime.ascii dynamicDepartments).isAccessible Runtime.ascii
      "UNRESTRICTED//REL TO RREL EL X".toList (some "U//REL TO X".toList) false ≠ .ok true := by
    decide +kernel
  exact hblind (hsafe.left _ hsee)

end Howler
