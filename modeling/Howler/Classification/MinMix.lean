import Howler.Classification.Intersect

namespace Howler

open Python Clearance Systems

namespace Engine

section Source

variable (rt : Runtime) (E : Engine)

/-- The groups of `min_classification`: all of them, or none where one side has none. -/
def minGroups (groups₁ groups₂ : List Str) : List Str :=
  if groups₁.length > 0 ∧ groups₂.length > 0 then
    rt.listSet (rt.listSet groups₁ ++ rt.listSet groups₂)
  else []

/-- `min_classification` of two texts that are already normalized. -/
def minTexts (long : Bool) (n₁ n₂ : Str) : Except PyError Str := do
  let p₁ ← E.getClassificationParts rt n₁ { longFormat := long }
  let p₂ ← E.getClassificationParts rt n₂ { longFormat := long }
  let req := rt.listSet ((rt.listSet p₁.req).filter (· ∈ p₂.req))
  let groups := minGroups rt p₁.groups p₂.groups
  let subgroups := minGroups rt p₁.subgroups p₂.subgroups
  E.getNormalizedClassificationText rt (← p₁.lvl.min p₂.lvl) req groups subgroups long false

/-- `min_classification`. -/
def minClassification (c₁ c₂ : Option Str) (long : Bool) : Method (Option Str) := do
  if !E.enforce || E.invalidMode then some <$> E.getUnrestricted
  else
    let n₁ ← c₁.mapM (E.normalizeClassification rt · {})
    let n₂ ← c₂.mapM (E.normalizeClassification rt · {})
    match n₁, n₂ with
    | none, n | n, none => return n
    | some n₁, some n₂ => some <$> (E.minTexts rt long n₁ n₂ : Except PyError Str)

end Source

variable {rt : Runtime} {E : Engine}

theorem minClassification_run (he : E.enforce = true) (hv : E.invalidMode = false) {s : Caches}
    {c₁ c₂ n₁ n₂ : Str} (long : Bool) (h₁ : (answer rt E s (c₁, {})).1 = .ok n₁)
    (h₂ : (answer rt E (afterCall rt E s (c₁, {})) (c₂, {})).1 = .ok n₂) :
    ((E.minClassification rt (some c₁) (some c₂) long).run s).1 =
      some <$> E.minTexts rt long n₁ n₂ := by
  unfold minClassification
  rw [he, hv]
  simp only [Bool.not_true, Bool.or_self, Bool.false_eq_true, if_false]
  rw [run_exceptT_bind_ok (run_normalize_some h₁), run_exceptT_bind_ok (run_normalize_some h₂)]
  exact congrArg Prod.fst (run_map_liftExcept _ _ _)

/-- The texts of two families are widened as the families are. -/
theorem mem_minGroups {f : Str → Str} {S T : Finset Str} {xs ys : List Str}
    (hx : ∀ x, x ∈ xs ↔ ∃ a ∈ S, f a = x) (hy : ∀ x, x ∈ ys ↔ ∃ a ∈ T, f a = x) (z : Str) :
    z ∈ minGroups rt xs ys ↔ ∃ a ∈ joinGroups S T, f a = z := by
  have hiff := and_congr (length_texts_pos hx) (length_texts_pos hy)
  unfold minGroups
  split_ifs with h
  · obtain ⟨hS, hT⟩ := hiff.mp h
    simp only [Runtime.mem_listSet, List.mem_append, hx, hy, mem_joinGroups, hS, hT, true_and,
      or_and_right, exists_or]
  · have hno := hiff.not.mp h
    simp only [List.not_mem_nil, false_iff]
    rintro ⟨a, ha, -⟩
    obtain ⟨hS, hT, -⟩ := mem_joinGroups.mp ha
    exact hno ⟨hS, hT⟩

theorem minTexts_of_says {long : Bool} (hC : E.Coherent) (hL : Legible rt E long)
    {n₁ n₂ : Str} {N₁ N₂ : Label} (h₁ : Says rt E n₁ N₁) (h₂ : Says rt E n₂ N₂) :
    ∃ req groups subgroups, Shows E long (pool N₁ N₂) req groups subgroups ∧
      E.minTexts rt long n₁ n₂ = E.getNormalizedClassificationText rt
        (.idx (pool N₁ N₂).lvl) req groups subgroups long false := by
  have hN₁ := (h₁.proper hC hL).toNameable
  have hN₂ := (h₂.proper hC hL).toNameable
  have hreq := @mem_common_texts rt _ _ _ _ _ (fun _ => mem_texts) (fun _ => mem_texts)
      fun a ha b hb => hL.reqText_inj (hN₁.req a ha) (hN₂.req b hb)
  refine ⟨_, _, _, ⟨hreq, @mem_minGroups rt _ _ _ _ _ (fun _ => mem_texts) (fun _ => mem_texts),
    @mem_minGroups rt _ _ _ _ _ (fun _ => mem_texts) (fun _ => mem_texts)⟩, ?_⟩
  have hp₁ := h₁.parts hC hL false
  have hp₂ := h₂.parts hC hL false
  unfold minTexts
  rw [hp₁, hp₂]
  rfl

theorem says_of_minTexts {long : Bool} (hC : E.Coherent) (hL : Legible rt E long)
    {n₁ n₂ m : Str} (h : E.minTexts rt long n₁ n₂ = .ok m) :
    ∃ N₁ N₂, Says rt E n₁ N₁ ∧ Says rt E n₂ N₂ := by
  obtain ⟨p₁, hp₁, h⟩ := bind_eq_ok.mp h
  obtain ⟨p₂, hp₂, h⟩ := bind_eq_ok.mp h
  obtain ⟨lvl, hlvl, h⟩ := bind_eq_ok.mp h
  obtain ⟨n, hn, -⟩ := bind_eq_ok.mp h
  exact says_of_min hC hL hp₁ hp₂ hlvl hn

/-- The label that the least restrictive mix of two labels results in: the widened families are
closed, and read as they are shown. -/
def pooled (E : Engine) (N₁ N₂ : Label) : Label := E.said (E.closure false (pool N₁ N₂))

theorem pooled_comm (N₁ N₂ : Label) : E.pooled N₁ N₂ = E.pooled N₂ N₁ := by
  rw [pooled, pooled, pool_comm]

/-- The groups of the first label admit nobody to it whom those of the second keep out, except
where each of its subgroups requires one of them. -/
def GroupsCover (E : Engine) (N H : Label) : Prop :=
  Narrows N.grp H.grp ∨ N.sub.Nonempty ∧ ∀ s ∈ N.sub, ∃ g ∈ H.grp, E.requireGroup s = some g

instance (E : Engine) (N H : Label) : Decidable (GroupsCover E N H) :=
  inferInstanceAs (Decidable (Narrows N.grp H.grp ∨ N.sub.Nonempty ∧
    ∀ s ∈ N.sub, ∃ g ∈ H.grp, E.requireGroup s = some g))

/-- The mix of two labels breaks no limit, and what was added to its groups keeps nobody out. -/
structure Poolable (E : Engine) (N₁ N₂ : Label) : Prop where
  limits : E.WithinLimits (E.pooled N₁ N₂)
  left : E.GroupsCover N₁ (E.pooled N₁ N₂)
  right : E.GroupsCover N₂ (E.pooled N₁ N₂)

theorem narrows_withAuto {skip : Bool} {auto : List Str} {S T : Finset Str} (h : Narrows S T) :
    Narrows S (withAuto skip auto T) := by
  rcases h with rfl | ⟨hne, hs⟩
  · exact .inl (if_pos (.inl rfl))
  · exact .inr ⟨hne, hs.trans (subset_withAuto skip auto T)⟩

/-- The level, the tokens and the subgroups of the mix never keep anybody out. -/
theorem covers_pooled_iff {N₁ N₂ : Label} (hr : E.raised (pool N₁ N₂) = min N₁.lvl N₂.lvl) :
    E.Covers N₁ (E.pooled N₁ N₂) ↔ E.GroupsCover N₁ (E.pooled N₁ N₂) := by
  constructor
  · exact fun h => h.grp
  · intro h
    refine ⟨?_, Finset.inter_subset_left, h, narrows_withAuto (narrows_joinGroups _ _)⟩
    have hlvl : (E.pooled N₁ N₂).lvl = E.raised (pool N₁ N₂) := rfl
    rw [hlvl, hr]
    exact min_le_left _ _

/-- The mix of two texts parses and keeps out nobody who may see one of the two. -/
structure Admitting (rt : Runtime) (E : Engine) (n₁ n₂ m : Str) : Prop where
  parses : ∃ p, E.getClassificationParts rt m {} = .ok p
  left : ∀ u, E.isAccessible rt u (some n₁) false = .ok true →
    E.isAccessible rt u (some m) false = .ok true
  right : ∀ u, E.isAccessible rt u (some n₂) false = .ok true →
    E.isAccessible rt u (some m) false = .ok true

section Pool

variable {n₁ n₂ : Str} {N₁ N₂ : Label}

theorem pool_proper (hC : E.Coherent) (hL : Legible rt E true) (h₁ : Says rt E n₁ N₁)
    (h₂ : Says rt E n₂ N₂) : Proper rt E (pool N₁ N₂) := by
  have hp₁ := h₁.proper hC hL
  have hp₂ := h₂.proper hC hL
  have hmin := (intersect_proper hC hL h₁ h₂).lvl
  refine ⟨⟨fun r hr => hp₁.req r (Finset.mem_inter.mp hr).1, fun g hg => ?_, fun s hs => ?_⟩, hmin⟩
  · exact (mem_joinGroups.mp hg).2.2.elim (hp₁.grp g) (hp₂.grp g)
  · exact (mem_joinGroups.mp hs).2.2.elim (hp₁.sub s) (hp₂.sub s)

/-- Everyone who may see a computed text may see another one exactly if its label covers the
other's. -/
theorem covers_computed_iff (hC : E.Coherent) (hL : ∀ long, Legible rt E long)
    (hv : E.invalidMode = false) (he : E.enforce = true) {n m : Str} {N M : Label}
    (hc : Computed rt E true n) (hn : Says rt E n N) (hm : Says rt E m M) :
    (∀ u, E.isAccessible rt u (some n) false = .ok true →
        E.isAccessible rt u (some m) false = .ok true) ↔ E.Covers N M := by
  obtain ⟨K, skip, hK, ht⟩ := hc.render hC hL
  obtain ⟨r, hr, -⟩ := hn.clears
  have hw := (says_of_render hC (hL true) hK ht).2 r hr
  have hsaid := (says_of_render hC (hL true) hK ht).1 hw
  have hlvl := level_of_render (hL true) hK.toNameable (shows_partsOf E true K) ht
  obtain rfl := hn.clears.unique hsaid.clears
  exact covers_iff hC hL hv he hK hn hlvl hw hm

theorem admitting_iff (hC : E.Coherent) (hL : ∀ long, Legible rt E long)
    (hv : E.invalidMode = false) (he : E.enforce = true) (hc₁ : Computed rt E true n₁)
    (hc₂ : Computed rt E true n₂) (h₁ : Says rt E n₁ N₁) (h₂ : Says rt E n₂ N₂) {long : Bool} :
    (∃ m, E.minTexts rt long n₁ n₂ = .ok m ∧ Admitting rt E n₁ n₂ m) ↔ E.Poolable N₁ N₂ := by
  obtain ⟨req, groups, subgroups, hs, heq⟩ := minTexts_of_says hC (hL long) h₁ h₂
  have hM := pool_proper hC (hL true) h₁ h₂
  obtain ⟨hr, hl⟩ := level_of_min (M := pool N₁ N₂) hC hL hc₁ hc₂ h₁ h₂ rfl rfl
  have hr' : E.raised (pool N₂ N₁) = min N₂.lvl N₁.lvl := by rw [pool_comm, hr, min_comm]
  have hleft := covers_pooled_iff (E := E) hr
  have hright := covers_pooled_iff (E := E) hr'
  rw [pooled_comm] at hright
  obtain ⟨m, ht⟩ := text_of_level (hL long) hM.toNameable hs (hl long)
  obtain ⟨hsay, hread⟩ := says_render hC (hL long) hM hs ht
  rw [heq, ht]
  constructor
  · rintro ⟨m', hm', hsafe⟩
    obtain rfl := Except.ok.inj hm'
    obtain ⟨p, hp⟩ := hsafe.parses
    obtain ⟨r, hr, -⟩ := parse_default_ok_iff.mp hp
    have hw := hread r hr
    have hcov₁ := covers_computed_iff hC hL hv he hc₁ h₁ (hsay hw)
    have hcov₂ := covers_computed_iff hC hL hv he hc₂ h₂ (hsay hw)
    exact ⟨hw, hleft.mp (hcov₁.mp hsafe.left), hright.mp (hcov₂.mp hsafe.right)⟩
  · intro h
    have hm := hsay h.limits
    have hcov₁ := covers_computed_iff hC hL hv he hc₁ h₁ hm
    have hcov₂ := covers_computed_iff hC hL hv he hc₂ h₂ hm
    refine ⟨m, rfl, ?_, hcov₁.mpr (hleft.mpr h.left), hcov₂.mpr (hright.mpr h.right)⟩
    obtain ⟨r, hr, ho, -⟩ := hm
    exact ⟨_, parse_default_ok_iff.mpr ⟨r, hr, ho, rfl⟩⟩

end Pool

/-- `min_classification` answers with a text that parses and keeps out nobody who may see one of
the two normalized markings. -/
def MinAdmits (rt : Runtime) (E : Engine) (s : Caches) (c₁ c₂ : Str) (long : Bool) : Prop :=
  ∃ n₁ n₂ m, (answer rt E s (c₁, {})).1 = .ok n₁ ∧
    (answer rt E (afterCall rt E s (c₁, {})) (c₂, {})).1 = .ok n₂ ∧
    ((E.minClassification rt (some c₁) (some c₂) long).run s).1 = .ok (some m) ∧
    Admitting rt E n₁ n₂ m

end Engine

/-- For a valid definition and in every state the caches can reach, `min_classification` admits
whoever one of the two markings admits exactly where the normalized texts say labels that can be
pooled. -/
theorem min_classification_iff {rt : Runtime} {d : Definition} (hv : Valid rt d) (qs : List Call)
    (c₁ c₂ : Str) (long : Bool) :
    let E := engineOf rt d
    let s := run (Engine.afterCall rt E) (Classification.init rt d).caches qs
    Engine.MinAdmits rt E s c₁ c₂ long ↔
      ∃ n₁ n₂ N₁ N₂, (Engine.answer rt E s (c₁, {})).1 = .ok n₁ ∧
        (Engine.answer rt E (Engine.afterCall rt E s (c₁, {})) (c₂, {})).1 = .ok n₂ ∧
        Engine.Says rt E n₁ N₁ ∧ Engine.Says rt E n₂ N₂ ∧ E.Poolable N₁ N₂ := by
  intro E s
  have hC : E.Coherent := engineOf_coherent rt d
  have hL := hv.legible
  have hcaches : Engine.CachesComputed rt E s := run_cachesComputed hv qs
  have hspec₁ := Engine.answer_spec hv.enforced hv.accepted hcaches (c₁, {})
  have hspec₂ := Engine.answer_spec hv.enforced hv.accepted hspec₁.1 (c₂, {})
  constructor
  · rintro ⟨n₁, n₂, m, h₁, h₂, hm, hsafe⟩
    rw [Engine.minClassification_run hv.enforced hv.accepted long h₁ h₂] at hm
    obtain ⟨m', hm', he⟩ := map_eq_ok.mp hm
    obtain rfl := Option.some.inj he
    obtain ⟨N₁, N₂, hs₁, hs₂⟩ := Engine.says_of_minTexts hC (hL long) hm'
    refine ⟨n₁, n₂, N₁, N₂, h₁, h₂, hs₁, hs₂, ?_⟩
    exact (Engine.admitting_iff hC hL hv.accepted hv.enforced (hspec₁.2 n₁ h₁) (hspec₂.2 n₂ h₂)
      hs₁ hs₂).mp ⟨m', hm', hsafe⟩
  · rintro ⟨n₁, n₂, N₁, N₂, h₁, h₂, hs₁, hs₂, h⟩
    obtain ⟨m, hm, hsafe⟩ := (Engine.admitting_iff hC hL hv.accepted hv.enforced
      (hspec₁.2 n₁ h₁) (hspec₂.2 n₂ h₂) hs₁ hs₂).mpr h
    refine ⟨n₁, n₂, m, h₁, h₂, ?_, hsafe⟩
    rw [Engine.minClassification_run hv.enforced hv.accepted long h₁ h₂, hm]
    rfl

/-- Two departments, one of which is enough for the mix. -/
theorem min_classification_iff_departments :
    Engine.MinAdmits Runtime.ascii (engineOf Runtime.ascii departments)
      (Classification.init Runtime.ascii departments).caches "U//REL TO D1".toList
      "U//REL TO D2/G2".toList true := by
  have hrun : (Engine.answer Runtime.ascii (engineOf Runtime.ascii departments)
        (Classification.init Runtime.ascii departments).caches ("U//REL TO D1".toList, {})).1 =
          .ok "UNRESTRICTED//REL TO DEPARTMENT 1".toList ∧
      (Engine.answer Runtime.ascii (engineOf Runtime.ascii departments)
        (Engine.afterCall Runtime.ascii (engineOf Runtime.ascii departments)
          (Classification.init Runtime.ascii departments).caches ("U//REL TO D1".toList, {}))
            ("U//REL TO D2/G2".toList, {})).1 =
          .ok "UNRESTRICTED//REL TO DEPARTMENT 2/GROUP 2".toList := by decide +kernel
  refine (min_classification_iff departments_valid [] "U//REL TO D1".toList
    "U//REL TO D2/G2".toList true).mpr ⟨_, _, ⟨100, ∅, {"D1".toList}, ∅⟩,
      ⟨100, ∅, {"D2".toList}, {"G2".toList}⟩, hrun.1, hrun.2, ?_, ?_,
      ⟨by decide +kernel, by decide +kernel, by decide +kernel⟩⟩
  · exact ⟨⟨.idx 100, [], ["D1".toList], [], []⟩, by decide +kernel⟩
  · exact ⟨⟨.idx 100, [], ["D2".toList, "D2".toList], ["G2".toList], []⟩, by decide +kernel⟩

/-- Two departments, a group of the second one and a group of no department. -/
def openGroup : Definition where
  enforce := some true
  dynamicGroups := some false
  levels := some [{ name := "UNRESTRICTED".toList, shortName := "U".toList, lvl := 100 }]
  required := some []
  groups := some [{ name := "DEPARTMENT 1".toList, shortName := "D1".toList },
    { name := "DEPARTMENT 2".toList, shortName := "D2".toList }]
  subgroups := some [{ name := "GROUP 1".toList, shortName := "G1".toList },
    { name := "GROUP 2".toList, shortName := "G2".toList,
      params := { requireGroup := some "D2".toList } }]
  unrestricted := some "U".toList
  restricted := some "U//REL TO D1".toList

theorem openGroup_valid : Valid Runtime.ascii openGroup := by decide +kernel

/-- The department that one of the united groups requires keeps out the members of the other. -/
theorem min_classification_denies :
    Valid Runtime.ascii openGroup ∧
      (∃ p, (engineOf Runtime.ascii openGroup).getClassificationParts Runtime.ascii
        "U//G1".toList {} = .ok p) ∧
      (∃ p, (engineOf Runtime.ascii openGroup).getClassificationParts Runtime.ascii
        "U//REL TO D2/G2".toList {} = .ok p) ∧
      ¬ Engine.MinAdmits Runtime.ascii (engineOf Runtime.ascii openGroup)
        (Classification.init Runtime.ascii openGroup).caches "U//G1".toList
        "U//REL TO D2/G2".toList true := by
  refine ⟨openGroup_valid, ⟨⟨.idx 100, [], [], ["GROUP 1".toList]⟩, by decide +kernel⟩,
    ⟨⟨.idx 100, [], ["DEPARTMENT 2".toList], ["GROUP 2".toList]⟩, by decide +kernel⟩, ?_⟩
  rintro ⟨n₁, n₂, m, h₁, -, hm, hsafe⟩
  have hn : (Engine.answer Runtime.ascii (engineOf Runtime.ascii openGroup)
      (Classification.init Runtime.ascii openGroup).caches ("U//G1".toList, {})).1 =
        .ok "UNRESTRICTED//GROUP 1".toList := by decide +kernel
  have hrun : (((engineOf Runtime.ascii openGroup).minClassification Runtime.ascii
      (some "U//G1".toList) (some "U//REL TO D2/G2".toList) true).run
        (Classification.init Runtime.ascii openGroup).caches).1 =
          .ok (some "UNRESTRICTED//REL TO DEPARTMENT 2/GROUP 1/GROUP 2".toList) := by
    decide +kernel
  obtain rfl := Except.ok.inj (hn.symm.trans h₁)
  obtain rfl := Option.some.inj (Except.ok.inj (hrun.symm.trans hm))
  have hsee : (engineOf Runtime.ascii openGroup).isAccessible Runtime.ascii "U//G1".toList
      (some "UNRESTRICTED//GROUP 1".toList) false = .ok true := by decide +kernel
  have hblind : (engineOf Runtime.ascii openGroup).isAccessible Runtime.ascii "U//G1".toList
      (some "UNRESTRICTED//REL TO DEPARTMENT 2/GROUP 1/GROUP 2".toList) false ≠ .ok true := by
    decide +kernel
  exact hblind (hsafe.left _ hsee)

end Howler
