import Howler.Classification.Cache

namespace Howler

open Python Clearance Systems

namespace Engine

variable {rt : Runtime} {E : Engine}

/-- `max_classification` of two texts that are already normalized. -/
def mixTexts (rt : Runtime) (E : Engine) (long : Bool) (n₁ n₂ : Str) : Except PyError Str := do
  let p₁ ← E.getClassificationParts rt n₁ { longFormat := long }
  let p₂ ← E.getClassificationParts rt n₂ { longFormat := long }
  let req := rt.listSet (rt.listSet p₁.req ++ rt.listSet p₂.req)
  let groups ← maxGroups rt p₁.groups p₂.groups
  let subgroups ← maxGroups rt p₁.subgroups p₂.subgroups
  E.getNormalizedClassificationText rt (← p₁.lvl.max p₂.lvl) req groups subgroups long false

theorem maxClassification_run (he : E.enforce = true) (hv : E.invalidMode = false) {s : Caches}
    {c₁ c₂ n₁ n₂ : Str} (long : Bool) (h₁ : (answer rt E s (c₁, {})).1 = .ok n₁)
    (h₂ : (answer rt E (afterCall rt E s (c₁, {})) (c₂, {})).1 = .ok n₂) :
    ((E.maxClassification rt (some c₁) (some c₂) long).run s).1 = E.mixTexts rt long n₁ n₂ := by
  unfold maxClassification
  rw [he, hv]
  simp only [Bool.not_true, Bool.or_self, Bool.false_eq_true, if_false]
  rw [run_exceptT_bind_ok (run_normalize_some h₁), run_exceptT_bind_ok (run_normalize_some h₂)]
  exact congrArg Prod.fst (run_liftExcept_bind fun p₁ => run_liftExcept_bind fun p₂ =>
    run_liftExcept_bind fun groups => run_liftExcept_bind fun subgroups =>
      run_liftExcept_bind fun lvl => run_liftExcept _ _)

/-- What two lists of texts have in common shows what the two families have in common. -/
theorem mem_common_texts {f : Str → Str} {S T : Finset Str} {xs ys : List Str}
    (hx : ∀ x, x ∈ xs ↔ ∃ a ∈ S, f a = x) (hy : ∀ x, x ∈ ys ↔ ∃ a ∈ T, f a = x)
    (hf : ∀ a ∈ S, ∀ b ∈ T, f a = f b → a = b) (z : Str) :
    z ∈ rt.listSet ((rt.listSet xs).filter (· ∈ ys)) ↔ ∃ a ∈ S ∩ T, f a = z := by
  simp only [Runtime.mem_listSet, List.mem_filter, decide_eq_true_eq, hx, hy, Finset.mem_inter]
  constructor
  · rintro ⟨⟨a, ha, rfl⟩, b, hb, he⟩
    exact ⟨a, ⟨ha, hf a ha b hb he.symm ▸ hb⟩, rfl⟩
  · rintro ⟨a, ⟨ha, hb⟩, rfl⟩
    exact ⟨⟨a, ha, rfl⟩, a, hb, rfl⟩

/-- Texts that show a family are there where the family is. -/
theorem length_texts_pos {f : Str → Str} {S : Finset Str} {xs : List Str}
    (hx : ∀ x, x ∈ xs ↔ ∃ a ∈ S, f a = x) : xs.length > 0 ↔ S.Nonempty := by
  rw [gt_iff_lt, List.length_pos_iff_exists_mem]
  constructor
  · rintro ⟨x, h⟩
    obtain ⟨a, ha, -⟩ := (hx x).mp h
    exact ⟨a, ha⟩
  · rintro ⟨a, ha⟩
    exact ⟨f a, (hx _).mpr ⟨a, ha, rfl⟩⟩

/-- `_max_groups` on the texts of two families narrows them, and raises where both are named and
have nothing in common. -/
theorem maxGroups_ok {f : Str → Str} {S T : Finset Str} {xs ys zs : List Str}
    (hx : ∀ x, x ∈ xs ↔ ∃ a ∈ S, f a = x) (hy : ∀ x, x ∈ ys ↔ ∃ a ∈ T, f a = x)
    (hf : ∀ a ∈ S, ∀ b ∈ T, f a = f b → a = b) (h : maxGroups rt xs ys = .ok zs) :
    (∀ z, z ∈ zs ↔ ∃ a ∈ meetGroups S T, f a = z) ∧
      (S.Nonempty → T.Nonempty → (S ∩ T).Nonempty) := by
  have hiff := and_congr (length_texts_pos hx) (length_texts_pos hy)
  unfold maxGroups at h
  by_cases hne : S.Nonempty ∧ T.Nonempty
  · rw [if_pos (hiff.mpr hne)] at h
    have hmem := @mem_common_texts rt f S T xs ys hx hy hf
    have hmeet : meetGroups S T = S ∩ T :=
      if_neg (not_or.mpr ⟨hne.1.ne_empty, hne.2.ne_empty⟩)
    dsimp only at h
    split_ifs at h with hz
    obtain rfl := Except.ok.inj h
    refine ⟨fun z => by rw [hmem, hmeet], fun _ _ => ?_⟩
    exact (length_texts_pos hmem).mp (Nat.pos_of_ne_zero hz)
  · rw [if_neg (hiff.not.mpr hne)] at h
    obtain rfl := Except.ok.inj h
    have hmeet : meetGroups S T = S ∪ T := by
      rw [not_and_or, Finset.not_nonempty_iff_eq_empty, Finset.not_nonempty_iff_eq_empty] at hne
      exact if_pos hne
    refine ⟨fun z => ?_, fun hS hT => absurd ⟨hS, hT⟩ hne⟩
    simp only [Runtime.mem_listSet, List.mem_append, hx, hy, hmeet, Finset.mem_union,
      or_and_right, exists_or]

/-- A text that parses with a level that can be raised says a label. -/
theorem says_of_parts_idx {long : Bool} {c : Str} {p : Parts}
    (hC : E.Coherent) (hL : Legible rt E long)
    (hp : E.getClassificationParts rt c { longFormat := long } = .ok p) {k : Int}
    (hk : p.lvl = .idx k) : ∃ M, Says rt E c M ∧ M.lvl = k ∧ p = E.partsOf long M := by
  obtain ⟨r, hr, ho, rfl⟩ := getClassificationParts_ok_iff.mp hp
  have ho : r.others = [] := by simpa using ho
  change r.lvl = .idx k at hk
  have hN := nameable_of_reading hC hL hr k
  exact ⟨r.label k, ⟨r, hr, ho, hk, rfl⟩, rfl, parts_reading hL hN hk⟩

/-- Where two normalized texts are mixed, they say labels, and the text shows their mix. -/
theorem mixTexts_ok {long : Bool} (hC : E.Coherent) (hL : Legible rt E long) {n₁ n₂ m : Str}
    (h : E.mixTexts rt long n₁ n₂ = .ok m) :
    ∃ N₁ N₂ req groups subgroups, Says rt E n₁ N₁ ∧ Says rt E n₂ N₂ ∧
      Shows E long (mix N₁ N₂) req groups subgroups ∧
      E.getNormalizedClassificationText rt (.idx (mix N₁ N₂).lvl) req groups subgroups long false =
        .ok m ∧
      (N₁.grp.Nonempty → N₂.grp.Nonempty → (N₁.grp ∩ N₂.grp).Nonempty) ∧
      (N₁.sub.Nonempty → N₂.sub.Nonempty → (N₁.sub ∩ N₂.sub).Nonempty) := by
  obtain ⟨p₁, hp₁, h⟩ := bind_eq_ok.mp h
  obtain ⟨p₂, hp₂, h⟩ := bind_eq_ok.mp h
  obtain ⟨groups, hgroups, h⟩ := bind_eq_ok.mp h
  obtain ⟨subgroups, hsubgroups, h⟩ := bind_eq_ok.mp h
  obtain ⟨lvl, hlvl, h⟩ := bind_eq_ok.mp h
  obtain ⟨n, hn, -⟩ := bind_eq_ok.mp h
  obtain ⟨k₁, k₂, hk₁, hk₂, rfl⟩ : ∃ k₁ k₂, p₁.lvl = .idx k₁ ∧ p₂.lvl = .idx k₂ ∧
      lvl = .idx (max k₁ k₂) := by
    cases hl₁ : p₁.lvl <;> cases hl₂ : p₂.lvl <;> rw [hl₁, hl₂] at hlvl <;> cases hlvl
    · exact ⟨_, _, rfl, rfl, rfl⟩
    · contradiction
  obtain ⟨N₁, hs₁, rfl, rfl⟩ := says_of_parts_idx hC hL hp₁ hk₁
  obtain ⟨N₂, hs₂, rfl, rfl⟩ := says_of_parts_idx hC hL hp₂ hk₂
  have hN₁ := (hs₁.proper hC hL).toNameable
  have hN₂ := (hs₂.proper hC hL).toNameable
  obtain ⟨hgrp, hgne⟩ := maxGroups_ok (fun _ => mem_texts) (fun _ => mem_texts)
    (fun a ha b hb => hL.groupText_inj (hN₁.grp a ha) (hN₂.grp b hb)) hgroups
  obtain ⟨hsub, hsne⟩ := maxGroups_ok (fun _ => mem_texts) (fun _ => mem_texts)
    (fun a ha b hb => hL.subgroupText_inj (hN₁.sub a ha) (hN₂.sub b hb)) hsubgroups
  refine ⟨N₁, N₂, _, groups, subgroups, hs₁, hs₂, ⟨fun x => ?_, hgrp, hsub⟩, h, hgne, hsne⟩
  simp only [Runtime.mem_listSet, List.mem_append, partsOf, mem_texts, mix, Finset.mem_union,
    or_and_right, exists_or]

section Covers

variable {long skip : Bool} {M : Label}

/-- The first label lets nobody in whom the second keeps out. Its groups may be wider only where
each of its subgroups requires a group of the second. -/
structure Covers (E : Engine) (H N : Label) : Prop where
  lvl : N.lvl ≤ H.lvl
  req : N.req ⊆ H.req
  grp : Narrows H.grp N.grp ∨
    H.sub.Nonempty ∧ ∀ s ∈ H.sub, ∃ g ∈ N.grp, E.requireGroup s = some g
  sub : Narrows H.sub N.sub

theorem Covers.canSee {H N U : Label} (h : E.Covers H N) (hU : E.requiredBy U.sub ⊆ U.grp)
    (hs : CanSee U H) : CanSee U N := by
  refine ⟨h.lvl.trans hs.lvl, h.req.trans hs.req, ?_, h.sub.admits hs.sub⟩
  rcases h.grp with hg | ⟨hne, hg⟩
  · exact hg.admits hs.grp
  · obtain ⟨s, hsU, hsH⟩ := hs.sub.exists_mem hne
    obtain ⟨g, hgN, hr⟩ := hg s hsH
    exact admits_of_mem (hU (mem_requiredBy.mpr ⟨s, hsU, hr⟩)) hgN

theorem Clears.requiredBy_subset (hC : E.Coherent) (hL : Legible rt E long) {u : Str} {U : Label}
    (h : Clears rt E u U) : E.requiredBy U.sub ⊆ U.grp := by
  obtain ⟨r, hr, -, -, hU⟩ := h
  rw [← hU]
  intro g hg
  obtain ⟨s, hs, hreq⟩ := mem_requiredBy.mp hg
  exact List.mem_toFinset.mpr ((reading_closed hC hL hr).1 s (List.mem_toFinset.mp hs) g hreq)

/-- Whatever is read somewhere can be shown alone. -/
theorem exists_names {S G : Finset Str} (hS : ∀ g ∈ S, GroupName rt E g) (hG : G ⊆ E.heard S)
    (hC : E.Coherent) : ∃ A : Finset Str, (∀ a ∈ A, GroupName rt E a) ∧ E.heard A = G := by
  have hone : ∀ x ∈ G, ∃ a, GroupName rt E a ∧ E.readAs a = {x} := by
    intro x hx
    obtain ⟨g, hg, hxg⟩ := mem_heard.mp (hG hx)
    by_cases hk : E.groupKeys g = none
    · rcases (mem_readAs_unknown hk).mp hxg with ⟨ks, hks, hm⟩ | ⟨rfl, hn⟩
      · have hxk := hC.mem_of_groupKeys hks hm
        exact ⟨x, .inl hxk, readAs_known (groupKeys_ne_none hxk)⟩
      · refine ⟨g, hS g hg, ?_⟩
        rw [readAs, if_pos hk, hn]
    · rw [readAs_known hk, Finset.mem_singleton] at hxg
      exact ⟨g, hS g hg, by rw [hxg, readAs_known hk]⟩
  choose! name hname hread using hone
  refine ⟨G.image name, ?_, ?_⟩
  · intro a ha
    obtain ⟨x, hx, rfl⟩ := Finset.mem_image.mp ha
    exact hname x hx
  · ext x
    rw [mem_heard]
    constructor
    · rintro ⟨a, ha, hxa⟩
      obtain ⟨y, hy, rfl⟩ := Finset.mem_image.mp ha
      rw [hread y hy, Finset.mem_singleton] at hxa
      exact hxa ▸ hy
    · intro hx
      exact ⟨name x, Finset.mem_image_of_mem name hx, by rw [hread x hx]; simp⟩

/-- Some text clears exactly the level and the tokens that a rendered text names, with groups and
subgroups of one's own choice among those it names. -/
theorem exists_clearance (hC : E.Coherent) (hL : Legible rt E long) (hM : Proper rt E M)
    (hl : ∃ l, E.getC12nLevelText (E.raised M) long = .ok l)
    (hw : E.WithinLimits (E.said (E.closure skip M))) {G B : Finset Str}
    (hG : G ⊆ (E.said (E.closure skip M)).grp) (hB : B ⊆ (E.closure skip M).sub) :
    ∃ u, Says rt E u ⟨E.raised M, M.req, G ∪ E.requiredBy B, B⟩ := by
  have hN := hM.toNameable
  obtain ⟨A, hA, hAG⟩ := exists_names (fun _ hg => grp_closure_name hL hN hg) hG hC
  have hBk : ∀ s ∈ B, s ∈ E.subgroupsMapStl.keys := fun s hs => sub_closure_mem hL hN (hB hs)
  let V : Label := ⟨E.raised M, M.req, A, B⟩
  have hV : Proper rt E V := ⟨⟨hN.req, hA, hBk⟩, raised_mem hM.lvl⟩
  have hraised : E.raised V = E.raised M := raised_closure E skip M
  have hauto : ∀ (auto : List Str) (S : Finset Str), withAuto true auto S = S := fun auto S =>
    if_pos (.inr rfl)
  have hsaid : E.said (E.closure true V) = ⟨E.raised M, M.req, G ∪ E.requiredBy B, B⟩ := by
    have hgrp : E.heard (E.closure true V).grp = G ∪ E.requiredBy B := by
      simp only [closure, hauto, heard_union]
      rw [hAG, heard_requiredBy hL hBk]
    ext1
    · exact hraised
    · rfl
    · exact hgrp
    · exact hauto _ _
  obtain ⟨u, hu⟩ := (render_ok_iff rt true hL hV.toNameable).mpr (hraised.symm ▸ hl)
  refine ⟨u, hsaid ▸ (says_of_render hC hL hV hu).1 ?_⟩
  rw [hsaid]
  intro s hs l hl g hg
  refine hw s (hB hs) l hl g ?_
  cases Finset.mem_union.mp hg with
  | inl hg => exact hG hg
  | inr hg =>
    apply requiredBy_subset_said hL hN
    obtain ⟨s', hs', hr⟩ := mem_requiredBy.mp hg
    exact mem_requiredBy.mpr ⟨s', hB hs', hr⟩

variable {m n : Str} {N : Label}

/-- Some user with just these parts of what a rendered text says may see it. -/
theorem exists_viewer (hC : E.Coherent) (hL : ∀ long, Legible rt E long)
    (hv : E.invalidMode = false) (he : E.enforce = true) (hM : Proper rt E M)
    (hm : Says rt E m (E.said (E.closure skip M)))
    (hl : ∃ l, E.getC12nLevelText (E.raised M) long = .ok l)
    (hw : E.WithinLimits (E.said (E.closure skip M))) {G B : Finset Str}
    (hG : G ⊆ (E.said (E.closure skip M)).grp) (hB : B ⊆ (E.closure skip M).sub)
    (hGne : (E.said (E.closure skip M)).grp = ∅ ∨ G.Nonempty)
    (hBne : (E.closure skip M).sub = ∅ ∨ B.Nonempty) :
    ∃ u, Says rt E u ⟨E.raised M, M.req, G ∪ E.requiredBy B, B⟩ ∧
      E.isAccessible rt u (some m) false = .ok true := by
  obtain ⟨u, hu⟩ := exists_clearance hC (hL long) hM hl hw hG hB
  refine ⟨u, hu, (isAccessible_iff hC (hL true) hv he).mpr ⟨_, _, hu.clears, hm.clears, ?_⟩⟩
  refine ⟨le_refl _, Finset.Subset.refl _, ?_, ?_⟩
  · rcases hGne with h | ⟨g, hg⟩
    · exact .inl h
    · exact admits_of_mem (Finset.mem_union_left _ hg) (hG hg)
  · rcases hBne with h | ⟨s, hs⟩
    · exact .inl h
    · exact admits_of_mem hs (hB hs)

/-- Everyone who may see a rendered text may see another one exactly if its label covers the
other's. -/
theorem covers_iff (hC : E.Coherent) (hL : ∀ long, Legible rt E long)
    (hv : E.invalidMode = false) (he : E.enforce = true) (hM : Proper rt E M)
    (hm : Says rt E m (E.said (E.closure skip M)))
    (hl : ∃ l, E.getC12nLevelText (E.raised M) long = .ok l)
    (hw : E.WithinLimits (E.said (E.closure skip M))) (hn : Says rt E n N) :
    (∀ u, E.isAccessible rt u (some m) false = .ok true →
        E.isAccessible rt u (some n) false = .ok true) ↔
      E.Covers (E.said (E.closure skip M)) N := by
  have hacc : ∀ {u c : Str} {U K : Label}, Clears rt E u U → Says rt E c K →
      E.isAccessible rt u (some c) false = .ok true → CanSee U K := by
    intro u c U K hu hc h
    obtain ⟨U', K', hu', hc', h⟩ := (isAccessible_iff hC (hL true) hv he).mp h
    rwa [hu'.unique hu, hc'.unique hc.clears] at h
  constructor
  · intro h
    have hview := fun {G B : Finset Str} => exists_viewer hC hL hv he hM hm hl hw (G := G) (B := B)
    have hsees : ∀ {G B : Finset Str}, G ⊆ (E.said (E.closure skip M)).grp →
        B ⊆ (E.closure skip M).sub →
        ((E.said (E.closure skip M)).grp = ∅ ∨ G.Nonempty) →
        ((E.closure skip M).sub = ∅ ∨ B.Nonempty) →
        CanSee (⟨E.raised M, M.req, G ∪ E.requiredBy B, B⟩ : Label) N := by
      intro G B hG hB hGne hBne
      obtain ⟨u, hu, hum⟩ := hview hG hB hGne hBne
      exact hacc hu.clears hn (h u hum)
    have hfull : ∀ S : Finset Str, S = ∅ ∨ S.Nonempty := Finset.eq_empty_or_nonempty
    have hall := hsees (Finset.Subset.refl _) (Finset.Subset.refl _) (hfull _) (hfull _)
    refine ⟨hall.lvl, hall.req, ?_, ?_⟩
    · -- a user with one group outside the second label, and a subgroup that requires none inside
      by_contra hno
      rw [not_or] at hno
      obtain ⟨hNne, G, hGs, hGne, hGd⟩ := exists_apart hno.1
      obtain ⟨B, hBs, hBne, hBd⟩ : ∃ B ⊆ (E.closure skip M).sub,
          ((E.closure skip M).sub = ∅ ∨ B.Nonempty) ∧ Disjoint (E.requiredBy B) N.grp := by
        rcases hfull (E.closure skip M).sub with h | hne
        · exact ⟨∅, Finset.empty_subset _, .inl h, Finset.disjoint_empty_left _⟩
        · have hex : ∃ s ∈ (E.closure skip M).sub, ∀ g ∈ N.grp, E.requireGroup s ≠ some g := by
            by_contra hall
            push Not at hall
            exact hno.2 ⟨hne, hall⟩
          obtain ⟨s, hs, hsN⟩ := hex
          refine ⟨{s}, Finset.singleton_subset_iff.mpr hs, .inr (Finset.singleton_nonempty s), ?_⟩
          rw [Finset.disjoint_left]
          intro g hg hgN
          obtain ⟨s', hs', hr⟩ := mem_requiredBy.mp hg
          rw [Finset.mem_singleton.mp hs'] at hr
          exact hsN g hgN hr
      exact not_admits_of_disjoint hNne (Finset.disjoint_union_left.mpr ⟨hGd, hBd⟩)
        (hsees hGs hBs hGne hBne).grp
    · -- a user with one subgroup outside the second label
      by_contra hno
      obtain ⟨hNne, B, hBs, hBne, hBd⟩ := exists_apart hno
      exact not_admits_of_disjoint hNne hBd
        (hsees (Finset.Subset.refl _) hBs (hfull _) hBne).sub
  · intro h u hu
    obtain ⟨U, K, hUu, hKm, hsee⟩ := (isAccessible_iff hC (hL true) hv he).mp hu
    obtain rfl := hKm.unique hm.clears
    exact (isAccessible_iff hC (hL true) hv he).mpr
      ⟨U, N, hUu, hn.clears, h.canSee (hUu.requiredBy_subset hC (hL true)) hsee⟩

end Covers

/-- The label that mixing two labels results in: their mix, closed, as its text is read. -/
def mixed (E : Engine) (N₁ N₂ : Label) : Label := E.said (E.closure false (mix N₁ N₂))

/-- The mix of two texts parses and shows nobody what one of the two would not show. -/
structure MixSafe (rt : Runtime) (E : Engine) (n₁ n₂ m : Str) : Prop where
  parses : ∃ p, E.getClassificationParts rt m {} = .ok p
  left : ∀ u, E.isAccessible rt u (some m) false = .ok true →
    E.isAccessible rt u (some n₁) false = .ok true
  right : ∀ u, E.isAccessible rt u (some m) false = .ok true →
    E.isAccessible rt u (some n₂) false = .ok true

/-- The mix of two labels breaks no limit and covers both. -/
structure Mixable (E : Engine) (N₁ N₂ : Label) : Prop where
  limits : E.WithinLimits (E.mixed N₁ N₂)
  left : E.Covers (E.mixed N₁ N₂) N₁
  right : E.Covers (E.mixed N₁ N₂) N₂

theorem mix_proper (hC : E.Coherent) (hL : Legible rt E true) {n₁ n₂ : Str} {N₁ N₂ : Label}
    (h₁ : Says rt E n₁ N₁) (h₂ : Says rt E n₂ N₂) : Proper rt E (mix N₁ N₂) := by
  have hp₁ := h₁.proper hC hL
  have hp₂ := h₂.proper hC hL
  have hmeet : ∀ {a b : Finset Str} {x : Str}, x ∈ meetGroups a b → x ∈ a ∨ x ∈ b := by
    intro a b x hx
    unfold meetGroups at hx
    split_ifs at hx
    · exact Finset.mem_union.mp hx
    · exact .inl (Finset.mem_inter.mp hx).1
  refine ⟨⟨fun r hr => ?_, fun g hg => ?_, fun s hs => ?_⟩, ?_⟩
  · exact (Finset.mem_union.mp hr).elim (hp₁.req r) (hp₂.req r)
  · exact (hmeet hg).elim (hp₁.grp g) (hp₂.grp g)
  · exact (hmeet hs).elim (hp₁.sub s) (hp₂.sub s)
  · have hmax : (mix N₁ N₂).lvl = max N₁.lvl N₂.lvl := rfl
    rw [hmax]
    cases max_choice N₁.lvl N₂.lvl with
    | inl h => rw [h]; exact hp₁.lvl
    | inr h => rw [h]; exact hp₂.lvl

end Engine

/-- For a valid definition and any state of the caches, what `max_classification` returns is safe
exactly where the labels of the two normalized texts are mixable. -/
theorem max_classification_iff {rt : Runtime} {d : Definition} (hv : Valid rt d) {s : Caches}
    {c₁ c₂ n₁ n₂ m : Str} {long : Bool}
    (h₁ : (Engine.answer rt (engineOf rt d) s (c₁, {})).1 = .ok n₁)
    (h₂ : (Engine.answer rt (engineOf rt d) (Engine.afterCall rt (engineOf rt d) s (c₁, {}))
      (c₂, {})).1 = .ok n₂)
    (hm : (((engineOf rt d).maxClassification rt (some c₁) (some c₂) long).run s).1 = .ok m) :
    Engine.MixSafe rt (engineOf rt d) n₁ n₂ m ↔
      ∃ N₁ N₂, Engine.Says rt (engineOf rt d) n₁ N₁ ∧ Engine.Says rt (engineOf rt d) n₂ N₂ ∧
        (engineOf rt d).Mixable N₁ N₂ := by
  have hC := engineOf_coherent rt d
  have hL := hv.legible
  rw [Engine.maxClassification_run hv.enforced hv.accepted long h₁ h₂] at hm
  obtain ⟨N₁, N₂, req, groups, subgroups, hs₁, hs₂, hshows, ht, -, -⟩ :=
    Engine.mixTexts_ok hC (hL long) hm
  have hM := Engine.mix_proper hC (hL true) hs₁ hs₂
  obtain ⟨hsay, hread⟩ := Engine.says_render hC (hL long) hM hshows ht
  have hlvl := Engine.level_of_render (hL long) hM.toNameable hshows ht
  have hcov := fun hw {n N} hn => Engine.covers_iff (n := n) (N := N) hC hL hv.accepted hv.enforced
    hM (hsay hw) hlvl hw hn
  constructor
  · intro h
    obtain ⟨p, hp⟩ := h.parses
    obtain ⟨r, hr, -⟩ := Engine.parse_default_ok_iff.mp hp
    have hw := hread r hr
    exact ⟨N₁, N₂, hs₁, hs₂, hw, (hcov hw hs₁).mp h.left, (hcov hw hs₂).mp h.right⟩
  · intro h
    obtain ⟨N₁', N₂', hs₁', hs₂', hw, hleft, hright⟩ := h
    obtain rfl := hs₁'.clears.unique hs₁.clears
    obtain rfl := hs₂'.clears.unique hs₂.clears
    obtain ⟨r, hr, ho, -⟩ := hsay hw
    exact ⟨⟨_, Engine.parse_default_ok_iff.mpr ⟨r, hr, ho, rfl⟩⟩, (hcov hw hs₁).mpr hleft,
      (hcov hw hs₂).mpr hright⟩

/-- Two departments, and a group of the second one. -/
def departments : Definition where
  enforce := some true
  dynamicGroups := some false
  levels := some [{ name := "UNRESTRICTED".toList, shortName := "U".toList, lvl := 100 }]
  required := some []
  groups := some [{ name := "DEPARTMENT 1".toList, shortName := "D1".toList },
    { name := "DEPARTMENT 2".toList, shortName := "D2".toList }]
  subgroups := some [{ name := "GROUP 2".toList, shortName := "G2".toList,
                       params := { requireGroup := some "D2".toList } }]
  unrestricted := some "U".toList
  restricted := some "U//REL TO D1".toList

theorem departments_valid : Valid Runtime.ascii departments := by decide +kernel

/-- Two groups of equal standing are narrowed to what they have in common. -/
theorem max_classification_iff_departments :
    Engine.MixSafe Runtime.ascii (engineOf Runtime.ascii departments)
        "UNRESTRICTED//REL TO DEPARTMENT 1, DEPARTMENT 2".toList
        "UNRESTRICTED//REL TO DEPARTMENT 1".toList
        "UNRESTRICTED//REL TO DEPARTMENT 1".toList ↔
      ∃ N₁ N₂, Engine.Says Runtime.ascii (engineOf Runtime.ascii departments)
          "UNRESTRICTED//REL TO DEPARTMENT 1, DEPARTMENT 2".toList N₁ ∧
        Engine.Says Runtime.ascii (engineOf Runtime.ascii departments)
          "UNRESTRICTED//REL TO DEPARTMENT 1".toList N₂ ∧
        (engineOf Runtime.ascii departments).Mixable N₁ N₂ := by
  have hrun : (Engine.answer Runtime.ascii (engineOf Runtime.ascii departments) {}
        ("U//REL TO D1, D2".toList, {})).1 =
          .ok "UNRESTRICTED//REL TO DEPARTMENT 1, DEPARTMENT 2".toList ∧
      (Engine.answer Runtime.ascii (engineOf Runtime.ascii departments)
        (Engine.afterCall Runtime.ascii (engineOf Runtime.ascii departments) {}
          ("U//REL TO D1, D2".toList, {})) ("U//REL TO D1".toList, {})).1 =
          .ok "UNRESTRICTED//REL TO DEPARTMENT 1".toList ∧
      (((engineOf Runtime.ascii departments).maxClassification Runtime.ascii
        (some "U//REL TO D1, D2".toList) (some "U//REL TO D1".toList) true).run {}).1 =
          .ok "UNRESTRICTED//REL TO DEPARTMENT 1".toList := by decide +kernel
  exact max_classification_iff departments_valid hrun.1 hrun.2.1 hrun.2.2

/-- A group that a subgroup requires is put beside the groups in common. -/
theorem max_classification_leaks :
    Valid Runtime.ascii departments ∧
      (Engine.answer Runtime.ascii (engineOf Runtime.ascii departments)
        (Classification.init Runtime.ascii departments).caches ("U//REL TO D1".toList, {})).1 =
          .ok "UNRESTRICTED//REL TO DEPARTMENT 1".toList ∧
      (((engineOf Runtime.ascii departments).maxClassification Runtime.ascii
        (some "U//REL TO D1".toList) (some "U//REL TO D1/G2".toList) true).run
          (Classification.init Runtime.ascii departments).caches).1 =
            .ok "UNRESTRICTED//REL TO DEPARTMENT 1, DEPARTMENT 2/GROUP 2".toList ∧
      (engineOf Runtime.ascii departments).isAccessible Runtime.ascii "U//REL TO D2/G2".toList
        (some "UNRESTRICTED//REL TO DEPARTMENT 1, DEPARTMENT 2/GROUP 2".toList) false =
          .ok true ∧
      (engineOf Runtime.ascii departments).isAccessible Runtime.ascii "U//REL TO D2/G2".toList
        (some "UNRESTRICTED//REL TO DEPARTMENT 1".toList) false = .ok false :=
  ⟨departments_valid, by decide +kernel⟩

end Howler
