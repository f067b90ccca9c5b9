import Howler.Classification.Access
import Howler.Classification.GroupMark

namespace Howler

open Python Clearance

namespace Engine

variable {rt : Runtime} {E : Engine}

section Render

variable {long skip : Bool} {M : Label} {req groups subgroups : List Str}

/-- The pieces of a rendered marking, as far as the parser looks at them. -/
theorem mem_shownPieces {p : Str} (hp : p ≠ []) :
    p ∈ shownPieces rt E req groups subgroups long skip ↔
      p ∈ req ∨ shownMark rt E groups subgroups long skip = some p ∨
        p ∈ E.shownSubgroups rt subgroups long skip := by
  rw [shownPieces, mem_pieces hp, mem_sorted, mem_sorted, List.mem_filter, plainReq,
    Runtime.mem_listSet, List.mem_filter, Runtime.mem_listSet]
  have hsplit : (p ∈ req ∧ (!(E.params p).isRequiredGroup) = true) ∨
      (p ∈ req ∧ (E.params p).isRequiredGroup = true) ↔ p ∈ req := by
    cases (E.params p).isRequiredGroup <;> simp
  rw [← or_assoc, hsplit]

variable (rt skip) in
theorem shownMark_cases (hC : E.Coherent) (hL : Legible rt E long) (hN : Nameable rt E M)
    (hs : Shows E long M req groups subgroups) :
    (shownMark rt E groups subgroups long skip = none ∧
        shownGrp rt E M subgroups long skip = ∅) ∨
      ∃ m, shownMark rt E groups subgroups long skip = some m ∧
        MarksGroups rt E m (E.heard (shownGrp rt E M subgroups long skip)) := by
  have hmem := mem_shownGroups rt skip hL hN hs
  unfold shownMark
  dsimp only
  split_ifs with h
  · refine .inl ⟨rfl, Finset.eq_empty_of_forall_notMem fun g hg => ?_⟩
    have := (hmem _).mpr ⟨g, hg, rfl⟩
    rw [h] at this
    simp at this
  · exact .inr ⟨_, rfl, marksGroups_groupMark hC hL h (shownGroups_nodup _ _) hmem
      (shownGrp_subset rt skip hL hN hs)⟩

variable (rt skip) in
/-- A piece is a required token, the group mark or a subgroup; each stands for itself alone. -/
theorem shownPieces_cases (hC : E.Coherent) (hL : Legible rt E long) (hN : Nameable rt E M)
    (hs : Shows E long M req groups subgroups) {p : Str} (hp : p ≠ []) :
    p ∈ shownPieces rt E req groups subgroups long skip ↔
      (∃ r ∈ M.req, E.reqText long r = p ∧ RequiredText rt E p r) ∨
        (shownMark rt E groups subgroups long skip = some p ∧
          MarksGroups rt E p (E.heard (shownGrp rt E M subgroups long skip))) ∨
        ∃ s ∈ (E.closure skip M).sub, E.subgroupText long s = p ∧ SubgroupText rt E p s := by
  rw [mem_shownPieces hp, hs.req, mem_shownSubgroups hL hs]
  apply or_congr
  · apply exists_congr
    intro r
    apply and_congr_right
    intro hr
    constructor
    · rintro rfl
      exact ⟨rfl, (hL.required r (hN.req r hr)).1⟩
    · exact fun h => h.1
  · apply or_congr
    · constructor
      · intro h
        rcases shownMark_cases rt skip hC hL hN hs with ⟨h', -⟩ | ⟨m, h', hm⟩
        · rw [h'] at h
          contradiction
        · exact ⟨h, Option.some.inj (h'.symm.trans h) ▸ hm⟩
      · exact fun h => h.1
    · apply exists_congr
      intro s
      apply and_congr_right
      intro hm
      constructor
      · rintro rfl
        exact ⟨rfl, (hL.subgroup s (sub_closure_mem hL hN hm)).1⟩
      · exact fun h => h.1

theorem shownPieces_bare (hC : E.Coherent) (hL : Legible rt E long) (hN : Nameable rt E M)
    (hs : Shows E long M req groups subgroups) :
    ∀ p ∈ shownPieces rt E req groups subgroups long skip, Bare rt p := by
  intro p hp
  by_cases hne : p = []
  · rw [hne]
    exact ⟨rfl, by simp⟩
  · rcases (shownPieces_cases rt skip hC hL hN hs hne).mp hp with ⟨_, _, _, h⟩ | ⟨_, h⟩ | ⟨_, _, _, h⟩
    · exact h.toBare
    · exact h.toBare
    · exact h.toBare

theorem required_of_shownPieces (hC : E.Coherent) (hL : Legible rt E long) (hN : Nameable rt E M)
    (hs : Shows E long M req groups subgroups) (x : Str) :
    (∃ p ∈ shownPieces rt E req groups subgroups long skip, p ≠ [] ∧
      ∃ ks, E.requiredKeys p = some ks ∧ x ∈ ks) ↔ x ∈ M.req := by
  constructor
  · rintro ⟨p, hp, hne, ks, hk, hx⟩
    rcases (shownPieces_cases rt skip hC hL hN hs hne).mp hp with ⟨r, hr, -, h⟩ | ⟨_, h⟩ | ⟨_, _, _, h⟩
    · rw [h.required] at hk
      obtain rfl := Option.some.inj hk
      exact List.mem_singleton.mp hx ▸ hr
    · rw [h.notReq] at hk
      contradiction
    · rw [h.notReq] at hk
      contradiction
  · intro hx
    have h := (hL.required x (hN.req x hx)).1
    exact ⟨_, (shownPieces_cases rt skip hC hL hN hs h.nonempty).mpr (.inl ⟨x, hx, rfl, h⟩), h.nonempty,
      [x], h.required, by simp⟩

/-- What the parser finds in the pieces that are no required tokens. -/
theorem found_shownPieces (hC : E.Coherent) (hL : Legible rt E long) (hN : Nameable rt E M)
    (hs : Shows E long M req groups subgroups) {us : List Str}
    (hus : ∀ p, p ∈ us ↔ p ∈ shownPieces rt E req groups subgroups long skip ∧ p ≠ [] ∧
      E.requiredKeys p = none) :
    (∀ p ∈ us, ¬ IsRel p → ∃ ks, E.subgroupKeys p = .ok ks) ∧
      ∀ g, Found rt E us true g → g.2.2 = [] ∧ g.2.1.toFinset = (E.closure skip M).sub ∧
        g.1.toFinset = E.heard (shownGrp rt E M subgroups long skip) ∪
          E.requiredBy (E.closure skip M).sub := by
  have hcases : ∀ p ∈ us, MarksGroups rt E p (E.heard (shownGrp rt E M subgroups long skip)) ∨
      ∃ s ∈ (E.closure skip M).sub, SubgroupText rt E p s := by
    intro p hp
    obtain ⟨hp, hne, hn⟩ := (hus p).mp hp
    rcases (shownPieces_cases rt skip hC hL hN hs hne).mp hp with ⟨_, _, _, h⟩ | ⟨_, h⟩ | ⟨s, hm, _, h⟩
    · rw [h.required] at hn
      contradiction
    · exact .inl h
    · exact .inr ⟨s, hm, h⟩
  have hsubs : ∀ s, (∃ p ∈ us, E.PartSub p s) ↔ s ∈ (E.closure skip M).sub := by
    intro s
    constructor
    · rintro ⟨p, hp, hps⟩
      rcases hcases p hp with h | ⟨s', hm, h⟩
      · exact absurd hps (h.noSub s)
      · obtain ⟨-, ks, hk, hx⟩ := hps
        rw [h.subgroup] at hk
        obtain rfl := Except.ok.inj hk
        exact List.mem_singleton.mp hx ▸ hm
    · intro hm
      have h := (hL.subgroup s (sub_closure_mem hL hN hm)).1
      have hp := (shownPieces_cases rt skip hC hL hN hs h.nonempty).mpr
        (.inr (.inr ⟨s, hm, rfl, h⟩))
      exact ⟨_, (hus _).mpr ⟨hp, h.nonempty, h.notReq⟩, h.notRel, _, h.subgroup, by simp⟩
  have hgrps : ∀ x, (∃ p ∈ us, PartGroup rt E (E.dynamicGroups && true) p x) ↔
      x ∈ E.heard (shownGrp rt E M subgroups long skip) := by
    intro x
    constructor
    · rintro ⟨p, hp, hpg⟩
      rcases hcases p hp with h | ⟨s, hm, h⟩
      · exact (h.group x).mp hpg
      · rcases hpg with ⟨hr, -⟩ | ⟨-, ks, hk, hx⟩ | ⟨-, hr, -⟩
        · exact absurd hr h.notRel
        · rw [h.subgroup] at hk
          obtain rfl := Except.ok.inj hk
          simp at hx
        · exact absurd hr h.notRel
    · intro hx
      rcases shownMark_cases rt skip hC hL hN hs with ⟨-, h⟩ | ⟨m, hm, h⟩
      · simp [h, heard] at hx
      · have hp := (shownPieces_cases rt skip hC hL hN hs h.nonempty).mpr (.inr (.inl ⟨hm, h⟩))
        exact ⟨m, (hus m).mpr ⟨hp, h.nonempty, h.notReq⟩, (h.group x).mpr hx⟩
  refine ⟨fun p hp hr => ?_, fun g hF => ⟨?_, ?_, ?_⟩⟩
  · rcases hcases p hp with h | ⟨s, -, h⟩
    · exact h.known hr
    · exact ⟨_, h.subgroup⟩
  · apply List.eq_nil_iff_forall_not_mem.mpr
    intro x hx
    obtain ⟨p, hp, ho⟩ := (hF.others x).mp hx
    rcases hcases p hp with h | ⟨s, -, h⟩
    · exact h.noOther x ho
    · exact h.notRel ho.2.1
  · ext s
    rw [List.mem_toFinset, hF.sub, hsubs]
  · ext x
    rw [List.mem_toFinset, hF.grp, hgrps, Finset.mem_union, mem_requiredBy]
    apply or_congr_right
    apply exists_congr
    intro s
    have hiff : s ∈ g.2.1 ↔ s ∈ (E.closure skip M).sub := (hF.sub s).trans (hsubs s)
    rw [hiff]
    apply and_congr_right
    intro hm
    rw [hL.truthyRequireGroup_eq (sub_closure_mem hL hN hm)]

theorem level_of_render (hL : Legible rt E long) (hN : Nameable rt E M)
    (hs : Shows E long M req groups subgroups) {t : Str}
    (ht : E.getNormalizedClassificationText rt (.idx M.lvl) req groups subgroups long skip =
      .ok t) : ∃ l, E.getC12nLevelText (E.raised M) long = .ok l := by
  rw [getNormalizedClassificationText_eq, raisedLvl_eq hL hN hs, bind_eq_ok] at ht
  obtain ⟨n, hn, ht⟩ := ht
  obtain rfl := Except.ok.inj hn
  obtain ⟨l, hl, -⟩ := bind_eq_ok.mp ht
  exact ⟨l, hl⟩

/-- A rendered text is read as the label it shows, unless a limit is broken. -/
theorem reading_render (hC : E.Coherent) (hL : Legible rt E long) (hM : Proper rt E M)
    (hs : Shows E long M req groups subgroups) {t : Str}
    (ht : E.getNormalizedClassificationText rt (.idx M.lvl) req groups subgroups long skip =
      .ok t) :
    ∃ r : Reading, r.lvl = .idx (E.raised M) ∧ r.others = [] ∧ r.req.toFinset = M.req ∧
      r.sub.toFinset = (E.closure skip M).sub ∧
      r.grp.toFinset = E.heard (shownGrp rt E M subgroups long skip) ∪
        E.requiredBy (E.closure skip M).sub ∧
      ∀ r', E.reading rt t true = .ok r' ↔ r' = r ∧ E.LimitsKept r.grp r.sub := by
  have hN := hM.toNameable
  rw [getNormalizedClassificationText_eq, raisedLvl_eq hL hN hs, bind_eq_ok] at ht
  obtain ⟨n, hn, ht⟩ := ht
  obtain rfl := Except.ok.inj hn
  obtain ⟨lvl, hlvl, ht⟩ := bind_eq_ok.mp ht
  obtain rfl := Except.ok.inj ht
  obtain ⟨hbare, hkey⟩ := hL.level _ (raised_mem hM.lvl) _ (mem_toOption hlvl)
  obtain ⟨rq, us, hrq, hus, hread⟩ := reading_slashed (E := E) hbare hkey
    (shownPieces_bare hC hL hN hs) (pieces_head _ _ _ _) true
  obtain ⟨hknown, hfound⟩ := found_shownPieces hC hL hN hs hus
  obtain ⟨g, hF, hg⟩ := exists_found rt true hknown
  obtain ⟨hothers, hsub, hgrp⟩ := hfound g hF
  refine ⟨⟨.idx (E.raised M), rq, g.1, g.2.1, g.2.2⟩, rfl, hothers, ?_, hsub, hgrp, fun r' => ?_⟩
  · ext x
    rw [List.mem_toFinset, hrq, required_of_shownPieces hC hL hN hs]
  · rw [hread, bind_eq_ok]
    constructor
    · rintro ⟨g', hg', hr⟩
      obtain ⟨rfl, hlim⟩ := (hg g').mp hg'
      exact ⟨(Except.ok.inj hr).symm, hlim⟩
    · rintro ⟨rfl, hlim⟩
      exact ⟨g, (hg g).mpr ⟨rfl, hlim⟩, rfl⟩

theorem limitsKept_iff {grp sub : List Str} (n : Int) (rq : Finset Str) :
    E.LimitsKept grp sub ↔ E.WithinLimits ⟨n, rq, grp.toFinset, sub.toFinset⟩ := by
  simp [LimitsKept, WithinLimits]

/-- Where the limits agree with what the subgroups require, the groups that are shown are those
of the closed label. -/
theorem shownGrp_eq_closure (hL : Legible rt E long) (hN : Nameable rt E M)
    (hs : Shows E long M req groups subgroups)
    (hlim : ∀ s ∈ (E.closure skip M).sub, ∀ l ∈ E.limitedToGroup s,
      ∀ g ∈ E.requiredBy (E.closure skip M).sub, g = l) :
    shownGrp rt E M subgroups long skip = (E.closure skip M).grp := by
  have hp : ∀ s ∈ (E.closure skip M).sub,
      E.limitedToGroup (E.subgroupText long s) = E.limitedToGroup s := by
    intro s hm
    rw [limitedToGroup, (hL.subgroup s (sub_closure_mem hL hN hm)).2]
    rfl
  have htemp : (E.tempGroups (E.shownSubgroups rt subgroups long skip)).toFinset =
      E.requiredBy (E.closure skip M).sub := by
    ext g
    rw [List.mem_toFinset, mem_tempGroups, requireGroup_shown hL hN hs]
    intro x hx l hl y hy g hg
    obtain ⟨s, hm, rfl⟩ := (mem_shownSubgroups hL hs x).mp hx
    rw [hp s hm] at hl
    exact hlim s hm l hl g ((requireGroup_shown hL hN hs g).mp ⟨y, hy, hg⟩)
  rw [shownGrp, htemp]
  rfl

theorem requiredBy_subset_closure :
    E.requiredBy (E.closure skip M).sub ⊆ (E.closure skip M).grp :=
  Finset.subset_union_right.trans (subset_withAuto _ _ _)

/-- Required groups are read as they are. -/
theorem heard_requiredBy (hL : Legible rt E long) {S : Finset Str}
    (hS : ∀ s ∈ S, s ∈ E.subgroupsMapStl.keys) : E.heard (E.requiredBy S) = E.requiredBy S := by
  have hk : ∀ g ∈ E.requiredBy S, g ∈ E.groupsMapStl.keys := by
    intro g hg
    obtain ⟨s, hm, hr⟩ := mem_requiredBy.mp hg
    exact hL.requireGroup_mem (hS s hm) hr
  exact heard_eq_self rt (fun g hg => .inl (hk g hg)) fun g hg hn =>
    absurd hn (groupKeys_ne_none (hk g hg))

theorem requiredBy_subset_said (hL : Legible rt E long) (hN : Nameable rt E M) :
    E.requiredBy (E.closure skip M).sub ⊆ (E.said (E.closure skip M)).grp := by
  rw [← heard_requiredBy hL fun s hs => sub_closure_mem hL hN hs]
  exact Finset.biUnion_subset_biUnion_of_subset_left _ requiredBy_subset_closure

/-- A rendered text says what its closed label is read as, and it parses exactly where no limit
is broken. -/
theorem says_render (hC : E.Coherent) (hL : Legible rt E long) (hM : Proper rt E M)
    (hs : Shows E long M req groups subgroups) {t : Str}
    (ht : E.getNormalizedClassificationText rt (.idx M.lvl) req groups subgroups long skip =
      .ok t) :
    (E.WithinLimits (E.said (E.closure skip M)) → Says rt E t (E.said (E.closure skip M))) ∧
      ∀ r, E.reading rt t true = .ok r → E.WithinLimits (E.said (E.closure skip M)) := by
  have hN := hM.toNameable
  obtain ⟨r, hlvl, hothers, hreq, hsub, hgrp, hread⟩ := reading_render hC hL hM hs ht
  have hall : (∀ s ∈ (E.closure skip M).sub, ∀ l ∈ E.limitedToGroup s,
      ∀ g ∈ E.requiredBy (E.closure skip M).sub, g = l) →
      E.heard (shownGrp rt E M subgroups long skip) ∪ E.requiredBy (E.closure skip M).sub =
        (E.said (E.closure skip M)).grp := by
    intro hlim
    rw [shownGrp_eq_closure hL hN hs hlim]
    exact Finset.union_eq_left.mpr (requiredBy_subset_said hL hN)
  have hrequired : E.WithinLimits (E.said (E.closure skip M)) →
      ∀ s ∈ (E.closure skip M).sub, ∀ l ∈ E.limitedToGroup s,
        ∀ g ∈ E.requiredBy (E.closure skip M).sub, g = l :=
    fun h s hm l hl g hg => h s hm l hl g (requiredBy_subset_said hL hN hg)
  have hkept : E.LimitsKept r.grp r.sub ↔ E.WithinLimits (E.said (E.closure skip M)) := by
    rw [limitsKept_iff 0 ∅, hgrp, hsub]
    constructor
    · intro h
      rw [hall fun s hm l hl g hg => h s hm l hl g (Finset.mem_union_right _ hg)] at h
      exact h
    · intro h
      rw [hall (hrequired h)]
      exact h
  constructor
  · intro h
    refine ⟨r, (hread r).mpr ⟨rfl, hkept.mpr h⟩, hothers, hlvl, ?_⟩
    rw [hall (hrequired h)] at hgrp
    rw [Reading.label, hreq, hsub, hgrp]
    rfl
  · intro r' hr'
    exact hkept.mp ((hread r').mp hr').2

/-- Where no name opens a `REL` marking inside, a text says its closed label itself. -/
theorem said_closure (hL : Legible rt E long) (hN : Nameable rt E M) (hT : E.Tidy M) :
    E.said (E.closure skip M) = E.closure skip M := by
  have hself : E.heard (E.closure skip M).grp = (E.closure skip M).grp :=
    heard_eq_self rt (fun g hg => grp_closure_name hL hN hg) (tidy_closure hL hN hT)
  rw [said, hself]

end Render

end Engine

end Howler
