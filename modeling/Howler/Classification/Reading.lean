import Howler.Classification.Parse
import Howler.Clearance.Marking
import Howler.Python.Raising

namespace Howler

open Python Clearance

/-- What a text of the classification stands for, in short names. -/
abbrev Label := Marking Int Str Str Str

/-- The short names a text stands for, before they are sorted and put into a format. -/
structure Reading where
  lvl : LvlEntry
  req : List Str
  grp : List Str
  sub : List Str
  others : List Str
  deriving DecidableEq, Repr

namespace Engine

variable (rt : Runtime) (E : Engine)

def reading (c12n : Str) (getDynamicGroups : Bool) : Except PyError Reading := do
  let (lvl, unused) ← E.getC12nLevelIndex rt c12n
  let (grp, sub, others) ← E.groupSets rt (E.requiredSets rt unused).2 getDynamicGroups
  return ⟨lvl, (E.requiredSets rt unused).1, grp, sub, others⟩

end Engine

namespace Reading

variable (rt : Runtime) (E : Engine)

/-- The auto-selected groups and subgroups are added to those of the reading. -/
def autoSelected (r : Reading) (autoSelect : Bool) : Reading :=
  { r with
    grp := if autoSelect && r.grp ≠ [] then r.grp ++ E.groupsAutoSelectShort else r.grp
    sub := if autoSelect && r.sub ≠ [] then r.sub ++ E.subgroupsAutoSelectShort else r.sub }

def parts (r : Reading) (long : Bool) : Parts where
  lvl := r.lvl
  req := sorted ((rt.listSet r.req).map (E.reqText long))
  groups := sorted ((rt.listSet r.grp).map (E.groupText long))
  subgroups := sorted ((rt.listSet r.sub).map (E.subgroupText long))

def label (r : Reading) (n : Int) : Label :=
  ⟨n, r.req.toFinset, r.grp.toFinset, r.sub.toFinset⟩

end Reading

namespace Engine

variable {rt : Runtime} {E : Engine}

/-- Parsing is reading, a check of what is left over, and putting into a format. -/
theorem getClassificationParts_eq (c12n : Str) (f : PartsFlags) :
    E.getClassificationParts rt c12n f = (do
      let r ← E.reading rt c12n f.getDynamicGroups
      if rt.listSet r.others ≠ [] ∧ !f.ignoreUnused then
        .error (.invalidClassification
          ("Unparsable classification parts: ".toList ++ join ", ".toList (rt.listSet r.others)))
      else return (r.autoSelected E f.autoSelect).parts rt E f.longFormat) := by
  unfold getClassificationParts reading getC12nRequired getC12nGroups
  cases E.getC12nLevelIndex rt c12n with
  | error e => rfl
  | ok p =>
    simp only [bind, Except.bind]
    cases E.groupSets rt (E.requiredSets rt p.2).2 f.getDynamicGroups with
    | error e => rfl
    | ok g => rfl

theorem getClassificationParts_ok_iff {c12n : Str} {f : PartsFlags} {p : Parts} :
    E.getClassificationParts rt c12n f = .ok p ↔
      ∃ r, E.reading rt c12n f.getDynamicGroups = .ok r ∧ (r.others = [] ∨ f.ignoreUnused = true) ∧
        (r.autoSelected E f.autoSelect).parts rt E f.longFormat = p := by
  rw [getClassificationParts_eq, bind_eq_ok]
  apply exists_congr
  intro r
  apply and_congr_right
  intro _
  have hl : rt.listSet r.others = [] ↔ r.others = [] := rt.listSet_eq_nil
  by_cases h : r.others = [] ∨ f.ignoreUnused = true
  · have hn : ¬ (rt.listSet r.others ≠ [] ∧ (!f.ignoreUnused) = true) := by
      rw [Ne, hl]
      rcases h with h | h <;> simp [h]
    rw [if_neg hn]
    simp only [h, true_and, pure, Except.pure, Except.ok.injEq]
  · have hy : rt.listSet r.others ≠ [] ∧ (!f.ignoreUnused) = true := by
      rw [Ne, hl]
      simpa using h
    rw [if_pos hy]
    simp only [h, false_and, reduceCtorEq]

theorem mem_requiredSets_fst {c12n r : Str} :
    r ∈ (E.requiredSets rt c12n).1 ↔
      ∃ p ∈ (rt.upper c12n).splitOn '/', p ≠ [] ∧ ∃ ks, E.requiredKeys p = some ks ∧ r ∈ ks := by
  simp only [requiredSets, List.mem_flatMap, List.mem_filter, Runtime.mem_listSet,
    decide_eq_true_eq]
  constructor
  · rintro ⟨p, ⟨hp, hne⟩, hr⟩
    cases hk : E.requiredKeys p with
    | none => simp [hk] at hr
    | some ks => exact ⟨p, hp, hne, ks, hk, by simpa [hk] using hr⟩
  · rintro ⟨p, hp, hne, ks, hk, hr⟩
    exact ⟨p, ⟨hp, hne⟩, by simpa [hk] using hr⟩

theorem mem_requiredSets_snd {c12n p : Str} :
    p ∈ (E.requiredSets rt c12n).2 ↔
      p ∈ (rt.upper c12n).splitOn '/' ∧ p ≠ [] ∧ E.requiredKeys p = none := by
  simp only [requiredSets, List.mem_filter, Runtime.mem_listSet, decide_eq_true_eq,
    Option.isNone_iff_eq_none, and_assoc]

theorem checkLimits_ok_iff {g1 subs : List Str} {u : Unit} :
    checkLimits rt E g1 subs = .ok u ↔
      ∀ s ∈ subs, ∀ l, E.limitedToGroup s = some l → ∀ g ∈ g1, g = l := by
  induction subs with
  | nil => simp [checkLimits]
  | cons s subs ih =>
    rw [checkLimits, List.forall_mem_cons]
    cases hl : E.limitedToGroup s with
    | none => simpa using ih
    | some l =>
      have hone : ¬ ((rt.listSet g1).length > 1 ∨
          ((rt.listSet g1).length = 1 ∧ rt.listSet g1 ≠ [l])) ↔ ∀ g ∈ g1, g = l := by
        have hnd := rt.listSet_nodup g1
        have hm := rt.mem_listSet g1
        simp only [← hm]
        clear hm
        generalize rt.listSet g1 = gs at hnd ⊢
        rcases gs with - | ⟨a, - | ⟨b, as⟩⟩
        · simp
        · simp
        · simp only [List.length_cons, List.nodup_cons, List.mem_cons, not_or] at hnd ⊢
          constructor
          · intro h
            exact absurd (show as.length + 1 + 1 > 1 by omega) h.1
          · intro h
            exact absurd ((h a (.inl rfl)).trans (h b (.inr (.inl rfl))).symm) hnd.1.1
      by_cases hg : ∀ g ∈ g1, g = l
      · simp only [if_neg (hone.mpr hg), ih]
        simp only [Option.some.injEq]
        constructor
        · rintro h
          exact ⟨fun _ e => e ▸ hg, h⟩
        · exact fun h => h.2
      · have hc := not_not.mp (hone.not.mpr hg)
        simp only [if_pos hc, reduceCtorEq, false_iff, Option.some.injEq, forall_eq']
        exact fun h => hg h.1

/-- A part is a `REL` marking. -/
def IsRel (p : Str) : Prop := "REL ".toList <+: p

instance (p : Str) : Decidable (IsRel p) :=
  decidable_of_iff ("REL ".toList.isPrefixOf p = true) List.isPrefixOf_iff_prefix

/-- A part names this subgroup. -/
def PartSub (E : Engine) (p s : Str) : Prop :=
  ¬ IsRel p ∧ ∃ ks, E.subgroupKeys p = .ok ks ∧ s ∈ ks.2

/-- A part names this group: in a `REL` marking, where an unknown name may stand for itself, or
by a solitary display name. -/
def PartGroup (rt : Runtime) (E : Engine) (dynamic : Bool) (p g : Str) : Prop :=
  (IsRel p ∧ ∃ n ∈ relGroups rt p, ∃ ks, E.groupKeys n = some ks ∧ g ∈ ks) ∨
    (¬ IsRel p ∧ ∃ ks, E.subgroupKeys p = .ok ks ∧ g ∈ ks.1) ∨
    (dynamic = true ∧ IsRel p ∧ g ∈ relGroups rt p ∧ E.groupKeys g = none)

/-- A part leaves this name over. -/
def PartOther (rt : Runtime) (E : Engine) (dynamic : Bool) (p x : Str) : Prop :=
  dynamic = false ∧ IsRel p ∧ x ∈ relGroups rt p ∧ E.groupKeys x = none

theorem mem_filter_isRel {ps : List Str} {p : Str} :
    p ∈ ps.filter ("REL ".toList.isPrefixOf ·) ↔ p ∈ ps ∧ IsRel p := by
  rw [List.mem_filter, List.isPrefixOf_iff_prefix]
  rfl

theorem mem_filter_not_isRel {ps : List Str} {p : Str} :
    p ∈ ps.filter (!"REL ".toList.isPrefixOf ·) ↔ p ∈ ps ∧ ¬ IsRel p := by
  rw [List.mem_filter, IsRel, ← List.isPrefixOf_iff_prefix, Bool.not_eq_true', Bool.eq_false_iff]

/-- The sets of `_get_c12n_groups` for the values its loop over the parts has found. -/
def groupSetsOf (rt : Runtime) (E : Engine) (ps : List Str) (dynamic : Bool)
    (subs : List (List Str × List Str)) : List Str × List Str × List Str :=
  let groups := (ps.filter ("REL ".toList.isPrefixOf ·)).flatMap (relGroups rt)
  let others := groups.filter fun g => (E.groupKeys g).isNone
  let g2 := subs.flatMap Prod.snd
  (groups.flatMap (fun g => (E.groupKeys g).getD []) ++ subs.flatMap Prod.fst ++
    (if dynamic then others else []) ++ (rt.listSet g2).filterMap E.truthyRequireGroup,
    g2, if dynamic then [] else others)

theorem groupSets_ok_iff {ps : List Str} {getDyn : Bool} {g : List Str × List Str × List Str} :
    E.groupSets rt ps getDyn = .ok g ↔
      ∃ subs, (ps.filter (!"REL ".toList.isPrefixOf ·)).mapM E.subgroupKeys = .ok subs ∧
        g = groupSetsOf rt E ps (E.dynamicGroups && getDyn) subs ∧
        ∀ s ∈ g.2.1, ∀ l, E.limitedToGroup s = some l → ∀ x ∈ g.1, x = l := by
  rw [groupSets, bind_eq_ok]
  apply exists_congr
  intro subs
  apply and_congr_right
  intro _
  rw [bind_eq_ok]
  simp only [checkLimits_ok_iff, Runtime.mem_listSet]
  constructor
  · rintro ⟨⟨⟩, hl, hg⟩
    obtain rfl : groupSetsOf rt E ps (E.dynamicGroups && getDyn) subs = g := Except.ok.inj hg
    exact ⟨rfl, hl⟩
  · rintro ⟨rfl, hl⟩
    exact ⟨(), hl, rfl⟩

/-- The groups, the subgroups and the names left over that `_get_c12n_groups` finds in parts. -/
structure Found (rt : Runtime) (E : Engine) (ps : List Str) (getDyn : Bool)
    (g : List Str × List Str × List Str) : Prop where
  known : ∀ p ∈ ps, ¬ IsRel p → ∃ ks, E.subgroupKeys p = .ok ks
  grp : ∀ x, x ∈ g.1 ↔ (∃ p ∈ ps, PartGroup rt E (E.dynamicGroups && getDyn) p x) ∨
    ∃ s ∈ g.2.1, E.truthyRequireGroup s = some x
  sub : ∀ s, s ∈ g.2.1 ↔ ∃ p ∈ ps, E.PartSub p s
  others : ∀ x, x ∈ g.2.2 ↔ ∃ p ∈ ps, PartOther rt E (E.dynamicGroups && getDyn) p x

section GroupSetsOf

variable {ps : List Str} {dynamic : Bool} {subs : List (List Str × List Str)}

theorem mem_relNames {g : Str} :
    g ∈ (ps.filter ("REL ".toList.isPrefixOf ·)).flatMap (relGroups rt) ↔
      ∃ p ∈ ps, IsRel p ∧ g ∈ relGroups rt p := by
  simp only [List.mem_flatMap, mem_filter_isRel, and_assoc]

theorem mem_subs
    (h : (ps.filter (!"REL ".toList.isPrefixOf ·)).mapM E.subgroupKeys = .ok subs)
    (f : List Str × List Str → List Str) (s : Str) :
    s ∈ subs.flatMap f ↔ ∃ p ∈ ps, ¬ IsRel p ∧ ∃ ks, E.subgroupKeys p = .ok ks ∧ s ∈ f ks := by
  simp only [List.mem_flatMap, mem_of_mapM_ok h, mem_filter_not_isRel]
  constructor
  · rintro ⟨ks, ⟨p, ⟨hp, hr⟩, hk⟩, hs⟩
    exact ⟨p, hp, hr, ks, hk, hs⟩
  · rintro ⟨p, hp, hr, ks, hk, hs⟩
    exact ⟨ks, ⟨p, ⟨hp, hr⟩, hk⟩, hs⟩

theorem mem_groupSetsOf_grp
    (h : (ps.filter (!"REL ".toList.isPrefixOf ·)).mapM E.subgroupKeys = .ok subs) (g : Str) :
    g ∈ (groupSetsOf rt E ps dynamic subs).1 ↔ (∃ p ∈ ps, PartGroup rt E dynamic p g) ∨
      ∃ s ∈ (groupSetsOf rt E ps dynamic subs).2.1, E.truthyRequireGroup s = some g := by
  have hknown : g ∈ ((ps.filter ("REL ".toList.isPrefixOf ·)).flatMap (relGroups rt)).flatMap
      (fun n => (E.groupKeys n).getD []) ↔
        ∃ p ∈ ps, IsRel p ∧ ∃ n ∈ relGroups rt p, ∃ ks, E.groupKeys n = some ks ∧ g ∈ ks := by
    have hk : ∀ n, g ∈ (E.groupKeys n).getD [] ↔ ∃ ks, E.groupKeys n = some ks ∧ g ∈ ks := by
      intro n
      cases E.groupKeys n <;> simp
    simp only [List.mem_flatMap (f := fun n => (E.groupKeys n).getD []), mem_relNames, hk]
    constructor
    · rintro ⟨n, ⟨p, hp, hr, hn⟩, hg⟩
      exact ⟨p, hp, hr, n, hn, hg⟩
    · rintro ⟨p, hp, hr, n, hn, hg⟩
      exact ⟨n, ⟨p, hp, hr, hn⟩, hg⟩
  have hdyn : g ∈ (if dynamic then
      ((ps.filter ("REL ".toList.isPrefixOf ·)).flatMap (relGroups rt)).filter
        fun g => (E.groupKeys g).isNone else []) ↔
        ∃ p ∈ ps, dynamic = true ∧ IsRel p ∧ g ∈ relGroups rt p ∧ E.groupKeys g = none := by
    cases dynamic
    · simp
    · simp only [if_true, List.mem_filter, mem_relNames, Option.isNone_iff_eq_none, true_and]
      constructor
      · rintro ⟨⟨p, hp, hr, hg⟩, hn⟩
        exact ⟨p, hp, hr, hg, hn⟩
      · rintro ⟨p, hp, hr, hg, hn⟩
        exact ⟨⟨p, hp, hr, hg⟩, hn⟩
  have hreq : g ∈ (rt.listSet (subs.flatMap Prod.snd)).filterMap E.truthyRequireGroup ↔
      ∃ s ∈ (groupSetsOf rt E ps dynamic subs).2.1, E.truthyRequireGroup s = some g := by
    simp only [List.mem_filterMap, Runtime.mem_listSet, groupSetsOf]
  rw [← hreq]
  simp only [PartGroup, and_or_left, exists_or, ← hknown, ← mem_subs h, ← hdyn, groupSetsOf,
    List.mem_append, or_assoc]

theorem mem_groupSetsOf_others (g : Str) :
    g ∈ (groupSetsOf rt E ps dynamic subs).2.2 ↔ ∃ p ∈ ps, PartOther rt E dynamic p g := by
  cases dynamic
  · simp only [groupSetsOf, Bool.false_eq_true, if_false, List.mem_filter, mem_relNames,
      Option.isNone_iff_eq_none, PartOther, true_and]
    constructor
    · rintro ⟨⟨p, hp, hr, hg⟩, hn⟩
      exact ⟨p, hp, hr, hg, hn⟩
    · rintro ⟨p, hp, hr, hg, hn⟩
      exact ⟨⟨p, hp, hr, hg⟩, hn⟩
  · simp [groupSetsOf, PartOther]

theorem found_groupSetsOf {getDyn : Bool}
    (h : (ps.filter (!"REL ".toList.isPrefixOf ·)).mapM E.subgroupKeys = .ok subs) :
    Found rt E ps getDyn (groupSetsOf rt E ps (E.dynamicGroups && getDyn) subs) := by
  constructor
  · intro p hp hr
    obtain ⟨ks, -, hk⟩ := ok_of_mapM_ok h (mem_filter_not_isRel.mpr ⟨hp, hr⟩)
    exact ⟨ks, hk⟩
  · exact mem_groupSetsOf_grp h
  · exact mem_subs h Prod.snd
  · exact mem_groupSetsOf_others

end GroupSetsOf

/-- No subgroup is shown with a group it is not limited to. -/
def LimitsKept (E : Engine) (grp sub : List Str) : Prop :=
  ∀ s ∈ sub, ∀ l, E.limitedToGroup s = some l → ∀ g ∈ grp, g = l

theorem found_of_groupSets {ps : List Str} {getDyn : Bool} {g : List Str × List Str × List Str}
    (h : E.groupSets rt ps getDyn = .ok g) :
    Found rt E ps getDyn g ∧ E.LimitsKept g.1 g.2.1 := by
  obtain ⟨subs, hs, rfl, hl⟩ := groupSets_ok_iff.mp h
  exact ⟨found_groupSetsOf hs, hl⟩

/-- Where every part is known, there is something to find, and it is returned unless a limit
is broken. -/
theorem exists_found (rt : Runtime) {ps : List Str} (getDyn : Bool)
    (hp : ∀ p ∈ ps, ¬ IsRel p → ∃ ks, E.subgroupKeys p = .ok ks) :
    ∃ g, Found rt E ps getDyn g ∧
      ∀ g', E.groupSets rt ps getDyn = .ok g' ↔ g' = g ∧ E.LimitsKept g.1 g.2.1 := by
  obtain ⟨subs, hs⟩ : ∃ subs,
      (ps.filter (!"REL ".toList.isPrefixOf ·)).mapM E.subgroupKeys = .ok subs :=
    exists_mapM_ok fun p hm => hp p (mem_filter_not_isRel.mp hm).1 (mem_filter_not_isRel.mp hm).2
  refine ⟨_, found_groupSetsOf hs, fun g' => groupSets_ok_iff.trans ?_⟩
  constructor
  · rintro ⟨subs', hs', rfl, hl⟩
    obtain rfl := Except.ok.inj (hs.symm.trans hs')
    exact ⟨rfl, hl⟩
  · rintro ⟨rfl, hl⟩
    exact ⟨subs, hs, rfl, hl⟩

theorem reading_ok_iff {c12n : Str} {getDyn : Bool} {r : Reading} :
    E.reading rt c12n getDyn = .ok r ↔
      ∃ rest, E.getC12nLevelIndex rt c12n = .ok (r.lvl, rest) ∧
        (E.requiredSets rt rest).1 = r.req ∧
        E.groupSets rt (E.requiredSets rt rest).2 getDyn = .ok (r.grp, r.sub, r.others) := by
  rw [reading, bind_eq_ok]
  constructor
  · rintro ⟨⟨lvl, rest⟩, hl, h⟩
    obtain ⟨⟨grp, sub, others⟩, hg, h⟩ := bind_eq_ok.mp h
    obtain rfl := Except.ok.inj h
    exact ⟨rest, hl, rfl, hg⟩
  · rintro ⟨rest, hl, hr, hg⟩
    refine ⟨(r.lvl, rest), hl, bind_eq_ok.mpr ⟨_, hg, ?_⟩⟩
    obtain ⟨lvl, req, grp, sub, others⟩ := r
    obtain rfl := hr
    rfl

end Engine

end Howler
