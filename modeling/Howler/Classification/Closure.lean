import Howler.Classification.Pieces
import Mathlib.Data.Finset.Fold

namespace Howler

open Python Clearance

namespace Engine

variable {rt : Runtime} {E : Engine}

/-- The format's texts of a label, each at least once and in any order. -/
structure Shows (E : Engine) (long : Bool) (M : Label) (req groups subgroups : List Str) :
    Prop where
  req : ∀ x, x ∈ req ↔ ∃ r ∈ M.req, E.reqText long r = x
  grp : ∀ x, x ∈ groups ↔ ∃ g ∈ M.grp, E.groupText long g = x
  sub : ∀ x, x ∈ subgroups ↔ ∃ s ∈ M.sub, E.subgroupText long s = x

/-- With any group come the auto-selected ones. -/
def withAuto (skipAutoSelect : Bool) (auto : List Str) (S : Finset Str) : Finset Str :=
  if S = ∅ ∨ skipAutoSelect then S else S ∪ auto.toFinset

theorem subset_withAuto (skip : Bool) (auto : List Str) (S : Finset Str) :
    S ⊆ withAuto skip auto S := by
  unfold withAuto
  split_ifs
  · exact Finset.Subset.refl S
  · exact Finset.subset_union_left

theorem mem_of_mem_withAuto {skip : Bool} {auto : List Str} {S : Finset Str} {a : Str}
    (h : a ∈ withAuto skip auto S) : a ∈ S ∨ a ∈ auto := by
  unfold withAuto at h
  split_ifs at h
  · exact .inl h
  · simpa using h

/-- The groups that subgroups require. -/
def requiredBy (E : Engine) (S : Finset Str) : Finset Str :=
  S.biUnion fun s => (E.requireGroup s).toFinset

theorem mem_requiredBy {S : Finset Str} {g : Str} :
    g ∈ E.requiredBy S ↔ ∃ s ∈ S, E.requireGroup s = some g := by
  simp [requiredBy]

/-- The level a label is raised to by its required tokens. -/
def raised (E : Engine) (M : Label) : Int :=
  M.req.fold max (max M.lvl 0) fun r => (E.params r).requireLvl.getD 0

/-- The label that a rendered text stands for. -/
def closure (E : Engine) (skipAutoSelect : Bool) (M : Label) : Label :=
  let sub := withAuto skipAutoSelect E.subgroupsAutoSelectShort M.sub
  { lvl := E.raised M
    req := M.req
    grp := withAuto skipAutoSelect E.groupsAutoSelectShort (M.grp ∪ E.requiredBy sub)
    sub := sub }

/-- No limited subgroup stands beside a group it is not limited to. -/
def WithinLimits (E : Engine) (M : Label) : Prop :=
  ∀ s ∈ M.sub, ∀ l ∈ E.limitedToGroup s, ∀ g ∈ M.grp, g = l

instance (E : Engine) (M : Label) : Decidable (WithinLimits E M) :=
  inferInstanceAs (Decidable (∀ s ∈ M.sub, ∀ l ∈ E.limitedToGroup s, ∀ g ∈ M.grp, g = l))

section Shown

variable {long skip : Bool} {M : Label} {req groups subgroups : List Str}

/-- Showing a family with what is selected automatically. -/
theorem mem_withAuto {f : Str → Str} {S : Finset Str} {xs auto names : List Str}
    (hauto : names = auto.map f) (hS : ∀ x, x ∈ xs ↔ ∃ a ∈ S, f a = x) (x : Str) :
    x ∈ (if xs ≠ [] ∧ names ≠ [] ∧ !skip then sorted (rt.listSet (xs ++ names)) else xs) ↔
      ∃ a ∈ withAuto skip auto S, f a = x := by
  have hempty : xs = [] ↔ S = ∅ := by
    rw [List.eq_nil_iff_forall_not_mem, Finset.eq_empty_iff_forall_notMem]
    constructor
    · intro h a ha
      exact h (f a) ((hS _).mpr ⟨a, ha, rfl⟩)
    · intro h y hy
      obtain ⟨a, ha, -⟩ := (hS y).mp hy
      exact h a ha
  unfold withAuto
  by_cases h : S = ∅ ∨ skip = true
  · have hn : ¬ (xs ≠ [] ∧ names ≠ [] ∧ (!skip) = true) := by
      rcases h with h | h
      · simp [hempty.mpr h]
      · simp [h]
    rw [if_pos h, if_neg hn, hS]
  · rw [not_or] at h
    rw [if_neg (not_or.mpr h)]
    have happ : (∃ a ∈ S ∪ auto.toFinset, f a = x) ↔ x ∈ xs ++ names := by
      simp only [Finset.mem_union, List.mem_toFinset, or_and_right, exists_or, List.mem_append,
        hS, hauto, List.mem_map]
    rw [happ]
    by_cases hn : names = []
    · simp [hn]
    · have hx : xs ≠ [] := fun e => h.1 (hempty.mp e)
      rw [if_pos ⟨hx, hn, by simpa using h.2⟩, mem_sorted, Runtime.mem_listSet]

theorem mem_shownSubgroups (hL : Legible rt E long) (hs : Shows E long M req groups subgroups)
    (x : Str) :
    x ∈ E.shownSubgroups rt subgroups long skip ↔
      ∃ s ∈ (E.closure skip M).sub, E.subgroupText long s = x :=
  mem_withAuto hL.autoSubgroups.1 hs.sub x

theorem sub_closure_mem (hL : Legible rt E long) (hN : Nameable rt E M) {s : Str}
    (h : s ∈ (E.closure skip M).sub) : s ∈ E.subgroupsMapStl.keys := by
  rcases mem_of_mem_withAuto h with h | h
  · exact hN.sub s h
  · exact hL.autoSubgroups.2 s h

theorem grp_closure_name (hL : Legible rt E long) (hN : Nameable rt E M) {g : Str}
    (h : g ∈ (E.closure skip M).grp) : GroupName rt E g := by
  rcases mem_of_mem_withAuto h with h | h
  · rcases Finset.mem_union.mp h with h | h
    · exact hN.grp g h
    · obtain ⟨s, hs, hr⟩ := mem_requiredBy.mp h
      exact .inl (hL.requireGroup_mem (sub_closure_mem hL hN hs) hr)
  · exact .inl (hL.autoGroups.2 g h)

/-- A closed label is made of names again. -/
theorem nameable_closure (hL : Legible rt E long) (hN : Nameable rt E M) :
    Nameable rt E (E.closure skip M) :=
  ⟨hN.req, fun _ hg => grp_closure_name hL hN hg, fun _ hs => sub_closure_mem hL hN hs⟩

section TempGroups

/-- One step of the loop over `temp_groups`. -/
theorem tempGroups_append (subgroups : List Str) (sg : Str) :
    E.tempGroups (subgroups ++ [sg]) =
      (let temp := E.tempGroups subgroups ++ (E.requireGroup sg).toList
       match E.limitedToGroup sg with
       | some l => if l ∈ temp then [l] else []
       | none => temp) := by
  rw [tempGroups, List.foldl_append, ← tempGroups]
  cases h : E.requireGroup sg <;> cases h' : E.limitedToGroup sg <;> simp [h, h']

theorem tempGroups_subset (subgroups : List Str) :
    ∀ g ∈ E.tempGroups subgroups, ∃ sg ∈ subgroups, E.requireGroup sg = some g := by
  induction subgroups using List.reverseRecOn with
  | nil => simp [tempGroups]
  | append_singleton subgroups sg ih =>
    have htemp : ∀ g ∈ E.tempGroups subgroups ++ (E.requireGroup sg).toList,
        ∃ s ∈ subgroups ++ [sg], E.requireGroup s = some g := by
      intro g hg
      rcases List.mem_append.mp hg with hg | hg
      · obtain ⟨s, hs, hr⟩ := ih g hg
        exact ⟨s, by simp [hs], hr⟩
      · exact ⟨sg, by simp, by simpa using hg⟩
    intro g hg
    rw [tempGroups_append] at hg
    dsimp only at hg
    split at hg
    case h_1 l _ =>
      split_ifs at hg with hl
      · rw [List.mem_singleton.mp hg]
        exact htemp l hl
      · simp at hg
    case h_2 => exact htemp g hg

/-- The loop keeps every required group as long as the limits agree with each other. -/
theorem mem_tempGroups {subgroups : List Str}
    (h : ∀ s ∈ subgroups, ∀ l, E.limitedToGroup s = some l →
      ∀ t ∈ subgroups, ∀ g, E.requireGroup t = some g → g = l) (g : Str) :
    g ∈ E.tempGroups subgroups ↔ ∃ sg ∈ subgroups, E.requireGroup sg = some g := by
  refine ⟨tempGroups_subset subgroups g, ?_⟩
  induction subgroups using List.reverseRecOn with
  | nil => simp
  | append_singleton subgroups sg ih =>
    have ih := ih fun s hs l hl t ht => h s (by simp [hs]) l hl t (by simp [ht])
    rintro ⟨s, hs, hr⟩
    have htemp : g ∈ E.tempGroups subgroups ++ (E.requireGroup sg).toList := by
      rcases List.mem_append.mp hs with hs | hs
      · exact List.mem_append_left _ (ih ⟨s, hs, hr⟩)
      · rw [List.mem_singleton.mp hs] at hr
        exact List.mem_append_right _ (by simp [hr])
    rw [tempGroups_append]
    dsimp only
    split
    case h_1 l hl =>
      obtain rfl : g = l := h sg (by simp) l hl s hs g hr
      simp [htemp]
    case h_2 => exact htemp

end TempGroups

/-- The short names of the groups that are shown. -/
def shownGrp (rt : Runtime) (E : Engine) (M : Label) (subgroups : List Str) (long skip : Bool) :
    Finset Str :=
  withAuto skip E.groupsAutoSelectShort
    (M.grp ∪ (E.tempGroups (E.shownSubgroups rt subgroups long skip)).toFinset)

theorem requireGroup_shown (hL : Legible rt E long) (hN : Nameable rt E M)
    (hs : Shows E long M req groups subgroups) (g : Str) :
    (∃ x ∈ E.shownSubgroups rt subgroups long skip, E.requireGroup x = some g) ↔
      g ∈ E.requiredBy (E.closure skip M).sub := by
  have hp : ∀ s ∈ (E.closure skip M).sub,
      E.requireGroup (E.subgroupText long s) = E.requireGroup s := by
    intro s hm
    rw [requireGroup, (hL.subgroup s (sub_closure_mem hL hN hm)).2]
    rfl
  simp only [mem_shownSubgroups hL hs, mem_requiredBy]
  constructor
  · rintro ⟨_, ⟨s, hm, rfl⟩, hr⟩
    exact ⟨s, hm, hp s hm ▸ hr⟩
  · rintro ⟨s, hm, hr⟩
    exact ⟨_, ⟨s, hm, rfl⟩, (hp s hm).trans hr⟩

theorem tempGroups_shown_subset (hL : Legible rt E long) (hN : Nameable rt E M)
    (hs : Shows E long M req groups subgroups) :
    (E.tempGroups (E.shownSubgroups rt subgroups long skip)).toFinset ⊆
      E.requiredBy (E.closure skip M).sub := by
  intro g hg
  exact (requireGroup_shown hL hN hs g).mp (tempGroups_subset _ g (List.mem_toFinset.mp hg))

variable (rt skip) in
theorem mem_shownGroups (hL : Legible rt E long) (hN : Nameable rt E M)
    (hs : Shows E long M req groups subgroups) (x : Str) :
    x ∈ E.shownGroups rt groups (E.shownSubgroups rt subgroups long skip) long skip ↔
      ∃ g ∈ shownGrp rt E M subgroups long skip, E.groupText long g = x := by
  apply mem_withAuto hL.autoGroups.1
  intro y
  have htext : ∀ g ∈ E.tempGroups (E.shownSubgroups rt subgroups long skip),
      E.tempGroupText long g = E.groupText long g := by
    intro g hg
    obtain ⟨s, hm, hr⟩ := mem_requiredBy.mp
      (tempGroups_shown_subset hL hN hs (List.mem_toFinset.mpr hg))
    exact (hL.requires s (sub_closure_mem hL hN hm) g hr).2.2
  rw [Runtime.mem_listSet, List.mem_append, hs.grp, List.mem_map]
  simp only [Finset.mem_union, List.mem_toFinset, or_and_right, exists_or]
  apply or_congr_right
  apply exists_congr
  intro g
  apply and_congr_right
  intro hg
  rw [htext g hg]

theorem shownGroups_nodup (groups subgroups : List Str) :
    (E.shownGroups rt groups subgroups long skip).Nodup := by
  have hif : ∀ (c : Prop) [Decidable c] (xs ys : List Str),
      (if c then sorted (rt.listSet xs) else rt.listSet ys).Nodup := by
    intro c _ xs ys
    split_ifs
    · exact nodup_sorted (rt.listSet_nodup xs)
    · exact rt.listSet_nodup ys
  exact hif _ _ _

variable (rt skip) in
theorem shownGrp_subset (hL : Legible rt E long) (hN : Nameable rt E M)
    (hs : Shows E long M req groups subgroups) :
    ∀ g ∈ shownGrp rt E M subgroups long skip, GroupName rt E g := by
  intro g hg
  rcases mem_of_mem_withAuto hg with hg | hg
  · rcases Finset.mem_union.mp hg with hg | hg
    · exact hN.grp g hg
    · obtain ⟨s, hm, hr⟩ := mem_requiredBy.mp (tempGroups_shown_subset hL hN hs hg)
      exact .inl (hL.requireGroup_mem (sub_closure_mem hL hN hm) hr)
  · exact .inl (hL.autoGroups.2 g hg)

end Shown

section Level

theorem foldl_max_le {f : Str → Int} {xs : List Str} {b c : Int} :
    xs.foldl (fun m r => max m (f r)) b ≤ c ↔ b ≤ c ∧ ∀ x ∈ xs, f x ≤ c := by
  induction xs generalizing b with
  | nil => simp
  | cons x xs ih =>
    rw [List.foldl_cons, ih, max_le_iff, List.forall_mem_cons, and_assoc]

theorem raisedLvl_eq {long : Bool} (hL : Legible rt E long) {M : Label} (hN : Nameable rt E M)
    {req groups subgroups : List Str} (hs : Shows E long M req groups subgroups) :
    E.raisedLvl (.idx M.lvl) req = .ok (E.raised M) := by
  have hp : ∀ r ∈ M.req, E.params (E.reqText long r) = E.params r := fun r hr =>
    (hL.required r (hN.req r hr)).2
  show Except.ok _ = Except.ok _
  congr 1
  apply eq_of_forall_ge_iff
  intro c
  rw [max_le_iff, foldl_max_le, raised, Finset.fold_max_le, max_le_iff, and_assoc]
  apply and_congr_right
  intro _
  apply and_congr_right
  intro _
  constructor
  · intro h r hr
    have := h _ ((hs.req _).mpr ⟨r, hr, rfl⟩)
    rwa [hp r hr] at this
  · intro h x hx
    obtain ⟨r, hr, rfl⟩ := (hs.req x).mp hx
    rw [hp r hr]
    exact h r hr

theorem requireLvl_mem (r : Str) : ((E.params r).requireLvl.getD 0) ∈ E.levelNumbers := by
  unfold params
  cases h : E.paramsMap.get? r with
  | none => simp [levelNumbers, nullLvl]
  | some p =>
    cases hp : p.requireLvl with
    | none => simp [hp, levelNumbers, nullLvl]
    | some n =>
      simp only [Option.getD_some, hp, levelNumbers, List.mem_append, List.mem_filterMap]
      exact .inr ⟨_, Dict.mem_of_get? h, hp⟩

/-- A label is raised to a level number that occurs. -/
theorem raised_mem {M : Label} (h : M.lvl ∈ E.levelNumbers) : E.raised M ∈ E.levelNumbers := by
  have hmax : ∀ a b : Int, a ∈ E.levelNumbers → b ∈ E.levelNumbers →
      max a b ∈ E.levelNumbers := by
    intro a b ha hb
    rcases max_choice a b with h | h <;> rwa [h]
  unfold raised
  induction M.req using Finset.induction_on with
  | empty =>
    rw [Finset.fold_empty]
    exact hmax _ _ h (by simp [levelNumbers, nullLvl])
  | insert r S hr ih =>
    rw [Finset.fold_insert hr]
    exact hmax _ _ (requireLvl_mem r) ih

theorem level_mem {c rest : Str} {n : Int} (h : E.getC12nLevelIndex rt c = .ok (.idx n, rest)) :
    n ∈ E.levelNumbers := by
  have hmap : ∀ k, E.levelsMap.get? k = some (.idx n) → n ∈ E.levelNumbers := by
    intro k hk
    simp only [levelNumbers, List.mem_append, List.mem_cons, List.mem_filterMap]
    exact .inl (.inr ⟨_, Dict.mem_of_get? hk, rfl⟩)
  have hentry : ∀ k, E.levelEntry k = .ok (.idx n) → n ∈ E.levelNumbers := by
    intro k hk
    unfold levelEntry at hk
    split at hk
    case h_1 v hv => exact hmap k (Except.ok.inj hk ▸ hv)
    case h_2 => contradiction
  obtain ⟨v, hv, he⟩ := map_eq_ok.mp h
  obtain rfl : v = .idx n := congrArg Prod.fst he
  unfold levelKey at hv
  split at hv
  case h_1 v hv' => exact hmap _ (Except.ok.inj hv ▸ hv')
  case h_2 =>
    split at hv
    case h_1 short _ => exact hentry short hv
    case h_2 =>
      split at hv
      case h_1 short _ => exact hentry short hv
      case h_2 => contradiction

end Level

/-- A label that texts are made of, with a level that occurs. -/
structure Proper (rt : Runtime) (E : Engine) (M : Label) : Prop extends Nameable rt E M where
  lvl : M.lvl ∈ E.levelNumbers

/-- The names in a label that stand for themselves do not open a `REL` marking. -/
def Tidy (E : Engine) (M : Label) : Prop := ∀ g ∈ M.grp, E.groupKeys g = none → Clean g

instance (E : Engine) (M : Label) : Decidable (Tidy E M) :=
  inferInstanceAs (Decidable (∀ g ∈ M.grp, E.groupKeys g = none → Clean g))

/-- The groups that a name in a `REL TO` marking is read as. -/
def readAs (E : Engine) (g : Str) : Finset Str :=
  if E.groupKeys g = none then
    match E.groupKeys (unnested g) with
    | some ks => ks.toFinset
    | none => {unnested g}
  else {g}

/-- What is read where these groups are shown. -/
def heard (E : Engine) (S : Finset Str) : Finset Str := S.biUnion E.readAs

/-- What a text that shows this label says. -/
def said (E : Engine) (M : Label) : Label := { M with grp := E.heard M.grp }

section Tidy

variable {long skip : Bool} {M : Label} {req groups subgroups : List Str}

theorem groupKeys_ne_none {g : Str} (h : g ∈ E.groupsMapStl.keys) : E.groupKeys g ≠ none := by
  unfold groupKeys
  split
  · simp
  · simp [h]

theorem readAs_known {g : Str} (h : E.groupKeys g ≠ none) : E.readAs g = {g} := if_neg h

theorem mem_readAs_unknown {g x : Str} (h : E.groupKeys g = none) :
    x ∈ E.readAs g ↔ (∃ ks, E.groupKeys (unnested g) = some ks ∧ x ∈ ks) ∨
      x = unnested g ∧ E.groupKeys x = none := by
  rw [readAs, if_pos h]
  cases hk : E.groupKeys (unnested g) with
  | some ks =>
    have hne : ¬ (x = unnested g ∧ E.groupKeys x = none) := by
      intro hx
      rw [hx.1, hk] at hx
      exact absurd hx.2 (by simp)
    simp [hne]
  | none =>
    simp only [Finset.mem_singleton, reduceCtorEq, false_and, exists_false, false_or]
    constructor
    · rintro rfl
      exact ⟨rfl, hk⟩
    · exact fun h => h.1

theorem mem_heard {S : Finset Str} {x : Str} : x ∈ E.heard S ↔ ∃ g ∈ S, x ∈ E.readAs g :=
  Finset.mem_biUnion

theorem heard_union (S T : Finset Str) : E.heard (S ∪ T) = E.heard S ∪ E.heard T :=
  Finset.union_biUnion

variable (rt) in
/-- Names without an inner `REL ` are read as they are. -/
theorem heard_eq_self {S : Finset Str} (hl : ∀ g ∈ S, GroupName rt E g)
    (hc : ∀ g ∈ S, E.groupKeys g = none → Clean g) : E.heard S = S := by
  have hself : ∀ g ∈ S, E.readAs g = {g} := by
    intro g hg
    by_cases hn : E.groupKeys g = none
    · rcases hl g hg with hk | ⟨-, -, hl⟩
      · exact absurd hn (groupKeys_ne_none hk)
      · ext x
        rw [mem_readAs_unknown hn, unnested_eq_self (hc g hg hn) hl.stripped, hn,
          Finset.mem_singleton]
        constructor
        · rintro (⟨_, h, -⟩ | ⟨h, -⟩)
          · contradiction
          · exact h
        · rintro rfl
          exact .inr ⟨rfl, hn⟩
    · exact readAs_known hn
  ext x
  rw [mem_heard]
  constructor
  · rintro ⟨g, hg, hx⟩
    rw [hself g hg, Finset.mem_singleton] at hx
    exact hx ▸ hg
  · intro hx
    exact ⟨x, hx, by rw [hself x hx]; simp⟩

/-- Closing a label adds no names that stand for themselves. -/
theorem mem_of_closure_unknown (hL : Legible rt E long) (hN : Nameable rt E M) {g : Str}
    (hg : g ∈ (E.closure skip M).grp) (hn : E.groupKeys g = none) : g ∈ M.grp := by
  rcases mem_of_mem_withAuto hg with hg | hg
  · rcases Finset.mem_union.mp hg with hg | hg
    · exact hg
    · obtain ⟨s, hm, hr⟩ := mem_requiredBy.mp hg
      exact absurd hn (groupKeys_ne_none (hL.requireGroup_mem (sub_closure_mem hL hN hm) hr))
  · exact absurd hn (groupKeys_ne_none (hL.autoGroups.2 g hg))

theorem tidy_closure (hL : Legible rt E long) (hN : Nameable rt E M) (hT : E.Tidy M) :
    E.Tidy (E.closure skip M) := by
  intro g hg hn
  exact hT g (mem_of_closure_unknown hL hN hg hn) hn

end Tidy

end Engine

end Howler
