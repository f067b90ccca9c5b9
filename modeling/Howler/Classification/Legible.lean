import Howler.Classification.Reading
import Howler.Classification.Render
import Mathlib.Data.Finset.Option

namespace Howler

open Python Clearance

/-- Text that may stand between two slashes. -/
structure Bare (rt : Runtime) (s : Str) : Prop where
  upper : rt.upper s = s
  slash : '/' ∉ s

theorem bare_iff {rt : Runtime} {s : Str} : Bare rt s ↔ rt.upper s = s ∧ '/' ∉ s :=
  ⟨fun h => ⟨h.upper, h.slash⟩, fun h => ⟨h.1, h.2⟩⟩

instance (rt : Runtime) (s : Str) : Decidable (Bare rt s) := decidable_of_iff _ bare_iff.symm

/-- Text that may stand between the commas of a `REL` marking. -/
structure Listable (rt : Runtime) (s : Str) : Prop extends Bare rt s where
  comma : ',' ∉ s
  stripped : Stripped s

theorem listable_iff {rt : Runtime} {s : Str} :
    Listable rt s ↔ Bare rt s ∧ ',' ∉ s ∧ Stripped s :=
  ⟨fun h => ⟨h.toBare, h.comma, h.stripped⟩, fun h => ⟨h.1, h.2.1, h.2.2⟩⟩

instance (rt : Runtime) (s : Str) : Decidable (Listable rt s) :=
  decidable_of_iff _ listable_iff.symm

/-- Text in which the words that open a `REL` marking do not occur. -/
def Clean (s : Str) : Prop := ¬ "REL ".toList <:+: s

instance (s : Str) : Decidable (Clean s) := inferInstanceAs (Decidable (¬ _))

namespace Engine

section RelMarking

variable {rt : Runtime}

/-- A name as it is read from a `REL` marking: the words that open one are taken out. -/
def unnested (x : Str) : Str :=
  strip (replace "REL ".toList [] (replace "REL TO ".toList [] x))

theorem mem_of_mem_unnested {x : Str} {c : Char} (h : c ∈ unnested x) : c ∈ x :=
  mem_of_mem_replace_nil (mem_of_mem_replace_nil (mem_of_mem_strip h))

theorem unnested_cons_space (x : Str) : unnested (' ' :: x) = unnested x := by
  rw [unnested, unnested, show "REL TO ".toList = 'R' :: "EL TO ".toList from rfl,
    replace_nil_cons_of_ne (by decide), show "REL ".toList = 'R' :: "EL ".toList from rfl,
    replace_nil_cons_of_ne (by decide), strip_cons_space]

theorem unnested_eq_self {x : Str} (hc : Clean x) (hs : Stripped x) : unnested x = x := by
  have hto : ¬ "REL TO ".toList <:+: x := fun h => hc (List.IsInfix.trans ⟨[], "TO ".toList, rfl⟩ h)
  rw [unnested, replace_nil_of_absent hto, replace_nil_of_absent hc]
  exact hs

/-- The names that are read from a `REL TO` marking. -/
theorem mem_relGroups_relTo {xs : List Str} (hne : xs ≠ []) (hl : ∀ x ∈ xs, Listable rt x)
    (y : Str) :
    y ∈ relGroups rt ("REL TO ".toList ++ join ", ".toList xs) ↔ ∃ x ∈ xs, unnested x = y := by
  have hstart : replace "REL TO ".toList [] ("REL TO ".toList ++ join ", ".toList xs) =
      replace "REL TO ".toList [] (join ", ".toList xs) :=
    replace_nil_at_start 'R' "EL TO ".toList _
  have hpieces : ∀ s : Str, ((replace "REL ".toList [] (replace "REL TO ".toList [] s)).splitOn
      ',').map strip = (s.splitOn ',').map unnested := by
    intro s
    rw [show "REL ".toList = 'R' :: "EL ".toList from rfl, splitOn_replace_nil (by decide),
      show "REL TO ".toList = 'R' :: "EL TO ".toList from rfl, splitOn_replace_nil (by decide),
      List.map_map, List.map_map]
    rfl
  have hjoin : ((join ", ".toList xs).splitOn ',').map unnested = xs.map unnested := by
    rw [splitOn_join_comma (fun x hx => (hl x hx).comma) hne]
    obtain ⟨x, xs, rfl⟩ := List.exists_cons_of_ne_nil hne
    simp [unnested_cons_space]
  simp only [relGroups, hstart, hpieces, hjoin, List.mem_flatMap, Runtime.mem_listSet,
    List.mem_map]
  constructor
  · rintro ⟨_, ⟨x, hx, rfl⟩, hy⟩
    rw [splitOn_eq_singleton fun h => (hl x hx).slash (mem_of_mem_unnested h),
      List.mem_singleton] at hy
    exact ⟨x, hx, hy.symm⟩
  · rintro ⟨x, hx, rfl⟩
    refine ⟨_, ⟨x, hx, rfl⟩, ?_⟩
    rw [splitOn_eq_singleton fun h => (hl x hx).slash (mem_of_mem_unnested h)]
    simp

/-- Whatever is read from a `REL` marking may stand in one. -/
theorem listable_of_mem_relGroups {p x : Str} (hp : Bare rt p) (h : x ∈ relGroups rt p) :
    Listable rt x := by
  simp only [relGroups, List.mem_flatMap, Runtime.mem_listSet, List.mem_map] at h
  obtain ⟨_, ⟨y, hy, rfl⟩, hx⟩ := h
  obtain ⟨hcomma, hsub⟩ := mem_splitOn hy
  have hsubset : ∀ c ∈ strip y, c ∈ p := fun c hc =>
    mem_of_mem_replace_nil (mem_of_mem_replace_nil (hsub c (mem_of_mem_strip hc)))
  rw [splitOn_eq_singleton (fun hc => hp.slash (hsubset _ hc)), List.mem_singleton] at hx
  subst hx
  refine ⟨⟨?_, fun hc => hp.slash (hsubset _ hc)⟩, fun hc => hcomma (mem_of_mem_strip hc),
    stripped_strip y⟩
  exact rt.upper_eq_self_of_subset (s := p) fun c hc => by rw [hp.upper]; exact hsubset c hc

end RelMarking

/-- The level numbers a marking can have or be raised to. -/
def levelNumbers (E : Engine) : List Int :=
  nullLvl :: E.levelsMap.filterMap (fun e => match e.2 with | .idx n => some n | .text _ => none) ++
    E.paramsMap.filterMap (·.2.requireLvl)

/-- The keys under which required tokens are looked up. -/
def requiredNames (E : Engine) : List Str :=
  E.accessReqMapLts.keys ++ E.accessReqMapStl.keys ++ E.accessReqAliases.keys

/-- Names and aliases stand for short names that exist. -/
structure Coherent (E : Engine) : Prop where
  reqName : ∀ e ∈ E.accessReqMapLts, e.2 ∈ E.accessReqMapStl.keys
  reqAlias : ∀ e ∈ E.accessReqAliases, ∀ k ∈ e.2, k ∈ E.accessReqMapStl.keys
  grpName : ∀ e ∈ E.groupsMapLts, e.2 ∈ E.groupsMapStl.keys
  grpAlias : ∀ e ∈ E.groupsAliases, ∀ k ∈ e.2, k ∈ E.groupsMapStl.keys
  subName : ∀ e ∈ E.subgroupsMapLts, e.2 ∈ E.subgroupsMapStl.keys
  subAlias : ∀ e ∈ E.subgroupsAliases, ∀ k ∈ e.2, k ∈ E.subgroupsMapStl.keys

/-- A text that stands for exactly this group outside a `REL` marking. -/
structure SolitaryText (rt : Runtime) (E : Engine) (d g : Str) : Prop extends Bare rt d where
  nonempty : d ≠ []
  notRel : ¬ IsRel d
  notReq : E.requiredKeys d = none
  group : E.subgroupKeys d = .ok ([g], [])

/-- A text that stands for exactly these groups inside a `REL` marking. -/
structure GroupText (rt : Runtime) (E : Engine) (t : Str) (gs : List Str) : Prop
    extends Listable rt t where
  clean : Clean t
  group : E.groupKeys t = some gs

/-- A text that stands for exactly this subgroup. -/
structure SubgroupText (rt : Runtime) (E : Engine) (t s : Str) : Prop extends Bare rt t where
  nonempty : t ≠ []
  notRel : ¬ IsRel t
  notReq : E.requiredKeys t = none
  subgroup : E.subgroupKeys t = .ok ([], [s])

/-- A text that stands for exactly this required token. -/
structure RequiredText (rt : Runtime) (E : Engine) (t r : Str) : Prop extends Bare rt t where
  nonempty : t ≠ []
  required : E.requiredKeys t = some [r]

/-- Every token of the definition can be read where the format shows it: in upper case, without
the characters that separate tokens, and in no other meaning. -/
structure Legible (rt : Runtime) (E : Engine) (long : Bool) : Prop where
  level : ∀ n ∈ E.levelNumbers, ∀ t ∈ (E.getC12nLevelText n long).toOption,
    Bare rt t ∧ E.levelKey t = .ok (.idx n)
  required : ∀ r ∈ E.accessReqMapStl.keys,
    RequiredText rt E (E.reqText long r) r ∧ E.params (E.reqText long r) = E.params r
  notRel : ∀ p ∈ E.requiredNames, ¬ IsRel p
  group : ∀ g ∈ E.groupsMapStl.keys,
    GroupText rt E (E.groupText long g) [g] ∧ E.params (E.groupText long g) = E.params g
  solitary : ∀ g ∈ E.groupsMapStl.keys, ∀ d ∈ (E.params g).solitaryDisplayName,
    d ≠ E.groupText long g → SolitaryText rt E d g
  solitaryGroup : ∀ e ∈ E.paramsMap, e.2.solitaryDisplayName ≠ none → E.groupKeys e.1 ≠ none
  groupAlias : long = false → ∀ e ∈ E.groupsAliases, e.2.length > 1 → GroupText rt E e.1 e.2
  subgroup : ∀ s ∈ E.subgroupsMapStl.keys,
    SubgroupText rt E (E.subgroupText long s) s ∧ E.params (E.subgroupText long s) = E.params s
  requires : ∀ s ∈ E.subgroupsMapStl.keys, ∀ g ∈ E.requireGroup s,
    g ≠ [] ∧ g ∈ E.groupsMapStl.keys ∧ E.tempGroupText long g = E.groupText long g
  autoGroups : (if long then E.groupsAutoSelect else E.groupsAutoSelectShort) =
      E.groupsAutoSelectShort.map (E.groupText long) ∧
    ∀ g ∈ E.groupsAutoSelectShort, g ∈ E.groupsMapStl.keys
  autoSubgroups : (if long then E.subgroupsAutoSelect else E.subgroupsAutoSelectShort) =
      E.subgroupsAutoSelectShort.map (E.subgroupText long) ∧
    ∀ s ∈ E.subgroupsAutoSelectShort, s ∈ E.subgroupsMapStl.keys

section Decidable

variable (rt : Runtime) (E : Engine)

theorem solitaryText_iff (d g : Str) : SolitaryText rt E d g ↔
    Bare rt d ∧ d ≠ [] ∧ ¬ IsRel d ∧ E.requiredKeys d = none ∧
      E.subgroupKeys d = .ok ([g], []) :=
  ⟨fun h => ⟨h.toBare, h.nonempty, h.notRel, h.notReq, h.group⟩,
    fun h => ⟨h.1, h.2.1, h.2.2.1, h.2.2.2.1, h.2.2.2.2⟩⟩

instance (d g : Str) : Decidable (SolitaryText rt E d g) :=
  decidable_of_iff _ (solitaryText_iff rt E d g).symm

theorem groupText_iff (t : Str) (gs : List Str) : GroupText rt E t gs ↔
    Listable rt t ∧ Clean t ∧ E.groupKeys t = some gs :=
  ⟨fun h => ⟨h.toListable, h.clean, h.group⟩, fun h => ⟨h.1, h.2.1, h.2.2⟩⟩

instance (t : Str) (gs : List Str) : Decidable (GroupText rt E t gs) :=
  decidable_of_iff _ (groupText_iff rt E t gs).symm

theorem subgroupText_iff (t s : Str) : SubgroupText rt E t s ↔
    Bare rt t ∧ t ≠ [] ∧ ¬ IsRel t ∧ E.requiredKeys t = none ∧
      E.subgroupKeys t = .ok ([], [s]) :=
  ⟨fun h => ⟨h.toBare, h.nonempty, h.notRel, h.notReq, h.subgroup⟩,
    fun h => ⟨h.1, h.2.1, h.2.2.1, h.2.2.2.1, h.2.2.2.2⟩⟩

instance (t s : Str) : Decidable (SubgroupText rt E t s) :=
  decidable_of_iff _ (subgroupText_iff rt E t s).symm

theorem requiredText_iff (t r : Str) : RequiredText rt E t r ↔
    Bare rt t ∧ t ≠ [] ∧ E.requiredKeys t = some [r] :=
  ⟨fun h => ⟨h.toBare, h.nonempty, h.required⟩, fun h => ⟨h.1, h.2.1, h.2.2⟩⟩

instance (t r : Str) : Decidable (RequiredText rt E t r) :=
  decidable_of_iff _ (requiredText_iff rt E t r).symm

instance : Decidable (Coherent E) :=
  decidable_of_iff ((∀ e ∈ E.accessReqMapLts, e.2 ∈ E.accessReqMapStl.keys) ∧
    (∀ e ∈ E.accessReqAliases, ∀ k ∈ e.2, k ∈ E.accessReqMapStl.keys) ∧
    (∀ e ∈ E.groupsMapLts, e.2 ∈ E.groupsMapStl.keys) ∧
    (∀ e ∈ E.groupsAliases, ∀ k ∈ e.2, k ∈ E.groupsMapStl.keys) ∧
    (∀ e ∈ E.subgroupsMapLts, e.2 ∈ E.subgroupsMapStl.keys) ∧
    ∀ e ∈ E.subgroupsAliases, ∀ k ∈ e.2, k ∈ E.subgroupsMapStl.keys)
    ⟨fun ⟨h1, h2, h3, h4, h5, h6⟩ => ⟨h1, h2, h3, h4, h5, h6⟩,
      fun ⟨h1, h2, h3, h4, h5, h6⟩ => ⟨h1, h2, h3, h4, h5, h6⟩⟩

instance (long : Bool) : Decidable (Legible rt E long) :=
  decidable_of_iff ((∀ n ∈ E.levelNumbers, ∀ t ∈ (E.getC12nLevelText n long).toOption,
      Bare rt t ∧ E.levelKey t = .ok (.idx n)) ∧
    (∀ r ∈ E.accessReqMapStl.keys,
      RequiredText rt E (E.reqText long r) r ∧ E.params (E.reqText long r) = E.params r) ∧
    (∀ p ∈ E.requiredNames, ¬ IsRel p) ∧
    (∀ g ∈ E.groupsMapStl.keys,
      GroupText rt E (E.groupText long g) [g] ∧ E.params (E.groupText long g) = E.params g) ∧
    (∀ g ∈ E.groupsMapStl.keys, ∀ d ∈ (E.params g).solitaryDisplayName,
      d ≠ E.groupText long g → SolitaryText rt E d g) ∧
    (∀ e ∈ E.paramsMap, e.2.solitaryDisplayName ≠ none → E.groupKeys e.1 ≠ none) ∧
    (long = false → ∀ e ∈ E.groupsAliases, e.2.length > 1 → GroupText rt E e.1 e.2) ∧
    (∀ s ∈ E.subgroupsMapStl.keys, SubgroupText rt E (E.subgroupText long s) s ∧
      E.params (E.subgroupText long s) = E.params s) ∧
    (∀ s ∈ E.subgroupsMapStl.keys, ∀ g ∈ E.requireGroup s,
      g ≠ [] ∧ g ∈ E.groupsMapStl.keys ∧ E.tempGroupText long g = E.groupText long g) ∧
    ((if long then E.groupsAutoSelect else E.groupsAutoSelectShort) =
        E.groupsAutoSelectShort.map (E.groupText long) ∧
      ∀ g ∈ E.groupsAutoSelectShort, g ∈ E.groupsMapStl.keys) ∧
    ((if long then E.subgroupsAutoSelect else E.subgroupsAutoSelectShort) =
        E.subgroupsAutoSelectShort.map (E.subgroupText long) ∧
      ∀ s ∈ E.subgroupsAutoSelectShort, s ∈ E.subgroupsMapStl.keys))
    ⟨fun ⟨h1, h2, h3, h4, h5, h6, h7, h8, h9, h10, h11⟩ =>
        ⟨h1, h2, h3, h4, h5, h6, h7, h8, h9, h10, h11⟩,
      fun ⟨h1, h2, h3, h4, h5, h6, h7, h8, h9, h10, h11⟩ =>
        ⟨h1, h2, h3, h4, h5, h6, h7, h8, h9, h10, h11⟩⟩

end Decidable

variable {rt : Runtime} {E : Engine}

theorem Coherent.mem_of_requiredKeys (hC : E.Coherent) {p r : Str} {ks : List Str}
    (h : E.requiredKeys p = some ks) (hr : r ∈ ks) : r ∈ E.accessReqMapStl.keys := by
  unfold requiredKeys at h
  split at h
  case h_1 short hs =>
    obtain rfl := Option.some.inj h
    rw [List.mem_singleton] at hr
    exact hr ▸ hC.reqName _ (Dict.mem_of_get? hs)
  case h_2 =>
    split_ifs at h with hp
    · obtain rfl := Option.some.inj h
      exact List.mem_singleton.mp hr ▸ hp
    · exact hC.reqAlias _ (Dict.mem_of_get? h) r hr

theorem Coherent.mem_of_groupKeys (hC : E.Coherent) {n g : Str} {ks : List Str}
    (h : E.groupKeys n = some ks) (hg : g ∈ ks) : g ∈ E.groupsMapStl.keys := by
  unfold groupKeys at h
  split at h
  case h_1 short hs =>
    obtain rfl := Option.some.inj h
    exact List.mem_singleton.mp hg ▸ hC.grpName _ (Dict.mem_of_get? hs)
  case h_2 =>
    split_ifs at h with hp
    · obtain rfl := Option.some.inj h
      exact List.mem_singleton.mp hg ▸ hp
    · exact hC.grpAlias _ (Dict.mem_of_get? h) g hg

theorem Coherent.mem_of_subgroupKeys (hC : E.Coherent) {p : Str} {ks : List Str × List Str}
    (h : E.subgroupKeys p = .ok ks) :
    (∀ g ∈ ks.1, g ∈ E.groupsMapStl.keys) ∧ ∀ s ∈ ks.2, s ∈ E.subgroupsMapStl.keys := by
  unfold subgroupKeys at h
  split at h
  case h_1 short hs =>
    obtain rfl := Except.ok.inj h
    simpa using hC.subName _ (Dict.mem_of_get? hs)
  case h_2 =>
    split_ifs at h with hp
    · obtain rfl := Except.ok.inj h
      simpa using hp
    · split at h
      case h_1 shorts hs =>
        obtain rfl := Except.ok.inj h
        simpa using hC.subAlias _ (Dict.mem_of_get? hs)
      case h_2 =>
        split at h <;> try contradiction
        case h_1 short hs =>
          obtain rfl := Except.ok.inj h
          simpa using hC.grpAlias _ (Dict.mem_of_get? hs)

/-- A group of the definition, or a name that stands for itself because it is unknown. -/
def GroupName (rt : Runtime) (E : Engine) (g : Str) : Prop :=
  g ∈ E.groupsMapStl.keys ∨ (E.dynamicGroups = true ∧ E.groupKeys g = none ∧ Listable rt g)

/-- What the texts that are read consist of. -/
structure Nameable (rt : Runtime) (E : Engine) (M : Label) : Prop where
  req : ∀ r ∈ M.req, r ∈ E.accessReqMapStl.keys
  grp : ∀ g ∈ M.grp, GroupName rt E g
  sub : ∀ s ∈ M.sub, s ∈ E.subgroupsMapStl.keys

theorem bare_of_mem_split {s p : Str} (h : p ∈ (rt.upper s).splitOn '/') : Bare rt p :=
  ⟨rt.upper_eq_self_of_subset (mem_splitOn h).2, (mem_splitOn h).1⟩

theorem Legible.requireGroup_mem {long : Bool} (hL : Legible rt E long) {s g : Str}
    (hs : s ∈ E.subgroupsMapStl.keys) (h : E.requireGroup s = some g) :
    g ∈ E.groupsMapStl.keys := (hL.requires s hs g h).2.1

theorem Legible.truthyRequireGroup_eq {long : Bool} (hL : Legible rt E long) {s : Str}
    (hs : s ∈ E.subgroupsMapStl.keys) : E.truthyRequireGroup s = E.requireGroup s := by
  unfold truthyRequireGroup
  cases h : E.requireGroup s with
  | none => rfl
  | some g => simp [(hL.requires s hs g h).1]

theorem nameable_of_reading {long : Bool} (hC : E.Coherent) (hL : Legible rt E long) {c : Str}
    {getDyn : Bool} {r : Reading} (h : E.reading rt c getDyn = .ok r) (n : Int) :
    Nameable rt E (r.label n) := by
  obtain ⟨rest, -, hreq, hg⟩ := reading_ok_iff.mp h
  obtain ⟨hF, -⟩ := found_of_groupSets hg
  have hsub : ∀ s ∈ r.sub, s ∈ E.subgroupsMapStl.keys := by
    intro s hs
    obtain ⟨p, -, -, ks, hk, hm⟩ := (hF.sub s).mp hs
    exact (hC.mem_of_subgroupKeys hk).2 s hm
  refine ⟨?_, ?_, fun s hs => hsub s (List.mem_toFinset.mp hs)⟩
  · intro x hx
    obtain ⟨p, -, -, ks, hk, hm⟩ := mem_requiredSets_fst.mp (hreq ▸ List.mem_toFinset.mp hx)
    exact hC.mem_of_requiredKeys hk hm
  · intro g hg
    rcases (hF.grp g).mp (List.mem_toFinset.mp hg) with ⟨p, hp, hpg⟩ | ⟨s, hs, hreq⟩
    · rcases hpg with ⟨-, n, -, ks, hk, hm⟩ | ⟨-, ks, hk, hm⟩ | ⟨hd, -, hm, hk⟩
      · exact .inl (hC.mem_of_groupKeys hk hm)
      · exact .inl ((hC.mem_of_subgroupKeys hk).1 g hm)
      · have hbare := bare_of_mem_split (mem_requiredSets_snd.mp hp).1
        exact .inr ⟨(Bool.and_eq_true_iff.mp hd).1, hk, listable_of_mem_relGroups hbare hm⟩
    · rw [hL.truthyRequireGroup_eq (hsub s hs)] at hreq
      exact .inl (hL.requireGroup_mem (hsub s hs) hreq)

/-- A reading holds the groups its subgroups require, and keeps their limits. -/
theorem reading_closed {long : Bool} (hC : E.Coherent) (hL : Legible rt E long) {c : Str}
    {getDyn : Bool} {r : Reading} (h : E.reading rt c getDyn = .ok r) :
    (∀ s ∈ r.sub, ∀ g, E.requireGroup s = some g → g ∈ r.grp) ∧ E.LimitsKept r.grp r.sub := by
  have hN := nameable_of_reading hC hL h 0
  obtain ⟨rest, -, hreq, hg⟩ := reading_ok_iff.mp h
  obtain ⟨hF, hlim⟩ := found_of_groupSets hg
  refine ⟨fun s hs g hr => (hF.grp g).mpr (.inr ⟨s, hs, ?_⟩), hlim⟩
  rw [hL.truthyRequireGroup_eq (hN.sub s (List.mem_toFinset.mpr hs)), hr]

theorem Legible.reqText_inj {long : Bool} (hL : Legible rt E long) {r r' : Str}
    (hr : r ∈ E.accessReqMapStl.keys) (hr' : r' ∈ E.accessReqMapStl.keys)
    (h : E.reqText long r = E.reqText long r') : r = r' := by
  have h1 := (hL.required r hr).1.required
  have h2 := (hL.required r' hr').1.required
  rw [h, h2] at h1
  simpa using h1.symm

theorem Legible.subgroupText_inj {long : Bool} (hL : Legible rt E long) {s s' : Str}
    (hs : s ∈ E.subgroupsMapStl.keys) (hs' : s' ∈ E.subgroupsMapStl.keys)
    (h : E.subgroupText long s = E.subgroupText long s') : s = s' := by
  have h1 := (hL.subgroup s hs).1.subgroup
  have h2 := (hL.subgroup s' hs').1.subgroup
  rw [h, h2] at h1
  simpa using h1.symm

/-- A name that stands for itself is shown as it is. -/
theorem groupText_of_unknown {g : Str} (long : Bool) (h : E.groupKeys g = none) :
    E.groupText long g = g := by
  cases long with
  | false => rfl
  | true =>
    have hg : E.groupsMapStl.get? g = none := by
      rw [Dict.get?_eq_none_iff]
      intro hm
      unfold groupKeys at h
      split at h
      · contradiction
      · rw [if_pos hm] at h
        contradiction
    simp [groupText, hg]

theorem Legible.groupText_inj {long : Bool} (hL : Legible rt E long) {g g' : Str}
    (hg : GroupName rt E g) (hg' : GroupName rt E g')
    (h : E.groupText long g = E.groupText long g') : g = g' := by
  rcases hg with hg | ⟨-, hg, -⟩ <;> rcases hg' with hg' | ⟨-, hg', -⟩
  · have h1 := (hL.group g hg).1.group
    have h2 := (hL.group g' hg').1.group
    rw [h, h2] at h1
    simpa using h1.symm
  · have h1 := (hL.group g hg).1.group
    rw [h, groupText_of_unknown long hg', hg'] at h1
    contradiction
  · have h1 := (hL.group g' hg').1.group
    rw [← h, groupText_of_unknown long hg, hg] at h1
    contradiction
  · rwa [groupText_of_unknown long hg, groupText_of_unknown long hg'] at h

section Reorder

variable {rt' : Runtime} (h : rt'.upperChar = rt.upperChar)

include h

theorem Bare.congr {s : Str} (hb : Bare rt s) : Bare rt' s :=
  ⟨by rw [Runtime.upper, h]; exact hb.upper, hb.slash⟩

theorem Listable.congr {s : Str} (hl : Listable rt s) : Listable rt' s :=
  ⟨Bare.congr h hl.toBare, hl.comma, hl.stripped⟩

/-- Whether a definition can be read does not depend on the order sets iterate in. -/
theorem Legible.congr {long : Bool} (hL : Legible rt E long) : Legible rt' E long where
  level n hn t ht := ⟨Bare.congr h (hL.level n hn t ht).1, (hL.level n hn t ht).2⟩
  required r hr :=
    have ht := (hL.required r hr).1
    ⟨⟨Bare.congr h ht.toBare, ht.nonempty, ht.required⟩, (hL.required r hr).2⟩
  notRel := hL.notRel
  group g hg :=
    have ht := (hL.group g hg).1
    ⟨⟨Listable.congr h ht.toListable, ht.clean, ht.group⟩, (hL.group g hg).2⟩
  solitary g hg d hd hne :=
    have ht := hL.solitary g hg d hd hne
    ⟨Bare.congr h ht.toBare, ht.nonempty, ht.notRel, ht.notReq, ht.group⟩
  solitaryGroup := hL.solitaryGroup
  groupAlias hlong e he hlen :=
    have ht := hL.groupAlias hlong e he hlen
    ⟨Listable.congr h ht.toListable, ht.clean, ht.group⟩
  subgroup s hs :=
    have ht := (hL.subgroup s hs).1
    ⟨⟨Bare.congr h ht.toBare, ht.nonempty, ht.notRel, ht.notReq, ht.subgroup⟩,
      (hL.subgroup s hs).2⟩
  requires := hL.requires
  autoGroups := hL.autoGroups
  autoSubgroups := hL.autoSubgroups

theorem Nameable.congr {M : Label} (hN : Nameable rt E M) : Nameable rt' E M := by
  refine ⟨hN.req, fun g hg => ?_, hN.sub⟩
  rcases hN.grp g hg with hk | ⟨hd, hk, hl⟩
  · exact .inl hk
  · exact .inr ⟨hd, hk, Listable.congr h hl⟩

end Reorder

end Engine

end Howler
