import Howler.Classification.Closure

namespace Howler

open Python Clearance

namespace Engine

variable {rt : Runtime} {E : Engine}

section GroupMark

variable {long : Bool}

theorem isRel_relTo (s : Str) : IsRel ("REL TO ".toList ++ s) := ⟨"TO ".toList ++ s, rfl⟩

theorem requiredNames_of_requiredKeys {p : Str} (h : E.requiredKeys p ≠ none) :
    p ∈ E.requiredNames := by
  unfold requiredKeys at h
  simp only [requiredNames, List.mem_append]
  split at h
  case h_1 short hs => exact .inl (.inl ((Dict.mem_keys_iff _ _).mpr ⟨short, hs⟩))
  case h_2 =>
    split_ifs at h with hp
    · exact .inl (.inr hp)
    · obtain ⟨ks, hk⟩ := Option.ne_none_iff_exists'.mp h
      exact .inr ((Dict.mem_keys_iff _ _).mpr ⟨ks, hk⟩)

theorem Legible.requiredKeys_isRel (hL : Legible rt E long) {p : Str} (h : IsRel p) :
    E.requiredKeys p = none := by
  by_contra hn
  exact hL.notRel p (requiredNames_of_requiredKeys hn) h

/-- A piece that the parser takes for exactly these groups. -/
structure MarksGroups (rt : Runtime) (E : Engine) (p : Str) (S : Finset Str) : Prop
    extends Bare rt p where
  nonempty : p ≠ []
  notReq : E.requiredKeys p = none
  known : ¬ IsRel p → ∃ ks, E.subgroupKeys p = .ok ks
  group : ∀ g, PartGroup rt E (E.dynamicGroups && true) p g ↔ g ∈ S
  noSub : ∀ s, ¬ E.PartSub p s
  noOther : ∀ x, ¬ PartOther rt E (E.dynamicGroups && true) p x

theorem bare_relTo {xs : List Str} (hl : ∀ x ∈ xs, Listable rt x) :
    Bare rt ("REL TO ".toList ++ join ", ".toList xs) := by
  constructor
  · rw [rt.upper_append, rt.upper_join, rt.upper_ascii (s := "REL TO ".toList) rfl,
      rt.upper_ascii (s := ", ".toList) rfl]
    congr 2
    exact (List.map_congr_left fun x hx => (hl x hx).upper).trans (List.map_id xs)
  · intro h
    rcases List.mem_append.mp h with h | h
    · exact absurd h (by decide)
    · rcases mem_join h with h | ⟨x, hx, h⟩
      · exact absurd h (by decide)
      · exact (hl x hx).slash h

/-- A `REL TO` marking marks the groups its names are read as. -/
theorem marksGroups_relTo (hL : Legible rt E long) {xs : List Str} {S : Finset Str} (hne : xs ≠ [])
    (hl : ∀ x ∈ xs, Listable rt x)
    (hk : ∀ x ∈ xs, E.groupKeys (unnested x) = none → E.dynamicGroups = true)
    (hS : ∀ g, g ∈ S ↔ ∃ x ∈ xs, (∃ ks, E.groupKeys (unnested x) = some ks ∧ g ∈ ks) ∨
      g = unnested x ∧ E.groupKeys g = none) :
    MarksGroups rt E ("REL TO ".toList ++ join ", ".toList xs) S := by
  have hrel := isRel_relTo (join ", ".toList xs)
  have hm := mem_relGroups_relTo hne hl
  refine ⟨bare_relTo hl, by simp, hL.requiredKeys_isRel hrel, fun h => absurd hrel h, ?_,
    fun s h => h.1 hrel, ?_⟩
  · intro g
    simp only [PartGroup, hrel, hm, true_and, not_true, false_and, false_or, hS, Bool.and_true]
    constructor
    · rintro (⟨n, ⟨x, hx, rfl⟩, h⟩ | ⟨-, ⟨x, hx, rfl⟩, hn⟩)
      · exact ⟨x, hx, .inl h⟩
      · exact ⟨x, hx, .inr ⟨rfl, hn⟩⟩
    · rintro ⟨x, hx, h | ⟨rfl, hn⟩⟩
      · exact .inl ⟨_, ⟨x, hx, rfl⟩, h⟩
      · exact .inr ⟨hk x hx hn, ⟨x, hx, rfl⟩, hn⟩
  · rintro y ⟨hd, -, hy, hn⟩
    obtain ⟨x, hx, rfl⟩ := (hm y).mp hy
    rw [Bool.and_true, hk x hx hn] at hd
    contradiction

theorem marksGroups_solitary {d g : Str} (h : SolitaryText rt E d g) : MarksGroups rt E d {g} := by
  refine ⟨h.toBare, h.nonempty, h.notReq, fun _ => ⟨_, h.group⟩, ?_, ?_, ?_⟩
  · intro x
    simp [PartGroup, h.notRel, h.group]
  · rintro s ⟨-, ks, hk, hs⟩
    rw [h.group] at hk
    obtain rfl := Except.ok.inj hk
    simp at hs
  · rintro x ⟨-, hr, -⟩
    exact h.notRel hr

/-- The text of a group name in a `REL TO` marking. -/
theorem groupText_read (hL : Legible rt E long) {g : Str} (hg : GroupName rt E g) :
    Listable rt (E.groupText long g) ∧
      (E.groupKeys (unnested (E.groupText long g)) = none → E.dynamicGroups = true) ∧
      ∀ x, x ∈ E.readAs g ↔
        (∃ ks, E.groupKeys (unnested (E.groupText long g)) = some ks ∧ x ∈ ks) ∨
          x = unnested (E.groupText long g) ∧ E.groupKeys x = none := by
  rcases hg with hg | ⟨hd, hn, hl⟩
  · have ht := (hL.group g hg).1
    rw [unnested_eq_self ht.clean ht.stripped, ht.group, readAs_known (groupKeys_ne_none hg)]
    refine ⟨ht.toListable, by simp, fun x => ?_⟩
    constructor
    · intro hx
      exact .inl ⟨[g], rfl, by simpa using hx⟩
    · rintro (⟨ks, hk, hx⟩ | ⟨rfl, hn⟩)
      · obtain rfl := Option.some.inj hk
        simpa using hx
      · rw [ht.group] at hn
        contradiction
  · rw [groupText_of_unknown long hn]
    exact ⟨hl, fun _ => hd, fun x => mem_readAs_unknown hn⟩

/-- The texts of groups, put into a `REL TO` marking. -/
theorem marksGroups_texts (hL : Legible rt E long) {xs : List Str} {S : Finset Str} (hne : xs ≠ [])
    (hmem : ∀ x, x ∈ xs ↔ ∃ g ∈ S, E.groupText long g = x) (hname : ∀ g ∈ S, GroupName rt E g) :
    MarksGroups rt E ("REL TO ".toList ++ join ", ".toList xs) (E.heard S) := by
  have hread := fun g hg => groupText_read hL (hname g hg)
  apply marksGroups_relTo hL hne
  · intro x hx
    obtain ⟨g, hg, rfl⟩ := (hmem x).mp hx
    exact (hread g hg).1
  · intro x hx
    obtain ⟨g, hg, rfl⟩ := (hmem x).mp hx
    exact (hread g hg).2.1
  · intro y
    rw [mem_heard]
    constructor
    · rintro ⟨g, hg, hy⟩
      exact ⟨_, (hmem _).mpr ⟨g, hg, rfl⟩, ((hread g hg).2.2 y).mp hy⟩
    · rintro ⟨x, hx, hy⟩
      obtain ⟨g, hg, rfl⟩ := (hmem x).mp hx
      exact ⟨g, hg, ((hread g hg).2.2 y).mpr hy⟩

/-- The loop over the aliases keeps the groups, or replaces them by one alias for all. -/
theorem aliasGroups_cases (groups : List Str) :
    (E.aliasGroups groups = groups ∧
        ∀ e ∈ E.groupsAliases, e.2.length > 1 → sorted e.2 ≠ groups) ∨
      ∃ e ∈ E.groupsAliases, e.2.length > 1 ∧ sorted e.2 = groups ∧
        E.aliasGroups groups = [e.1] := by
  have hlen : ∀ xs : List Str, (sorted xs).length = xs.length := fun xs =>
    (List.perm_insertionSort _ xs).length_eq
  unfold aliasGroups
  generalize E.groupsAliases = aliases
  induction aliases using List.reverseRecOn with
  | nil => exact .inl ⟨rfl, by simp⟩
  | append_singleton aliases e ih =>
    rw [List.foldl_append, List.foldl_cons, List.foldl_nil]
    rcases ih with ⟨ih, hno⟩ | ⟨a, ha, hl, hs, hr⟩
    · rw [ih]
      split_ifs with h
      · exact .inr ⟨e, by simp, h.1, h.2, rfl⟩
      · refine .inl ⟨rfl, fun x hx hl hs => ?_⟩
        rcases List.mem_append.mp hx with hx | hx
        · exact hno x hx hl hs
        · rw [List.mem_singleton.mp hx] at hl hs
          exact h ⟨hl, hs⟩
    · rw [hr]
      split_ifs with h
      · have h2 := congrArg List.length h.2
        rw [hlen, List.length_singleton] at h2
        exact absurd h.1 (by omega)
      · exact .inr ⟨a, List.mem_append_left _ ha, hl, hs, rfl⟩

theorem solitaryDisplayName_of_unknown (hL : Legible rt E long) {g : Str}
    (h : E.groupKeys g = none) : (E.params g).solitaryDisplayName = none := by
  unfold params
  cases hp : E.paramsMap.get? g with
  | none => rfl
  | some p =>
    by_contra hn
    exact hL.solitaryGroup _ (Dict.mem_of_get? hp) hn h

/-- The group mark marks what the groups it shows are read as, in both formats. -/
theorem marksGroups_groupMark (hC : E.Coherent) (hL : Legible rt E long) {xs : List Str} {S : Finset Str}
    (hne : xs ≠ []) (hnd : xs.Nodup) (hmem : ∀ x, x ∈ xs ↔ ∃ g ∈ S, E.groupText long g = x)
    (hname : ∀ g ∈ S, GroupName rt E g) :
    MarksGroups rt E (E.groupMark xs long) (E.heard S) := by
  have hsorted : MarksGroups rt E ("REL TO ".toList ++ join ", ".toList (sorted xs)) (E.heard S) :=
    marksGroups_texts hL (sorted_ne_nil.mpr hne) (fun x => mem_sorted.trans (hmem x)) hname
  rcases xs with - | ⟨x, - | ⟨y, ys⟩⟩
  · contradiction
  · obtain ⟨g, hg, hx⟩ := (hmem x).mp (by simp)
    have hS : S = {g} := by
      apply Finset.eq_singleton_iff_unique_mem.mpr
      refine ⟨hg, fun g' hg' => hL.groupText_inj (hname g' hg') (hname g hg) ?_⟩
      rw [hx]
      exact List.mem_singleton.mp ((hmem _).mpr ⟨g', hg', rfl⟩)
    have hrel : MarksGroups rt E ("REL TO ".toList ++ x) (E.heard S) := by
      rwa [show sorted [x] = [x] from rfl, join_singleton] at hsorted
    show MarksGroups rt E (if (E.params x).solitaryDisplayName.getD x ≠ x
      then (E.params x).solitaryDisplayName.getD x else "REL TO ".toList ++ x) (E.heard S)
    split_ifs with hd
    · rcases hname g hg with hk | ⟨-, hn, -⟩
      · have hp : E.params x = E.params g := hx ▸ (hL.group g hk).2
        rw [hp] at hd ⊢
        cases hsol : (E.params g).solitaryDisplayName with
        | none => simp [hsol] at hd
        | some d =>
          rw [hsol] at hd
          have hself : E.heard {g} = {g} := by
            rw [heard, Finset.singleton_biUnion, readAs_known (groupKeys_ne_none hk)]
          rw [hS, hself]
          exact marksGroups_solitary (hL.solitary g hk d hsol (hx.symm ▸ hd))
      · rw [groupText_of_unknown long hn] at hx
        rw [← hx, solitaryDisplayName_of_unknown hL hn] at hd
        simp at hd
    · exact hrel
  · show MarksGroups rt E ("REL TO ".toList ++ join ", ".toList
      (sorted (if long then x :: y :: ys else E.aliasGroups (x :: y :: ys)))) (E.heard S)
    cases long with
    | true => exact hsorted
    | false =>
      rcases aliasGroups_cases (E := E) (x :: y :: ys) with ⟨h, -⟩ | ⟨e, he, hl, hs, h⟩
      · rwa [h]
      · rw [h]
        have ht := hL.groupAlias rfl e he hl
        have hS : ∀ g, g ∈ S ↔ g ∈ e.2 := by
          intro g
          have hsorted : g ∈ sorted e.2 ↔ g ∈ e.2 := mem_sorted
          rw [← hsorted, hs, hmem]
          simp [groupText]
        have hself : E.heard S = S := by
          refine heard_eq_self rt hname fun g hg hn => ?_
          exact absurd hn (groupKeys_ne_none (hC.grpAlias e he g ((hS g).mp hg)))
        rw [hself]
        show MarksGroups rt E ("REL TO ".toList ++ join ", ".toList [e.1]) S
        have hread : E.groupKeys (unnested e.1) = some e.2 := by
          rw [unnested_eq_self ht.clean ht.stripped, ht.group]
        refine marksGroups_relTo hL (List.cons_ne_nil e.1 []) ?_ ?_ ?_
        · simpa using ht.toListable
        · simp [hread]
        · intro g
          rw [hS g]
          constructor
          · intro h
            exact ⟨e.1, by simp, .inl ⟨e.2, hread, h⟩⟩
          · rintro ⟨a, ha, ⟨ks, hk, hm⟩ | ⟨h, hn⟩⟩
            · rw [List.mem_singleton.mp ha, hread] at hk
              exact Option.some.inj hk ▸ hm
            · rw [h, List.mem_singleton.mp ha, hread] at hn
              contradiction

end GroupMark

end Engine

end Howler
